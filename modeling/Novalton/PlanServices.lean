/-
`advance` and `resolve` over the rows of a whole workflow run, one request at a time:
every step with its status and failure code, the agent run linked to it, its challenge
and the hand-off stored for it (`modules/orchestrator/service.py`,
`modules/orchestrator/challenge_service.py`, `modules/workflows/service.py`).

What several requests do to one another is the subject of other modules; here every await
ends well, and a request is a program over the database it finds.
-/
import Novalton.Specializations
import Novalton.StepServices
import Novalton.Workflow

namespace Novalton.PlanServices

open Prog Contracts Workflow Specializations

/-! ## Results -/

/-- A validated result with its role: that of a trusted specialization, or of an agent
without one. The challenge of a `QAWorkerResult` is among its own fields. -/
inductive RoleResult where
  | generic (status : AgentResultStatus) (challenge : ChallengeLevel)
  | manager (challenge : ChallengeLevel) (result : DeveloperManagerResult)
  | developer (challenge : ChallengeLevel) (result : DeveloperWorkerResult)
  | qa (result : QAWorkerResult)
deriving DecidableEq, Repr

/-- The `specialization_role`. -/
def RoleResult.role : RoleResult → Option SpecializationRole
  | .generic _ _ => .none
  | .manager _ _ => .some .developerManager
  | .developer _ _ => .some .developerWorker
  | .qa _ => .some .qaWorker

/-- The result as the gates read it. -/
def RoleResult.gated : RoleResult → AgentResult
  | .generic status challenge => ⟨status, challenge, .none⟩
  | .manager challenge result => ⟨result.status, challenge, .none⟩
  | .developer challenge result => ⟨result.status, challenge, .none⟩
  | .qa result => ⟨result.status, result.challenge, .some result.verdict⟩

/-- The same result with challenge NONE. -/
def RoleResult.unchallenged : RoleResult → RoleResult
  | .generic status _ => .generic status .none
  | .manager _ result => .manager .none result
  | .developer _ result => .developer .none result
  | .qa result => .qa { result with challenge := .none }

/-- What `persist_next_handoff` makes of the result. -/
def RoleResult.specialized : RoleResult → Option SpecializedResult
  | .generic _ _ => .none
  | .manager _ result => .some (.manager result)
  | .developer _ result => .some (.developer result)
  | .qa result => .some (.qa result)

/-! ## Rows -/

/-- The agent run linked to a step. -/
structure AgentRun where
  id : ℕ
  status : AgentRunStatus
deriving DecidableEq, Repr

/-- An `AgentChallengeResolution` with its decision and the reason. -/
structure AgentChallengeResolution where
  agentRunId : ℕ
  challengeLevel : ChallengeLevel
  resultStatus : AgentResultStatus
  specializationRole : Option SpecializationRole
  qaVerdict : Option QAVerdict
  decision : Option ChallengeResolutionRequest
deriving DecidableEq, Repr

/-- `_failure_after_acceptance`. -/
def AgentChallengeResolution.failure (resolution : AgentChallengeResolution) : Option Text :=
  failureAfterAcceptance ⟨resolution.challengeLevel, resolution.resultStatus,
    resolution.specializationRole, resolution.qaVerdict, resolution.decision⟩

/-- The rows of a workflow run. A hand-off is kept by the step it is for. -/
structure PlanDb (n : ℕ) where
  run : WorkflowRunStatus
  runFailure : Option Text
  step : Fin n → WorkflowStepRunStatus
  stepFailure : Fin n → Option Text
  agentRun : Fin n → Option AgentRun
  challenge : Fin n → Option AgentChallengeResolution
  handoff : Fin n → Option WorkflowStepHandoff

section
variable {n : ℕ} (plan : Plan n)

/-- The update of `transition_step_run`: a step that ends gets the failure code. -/
def PlanDb.moveStep (db : PlanDb n) (k : Fin n) (target : WorkflowStepRunStatus)
    (code : Option Text) : PlanDb n :=
  { db with
    step := Function.update db.step k target
    stepFailure := if target.terminal then Function.update db.stepFailure k code
      else db.stepFailure }

/-- The update of `transition_run`: a run that ends gets the failure code. -/
def PlanDb.moveRun (db : PlanDb n) (target : WorkflowRunStatus) (code : Option Text) : PlanDb n :=
  { db with run := target, runFailure := if target.terminal then code else db.runFailure }

/-- The loop over `pending_dependents` of a completed step: those whose
`incomplete_dependency_count` is zero become READY. -/
def PlanDb.readied (db : PlanDb n) (k : Fin n) : PlanDb n :=
  { db with
    step := fun d =>
      if db.step d = .pending ∧ k ∈ plan.dependsOn d ∧
        (∀ p ∈ plan.dependsOn d, db.step p = .completed) then .ready
      else db.step d }

def PlanDb.setChallenge (db : PlanDb n) (k : Fin n) (resolution : AgentChallengeResolution) :
    PlanDb n :=
  { db with challenge := Function.update db.challenge k (.some resolution) }

/-- As many steps are COMPLETED as the run has. -/
def PlanDb.allCompleted (db : PlanDb n) : Bool := plan.order.all fun k => db.step k = .completed

/-- The rows `create_run` stores. -/
def createRun : PlanDb n where
  run := .created
  runFailure := .none
  step k := if plan.dependsOn k = [] then .ready else .pending
  stepFailure _ := .none
  agentRun _ := .none
  challenge _ := .none
  handoff _ := .none

/-! ## modules/workflows/service.py -/

/-- `transition_step`. -/
def transitionStep (k : Fin n) (expected target : WorkflowStepRunStatus) (code : Option Text) :
    Prog (PlanDb n) Unit := do
  let db ← read
  if !stepTransitionAllowed expected target then raise invalidStepTransition
  else if target = .failed && !code.any failureCodeValid then raise invalidStepFailure
  else if db.step k != expected then raise invalidStepTransition
  else do
    write fun db => if target = .completed then (db.moveStep k target code).readied plan k
      else db.moveStep k target code
    commit .ok

/-- `_transition_run`. -/
def transitionRun (expected target : WorkflowRunStatus) (code : Option Text) :
    Prog (PlanDb n) Unit := do
  let db ← read
  if db.run != expected then raise invalidRunTransition
  else do
    write (·.moveRun target code)
    commit .ok

/-- `fail_run`. -/
def failRun (code : Text) : Prog (PlanDb n) Unit :=
  if failureCodeValid code then transitionRun .running .failed (.some code)
    else raise invalidRunFailure

/-- `complete_run`. -/
def completeRun : Prog (PlanDb n) Unit := transitionRun .running .completed .none

/-- `link_agent_run`. -/
def linkAgentRun (k : Fin n) (agentRun : AgentRun) : Prog (PlanDb n) Unit := do
  let db ← read
  if (db.agentRun k).isSome then raise agentLinkConflict
  else do
    write fun db => { db with agentRun := Function.update db.agentRun k (.some agentRun) }
    commit .ok

/-! ## modules/orchestrator/service.py -/

inductive OrchestrationOutcome where
  | stepCompleted | workflowCompleted | workflowFailed | cancelled | waitingForHuman
  | noRunnableStep
deriving DecidableEq, Repr

/-- What the execution of the claimed step delivers: its agent run, its result, and the
id of the hand-off it may store. -/
structure Execution where
  agentRunId : ℕ
  handoffId : Uuid
  result : RoleResult
deriving DecidableEq, Repr

def Execution.executed (execution : Execution) : Executed :=
  Executed.ofResult execution.result.gated

def Execution.unchallenged (execution : Execution) : Execution :=
  { execution with result := execution.result.unchallenged }

/-- The agent run linked to the step. -/
def Execution.agentRun (execution : Execution) : AgentRun :=
  ⟨execution.agentRunId, execution.executed.status⟩

/-- `_fail`. -/
def failStep (k : Fin n) (code : Text) : Prog (PlanDb n) OrchestrationOutcome := do
  transitionStep plan k .running .failed (.some code)
  failRun code
  return .workflowFailed

/-- The step after `k`, for which a hand-off is stored. -/
def nextStep (k : Fin n) : Option (Fin n) := (plan.order.dropWhile (· ≠ k)).tail.head?

/-- `persist_next_handoff`, to the rows with the hand-off. A second hand-off for a step is
refused by the database. -/
def PlanDb.withHandoff (db : PlanDb n) (run : WorkflowRun) (k : Fin n) (execution : Execution) :
    Except Exn (PlanDb n) :=
  match nextStep plan k, execution.result.specialized with
  | .some destination, .some result =>
    match Specializations.persistNextHandoff run execution.handoffId (db.handoff k) result with
    | .ok (.some handoff) =>
      if (db.handoff destination).isSome then .error .other
      else .ok { db with handoff := Function.update db.handoff destination (.some handoff) }
    | .ok .none => .ok db
    | .error e => .error e
  | _, _ => .ok db

/-- `persist_next_handoff` where the branch asks for it, with its `except` clause, then
the rest of the branch. -/
def handoffThen (run : WorkflowRun) (k : Fin n) (execution : Execution) (wanted : Bool)
    (rest : Prog (PlanDb n) OrchestrationOutcome) : Prog (PlanDb n) OrchestrationOutcome :=
  if wanted then
    tryReturn
      (do
        let db ← read
        let stored ← ofExcept (db.withHandoff plan run k execution)
        write fun _ => stored)
      (fun
        | .application code => .some (failStep plan k code)
        | _ => .none)
      (fun _ => rest)
  else rest

/-- The challenge record of a result. -/
def pendingResolution (execution : Execution) : AgentChallengeResolution where
  agentRunId := execution.agentRunId
  challengeLevel := execution.result.gated.challenge
  resultStatus := execution.result.gated.status
  specializationRole := execution.result.role
  qaVerdict := execution.result.gated.verdict
  decision := .none

/-- The challenge branch: `create_pending` and the commit. -/
def challengeStep (k : Fin n) (execution : Execution) : Prog (PlanDb n) OrchestrationOutcome := do
  let db ← read
  if (db.challenge k).isSome then raise .other
  else do
    write (·.setChallenge k (pendingResolution execution))
    commit .ok
    return .waitingForHuman

/-- The completion branch. -/
def completeStep (k : Fin n) : Prog (PlanDb n) OrchestrationOutcome := do
  transitionStep plan k .running .completed .none
  let db ← read
  if db.allCompleted plan then do
    completeRun
    return .workflowCompleted
  else return .stepCompleted

/-- What follows the execution of the claimed step. -/
def conclude (run : WorkflowRun) (k : Fin n) (execution : Execution) :
    Prog (PlanDb n) OrchestrationOutcome :=
  match advanceGate execution.result.role execution.executed with
  | .waitForApproval => do
    transitionStep plan k .running .waitingForApproval .none
    return .waitingForHuman
  | .fail code => failStep plan k code
  | .challenge _ handoff => handoffThen plan run k execution handoff (challengeStep k execution)
  | .complete handoff => handoffThen plan run k execution handoff (completeStep plan k)

/-- `_ensure_running`. -/
def ensureRunning : Prog (PlanDb n) Unit := do
  let db ← read
  if db.run = .created then transitionRun .created .running .none else pure ()

/-- `advance` on the first READY step. -/
def advanceStep (run : WorkflowRun) (k : Fin n) (execution : Execution) :
    Prog (PlanDb n) OrchestrationOutcome :=
  if plan.stepType k = .agentTask ∧ plan.assigned k = true then do
    ensureRunning
    transitionStep plan k .ready .running .none
    linkAgentRun k execution.agentRun
    conclude plan run k execution
  else do
    ensureRunning
    return .waitingForHuman

/-- `advance`, where the step it selects, if any, is executed as `execution` says. -/
def advance (run : WorkflowRun) (execution : Execution) : Prog (PlanDb n) OrchestrationOutcome := do
  let db ← read
  match db.run with
  | .cancelled => return .cancelled
  | .completed => return .workflowCompleted
  | .failed => return .workflowFailed
  | .created | .running =>
    if db.allCompleted plan && !plan.order.isEmpty then do
      completeRun
      return .workflowCompleted
    else
      match plan.order.find? fun k => db.step k = .ready with
      | .some k => advanceStep plan run k execution
      | .none => return if plan.order.any fun k => db.step k = .running then .waitingForHuman
          else .noRunnableStep

/-! ## modules/orchestrator/challenge_service.py -/

def resolutionConflict : Exn := .application "challenge_resolution_conflict".toList

/-- `_transition_failed`. -/
def transitionFailed (k : Fin n) (code : Text) : Prog (PlanDb n) OrchestrationOutcome := do
  let db ← read
  if db.step k = .running ∧ db.run = .running then do
    write fun db => (db.moveStep k .failed (.some code)).moveRun .failed (.some code)
    return .workflowFailed
  else raise resolutionConflict

/-- `_transition_accepted`. -/
def transitionAccepted (k : Fin n) (resolution : AgentChallengeResolution) :
    Prog (PlanDb n) OrchestrationOutcome :=
  match resolution.failure with
  | .some code => transitionFailed k code
  | .none => do
    let db ← read
    if db.step k = .running then do
      write fun db => (db.moveStep k .completed .none).readied plan k
      let db ← read
      if !db.allCompleted plan then return .stepCompleted
      else if db.run = .running then do
        write (·.moveRun .completed .none)
        return .workflowCompleted
      else raise resolutionConflict
    else raise resolutionConflict

/-- The checks of `resolve` on the run, the step, its agent run and the other steps. -/
def activeWaitingStep (db : PlanDb n) (k : Fin n) (resolution : AgentChallengeResolution) : Bool :=
  db.run = .running && db.step k = .running &&
    db.agentRun k = .some ⟨resolution.agentRunId, .succeeded⟩ &&
    plan.order.all fun p => p = k || db.step p ≠ .running

/-- `resolve`. An exception rolls the session back. -/
def resolve (k : Fin n) (data : ChallengeResolutionRequest) (policy : PolicyEffect) :
    Prog (PlanDb n) OrchestrationOutcome := do
  let db ← read
  match db.challenge k with
  | .none => raise (.application "resource_not_found".toList)
  | .some resolution =>
    match resolution.decision with
    | .some decided =>
      if decided ≠ data then raise resolutionConflict
      else return match db.run with
        | .completed => .workflowCompleted
        | .failed => .workflowFailed
        | _ => .stepCompleted
    | .none =>
      if resolution.challengeLevel = .blockRecommended ∧ data.decision = .acceptResult then
        raise resolutionConflict
      else if !activeWaitingStep plan db k resolution then raise resolutionConflict
      else if policy = .block then raise (.application "challenge_resolution_policy_blocked".toList)
      else do
        write (·.setChallenge k { resolution with decision := .some data })
        let outcome ← match data.decision with
          | .rejectResult => transitionFailed k "agent_challenge_rejected".toList
          | .acceptResult => transitionAccepted plan k { resolution with decision := .some data }
        commit .ok
        return outcome

end

end Novalton.PlanServices
