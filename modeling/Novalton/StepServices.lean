/-
The workflow services as one request runs them on one claimed step: the step and its
run, the challenge and hand-off written for it, and the other steps it may ready.
`transition_step`, `_transition_run` and `link_agent_run` are from
`modules/workflows/service.py`; the gates a finished agent execution passes through
are those of `advance` and `approve_and_resume`, and the one a challenged result
passes when it is accepted (`_failure_after_acceptance`).

The interleavings of several requests are the subject of other modules. Here other
requests are seen in one thing, the status they leave the run in.
-/
import Novalton.Session
import Novalton.Status

namespace Novalton

/-! ## Results and their gates -/

/-- An `AgentResult`, as far as it is gated. `verdict` is that of a `QAWorkerResult`. -/
structure AgentResult where
  status : AgentResultStatus
  challenge : ChallengeLevel
  verdict : Option QAVerdict
deriving DecidableEq, Repr

/-- An `AgentExecutionResponse`. -/
structure Executed where
  status : AgentRunStatus
  errorCode : Option Text
  result : Option AgentResult
deriving DecidableEq, Repr

/-- The response that delivers a final result (`continue_with_tool_evidence`, and
`execute` after its validation). -/
def Executed.ofResult (result : AgentResult) : Executed where
  status := (mapResultStatus result.status).1
  errorCode := (mapResultStatus result.status).2
  result := .some result

/-- What becomes of a step whose agent execution ended. -/
inductive Gate where
  | waitForApproval
  | fail (code : Text)
  | challenge (result : AgentResult) (handoff : Bool)
  | complete (handoff : Bool)
deriving DecidableEq

def SpecializationRole.developer : SpecializationRole → Bool
  | .developerManager | .developerWorker => true
  | .qaWorker => false

/-- `f"{role}_not_completed"`. -/
def notCompletedCode (role : SpecializationRole) : Text := role.text ++ "_not_completed".toList

def agentExecutionFailed : Text := "agent_execution_failed".toList

/-- `error_code or "agent_execution_failed"`. -/
def codeOrFailed : Option Text → Text
  | .some (c :: rest) => c :: rest
  | _ => agentExecutionFailed

/-- A step failed for its agent's result is failed with a well-formed code. -/
theorem codeOrFailed_valid (status : AgentResultStatus) :
    failureCodeValid (codeOrFailed (mapResultStatus status).2) = true := by
  cases status <;> decide

/-- The branches of `advance` after the execution, in their order. -/
def advanceGate (role : Option SpecializationRole) (executed : Executed) : Gate :=
  if executed.status = .waitingForApproval then .waitForApproval
  else
    match executed.status, executed.result with
    | .succeeded, .some result =>
      let developer := role.any SpecializationRole.developer
      if result.challenge.meaningful then
        .challenge result (developer && result.status == .completed)
      else
        match role with
        | .some r =>
          if developer && result.status != .completed then .fail (notCompletedCode r)
            else qaGate developer result
        | .none => qaGate developer result
    | _, _ => .fail (codeOrFailed executed.errorCode)
where
  /-- The verdict checks on a `QAWorkerResult`. -/
  qaGate (developer : Bool) (result : AgentResult) : Gate :=
    match result.verdict with
    | .some .fail => .fail "qa_failed".toList
    | .some .inconclusive => .fail "qa_inconclusive".toList
    | .some _ => if result.status != .completed then .fail "qa_not_completed".toList
        else .complete developer
    | .none => .complete developer

/-- The one check of `approve_and_resume` on the continuation's response. -/
def resumeGate (response : Executed) : Gate :=
  match response.status, response.result with
  | .succeeded, .some _ => .complete true
  | _, _ => .fail (codeOrFailed response.errorCode)

/-! ## The rows of one step -/

inductive ChallengeResolutionDecision where
  | acceptResult | rejectResult
deriving DecidableEq, Repr

/-- `ChallengeResolutionRequest`. -/
structure ChallengeResolutionRequest where
  decision : ChallengeResolutionDecision
  reason : Option Text
deriving DecidableEq, Repr

/-- An `AgentChallengeResolution` row. `decision` are the columns of the decision and its
reason, which are written together. -/
structure Challenge where
  level : ChallengeLevel
  resultStatus : AgentResultStatus
  role : Option SpecializationRole
  verdict : Option QAVerdict
  decision : Option ChallengeResolutionRequest
deriving DecidableEq, Repr

def Challenge.decided (resolution : Challenge) : Bool := resolution.decision.isSome

/-- `_failure_after_acceptance`. -/
def failureAfterAcceptance (resolution : Challenge) : Option Text :=
  match resolution.role with
  | .some .qaWorker =>
    if resolution.verdict = .some .fail then .some "qa_failed".toList
    else if resolution.verdict = .some .inconclusive then .some "qa_inconclusive".toList
    else if resolution.resultStatus != .completed then .some "qa_not_completed".toList
    else .none
  | .some role => if resolution.resultStatus != .completed then .some (notCompletedCode role)
      else .none
  | .none => .none

/-- Another step run of the same workflow run. `otherIncomplete` counts its prerequisites
besides the claimed step that are not COMPLETED. -/
structure OtherStep where
  status : WorkflowStepRunStatus
  dependsOnClaimed : Bool
  otherIncomplete : Nat
deriving DecidableEq, Repr

/-- The rows a request reads and writes for the step it claimed. -/
structure StepDb where
  step : WorkflowStepRunStatus
  stepFailure : Option Text
  run : WorkflowRunStatus
  runFailure : Option Text
  agentRunLinked : Bool
  challenge : Option Challenge
  handoff : Bool
  others : List OtherStep
deriving DecidableEq, Repr

/-- A pending dependent of the completed step whose other prerequisites are complete. -/
def OtherStep.readied (other : OtherStep) : OtherStep :=
  if other.status = .pending ∧ other.dependsOnClaimed = true ∧ other.otherIncomplete = 0 then
    { other with status := .ready }
  else other

/-- The update `transition_step` makes. -/
def StepDb.moveStep (db : StepDb) (target : WorkflowStepRunStatus) (code : Option Text) : StepDb :=
  match target with
  | .completed =>
    { db with step := target, stepFailure := code, others := db.others.map OtherStep.readied }
  | .failed | .cancelled => { db with step := target, stepFailure := code }
  | _ => { db with step := target }

/-- The update `_transition_run` makes of a run that is started. -/
def StepDb.moveRun (db : StepDb) (target : WorkflowRunStatus) (code : Option Text) : StepDb :=
  { db with run := target, runFailure := code }

def invalidStepTransition : Exn := .application "workflow_step_invalid_transition".toList

def invalidStepFailure : Exn := .application "workflow_step_invalid_failure".toList

def invalidRunTransition : Exn := .application "workflow_run_invalid_transition".toList

def invalidRunFailure : Exn := .application "workflow_run_invalid_failure".toList

def agentLinkConflict : Exn := .application "workflow_step_agent_link_conflict".toList

/-- `transition_step`. `o` is how its awaits end. -/
def transitionStep (o : Outcome) (expected target : WorkflowStepRunStatus) (code : Option Text) :
    Prog StepDb Unit := do
  match o with
  | .before e => .raise e
  | o => do
    let db ← .read
    if !stepTransitionAllowed expected target then .raise invalidStepTransition
    else if target = .failed && !code.any failureCodeValid then .raise invalidStepFailure
    else if db.step != expected then .raise invalidStepTransition
    else do
      .write (·.moveStep target code)
      .commit o

/-- `_transition_run`. -/
def transitionRun (o : Outcome) (expected target : WorkflowRunStatus) (code : Option Text) :
    Prog StepDb Unit := do
  match o with
  | .before e => .raise e
  | o => do
    let db ← .read
    if db.run != expected then .raise invalidRunTransition
    else do
      .write (·.moveRun target code)
      .commit o

/-- `fail_run`. -/
def failRun (o : Outcome) (code : Text) : Prog StepDb Unit :=
  if failureCodeValid code then transitionRun o .running .failed (.some code)
    else .raise invalidRunFailure

/-- `complete_run`. -/
def completeRun (o : Outcome) : Prog StepDb Unit := transitionRun o .running .completed .none

/-- `cancel_run`. -/
def cancelRun (o : Outcome) : Prog StepDb Unit := do
  let db ← .read
  if db.run = .created ∨ db.run = .running then transitionRun o db.run .cancelled .none
    else .raise invalidRunTransition

/-- `link_agent_run`. -/
def linkAgentRun (o : Outcome) : Prog StepDb Unit := do
  match o with
  | .before e => .raise e
  | o => do
    let db ← .read
    if db.agentRunLinked then .raise agentLinkConflict
    else do
      .write fun db => { db with agentRunLinked := true }
      .commit o

/-- `persist_next_handoff`: the row is flushed, the next commit publishes it. -/
def persistNextHandoff (o : Outcome) : Prog StepDb Unit := do
  .await o
  .write fun db => { db with handoff := true }

theorem persistNextHandoff_ok {s : Session StepDb} :
    persistNextHandoff .ok s = (.ok (), ⟨s.committed, { s.view with handoff := true }⟩) := rfl

/-- `create_pending`, flushed too. -/
def createPending (o : Outcome) (role : Option SpecializationRole) (result : AgentResult) :
    Prog StepDb Unit := do
  .await o
  .write fun db => { db with
    challenge := .some ⟨result.challenge, result.status, role, result.verdict, .none⟩ }

/-- Other requests have left the run in this status. -/
def meanwhile (status : WorkflowRunStatus) : Prog StepDb Unit := fun s =>
  (.ok (), ⟨{ s.committed with run := status }, { s.view with run := status }⟩)

end Novalton
