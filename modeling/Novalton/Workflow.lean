/-
One workflow run under concurrent requests: `advance`, `resolve`, the approval requests of
a suspended step, and calls of `transition_step` (`modules/orchestrator/service.py`,
`modules/orchestrator/challenge_service.py`, `modules/approvals/mutation_resume.py`,
`modules/workflows/service.py` and `repository.py`).

Every request is a sequence of READ COMMITTED transactions. A step of the system is one
statement of one request. A transaction of a single conditional update is one step, with
its commit; one that completes a step, or resolves a challenge, holds the rows it wrote
and publishes them with its commit. An update waits for a row another request holds.
-/
import Novalton.Transition
import Novalton.RowLock
import Novalton.StepServices

namespace Novalton.Workflow

inductive WorkflowStepType where
  | agentTask | manualReview | system
deriving DecidableEq, Repr

/-- A validated plan. Steps are numbered by their id and `order` is by position;
`topological` is the place of a step in the order `validate_graph` returns. -/
structure Plan (n : ℕ) where
  order : List (Fin n)
  stepType : Fin n → WorkflowStepType
  assigned : Fin n → Bool
  dependsOn : Fin n → List (Fin n)
  topological : Fin n → ℕ
  order_all : ∀ k, k ∈ order
  acyclic : ∀ k, ∀ p ∈ dependsOn k, topological p < topological k

/-- Who completes a step: `transition_step` for itself, for `advance`, or the transaction
of `resolve`. -/
inductive Completion where
  | transition | advance | resolve
deriving DecidableEq, Repr

/-- Where a request is, and what it has loaded. A `transitionStep` that is given a run
status moves the run there next. -/
inductive Pc (n : ℕ) where
  | idle
  | getRun
  | orderedStepRuns (run : WorkflowRunStatus)
  | startRun (selected : Option (Fin n))
  | claim (k : Fin n)
  | execute (k : Fin n)
  | linkAgentRun (k : Fin n) (role : Option SpecializationRole) (executed : Executed)
  | persistNextHandoff (k : Fin n) (resolution : Option Challenge)
  | createPending (k : Fin n) (resolution : Challenge)
  | transitionStep (k : Fin n) (expected target : WorkflowStepRunStatus)
      (run : Option WorkflowRunStatus)
  | transitionRun (target : WorkflowRunStatus)
  | complete (k : Fin n) (completion : Completion)
  | pendingDependents (k : Fin n) (completion : Completion)
  | incompleteDependencyCount (k : Fin n) (dependents : List (Fin n)) (completion : Completion)
  | readyDependent (k d : Fin n) (dependents : List (Fin n)) (completion : Completion)
  | commit (k : Fin n) (completion : Completion)
  | countStepStates
  | linkedState (k : Fin n) (decision : Decision)
  | tool (k : Fin n) (decision : Decision)
  | resumeRun (k : Fin n)
  | resumeStep (k : Fin n)
  | continueAssignment (k : Fin n)
  | failWaitingRun (k : Fin n)
  | getScopedForUpdate (k : Fin n) (data : ChallengeResolutionRequest)
  | resolveRun (k : Fin n) (data : ChallengeResolutionRequest) (resolution : Challenge)
  | resolveStep (k : Fin n) (data : ChallengeResolutionRequest) (resolution : Challenge)
  | resolveAgentRun (k : Fin n) (data : ChallengeResolutionRequest) (resolution : Challenge)
  | resolveOrdered (k : Fin n) (data : ChallengeResolutionRequest) (resolution : Challenge)
  | evaluateDecision (k : Fin n) (data : ChallengeResolutionRequest) (resolution : Challenge)
  | decidePending (k : Fin n) (data : ChallengeResolutionRequest) (resolution : Challenge)
  | failStep (k : Fin n)
  | failRun (k : Fin n)
  | commitFailure (k : Fin n)
  | countInTransaction (k : Fin n)
  | completeRun (k : Fin n)
deriving DecidableEq

inductive Request (n : ℕ) where
  | advance
  | resolve (k : Fin n) (data : ChallengeResolutionRequest)
  | transition (k : Fin n) (expected target : WorkflowStepRunStatus)
  | decideApproval (k : Fin n) (decision : Decision)
deriving DecidableEq, Repr

/-- How the code a step calls answers. `refuse` is a failure the request handles, `fail`
an exception or a cancellation that ends it. -/
inductive Answer (n : ℕ) where
  | begin (request : Request n)
  | proceed
  | refuse
  | cancelled
  | executed (role : Option SpecializationRole) (response : Executed)
  | resumed
  | continued (response : Executed)
  | policy (effect : PolicyEffect)
  | fail
deriving DecidableEq

/-- `agent` is the agent run linked to a step; a link is never replaced, so it is also the
one a challenge of the step names. -/
structure State (n : ℕ) where
  run : Row WorkflowRunStatus
  step : Fin n → Row WorkflowStepRunStatus
  challenge : Fin n → Row (Option Challenge)
  agent : Fin n → Option AgentRunStatus
  requests : ℕ → Pc n

/-- A step of request `i`. -/
structure Label (n : ℕ) where
  i : ℕ
  answer : Answer n

/-! ## Writes -/

/-- The write of one step. `moveRun`, `moveStep` and `insertChallenge` are transactions of
their own; `writeRun`, `writeStep` and `decide` are held until the commit. -/
inductive Write (n : ℕ) where
  | none
  | commit
  | rollback
  | moveRun (target : WorkflowRunStatus)
  | moveStep (k : Fin n) (target : WorkflowStepRunStatus)
  | writeRun (target : WorkflowRunStatus)
  | writeStep (k : Fin n) (target : WorkflowStepRunStatus)
  | insertChallenge (k : Fin n) (resolution : Challenge)
  | lockChallenge (k : Fin n)
  | decide (k : Fin n) (resolution : Challenge)
  | moveAgent (k : Fin n) (target : AgentRunStatus)
deriving DecidableEq

namespace Write
variable {n : ℕ}

def run (i : ℕ) : Write n → Row WorkflowRunStatus → Row WorkflowRunStatus
  | .moveRun target, _ => .idle target
  | .writeRun target, row => ⟨row.committed, .some (i, .some target)⟩
  | .commit, row => row.commit i
  | .rollback, row => row.rollback i
  | _, row => row

def step (i : ℕ) (k : Fin n) : Write n → Row WorkflowStepRunStatus → Row WorkflowStepRunStatus
  | .moveStep p target, row => if k = p then .idle target else row
  | .writeStep p target, row => if k = p then ⟨row.committed, .some (i, .some target)⟩ else row
  | .commit, row => row.commit i
  | .rollback, row => row.rollback i
  | _, row => row

def challenge (i : ℕ) (k : Fin n) : Write n → Row (Option Challenge) → Row (Option Challenge)
  | .insertChallenge p resolution, row => if k = p then .idle (.some resolution) else row
  | .lockChallenge p, row => if k = p then ⟨row.committed, .some (i, .none)⟩ else row
  | .decide p resolution, row => if k = p then ⟨row.committed, .some (i, .some (.some resolution))⟩
      else row
  | .commit, row => row.commit i
  | .rollback, row => row.rollback i
  | _, row => row

def agent (k : Fin n) : Write n → Option AgentRunStatus → Option AgentRunStatus
  | .moveAgent p target, old => if k = p then .some target else old
  | _, old => old

end Write

namespace State
variable {n : ℕ}

/-- Request `i` writes and goes on at `pc`. -/
def after (s : State n) (i : ℕ) (write : Write n) (pc : Pc n) : State n where
  run := write.run i s.run
  step k := write.step i k (s.step k)
  challenge k := write.challenge i k (s.challenge k)
  agent k := write.agent k (s.agent k)
  requests := Function.update s.requests i pc

variable {s : State n} {i j : ℕ} {write : Write n} {pc : Pc n}

@[simp] theorem after_self : (s.after i write pc).requests i = pc := Function.update_self ..

theorem after_ne (h : j ≠ i) : (s.after i write pc).requests j = s.requests j :=
  Function.update_of_ne h ..

/-- What request `i` sees. -/
def status (s : State n) (i : ℕ) (k : Fin n) : WorkflowStepRunStatus := (s.step k).view i

end State

/-! ## What a request reads -/

section
variable {n : ℕ} (plan : Plan n) (s : State n) (i : ℕ)

/-- The first READY step run in plan order. -/
def firstReady : Option (Fin n) := plan.order.find? fun k => s.status i k = .ready

def Plan.runnable (k : Fin n) : Bool := plan.stepType k = .agentTask && plan.assigned k

/-- Every step run is COMPLETED, and there is one. -/
def allCompleted : Bool := !plan.order.isEmpty && plan.order.all fun k => s.status i k = .completed

def countCompleted : ℕ := plan.order.countP fun k => s.status i k = .completed

/-- `pending_dependents`, by id. -/
def pendingDependents (k : Fin n) : List (Fin n) :=
  (List.finRange n).filter fun d => s.status i d = .pending && (plan.dependsOn d).contains k

/-- `incomplete_dependency_count`. -/
def incompleteDependencyCount (d : Fin n) : ℕ :=
  (plan.dependsOn d).countP fun p => s.status i p ≠ .completed

/-- `running_ids == [step_run.id]`, where the step run was RUNNING when it was loaded. -/
def onlyRunning (k : Fin n) : Bool := plan.order.all fun p => p = k || s.status i p ≠ .running

end

/-! ## The requests -/

section
variable {n : ℕ}

/-- `transition_step`. -/
def transitionStep (k : Fin n) (expected target : WorkflowStepRunStatus) : Pc n :=
  if stepTransitionAllowed expected target then
    if target = .completed then .complete k .transition else .transitionStep k expected target .none
  else .idle

def Request.start : Request n → Pc n
  | .advance => .getRun
  | .resolve k data => .getScopedForUpdate k data
  | .transition k expected target => Novalton.Workflow.transitionStep k expected target
  | .decideApproval k decision => .linkedState k decision

/-- `_fail`. -/
def failing (k : Fin n) : Pc n := .transitionStep k .running .failed (.some .failed)

/-- What follows the agent's link in `advance`. -/
def afterLink (k : Fin n) (role : Option SpecializationRole) (executed : Executed) : Pc n :=
  match advanceGate role executed with
  | .waitForApproval => .transitionStep k .running .waitingForApproval .none
  | .fail _ => failing k
  | .challenge result handoff =>
    let resolution := ⟨result.challenge, result.status, role, result.verdict, .none⟩
    if handoff then .persistNextHandoff k (.some resolution) else .createPending k resolution
  | .complete handoff => if handoff then .persistNextHandoff k .none else .complete k .advance

/-- What follows the continuation of a resumed step. -/
def afterContinuation (k : Fin n) (response : Executed) : Pc n :=
  match resumeGate response with
  | .complete _ => .complete k .transition
  | _ => failing k

/-- The resolution fails the step. -/
def fails (data : ChallengeResolutionRequest) (resolution : Challenge) : Bool :=
  data.decision = .rejectResult || (failureAfterAcceptance resolution).isSome

end

variable {n : ℕ}

/-- The step a request at `pc` takes on an answer. -/
def next (plan : Plan n) (s : State n) (i : ℕ) (pc : Pc n) (answer : Answer n) :
    Option (Write n × Pc n) :=
  match pc, answer with
  | .idle, .begin request => .some (.none, request.start)
  | .idle, _ => .none
  | _, .fail => leave
  -- `advance`
  | .getRun, .proceed =>
    let run := s.run.view i
    if run.terminal then leave else .some (.none, .orderedStepRuns run)
  | .orderedStepRuns run, .proceed =>
    if allCompleted plan s i then .some (.none, .transitionRun .completed)
    else
      match firstReady plan s i with
      | .none => leave
      | .some k =>
        let selected := if plan.runnable k then .some k else .none
        if run = .created then .some (.none, .startRun selected)
        else
          match selected with
          | .some k => if run = .running then .some (.none, .claim k) else leave
          | .none => leave
  | .startRun selected, .proceed =>
    if s.run.free i = false then .none
    else if s.run.view i = .created then .some (.moveRun .running, selected.elim .idle .claim)
    else leave
  | .claim k, .proceed => move k .ready .running (.execute k)
  | .execute k, .executed role response => .some (.none, .linkAgentRun k role response)
  | .execute k, .refuse => .some (.none, failing k)
  | .execute k, .cancelled =>
    .some (.none, .transitionStep k .running .cancelled (.some .cancelled))
  | .linkAgentRun k role executed, .proceed =>
    if s.agent k = .none then .some (.moveAgent k executed.status, afterLink k role executed)
      else leave
  | .persistNextHandoff k resolution, .proceed =>
    .some (.none, resolution.elim (.complete k .advance) (.createPending k))
  | .persistNextHandoff k _, .refuse => .some (.none, failing k)
  | .createPending k resolution, .proceed =>
    if (s.challenge k).free i = false then .none
    else if ((s.challenge k).view i).isNone then .some (.insertChallenge k resolution, .idle)
    else leave
  -- `transition_step` to any status but COMPLETED, and `_transition_run` after it
  | .transitionStep k expected target run, .proceed =>
    move k expected target (run.elim .idle .transitionRun)
  | .transitionRun target, .proceed =>
    if s.run.free i = false then .none
    else if s.run.view i = .running then .some (.moveRun target, .idle)
    else leave
  -- the completion of a step
  | .complete k completion, .proceed =>
    write k .running .completed (.pendingDependents k completion)
  | .pendingDependents k completion, .proceed =>
    .some (.none, .incompleteDependencyCount k (pendingDependents plan s i k) completion)
  | .incompleteDependencyCount k [] completion, .proceed =>
    .some (.none, if completion = .resolve then .countInTransaction k else .commit k completion)
  | .incompleteDependencyCount k (d :: dependents) completion, .proceed =>
    .some (.none, if incompleteDependencyCount plan s i d = 0 then
      .readyDependent k d dependents completion
      else .incompleteDependencyCount k dependents completion)
  | .readyDependent k d dependents completion, .proceed =>
    if (s.step d).free i = false then .none
    else .some (if s.status i d = .pending then .writeStep d .ready else .none,
      .incompleteDependencyCount k dependents completion)
  | .commit _ completion, .proceed =>
    .some (.commit, if completion = .advance then .countStepStates else .idle)
  | .countStepStates, .proceed =>
    if countCompleted plan s i = plan.order.length then .some (.none, .transitionRun .completed)
      else leave
  -- `approve_and_resume` and `reject_and_terminalize`
  | .linkedState k decision, .proceed =>
    if s.agent k = .none then leave
    else if s.status i k = decision.doneStep then leave
    else .some (.none, .tool k decision)
  | .tool k decision, .resumed => if decision = .approve then .some (.none, .resumeRun k) else .none
  | .tool k _, .refuse => .some (.none, .failWaitingRun k)
  | .tool _ _, .proceed => leave
  | .resumeRun k, .proceed =>
    if s.agent k = .some .waitingForApproval then .some (.moveAgent k .running, .resumeStep k)
      else leave
  | .resumeStep k, .proceed => move k .waitingForApproval .running (.continueAssignment k)
  | .continueAssignment k, .continued response =>
    if response.status.terminal = false then .none
    else if s.agent k = .some .running then
      .some (.moveAgent k response.status, afterContinuation k response)
    else leave
  | .failWaitingRun k, .proceed =>
    if s.agent k = .some .waitingForApproval then
      .some (.moveAgent k .failed, .transitionStep k .waitingForApproval .failed (.some .failed))
    else leave
  -- `resolve`: the locked read, the guards as they are loaded, and the writes
  | .getScopedForUpdate k data, .proceed =>
    if (s.challenge k).free i = false then .none
    else
      match (s.challenge k).view i with
      | .none => leave
      | .some resolution =>
        if resolution.decided then leave
        else if resolution.level = .blockRecommended ∧ data.decision = .acceptResult then leave
        else .some (.lockChallenge k, .resolveRun k data resolution)
  | .resolveRun k data resolution, .proceed =>
    if s.run.view i = .running then .some (.none, .resolveStep k data resolution) else leave
  | .resolveStep k data resolution, .proceed =>
    if s.status i k = .running then .some (.none, .resolveAgentRun k data resolution) else leave
  | .resolveAgentRun k data resolution, .proceed =>
    if s.agent k = .some .succeeded then .some (.none, .resolveOrdered k data resolution) else leave
  | .resolveOrdered k data resolution, .proceed =>
    if onlyRunning plan s i k then .some (.none, .evaluateDecision k data resolution) else leave
  | .evaluateDecision k data resolution, .policy effect =>
    if effect = .block then leave else .some (.none, .decidePending k data resolution)
  | .decidePending k data resolution, .proceed =>
    .some (.decide k { resolution with decision := .some data },
      if fails data resolution then .failStep k else .complete k .resolve)
  | .failStep k, .proceed => write k .running .failed (.failRun k)
  | .failRun k, .proceed => writeRun .failed (.commitFailure k)
  | .commitFailure _, .proceed => .some (.commit, .idle)
  | .countInTransaction k, .proceed =>
    .some (.none, if countCompleted plan s i = plan.order.length then .completeRun k
      else .commit k .resolve)
  | .completeRun k, .proceed => writeRun .completed (.commit k .resolve)
  | _, _ => .none
where
  leave : Option (Write n × Pc n) := .some (.rollback, .idle)
  /-- `transition_step_run` and the commit after it, or the conflict. -/
  move (k : Fin n) (expected target : WorkflowStepRunStatus) (pc : Pc n) :
      Option (Write n × Pc n) :=
    if (s.step k).free i = false then .none
    else if s.status i k = expected then .some (.moveStep k target, pc)
    else leave
  /-- `transition_step_run` in a transaction that goes on. -/
  write (k : Fin n) (expected target : WorkflowStepRunStatus) (pc : Pc n) :
      Option (Write n × Pc n) :=
    if (s.step k).free i = false then .none
    else if s.status i k = expected then .some (.writeStep k target, pc)
    else leave
  /-- `transition_run` of a run that is RUNNING, in a transaction that goes on. -/
  writeRun (target : WorkflowRunStatus) (pc : Pc n) : Option (Write n × Pc n) :=
    if s.run.free i = false then .none
    else if s.run.view i = .running then .some (.writeRun target, pc)
    else leave

/-- `create_run`. -/
def createRun (plan : Plan n) : State n :=
  ⟨.idle .created, fun k => .idle (if plan.dependsOn k = [] then .ready else .pending),
    fun _ => .idle .none, fun _ => .none, fun _ => .idle⟩

/-- The requests on one run of a plan. -/
def system (plan : Plan n) : System (State n) (Label n) where
  Init s := s = createRun plan
  step s a := (next plan s a.i (s.requests a.i) a.answer).map fun (write, pc) =>
    s.after a.i write pc

/-! ## What a step can do -/

/-- The steps of a request, one constructor for each way `next` can go. Leaving is always
among them. -/
inductive Next (plan : Plan n) (s : State n) (i : ℕ) : Answer n → Pc n → Write n → Pc n → Prop where
  | begin (request : Request n) : Next plan s i (.begin request) .idle .none request.start
  | leave (answer : Answer n) (pc : Pc n) (h : pc ≠ .idle) : Next plan s i answer pc .rollback .idle
  | getRun (run : WorkflowRunStatus) (hrun : s.run.view i = run) (h : run.terminal = false) :
    Next plan s i .proceed .getRun .none (.orderedStepRuns run)
  | allCompleted (run : WorkflowRunStatus) (h : allCompleted plan s i = true) :
    Next plan s i .proceed (.orderedStepRuns run) .none (.transitionRun .completed)
  | select (selected : Option (Fin n)) :
    Next plan s i .proceed (.orderedStepRuns .created) .none (.startRun selected)
  | selectStep (k : Fin n) (h : firstReady plan s i = .some k) :
    Next plan s i .proceed (.orderedStepRuns .running) .none (.claim k)
  | startRun (selected : Option (Fin n)) (hfree : s.run.free i = true)
      (h : s.run.view i = .created) :
    Next plan s i .proceed (.startRun selected) (.moveRun .running) (selected.elim .idle .claim)
  | claim (k : Fin n) (hfree : (s.step k).free i = true) (h : s.status i k = .ready) :
    Next plan s i .proceed (.claim k) (.moveStep k .running) (.execute k)
  | executed (k : Fin n) (role : Option SpecializationRole) (response : Executed) :
    Next plan s i (.executed role response) (.execute k) .none (.linkAgentRun k role response)
  | executionFailed (k : Fin n) : Next plan s i .refuse (.execute k) .none (failing k)
  | executionCancelled (k : Fin n) :
    Next plan s i .cancelled (.execute k) .none
      (.transitionStep k .running .cancelled (.some .cancelled))
  | linkAgentRun (k : Fin n) (role : Option SpecializationRole) (executed : Executed)
      (h : s.agent k = .none) :
    Next plan s i .proceed (.linkAgentRun k role executed) (.moveAgent k executed.status)
      (afterLink k role executed)
  | handoff (k : Fin n) (resolution : Option Challenge) :
    Next plan s i .proceed (.persistNextHandoff k resolution) .none
      (resolution.elim (.complete k .advance) (.createPending k))
  | handoffFailed (k : Fin n) (resolution : Option Challenge) :
    Next plan s i .refuse (.persistNextHandoff k resolution) .none (failing k)
  | createPending (k : Fin n) (resolution : Challenge) (hfree : (s.challenge k).free i = true)
    (h : (s.challenge k).view i = .none) :
    Next plan s i .proceed (.createPending k resolution) (.insertChallenge k resolution) .idle
  | transitionStep (k : Fin n) (expected target : WorkflowStepRunStatus)
      (run : Option WorkflowRunStatus)
    (hfree : (s.step k).free i = true) (h : s.status i k = expected) :
    Next plan s i .proceed (.transitionStep k expected target run) (.moveStep k target)
      (run.elim .idle .transitionRun)
  | transitionRun (target : WorkflowRunStatus) (hfree : s.run.free i = true)
      (h : s.run.view i = .running) :
    Next plan s i .proceed (.transitionRun target) (.moveRun target) .idle
  | complete (k : Fin n) (completion : Completion) (hfree : (s.step k).free i = true)
      (h : s.status i k = .running) :
    Next plan s i .proceed (.complete k completion) (.writeStep k .completed)
      (.pendingDependents k completion)
  | pendingDependents (k : Fin n) (completion : Completion) :
    Next plan s i .proceed (.pendingDependents k completion) .none
      (.incompleteDependencyCount k (pendingDependents plan s i k) completion)
  | counted (k : Fin n) (completion : Completion) :
    Next plan s i .proceed (.incompleteDependencyCount k [] completion) .none
      (if completion = .resolve then .countInTransaction k else .commit k completion)
  | dependenciesComplete (k d : Fin n) (dependents : List (Fin n)) (completion : Completion)
    (h : incompleteDependencyCount plan s i d = 0) :
    Next plan s i .proceed (.incompleteDependencyCount k (d :: dependents) completion) .none
      (.readyDependent k d dependents completion)
  | incomplete (k d : Fin n) (dependents : List (Fin n)) (completion : Completion)
    (h : incompleteDependencyCount plan s i d ≠ 0) :
    Next plan s i .proceed (.incompleteDependencyCount k (d :: dependents) completion) .none
      (.incompleteDependencyCount k dependents completion)
  | ready (k d : Fin n) (dependents : List (Fin n)) (completion : Completion)
      (hfree : (s.step d).free i = true)
    (h : s.status i d = .pending) :
    Next plan s i .proceed (.readyDependent k d dependents completion) (.writeStep d .ready)
      (.incompleteDependencyCount k dependents completion)
  | leftPending (k d : Fin n) (dependents : List (Fin n)) (completion : Completion)
      (hfree : (s.step d).free i = true)
    (h : s.status i d ≠ .pending) :
    Next plan s i .proceed (.readyDependent k d dependents completion) .none
      (.incompleteDependencyCount k dependents completion)
  | commit (k : Fin n) (completion : Completion) :
    Next plan s i .proceed (.commit k completion) .commit (if completion = .advance then
      .countStepStates else .idle)
  | countStepStates (h : countCompleted plan s i = plan.order.length) :
    Next plan s i .proceed .countStepStates .none (.transitionRun .completed)
  | linkedState (k : Fin n) (decision : Decision) :
    Next plan s i .proceed (.linkedState k decision) .none (.tool k decision)
  | resumed (k : Fin n) : Next plan s i .resumed (.tool k .approve) .none (.resumeRun k)
  | refused (k : Fin n) (decision : Decision) :
      Next plan s i .refuse (.tool k decision) .none (.failWaitingRun k)
  | resumeRun (k : Fin n) (h : s.agent k = .some .waitingForApproval) :
    Next plan s i .proceed (.resumeRun k) (.moveAgent k .running) (.resumeStep k)
  | resumeStep (k : Fin n) (hfree : (s.step k).free i = true)
      (h : s.status i k = .waitingForApproval) :
    Next plan s i .proceed (.resumeStep k) (.moveStep k .running) (.continueAssignment k)
  | continued (k : Fin n) (response : Executed) (hterminal : response.status.terminal = true)
    (h : s.agent k = .some .running) :
    Next plan s i (.continued response) (.continueAssignment k) (.moveAgent k response.status)
      (afterContinuation k response)
  | failWaitingRun (k : Fin n) (h : s.agent k = .some .waitingForApproval) :
    Next plan s i .proceed (.failWaitingRun k) (.moveAgent k .failed)
      (.transitionStep k .waitingForApproval .failed (.some .failed))
  | getScopedForUpdate (k : Fin n) (data : ChallengeResolutionRequest) (resolution : Challenge)
    (hfree : (s.challenge k).free i = true) (h : (s.challenge k).view i = .some resolution)
    (hundecided : resolution.decided = false)
    (hlevel : ¬ (resolution.level = .blockRecommended ∧ data.decision = .acceptResult)) :
    Next plan s i .proceed (.getScopedForUpdate k data) (.lockChallenge k)
      (.resolveRun k data resolution)
  | resolveRun (k : Fin n) (data : ChallengeResolutionRequest) (resolution : Challenge)
    (h : s.run.view i = .running) :
    Next plan s i .proceed (.resolveRun k data resolution) .none (.resolveStep k data resolution)
  | resolveStep (k : Fin n) (data : ChallengeResolutionRequest) (resolution : Challenge)
    (h : s.status i k = .running) :
    Next plan s i .proceed (.resolveStep k data resolution) .none
      (.resolveAgentRun k data resolution)
  | resolveAgentRun (k : Fin n) (data : ChallengeResolutionRequest) (resolution : Challenge)
    (h : s.agent k = .some .succeeded) :
    Next plan s i .proceed (.resolveAgentRun k data resolution) .none
      (.resolveOrdered k data resolution)
  | resolveOrdered (k : Fin n) (data : ChallengeResolutionRequest) (resolution : Challenge)
    (h : onlyRunning plan s i k = true) :
    Next plan s i .proceed (.resolveOrdered k data resolution) .none
      (.evaluateDecision k data resolution)
  | permitted (k : Fin n) (data : ChallengeResolutionRequest) (resolution : Challenge)
      (effect : PolicyEffect)
    (h : effect ≠ .block) :
    Next plan s i (.policy effect) (.evaluateDecision k data resolution) .none
      (.decidePending k data resolution)
  | decidePending (k : Fin n) (data : ChallengeResolutionRequest) (resolution : Challenge) :
    Next plan s i .proceed (.decidePending k data resolution)
      (.decide k { resolution with decision := .some data })
      (if fails data resolution then .failStep k else .complete k .resolve)
  | failStep (k : Fin n) (hfree : (s.step k).free i = true) (h : s.status i k = .running) :
    Next plan s i .proceed (.failStep k) (.writeStep k .failed) (.failRun k)
  | failRun (k : Fin n) (hfree : s.run.free i = true) (h : s.run.view i = .running) :
    Next plan s i .proceed (.failRun k) (.writeRun .failed) (.commitFailure k)
  | commitFailure (k : Fin n) : Next plan s i .proceed (.commitFailure k) .commit .idle
  | countInTransaction (k : Fin n) (h : countCompleted plan s i = plan.order.length) :
    Next plan s i .proceed (.countInTransaction k) .none (.completeRun k)
  | uncompleted (k : Fin n) (h : countCompleted plan s i ≠ plan.order.length) :
    Next plan s i .proceed (.countInTransaction k) .none (.commit k .resolve)
  | completeRun (k : Fin n) (hfree : s.run.free i = true) (h : s.run.view i = .running) :
    Next plan s i .proceed (.completeRun k) (.writeRun .completed) (.commit k .resolve)

variable {plan : Plan n} {s t : State n} {i j : ℕ} {answer : Answer n} {pc pc' : Pc n}
  {write : Write n}

theorem next_fail (h : next plan s i pc .fail = .some (write, pc')) :
    Next plan s i .fail pc write pc' := by
  cases pc <;> cases h <;> exact .leave _ _ (by simp)

/-- A conditional update that did not wait, as it matched or as it conflicted. -/
theorem move_cases {k : Fin n} {expected target : WorkflowStepRunStatus}
    (h : next.move s i k expected target pc = .some (write, pc')) :
    (write = .rollback ∧ pc' = .idle) ∨
      (write = .moveStep k target ∧ pc' = pc ∧ (s.step k).free i = true ∧
        s.status i k = expected) := by
  unfold next.move at h
  split at h
  · cases h
  next hfree =>
    split at h <;> cases h
    next hstatus => exact .inr ⟨rfl, rfl, by simpa using hfree, hstatus⟩
    next => exact .inl ⟨rfl, rfl⟩

theorem write_cases {k : Fin n} {expected target : WorkflowStepRunStatus}
    (h : next.write s i k expected target pc = .some (write, pc')) :
    (write = .rollback ∧ pc' = .idle) ∨
      (write = .writeStep k target ∧ pc' = pc ∧ (s.step k).free i = true ∧
        s.status i k = expected) := by
  unfold next.write at h
  split at h
  · cases h
  next hfree =>
    split at h <;> cases h
    next hstatus => exact .inr ⟨rfl, rfl, by simpa using hfree, hstatus⟩
    next => exact .inl ⟨rfl, rfl⟩

theorem writeRun_cases {target : WorkflowRunStatus}
    (h : next.writeRun s i target pc = .some (write, pc')) :
    (write = .rollback ∧ pc' = .idle) ∨
      (write = .writeRun target ∧ pc' = pc ∧ s.run.free i = true ∧ s.run.view i = .running) := by
  unfold next.writeRun at h
  split at h
  · cases h
  next hfree =>
    split at h <;> cases h
    next hstatus => exact .inr ⟨rfl, rfl, by simpa using hfree, hstatus⟩
    next => exact .inl ⟨rfl, rfl⟩

theorem next_proceed (h : next plan s i pc .proceed = .some (write, pc')) :
    Next plan s i .proceed pc write pc' := by
  cases pc with
  | idle | execute | continueAssignment | evaluateDecision => cases h
  | getRun =>
    simp only [next] at h
    split at h <;> cases h
    · exact .leave _ _ (by simp)
    next hrun => exact .getRun _ rfl (by simpa using hrun)
  | orderedStepRuns run =>
    simp only [next] at h
    split at h
    · cases h
      exact .allCompleted _ (by assumption)
    split at h
    · cases h
      exact .leave _ _ (by simp)
    next k hready =>
      by_cases hcreated : run = .created
      · subst hcreated
        cases h
        exact .select _
      · rw [if_neg hcreated] at h
        by_cases hrunnable : plan.runnable k = true
        · simp only [hrunnable, if_true] at h
          split at h
          next hrun =>
            cases h
            rw [hrun]
            exact .selectStep k hready
          next =>
            cases h
            exact .leave _ _ (by simp)
        · simp only [hrunnable] at h
          cases h
          exact .leave _ _ (by simp)
  | startRun selected =>
    simp only [next] at h
    split at h
    · cases h
    next hfree =>
      split at h <;> cases h
      · exact .startRun _ (by simpa using hfree) (by assumption)
      · exact .leave _ _ (by simp)
  | claim k =>
    rcases move_cases h with ⟨rfl, rfl⟩ | ⟨rfl, rfl, hfree, hstatus⟩
    · exact .leave _ _ (by simp)
    · exact .claim k hfree hstatus
  | linkAgentRun k role executed =>
    simp only [next] at h
    split at h <;> cases h
    · exact .linkAgentRun k role executed (by assumption)
    · exact .leave _ _ (by simp)
  | persistNextHandoff k resolution => cases h; exact .handoff k resolution
  | createPending k resolution =>
    simp only [next] at h
    split at h
    · cases h
    next hfree =>
      split at h <;> cases h
      next hnone => exact .createPending k resolution (by simpa using hfree) (by simpa using hnone)
      next => exact .leave _ _ (by simp)
  | transitionStep k expected target run =>
    rcases move_cases h with ⟨rfl, rfl⟩ | ⟨rfl, rfl, hfree, hstatus⟩
    · exact .leave _ _ (by simp)
    · exact .transitionStep k expected target run hfree hstatus
  | transitionRun target =>
    simp only [next] at h
    split at h
    · cases h
    next hfree =>
      split at h <;> cases h
      · exact .transitionRun target (by simpa using hfree) (by assumption)
      · exact .leave _ _ (by simp)
  | complete k completion =>
    rcases write_cases h with ⟨rfl, rfl⟩ | ⟨rfl, rfl, hfree, hstatus⟩
    · exact .leave _ _ (by simp)
    · exact .complete k completion hfree hstatus
  | pendingDependents k completion => cases h; exact .pendingDependents k completion
  | incompleteDependencyCount k dependents completion =>
    cases dependents with
    | nil => cases h; exact .counted k completion
    | cons d dependents =>
      simp only [next] at h
      split at h <;> cases h
      · exact .dependenciesComplete k d dependents completion (by assumption)
      · exact .incomplete k d dependents completion (by assumption)
  | readyDependent k d dependents completion =>
    simp only [next] at h
    split at h
    · cases h
    next hfree =>
      split at h <;> cases h
      · exact .ready k d dependents completion (by simpa using hfree) (by assumption)
      · exact .leftPending k d dependents completion (by simpa using hfree) (by assumption)
  | commit k completion => cases h; exact .commit k completion
  | countStepStates =>
    simp only [next] at h
    split at h <;> cases h
    · exact .countStepStates (by assumption)
    · exact .leave _ _ (by simp)
  | linkedState k decision =>
    simp only [next] at h
    split at h
    · cases h; exact .leave _ _ (by simp)
    split at h <;> cases h
    · exact .leave _ _ (by simp)
    · exact .linkedState k decision
  | tool k decision => cases h; exact .leave _ _ (by simp)
  | resumeRun k =>
    simp only [next] at h
    split at h <;> cases h
    · exact .resumeRun k (by assumption)
    · exact .leave _ _ (by simp)
  | resumeStep k =>
    rcases move_cases h with ⟨rfl, rfl⟩ | ⟨rfl, rfl, hfree, hstatus⟩
    · exact .leave _ _ (by simp)
    · exact .resumeStep k hfree hstatus
  | failWaitingRun k =>
    simp only [next] at h
    split at h <;> cases h
    · exact .failWaitingRun k (by assumption)
    · exact .leave _ _ (by simp)
  | getScopedForUpdate k data =>
    simp only [next] at h
    split at h
    · cases h
    next hfree =>
      split at h
      · cases h; exact .leave _ _ (by simp)
      next resolution hview =>
        split at h
        · cases h; exact .leave _ _ (by simp)
        next hundecided =>
          split at h <;> cases h
          · exact .leave _ _ (by simp)
          next hlevel =>
            exact .getScopedForUpdate k data resolution (by simpa using hfree) hview
              (by simpa using hundecided) hlevel
  | resolveRun k data resolution =>
    simp only [next] at h
    split at h <;> cases h
    · exact .resolveRun k data resolution (by assumption)
    · exact .leave _ _ (by simp)
  | resolveStep k data resolution =>
    simp only [next] at h
    split at h <;> cases h
    · exact .resolveStep k data resolution (by assumption)
    · exact .leave _ _ (by simp)
  | resolveAgentRun k data resolution =>
    simp only [next] at h
    split at h <;> cases h
    · exact .resolveAgentRun k data resolution (by assumption)
    · exact .leave _ _ (by simp)
  | resolveOrdered k data resolution =>
    simp only [next] at h
    split at h <;> cases h
    · exact .resolveOrdered k data resolution (by assumption)
    · exact .leave _ _ (by simp)
  | decidePending k data resolution => cases h; exact .decidePending k data resolution
  | failStep k =>
    rcases write_cases h with ⟨rfl, rfl⟩ | ⟨rfl, rfl, hfree, hstatus⟩
    · exact .leave _ _ (by simp)
    · exact .failStep k hfree hstatus
  | failRun k =>
    rcases writeRun_cases h with ⟨rfl, rfl⟩ | ⟨rfl, rfl, hfree, hstatus⟩
    · exact .leave _ _ (by simp)
    · exact .failRun k hfree hstatus
  | commitFailure k => cases h; exact .commitFailure k
  | countInTransaction k =>
    simp only [next] at h
    split at h <;> cases h
    · exact .countInTransaction k (by assumption)
    · exact .uncompleted k (by assumption)
  | completeRun k =>
    rcases writeRun_cases h with ⟨rfl, rfl⟩ | ⟨rfl, rfl, hfree, hstatus⟩
    · exact .leave _ _ (by simp)
    · exact .completeRun k hfree hstatus

/-- Every way `next` can go is one of the listed ones. -/
theorem next_cases (h : next plan s i pc answer = .some (write, pc')) :
    Next plan s i answer pc write pc' := by
  cases answer with
  | fail => exact next_fail h
  | proceed => exact next_proceed h
  | begin request =>
    cases pc with
    | idle => cases h; exact .begin request
    | incompleteDependencyCount k dependents completion => cases dependents <;> cases h
    | _ => cases h
  | refuse =>
    cases pc with
    | execute k => cases h; exact .executionFailed k
    | persistNextHandoff k resolution => cases h; exact .handoffFailed k resolution
    | tool k decision => cases h; exact .refused k decision
    | incompleteDependencyCount k dependents completion => cases dependents <;> cases h
    | _ => cases h
  | cancelled =>
    cases pc with
    | execute k => cases h; exact .executionCancelled k
    | incompleteDependencyCount k dependents completion => cases dependents <;> cases h
    | _ => cases h
  | executed role response =>
    cases pc with
    | execute k => cases h; exact .executed k role response
    | incompleteDependencyCount k dependents completion => cases dependents <;> cases h
    | _ => cases h
  | resumed =>
    cases pc with
    | tool k decision =>
      simp only [next] at h
      split at h <;> cases h
      next happrove =>
        rw [happrove]
        exact .resumed k
    | incompleteDependencyCount k dependents completion => cases dependents <;> cases h
    | _ => cases h
  | continued response =>
    cases pc with
    | continueAssignment k =>
      simp only [next] at h
      split at h
      · cases h
      next hterminal =>
        split at h <;> cases h
        · exact .continued k response (by simpa using hterminal) (by assumption)
        · exact .leave _ _ (by simp)
    | incompleteDependencyCount k dependents completion => cases dependents <;> cases h
    | _ => cases h
  | policy effect =>
    cases pc with
    | evaluateDecision k data resolution =>
      simp only [next] at h
      split at h <;> cases h
      · exact .leave _ _ (by simp)
      · exact .permitted k data resolution effect (by assumption)
    | incompleteDependencyCount k dependents completion => cases dependents <;> cases h
    | _ => cases h

/-- The step of a request. -/
theorem step_cases {a : Label n} (h : (system plan).step s a = .some t) :
    ∃ (write : Write n) (pc : Pc n), Next plan s a.i a.answer (s.requests a.i) write pc ∧
      t = s.after a.i write pc := by
  obtain ⟨⟨write, pc⟩, hnext, rfl⟩ := Option.map_eq_some_iff.mp h
  exact ⟨write, pc, next_cases hnext, rfl⟩

/-! ## Two branches that join -/

/-- Two steps without prerequisites, and one that has them both. -/
def joinPlan : Plan 3 where
  order := [0, 1, 2]
  stepType _ := .agentTask
  assigned _ := true
  dependsOn k := if k = 2 then [0, 1] else []
  topological := fun k => k
  order_all := by decide
  acyclic := by decide

theorem joinPlan_dependsOn {P : Fin 3 → Prop} (h0 : P 0) (h1 : P 1) : ∀ p ∈ joinPlan.dependsOn 2,
    P p := by
  intro p hp
  rcases List.mem_cons.mp hp with rfl | hp
  · exact h0
  · rw [List.mem_singleton.mp hp]
    exact h1

/-- A result that passes every gate. -/
def unchallenged : Executed := ⟨.succeeded, .none, .some ⟨.completed, .none, .none⟩⟩

/-- A request that has begun to advance selects and claims its step, executes it and links
its agent run. -/
def executing {n : ℕ} (i : ℕ) (response : Executed) : List (Label n) :=
  [⟨i, .proceed⟩, ⟨i, .proceed⟩, ⟨i, .executed .none response⟩, ⟨i, .proceed⟩]

/-- A request completes a step that it has moved to RUNNING. -/
def completing {n : ℕ} (i : ℕ) (k : Fin n) : List (Label n) :=
  [⟨i, .begin (.transition k .ready .running)⟩, ⟨i, .proceed⟩,
    ⟨i, .begin (.transition k .running .completed)⟩, ⟨i, .proceed⟩, ⟨i, .proceed⟩]

/-- One completion after the other. -/
def inTurn : List (Label 3) :=
  completing 0 0 ++ [⟨0, .proceed⟩, ⟨0, .proceed⟩, ⟨0, .proceed⟩] ++
    completing 0 1 ++ [⟨0, .proceed⟩, ⟨0, .proceed⟩, ⟨0, .proceed⟩, ⟨0, .proceed⟩]

end Novalton.Workflow
