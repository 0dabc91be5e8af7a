/-
The agent-run and model-run services as one execution runs them: the agent run, the
model runs it started and the tool call it proposed. `_transition` with its callers is
`modules/agents/service.py`, `start_run`, `mark_succeeded` and `mark_failed` are
`modules/model_usage/service.py`.

Every service commits by itself and refuses a row that is not in the status it
expects, so what a failed execution leaves behind is the rows of the services that
returned before it. `Settled` says what may be left.
-/
import Novalton.StepServices
import Mathlib.Logic.Function.Basic

namespace Novalton

open Prog

/-- The model runs an execution can start: the first call, one extra attempt (truncation
recovery or contract repair), and the tool continuation. -/
inductive ModelSlot where
  | first | extra | continuation
deriving DecidableEq, Repr

/-- The rows of one execution. -/
structure AgentDb where
  agent : Option AgentRunStatus
  failureCode : Option Text
  modelLinked : Bool
  models : ModelSlot → Option ModelRunStatus
  call : Option ToolExecutionStatus

/-- Before the agent run is created. -/
def AgentDb.new : AgentDb := ⟨.none, .none, false, fun _ => .none, .none⟩

/-- The update the agents' `_transition` makes. -/
def AgentDb.moveAgent (db : AgentDb) (target : AgentRunStatus) (code : Option Text) : AgentDb :=
  if target.terminal then { db with agent := .some target, failureCode := code }
  else { db with agent := .some target }

/-- The update of a model run's status. -/
def AgentDb.moveModel (db : AgentDb) (slot : ModelSlot) (target : ModelRunStatus) : AgentDb :=
  { db with models := Function.update db.models slot (.some target) }

def agentInvalidTransition : Exn := .application "agent_run_invalid_transition".toList

def agentInvalidFailure : Exn := .application "agent_run_invalid_failure".toList

def modelRunTerminal : Exn := .application "model_run_terminal".toList

def resourceNotFound : Exn := .application "resource_not_found".toList

/-! ## Agent runs -/

/-- `create_run`. -/
def createAgentRun (o : Outcome) : Prog AgentDb Unit := store o (·.moveAgent .created .none)

/-- `_transition`. -/
def agentTransition (o : Outcome) (expected target : AgentRunStatus) (code : Option Text) :
    Prog AgentDb Unit := do
  match o with
  | .before e => .raise e
  | o => do
    let db ← .read
    if db.agent != .some expected then .raise agentInvalidTransition
    else store o (·.moveAgent target code)

/-- `start_run`. -/
def startAgentRun (o : Outcome) : Prog AgentDb Unit := agentTransition o .created .running .none

/-- `succeed_run`. -/
def succeedAgentRun (o : Outcome) : Prog AgentDb Unit := agentTransition o .running .succeeded .none

/-- `suspend_run`. -/
def suspendAgentRun (o : Outcome) : Prog AgentDb Unit :=
  agentTransition o .running .waitingForApproval .none

/-- `fail_run`, and `_fail_agent` of the execution. -/
def failAgentRun (o : Outcome) (code : Text) : Prog AgentDb Unit :=
  if failureCodeValid code then agentTransition o .running .failed (.some code)
    else .raise agentInvalidFailure

/-- `cancel_run`. -/
def cancelAgentRun (o : Outcome) : Prog AgentDb Unit := do
  let db ← .read
  if db.agent = .some .created then agentTransition o .created .cancelled .none
  else agentTransition o .running .cancelled .none

/-- `link_model_run`: the update is flushed, and says whether it matched the row. -/
def linkModelRun (o : Outcome) : Prog AgentDb Bool := do
  .await o
  let db ← .read
  if db.agent = .some .running ∧ db.modelLinked = false then do
    .write fun db => { db with modelLinked := true }
    pure true
  else pure false

/-! ## Model runs -/

/-- `start_run` of the usage service. -/
def startModelRun (o : Outcome) (slot : ModelSlot) : Prog AgentDb Unit :=
  store o (·.moveModel slot .running)

/-- `_require_running`, then the update `f` of the running row. -/
def updateRunning (o : Outcome) (slot : ModelSlot) (f : AgentDb → AgentDb) : Prog AgentDb Unit := do
  match o with
  | .before e => .raise e
  | o => do
    let db ← .read
    match db.models slot with
    | .none => .raise resourceNotFound
    | .some .running => store o f
    | .some _ => .raise modelRunTerminal

/-- `set_execution_diagnostics`: of the row it writes, nothing is kept here. -/
def setExecutionDiagnostics (o : Outcome) (slot : ModelSlot) : Prog AgentDb Unit :=
  updateRunning o slot id

/-- `mark_succeeded`. Its checks of the result raise application errors before the
update. -/
def markSucceeded (o : Outcome) (slot : ModelSlot) : Prog AgentDb Unit :=
  updateRunning o slot (·.moveModel slot .succeeded)

/-- `mark_failed`. -/
def markFailed (o : Outcome) (slot : ModelSlot) (failure : ProviderFailure) : Prog AgentDb Unit :=
  updateRunning o slot (·.moveModel slot (if failure = .cancellation then .cancelled else .failed))

/-- `cancel_run` of the usage service. -/
def cancelModelRun (o : Outcome) (slot : ModelSlot) : Prog AgentDb Unit :=
  markFailed o slot .cancellation

/-! ## What an execution may leave -/

/-- Every started model run is terminal, and the agent run, once created, is terminal or
waits for the approval of a pending call. -/
structure AgentDb.Settled (db : AgentDb) : Prop where
  models : ∀ slot, (db.models slot).all ModelRunStatus.terminal = true
  agent : ∀ status, db.agent = .some status →
    status.terminal = true ∨ (status = .waitingForApproval ∧ db.call = .some .pendingApproval)

/-- Between two calls: the agent run is RUNNING and no model run is. -/
structure AgentDb.Idle (db : AgentDb) : Prop where
  running : db.agent = .some .running
  done : ∀ slot, (db.models slot).all ModelRunStatus.terminal = true

/-- During the call of `slot`. -/
structure AgentDb.Calling (db : AgentDb) (slot : ModelSlot) : Prop where
  running : db.agent = .some .running
  calling : db.models slot = .some .running
  done : ∀ other, other ≠ slot → (db.models other).all ModelRunStatus.terminal = true

namespace AgentDb
variable {db : AgentDb} {slot : ModelSlot}

@[simp] theorem moveAgent_agent (target : AgentRunStatus) (code : Option Text) :
    (db.moveAgent target code).agent = .some target := by
  unfold moveAgent
  split <;> rfl

@[simp] theorem moveAgent_models (target : AgentRunStatus) (code : Option Text) :
    (db.moveAgent target code).models = db.models := by
  unfold moveAgent
  split <;> rfl

@[simp] theorem moveAgent_call (target : AgentRunStatus) (code : Option Text) :
    (db.moveAgent target code).call = db.call := by
  unfold moveAgent
  split <;> rfl

@[simp] theorem moveModel_agent (target : ModelRunStatus) :
    (db.moveModel slot target).agent = db.agent := rfl

@[simp] theorem moveModel_self (target : ModelRunStatus) :
    (db.moveModel slot target).models slot = .some target :=
  Function.update_self ..

theorem moveModel_ne (target : ModelRunStatus) {other : ModelSlot} (h : other ≠ slot) :
    (db.moveModel slot target).models other = db.models other := Function.update_of_ne h ..

/-- A RUNNING agent run is stranded. -/
theorem not_settled (h : db.agent = .some .running) : ¬ db.Settled := by
  intro hs
  have := hs.agent .running h
  simp [AgentRunStatus.terminal] at this

theorem Idle.not_settled (h : db.Idle) : ¬ db.Settled := AgentDb.not_settled h.running

theorem Calling.not_settled (h : db.Calling slot) : ¬ db.Settled := AgentDb.not_settled h.running

/-- Between two calls the agent run can be brought to its end. -/
theorem Idle.move (h : db.Idle) {target : AgentRunStatus} (code : Option Text)
    (ht : target.terminal = true) :
    (db.moveAgent target code).Settled where
  models := by
    rw [moveAgent_models]
    exact h.done
  agent := by
    intro status hstatus
    rw [moveAgent_agent] at hstatus
    cases hstatus
    exact .inl ht

/-- Or suspended, when its call waits. -/
theorem Idle.suspend (h : db.Idle) (hcall : db.call = .some .pendingApproval) :
    (db.moveAgent .waitingForApproval .none).Settled where
  models := by
    rw [moveAgent_models]
    exact h.done
  agent := by
    intro status hstatus
    rw [moveAgent_agent] at hstatus
    cases hstatus
    exact .inr ⟨rfl, by rw [moveAgent_call, hcall]⟩

theorem Idle.start (h : db.Idle) (slot : ModelSlot) :
    (db.moveModel slot .running).Calling slot where
  running := h.running
  calling := moveModel_self _
  done := fun other hne => by
    rw [moveModel_ne _ hne]
    exact h.done other

theorem Calling.settle (h : db.Calling slot) {target : ModelRunStatus}
    (ht : target.terminal = true) :
    (db.moveModel slot target).Idle where
  running := h.running
  done := fun other => by
    by_cases hne : other = slot
    · rw [hne, moveModel_self]
      exact ht
    · rw [moveModel_ne _ hne]
      exact h.done other hne

end AgentDb

/-! ## The services, from a row in the status they expect -/

section
variable {s : Session AgentDb} {o : Outcome} {slot : ModelSlot}

theorem agentTransition_endsIn {expected target : AgentRunStatus} {code : Option Text}
    (hs : s.view.agent = .some expected) :
    agentTransition o expected target code s = endsIn o s (s.view.moveAgent target code) := by
  cases o with
  | before e => rfl
  | ok => simp [agentTransition, bind_apply, hs, store_endsIn]
  | after e => simp [agentTransition, bind_apply, hs, store_endsIn]

theorem failAgentRun_endsIn {code : Text} (hs : s.view.agent = .some .running)
    (hcode : failureCodeValid code = true) :
    failAgentRun o code s = endsIn o s (s.view.moveAgent .failed (.some code)) := by
  rw [failAgentRun, if_pos hcode]
  exact agentTransition_endsIn hs

theorem cancelAgentRun_endsIn (hs : s.view.agent = .some .running) :
    cancelAgentRun o s = endsIn o s (s.view.moveAgent .cancelled .none) := by
  have hread : (read : Prog AgentDb AgentDb) s = (.ok s.view, s) := rfl
  rw [cancelAgentRun, bind_ok hread, if_neg (by simp [hs])]
  exact agentTransition_endsIn hs

theorem updateRunning_endsIn {f : AgentDb → AgentDb} (hs : s.view.models slot = .some .running) :
    updateRunning o slot f s = endsIn o s (f s.view) := by
  cases o with
  | before e => rfl
  | ok => simp [updateRunning, bind_apply, hs, store_endsIn]
  | after e => simp [updateRunning, bind_apply, hs, store_endsIn]

/-- A model run that ended is not ended again. -/
theorem updateRunning_terminal {f : AgentDb → AgentDb} {status : ModelRunStatus}
    (hs : s.view.models slot = .some status) (ht : status.terminal = true) :
    ∃ e, updateRunning o slot f s = (.error e, s) := by
  cases o with
  | before e => exact ⟨e, rfl⟩
  | ok | after =>
    refine ⟨modelRunTerminal, ?_⟩
    cases status with
    | running => exact absurd ht (by decide)
    | succeeded | failed | cancelled => simp [updateRunning, bind_apply, hs]

end

end Novalton
