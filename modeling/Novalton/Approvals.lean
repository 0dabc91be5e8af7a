/-
One suspended tool call and the requests that decide it (`modules/approvals/routes.py`,
`modules/approvals/mutation_resume.py`, `resume_prepared_mutation` and
`reject_prepared_mutation` of `modules/tools/service.py`), with the execution that
suspends it (`execute_proposal`, `suspend_run`, the waiting branch of `advance`).

Any number of approve and reject requests run at once. Each is a sequence of
transactions: a step here reads and writes what one statement does, with its commit
where the statement is the last one of its transaction. Row locks of `SELECT … FOR
UPDATE` last until the next commit of their request, which may be the audit commit
inside a policy evaluation. A request keeps the tool call as it first loaded it.
-/
import Novalton.Transition
import Novalton.RowLock
import Novalton.Status

namespace Novalton.Approvals

/-- The kinds of suspended calls: a mutation has a fingerprint, and a call in a workflow
has a step run linked to its agent run. -/
structure Kind where
  mutation : Bool
  workflow : Bool
deriving DecidableEq, Repr

/-- A `ToolCall` row. `rejected` says that its failure code is `approval_rejected`. -/
structure Call where
  status : ToolExecutionStatus
  rejected : Bool
deriving DecidableEq, Repr

/-- The workspace file of the mutation. -/
inductive FileState where
  | preimage | candidate | other
deriving DecidableEq, Repr

/-- Where a request is: what it does next, with what it has loaded. `getForApproval` and
`getRun` are the two locked reads of the tool call and of the agent run. -/
inductive Pc where
  | idle
  | decide (decision : Decision) (current : ApprovalStatus)
  | linkedState (decision : Decision)
  | getForApproval (decision : Decision) (call : Call)
  | getRun (decision : Decision) (call : Call)
  | authorize
  | evaluate
  | satisfied
  | deny (decision : Decision) (run : AgentRunStatus)
  | setRunning
  | apply
  | finish (succeeded : Bool)
  | assignment
  | resumeRun
  | resumeStep
  | continueAssignment
  | continuing
  | deliver (succeeded : Bool)
  | failWaitingRun
  | failWaitingStep
  | failWorkflow
deriving DecidableEq, Repr

/-- Where the execution that proposes the call is. -/
inductive Execution where
  | createApproval | pend | suspend | link | wait | done
deriving DecidableEq, Repr

structure State where
  approval : Option ApprovalStatus
  call : Row Call
  agent : Row AgentRunStatus
  step : Option WorkflowStepRunStatus
  workflow : WorkflowRunStatus
  file : FileState
  replacements : ℕ
  continuations : ℕ
  completedEvents : ℕ
  execution : Execution
  requests : ℕ → Pc

/-- How the code a step calls answers: `proceed` is its normal return, `refuse` a failure
it handles, `fail` an exception or a cancellation that ends the request. -/
inductive Answer where
  | begin (decision : Decision)
  | proceed
  | refuse
  | evaluated (effect : PolicyEffect) (audited : Bool)
  | continued (status : AgentRunStatus)
  | fail
deriving DecidableEq, Repr

inductive Label where
  | request (i : ℕ) (answer : Answer)
  | execution (returns : Bool)
deriving DecidableEq, Repr

/-! ## What a request writes -/

/-- The write of one step. `running` stays uncommitted, and so do the locks; `endCall`,
`moveRun`, `moveStep` and `moveWorkflow` are the last writes of their transactions. -/
inductive Write where
  | none
  | commit
  | rollback
  | decide (status : ApprovalStatus)
  | lockCall
  | lockRun
  | running
  | endCall (call : Call)
  | moveRun (target : AgentRunStatus)
  | moveStep (target : WorkflowStepRunStatus)
  | moveWorkflow (target : WorkflowRunStatus)
  | replace
  | continuation
deriving DecidableEq, Repr

namespace State

def goto (s : State) (i : ℕ) (pc : Pc) : State :=
  { s with requests := Function.update s.requests i pc }

/-- What the end of a transaction of request `i` does to the locks. -/
def commit (s : State) (i : ℕ) : State :=
  { s with call := s.call.commit i, agent := s.agent.commit i }

def rollback (s : State) (i : ℕ) : State :=
  { s with call := s.call.rollback i, agent := s.agent.rollback i }

end State

/-- The write of request `i`, if the rows it needs are free. The completed event is in the
transaction that ends the call as SUCCEEDED. -/
def Write.run (s : State) (i : ℕ) : Write → Option State
  | .none => .some s
  | .commit => .some (s.commit i)
  | .rollback => .some (s.rollback i)
  | .decide status => .some { s with approval := .some status }
  | .lockCall => (s.call.lock i).map fun call => { s with call := call }
  | .lockRun => (s.agent.lock i).map fun agent => { s with agent := agent }
  | .running => (s.call.write i ⟨.running, false⟩).map fun call => { s with call := call }
  | .endCall row => (s.call.put i row).map fun call => { s with
      call := call
      agent := s.agent.commit i
      completedEvents := s.completedEvents + if row.status = .succeeded then 1 else 0 }
  | .moveRun target => (s.agent.put i target).map fun agent =>
    { s with agent := agent, call := s.call.commit i }
  | .moveStep target => .some { s with step := .some target }
  | .moveWorkflow target => .some { s with workflow := target }
  | .replace => .some { s with file := .candidate, replacements := s.replacements + 1 }
  | .continuation => .some { s with continuations := s.continuations + 1 }

/-- Whether `ck_tool_calls_lifecycle_shape` admits RUNNING: `set_state` leaves the
`completed_at` of an ended call in place, and a RUNNING one has none. -/
def Call.admitsRunning (call : Call) : Bool := !call.status.terminal

/-! ## The requests -/

/-- The step a request at `pc` takes on an answer. Leaving a request rolls its transaction
back; a raise is a leave too. -/
def next (kind : Kind) (s : State) (i : ℕ) (pc : Pc) (answer : Answer) : Option (Write × Pc) :=
  match pc, answer with
  | .idle, .begin decision => s.approval.map fun current => (.none, .decide decision current)
  | .idle, _ => .none
  | _, .fail => leave
  -- `_decide`: the row as it was loaded, then the conditional update
  | .decide decision current, .proceed =>
    let after := if kind.mutation then Pc.linkedState decision else .idle
    if current = decision.status then .some (.none, after)
    else if current ≠ .pending ∨ s.approval ≠ .some .pending then leave
    else .some (.decide decision.status, after)
  | .linkedState decision, .proceed =>
    if s.call.committed.status = .proposed then leave
    else
      match s.step with
      | .none => leave
      | .some step => if step = decision.doneStep then leave
          else .some (.none, .getForApproval decision s.call.committed)
  | .getForApproval decision call, .proceed => .some (.lockCall, .getRun decision call)
  | .getRun decision call, .proceed => .some (.lockRun, loaded decision call s.agent.committed)
  -- the registered tool, the permission, the fingerprints and the prepared input
  | .authorize, .proceed => .some (.none, .evaluate)
  | .authorize, .refuse => .some (.none, .deny .approve .waitingForApproval)
  -- the audit commit of the policy evaluation lets the locks go
  | .evaluate, .evaluated effect audited =>
    if effect ≠ .allow ∧ audited = false then .none
    else .some (if audited then .commit else .none,
      if effect = .requireConfirmation then .satisfied else .deny .approve .waitingForApproval)
  | .satisfied, .proceed => .some (.none, .setRunning)
  | .satisfied, .refuse => .some (.none, .deny .approve .waitingForApproval)
  | .deny decision run, .proceed =>
    .some (.endCall ⟨.blocked, decision = .reject⟩, if run = .waitingForApproval then
      .failWaitingRun else .idle)
  | .setRunning, .proceed =>
    if s.call.free i = false then .none
    else if s.call.committed.admitsRunning then .some (.running, .apply)
    else leave
  -- the replacement is one step, in the transaction that keeps RUNNING uncommitted
  | .apply, .proceed =>
    match s.file with
    | .preimage => .some (.replace, .finish true)
    | .candidate => .some (.none, .finish true)
    | .other => .some (.none, .finish false)
  | .apply, .refuse => .some (.none, .finish false)
  | .finish true, .proceed => .some (.endCall ⟨.succeeded, false⟩, .assignment)
  | .finish false, .proceed => .some (.endCall ⟨.failed, false⟩, .failWaitingRun)
  | .assignment, .proceed => .some (.none, .resumeRun)
  | .assignment, .refuse => .some (.none, .failWaitingRun)
  | .resumeRun, .proceed =>
    if s.agent.committed = .waitingForApproval then .some (.moveRun .running, .resumeStep)
      else leave
  | .resumeStep, .proceed =>
    if s.step = .some .waitingForApproval then .some (.moveStep .running, .continueAssignment)
      else leave
  | .continueAssignment, .proceed => .some (.continuation, .continuing)
  | .continuing, .continued status =>
    if status.terminal = false then .none
    else if s.agent.committed = .running then
      .some (.moveRun status, .deliver (status = .succeeded))
    else leave
  | .deliver true, .proceed =>
    if s.step = .some .running then .some (.moveStep .completed, .idle) else leave
  | .deliver false, .proceed =>
    if s.step = .some .running then .some (.moveStep .failed, .failWorkflow) else leave
  | .failWaitingRun, .proceed =>
    if s.agent.committed = .waitingForApproval then .some (.moveRun .failed, .failWaitingStep)
      else leave
  | .failWaitingStep, .proceed =>
    if s.step = .some .waitingForApproval then .some (.moveStep .failed, .failWorkflow) else leave
  | .failWorkflow, .proceed =>
    if s.workflow = .running then .some (.moveWorkflow .failed, .idle) else leave
  | _, _ => .none
where
  leave : Option (Write × Pc) := .some (.rollback, .idle)
  /-- What follows the two locked reads: the tool call as it was first loaded, and the
  agent run as it is. -/
  loaded (decision : Decision) (call : Call) (run : AgentRunStatus) : Pc :=
    let failWaiting := if run = .waitingForApproval then Pc.failWaitingRun else .idle
    match decision with
    | .approve =>
      if call.status = .succeeded then .assignment
      else if call.status ≠ .pendingApproval ∨ run ≠ .waitingForApproval then failWaiting
      else .authorize
    | .reject =>
      if call.status = .pendingApproval then .deny .reject run
      else if call.status ≠ .blocked ∨ call.rejected = false then .idle
      else failWaiting

/-- The step of request `i`. -/
def requestStep (kind : Kind) (s : State) (i : ℕ) (answer : Answer) : Option State :=
  match next kind s i (s.requests i) answer with
  | .some (write, pc) => (write.run s i).map fun t =>
    (if pc = .idle then t.rollback i else t).goto i pc
  | .none => .none

/-- The execution that proposes the call: the approval, the call's status and the
suspension are commits of their own, and the step is linked and suspended after it
returned. -/
def executionStep (kind : Kind) (s : State) (returns : Bool) : Option State :=
  if returns = false then .some { s with execution := .done }
  else
    match s.execution with
    | .createApproval => .some { s with approval := .some .pending, execution := .pend }
    | .pend =>
      if s.call.own = .none then
        .some { s with call := .idle ⟨.pendingApproval, false⟩, execution := .suspend }
      else .none
    | .suspend =>
      if s.agent.own = .none then
        .some { s with agent := .idle .waitingForApproval, execution := if kind.workflow then .link
          else .done }
      else .none
    | .link => .some { s with step := .some .running, execution := .wait }
    | .wait => .some { s with step := .some .waitingForApproval, execution := .done }
    | .done => .none

/-- The decisions of one call of a kind. -/
def system (kind : Kind) : System State Label where
  Init s := ∃ file, s = ⟨.none, .idle ⟨.proposed, false⟩, .idle .running, .none, .running, file, 0,
    0, 0, .createApproval, fun _ => .idle⟩
  step s
    | .request i answer => requestStep kind s i answer
    | .execution returns => executionStep kind s returns

/-- What the two locked reads lead to. -/
theorem loaded_cases (decision : Decision) (call : Call) (run : AgentRunStatus) :
    (next.loaded decision call run = .idle ∧ (run ≠ .waitingForApproval ∨
      (decision = .reject ∧ call.status ≠ .pendingApproval ∧
        (call.status ≠ .blocked ∨ call.rejected = false)))) ∨
    (next.loaded decision call run = .failWaitingRun ∧ run = .waitingForApproval ∧
      call.status ≠ .pendingApproval) ∨
    (next.loaded decision call run = .assignment ∧ decision = .approve ∧ call.status = .succeeded) ∨
    (next.loaded decision call run = .authorize ∧ decision = .approve ∧
      call.status = .pendingApproval ∧
      run = .waitingForApproval) ∨
    (next.loaded decision call run = .deny .reject run ∧ decision = .reject ∧
      call.status = .pendingApproval) := by
  unfold next.loaded
  cases decision with
  | approve =>
    dsimp only
    split
    · exact .inr (.inr (.inl ⟨rfl, rfl, ‹_›⟩))
    split
    · by_cases hrun : run = .waitingForApproval
      · refine .inr (.inl ⟨if_pos hrun, hrun, ?_⟩)
        rename_i h
        exact h.resolve_right (not_not_intro hrun)
      · exact .inl ⟨if_neg hrun, .inl hrun⟩
    · rename_i h
      push Not at h
      exact .inr (.inr (.inr (.inl ⟨rfl, rfl, h⟩)))
  | reject =>
    dsimp only
    split
    · exact .inr (.inr (.inr (.inr ⟨rfl, rfl, ‹_›⟩)))
    split
    · exact .inl ⟨rfl, .inr ⟨rfl, ‹_›, ‹_›⟩⟩
    · by_cases hrun : run = .waitingForApproval
      · exact .inr (.inl ⟨if_pos hrun, hrun, ‹_›⟩)
      · exact .inl ⟨if_neg hrun, .inl hrun⟩

/-! ## What a step can do -/

/-- The steps of a request, one constructor for each way `next` can go. -/
inductive Next (kind : Kind) (s : State) (i : ℕ) : Answer → Pc → Write → Pc → Prop where
  | begin (decision : Decision) (current : ApprovalStatus) (h : s.approval = .some current) :
    Next kind s i (.begin decision) .idle .none (.decide decision current)
  | fail (pc : Pc) (h : pc ≠ .idle) : Next kind s i .fail pc .rollback .idle
  | replay (decision : Decision) (h : kind.mutation = true) :
    Next kind s i .proceed (.decide decision decision.status) .none (.linkedState decision)
  | replayPlain (decision : Decision) (h : kind.mutation = false) :
    Next kind s i .proceed (.decide decision decision.status) .none .idle
  | conflict (decision : Decision) (current : ApprovalStatus) (hne : current ≠ decision.status)
    (h : current ≠ .pending ∨ s.approval ≠ .some .pending) :
    Next kind s i .proceed (.decide decision current) .rollback .idle
  | decide (decision : Decision) (h : s.approval = .some .pending) (hkind : kind.mutation = true) :
    Next kind s i .proceed (.decide decision .pending) (.decide decision.status)
      (.linkedState decision)
  | decidePlain (decision : Decision) (h : s.approval = .some .pending)
      (hkind : kind.mutation = false) :
    Next kind s i .proceed (.decide decision .pending) (.decide decision.status) .idle
  | unlinked (decision : Decision)
    (h : s.call.committed.status = .proposed ∨ s.step = .none ∨ s.step = .some decision.doneStep) :
    Next kind s i .proceed (.linkedState decision) .rollback .idle
  | linked (decision : Decision) (step : WorkflowStepRunStatus) (hcall : s.call.committed.status ≠
      .proposed)
    (hstep : s.step = .some step) (hdone : step ≠ decision.doneStep) :
    Next kind s i .proceed (.linkedState decision) .none (.getForApproval decision s.call.committed)
  | getForApproval (decision : Decision) (call : Call) :
    Next kind s i .proceed (.getForApproval decision call) .lockCall (.getRun decision call)
  | getRun (decision : Decision) (call : Call) :
    Next kind s i .proceed (.getRun decision call) .lockRun
      (next.loaded decision call s.agent.committed)
  | authorized : Next kind s i .proceed .authorize .none .evaluate
  | unauthorized : Next kind s i .refuse .authorize .none (.deny .approve .waitingForApproval)
  | evaluated (effect : PolicyEffect) (pc : Pc) (hpc : pc = .satisfied ∨
      pc = .deny .approve .waitingForApproval) :
    Next kind s i (.evaluated effect true) .evaluate .commit pc
  | unaudited :
      Next kind s i (.evaluated .allow false) .evaluate .none (.deny .approve .waitingForApproval)
  | satisfied : Next kind s i .proceed .satisfied .none .setRunning
  | unsatisfied : Next kind s i .refuse .satisfied .none (.deny .approve .waitingForApproval)
  | deny (decision : Decision) (run : AgentRunStatus) :
    Next kind s i .proceed (.deny decision run) (.endCall ⟨.blocked, decision = .reject⟩)
      (if run = .waitingForApproval then .failWaitingRun else .idle)
  | setRunning (hfree : s.call.free i = true) (h : s.call.committed.status.terminal = false) :
    Next kind s i .proceed .setRunning .running .apply
  | violates (h : s.call.committed.status.terminal = true) :
      Next kind s i .proceed .setRunning .rollback .idle
  | replace (h : s.file = .preimage) : Next kind s i .proceed .apply .replace (.finish true)
  | applied (answer : Answer) (succeeded : Bool) (h : s.file ≠ .preimage ∨ answer = .refuse) :
    Next kind s i answer .apply .none (.finish succeeded)
  | succeeded : Next kind s i .proceed (.finish true) (.endCall ⟨.succeeded, false⟩) .assignment
  | failed : Next kind s i .proceed (.finish false) (.endCall ⟨.failed, false⟩) .failWaitingRun
  | assigned : Next kind s i .proceed .assignment .none .resumeRun
  | unassigned : Next kind s i .refuse .assignment .none .failWaitingRun
  | resumeRun (h : s.agent.committed = .waitingForApproval) :
    Next kind s i .proceed .resumeRun (.moveRun .running) .resumeStep
  | claimed (h : s.agent.committed ≠ .waitingForApproval) :
      Next kind s i .proceed .resumeRun .rollback .idle
  | resumeStep (h : s.step = .some .waitingForApproval) :
    Next kind s i .proceed .resumeStep (.moveStep .running) .continueAssignment
  | stepMoved (h : s.step ≠ .some .waitingForApproval) :
      Next kind s i .proceed .resumeStep .rollback .idle
  | continueAssignment : Next kind s i .proceed .continueAssignment .continuation .continuing
  | continued (status : AgentRunStatus) (h : status.terminal = true) (hrun : s.agent.committed =
      .running) :
    Next kind s i (.continued status) .continuing (.moveRun status) (.deliver (status = .succeeded))
  | interrupted (status : AgentRunStatus) (h : s.agent.committed ≠ .running) :
    Next kind s i (.continued status) .continuing .rollback .idle
  | complete (h : s.step = .some .running) :
      Next kind s i .proceed (.deliver true) (.moveStep .completed) .idle
  | failStep (h : s.step = .some .running) :
      Next kind s i .proceed (.deliver false) (.moveStep .failed) .failWorkflow
  | undelivered (succeeded : Bool) (h : s.step ≠ .some .running) :
    Next kind s i .proceed (.deliver succeeded) .rollback .idle
  | failWaitingRun (h : s.agent.committed = .waitingForApproval) :
    Next kind s i .proceed .failWaitingRun (.moveRun .failed) .failWaitingStep
  | runMoved (h : s.agent.committed ≠ .waitingForApproval) :
      Next kind s i .proceed .failWaitingRun .rollback .idle
  | failWaitingStep (h : s.step = .some .waitingForApproval) :
    Next kind s i .proceed .failWaitingStep (.moveStep .failed) .failWorkflow
  | stepLeft (h : s.step ≠ .some .waitingForApproval) :
      Next kind s i .proceed .failWaitingStep .rollback .idle
  | failWorkflow : Next kind s i .proceed .failWorkflow (.moveWorkflow .failed) .idle
  | workflowMoved : Next kind s i .proceed .failWorkflow .rollback .idle

theorem next_fail {kind : Kind} {s : State} {i : ℕ} {pc pc' : Pc} {write : Write}
    (h : next kind s i pc .fail = .some (write, pc')) : Next kind s i .fail pc write pc' := by
  cases pc <;> cases h <;> exact .fail _ nofun

/-- Every way `next` can go is one of the listed ones. -/
theorem next_cases {kind : Kind} {s : State} {i : ℕ} {answer : Answer} {pc pc' : Pc} {write : Write}
    (h : next kind s i pc answer = .some (write, pc')) : Next kind s i answer pc write pc' := by
  cases answer with
  | fail => exact next_fail h
  | begin decision =>
    cases pc with
    | idle =>
      obtain ⟨current, hcurrent, heq⟩ := Option.map_eq_some_iff.mp h
      cases heq
      exact .begin decision current hcurrent
    | _ => cases h
  | refuse =>
    cases pc with
    | authorize => cases h; exact .unauthorized
    | satisfied => cases h; exact .unsatisfied
    | apply => cases h; exact .applied _ false (.inr rfl)
    | assignment => cases h; exact .unassigned
    | finish succeeded => cases succeeded <;> cases h
    | deliver succeeded => cases succeeded <;> cases h
    | _ => cases h
  | evaluated effect audited =>
    cases pc with
    | evaluate =>
      simp only [next] at h
      split at h
      · cases h
      rename_i hsilent
      cases audited with
      | true =>
        cases h
        refine .evaluated effect _ ?_
        split
        · exact .inl rfl
        · exact .inr rfl
      | false =>
        have hallow : effect = .allow := by
          by_contra hne
          exact hsilent ⟨hne, rfl⟩
        subst hallow
        cases h
        exact .unaudited
    | finish succeeded => cases succeeded <;> cases h
    | deliver succeeded => cases succeeded <;> cases h
    | _ => cases h
  | continued status =>
    cases pc with
    | continuing =>
      simp only [next] at h
      split at h
      · cases h
      split at h
      · cases h
        exact .continued status (by simpa using ‹¬ status.terminal = false›) ‹_›
      · cases h
        exact .interrupted status ‹_›
    | finish succeeded => cases succeeded <;> cases h
    | deliver succeeded => cases succeeded <;> cases h
    | _ => cases h
  | proceed =>
    cases pc with
    | idle => cases h
    | decide decision current =>
      simp only [next] at h
      split at h
      · subst_vars
        cases hkind : kind.mutation with
        | true => rw [hkind] at h; cases h; exact .replay decision hkind
        | false => rw [hkind] at h; cases h; exact .replayPlain decision hkind
      split at h
      · cases h
        exact .conflict decision current ‹_› ‹_›
      · rename_i hpending
        obtain ⟨rfl, happroval⟩ : current = .pending ∧ s.approval = .some .pending := by
          constructor
          · by_contra hne
            exact hpending (.inl hne)
          · by_contra hne
            exact hpending (.inr hne)
        cases hkind : kind.mutation with
        | true => rw [hkind] at h; cases h; exact .decide decision happroval hkind
        | false => rw [hkind] at h; cases h; exact .decidePlain decision happroval hkind
    | linkedState decision =>
      simp only [next] at h
      split at h
      · cases h
        exact .unlinked decision (.inl ‹_›)
      split at h
      · cases h
        exact .unlinked decision (.inr (.inl ‹_›))
      · rename_i hstep
        split at h
        · cases h
          exact .unlinked decision (.inr (.inr (by rw [hstep]; exact congrArg _ ‹_›)))
        · cases h
          exact .linked decision _ ‹_› hstep ‹_›
    | getForApproval decision call => cases h; exact .getForApproval decision call
    | getRun decision call => cases h; exact .getRun decision call
    | authorize => cases h; exact .authorized
    | evaluate => cases h
    | satisfied => cases h; exact .satisfied
    | deny decision run => cases h; exact .deny decision run
    | setRunning =>
      simp only [next] at h
      split at h
      · cases h
      rename_i hfree
      split at h
      · rename_i hadmits
        cases h
        exact .setRunning (by simpa using hfree) (by simpa [Call.admitsRunning] using hadmits)
      · rename_i hadmits
        cases h
        exact .violates (by simpa [Call.admitsRunning] using hadmits)
    | apply =>
      simp only [next] at h
      split at h
      · cases h
        exact .replace ‹_›
      · cases h
        exact .applied _ true (.inl (by simp [*]))
      · cases h
        exact .applied _ false (.inl (by simp [*]))
    | finish succeeded =>
      cases succeeded with
      | true => cases h; exact .succeeded
      | false => cases h; exact .failed
    | assignment => cases h; exact .assigned
    | resumeRun =>
      simp only [next] at h
      split at h
      · cases h
        exact .resumeRun ‹_›
      · cases h
        exact .claimed ‹_›
    | resumeStep =>
      simp only [next] at h
      split at h
      · cases h
        exact .resumeStep ‹_›
      · cases h
        exact .stepMoved ‹_›
    | continueAssignment => cases h; exact .continueAssignment
    | continuing => cases h
    | deliver succeeded =>
      cases succeeded with
      | true =>
        simp only [next] at h
        split at h
        · cases h
          exact .complete ‹_›
        · cases h
          exact .undelivered true ‹_›
      | false =>
        simp only [next] at h
        split at h
        · cases h
          exact .failStep ‹_›
        · cases h
          exact .undelivered false ‹_›
    | failWaitingRun =>
      simp only [next] at h
      split at h
      · cases h
        exact .failWaitingRun ‹_›
      · cases h
        exact .runMoved ‹_›
    | failWaitingStep =>
      simp only [next] at h
      split at h
      · cases h
        exact .failWaitingStep ‹_›
      · cases h
        exact .stepLeft ‹_›
    | failWorkflow =>
      simp only [next] at h
      split at h
      · cases h; exact .failWorkflow
      · cases h; exact .workflowMoved

/-- The steps of the execution. -/
theorem execution_cases {kind : Kind} {s t : State} {returns : Bool}
    (h : executionStep kind s returns = .some t) :
    t = { s with execution := .done } ∨
    (s.execution = .createApproval ∧
      t = { s with approval := .some .pending, execution := .pend }) ∨
    (s.execution = .pend ∧ s.call.own = .none ∧
      t = { s with call := .idle ⟨.pendingApproval, false⟩, execution := .suspend }) ∨
    (s.execution = .suspend ∧
      t = { s with agent := .idle .waitingForApproval, execution := if kind.workflow then .link
        else .done }) ∨
    (s.execution = .link ∧ t = { s with step := .some .running, execution := .wait }) ∨
    (s.execution = .wait ∧ t = { s with step := .some .waitingForApproval, execution :=
        .done }) := by
  unfold executionStep at h
  split at h
  · cases h; exact .inl rfl
  split at h
  next hat => cases h; exact .inr (.inl ⟨hat, rfl⟩)
  next hat =>
    split at h
    next hown => cases h; exact .inr (.inr (.inl ⟨hat, hown, rfl⟩))
    next => cases h
  next hat =>
    split at h
    next => cases h; exact .inr (.inr (.inr (.inl ⟨hat, rfl⟩)))
    next => cases h
  next hat => cases h; exact .inr (.inr (.inr (.inr (.inl ⟨hat, rfl⟩))))
  next hat => cases h; exact .inr (.inr (.inr (.inr (.inr ⟨hat, rfl⟩))))
  next => cases h

/-- The state after a step of request `i` that wrote `u` and goes on at `pc`. -/
def State.after (u : State) (i : ℕ) (pc : Pc) : State :=
  (if pc = .idle then u.rollback i else u).goto i pc

/-- A step of a request is one of its ways to go and the write that it makes. -/
theorem step_request {kind : Kind} {s t : State} {i : ℕ} {answer : Answer}
    (h : (system kind).step s (.request i answer) = .some t) :
    ∃ (write : Write) (pc : Pc) (u : State), Next kind s i answer (s.requests i) write pc ∧
      write.run s i = .some u ∧
      t = u.after i pc := by
  change requestStep kind s i answer = .some t at h
  unfold requestStep at h
  split at h
  next write pc hnext =>
    obtain ⟨u, hu, rfl⟩ := Option.map_eq_some_iff.mp h
    exact ⟨write, pc, u, next_cases hnext, hu, rfl⟩
  next => cases h

/-! ## What a write changes -/

section
variable {s u : State} {i j : ℕ} {pc : Pc} {write : Write}

@[simp] theorem after_self : (u.after i pc).requests i = pc := by simp [State.after, State.goto]

theorem after_ne (h : j ≠ i) : (u.after i pc).requests j = u.requests j := by
  unfold State.after
  split <;> simp [State.goto, State.rollback, h]

@[simp] theorem after_approval : (u.after i pc).approval = u.approval := by
  unfold State.after; split <;> rfl

@[simp] theorem after_step : (u.after i pc).step = u.step := by unfold State.after; split <;> rfl

@[simp] theorem after_workflow : (u.after i pc).workflow = u.workflow := by
  unfold State.after; split <;> rfl

@[simp] theorem after_file : (u.after i pc).file = u.file := by unfold State.after; split <;> rfl

@[simp] theorem after_replacements : (u.after i pc).replacements = u.replacements := by
  unfold State.after; split <;> rfl

@[simp] theorem after_continuations : (u.after i pc).continuations = u.continuations := by
  unfold State.after; split <;> rfl

@[simp] theorem after_completedEvents : (u.after i pc).completedEvents = u.completedEvents := by
  unfold State.after; split <;> rfl

@[simp] theorem after_execution : (u.after i pc).execution = u.execution := by
  unfold State.after; split <;> rfl

@[simp] theorem after_call : (u.after i pc).call.committed = u.call.committed := by
  unfold State.after
  split
  · exact Row.rollback_committed
  · rfl

@[simp] theorem after_agent : (u.after i pc).agent.committed = u.agent.committed := by
  unfold State.after
  split
  · exact Row.rollback_committed
  · rfl

@[simp] theorem Write.run_requests (h : write.run s i = .some u) : u.requests = s.requests := by
  cases write with
  | none | commit | rollback | decide | moveStep | moveWorkflow | replace | continuation =>
    cases h; rfl
  | lockCall | lockRun | running | endCall | moveRun =>
    obtain ⟨row, -, rfl⟩ := Option.map_eq_some_iff.mp h
    rfl

/-! ## The uncommitted RUNNING -/

/-- Between `set_state` RUNNING and the commit that ends the call. -/
def Pc.applying : Pc → Bool
  | .apply | .finish _ => true
  | _ => false

/-- The request that applies the mutation holds the tool call with its uncommitted RUNNING,
the committed call has not ended, and nobody else writes a locked row and lets it be. -/
structure Held (s : State) : Prop where
  agent : ∀ j status, s.agent.own ≠ .some (j, .some status)
  applying : ∀ j, (s.requests j).applying = true → ∃ row, s.call.own = .some (j, .some row)
  running : ∀ j row, s.call.own = .some (j, .some row) →
    (s.requests j).applying = true ∧ s.call.committed.status.terminal = false

/-- A request applies the mutation after it wrote RUNNING, until it ends the call. -/
theorem Next.applying {kind : Kind} {answer : Answer} {pc' : Pc}
    (h : Next kind s i answer pc write pc') (hpc : pc'.applying = true) : write = .running ∨
    (pc.applying = true ∧ (write = .none ∨ write = .replace)) := by
  cases h with
  | setRunning => exact .inl rfl
  | replace => exact .inr ⟨rfl, .inr rfl⟩
  | applied => exact .inr ⟨rfl, .inl rfl⟩
  | deny decision run => split at hpc <;> cases hpc
  | evaluated effect pc h => rcases h with rfl | rfl <;> cases hpc
  | getRun decision call =>
    rcases loaded_cases decision call s.agent.committed with h | h | h | h | h <;>
      rw [h.1] at hpc <;> cases hpc
  | _ => cases hpc

/-- What the applying request does next. -/
theorem Next.of_applying {kind : Kind} {answer : Answer} {pc' : Pc}
    (h : Next kind s i answer pc write pc') (hpc : pc.applying = true) :
    (pc'.applying = true ∧ (write = .none ∨ write = .replace)) ∨ (∃ row, write = .endCall row) ∨
      (write = .rollback ∧ pc' = .idle) := by
  cases h with
  | replace => exact .inl ⟨rfl, .inr rfl⟩
  | applied => exact .inl ⟨rfl, .inl rfl⟩
  | succeeded => exact .inr (.inl ⟨_, rfl⟩)
  | failed => exact .inr (.inl ⟨_, rfl⟩)
  | fail => exact .inr (.inr ⟨rfl, rfl⟩)
  | _ => cases hpc

theorem Write.run_agent_own {status : AgentRunStatus} (h : write.run s i = .some u)
    (hown : u.agent.own = .some (j, .some status)) : s.agent.own = .some (j, .some status) := by
  cases write with
  | none | decide | moveStep | moveWorkflow | replace | continuation => cases h; exact hown
  | commit => cases h; exact Row.own_of_commit hown
  | rollback => cases h; exact Row.own_of_rollback hown
  | lockCall | running =>
    obtain ⟨row, -, rfl⟩ := Option.map_eq_some_iff.mp h
    exact hown
  | lockRun =>
    obtain ⟨row, hrow, rfl⟩ := Option.map_eq_some_iff.mp h
    exact Row.written_of_lock hrow hown
  | endCall row =>
    obtain ⟨row', -, rfl⟩ := Option.map_eq_some_iff.mp h
    exact Row.own_of_commit hown
  | moveRun target =>
    obtain ⟨row, hrow, rfl⟩ := Option.map_eq_some_iff.mp h
    rw [show row = ⟨target, .none⟩ from (Row.put_eq hrow).1] at hown
    cases hown

theorem Write.run_call_own {row : Call} (h : write.run s i = .some u)
    (hown : u.call.own = .some (j, .some row)) :
    (write = .running ∧ j = i) ∨
      (s.call.own = .some (j, .some row) ∧ ∀ end_, write ≠ .endCall end_) := by
  cases write with
  | none | decide | moveStep | moveWorkflow | replace | continuation =>
    cases h; exact .inr ⟨hown, nofun⟩
  | commit => cases h; exact .inr ⟨Row.own_of_commit hown, nofun⟩
  | rollback => cases h; exact .inr ⟨Row.own_of_rollback hown, nofun⟩
  | lockRun =>
    obtain ⟨row', -, rfl⟩ := Option.map_eq_some_iff.mp h
    exact .inr ⟨hown, nofun⟩
  | lockCall =>
    obtain ⟨row', hrow, rfl⟩ := Option.map_eq_some_iff.mp h
    exact .inr ⟨Row.written_of_lock hrow hown, nofun⟩
  | running =>
    obtain ⟨row', hrow, rfl⟩ := Option.map_eq_some_iff.mp h
    dsimp only at hown
    rw [(Row.write_eq hrow).1] at hown
    cases hown
    exact .inl ⟨rfl, rfl⟩
  | endCall ended =>
    obtain ⟨row', hrow, rfl⟩ := Option.map_eq_some_iff.mp h
    dsimp only at hown
    rw [(Row.put_eq hrow).1] at hown
    cases hown
  | moveRun target =>
    obtain ⟨row', -, rfl⟩ := Option.map_eq_some_iff.mp h
    exact .inr ⟨Row.own_of_commit hown, nofun⟩

/-- A tool call another request holds stays as it is. -/
theorem Write.run_call_held {w : Option Call} (h : write.run s i = .some u)
    (hown : s.call.own = .some (j, w)) (hne : j ≠ i) : u.call = s.call := by
  have hfree : s.call.free i = false := by simp [Row.free, hown, hne]
  cases write with
  | none | decide | moveStep | moveWorkflow | replace | continuation => cases h; rfl
  | commit => cases h; exact Row.commit_ne hown hne
  | rollback => cases h; exact Row.rollback_ne hown hne
  | lockRun => obtain ⟨row, -, rfl⟩ := Option.map_eq_some_iff.mp h; rfl
  | lockCall =>
    obtain ⟨row, hrow, rfl⟩ := Option.map_eq_some_iff.mp h
    exact absurd (Row.lock_own hrow hown).2 hne
  | running =>
    obtain ⟨row, hrow, rfl⟩ := Option.map_eq_some_iff.mp h
    rw [(Row.write_eq hrow).2] at hfree
    cases hfree
  | endCall ended =>
    obtain ⟨row, hrow, rfl⟩ := Option.map_eq_some_iff.mp h
    rw [(Row.put_eq hrow).2] at hfree
    cases hfree
  | moveRun target =>
    obtain ⟨row, -, rfl⟩ := Option.map_eq_some_iff.mp h
    exact Row.commit_ne hown hne

theorem after_call_eq {w : Option Call} (hown : u.call.own = .some (j, w)) (hne : j ≠ i) :
    (u.after i pc).call = u.call := by
  unfold State.after
  split
  · exact Row.rollback_ne hown hne
  · rfl

theorem after_call_own {w : Option Call} (h : (u.after i pc).call.own = .some (j, w)) :
    u.call.own = .some (j, w) := by
  unfold State.after at h
  split at h
  · exact Row.own_of_rollback h
  · exact h

theorem after_agent_own {w : Option AgentRunStatus} (h : (u.after i pc).agent.own = .some (j, w)) :
    u.agent.own = .some (j, w) := by
  unfold State.after at h
  split at h
  · exact Row.own_of_rollback h
  · exact h

theorem Held.request {kind : Kind} {answer : Answer} {pc' : Pc} (hs : Held s)
    (hnext : Next kind s i answer (s.requests i) write pc') (hu : write.run s i = .some u) : Held
    (u.after i pc') := by
  have hrequests : ∀ {j}, j ≠ i → (u.after i pc').requests j = s.requests j := by
    intro j hne
    rw [after_ne hne, Write.run_requests hu]
  constructor
  · intro j status hown
    exact hs.agent j status (Write.run_agent_own hu (after_agent_own hown))
  · intro j hj
    by_cases hne : j = i
    · subst hne
      rw [after_self] at hj
      have hafter : (u.after j pc').call = u.call := by
        have hidle : pc' ≠ .idle := fun h => by rw [h] at hj; cases hj
        simp [State.after, hidle, State.goto]
      rw [hafter]
      rcases hnext.applying hj with rfl | ⟨hpc, rfl | rfl⟩
      · obtain ⟨row, hrow, rfl⟩ := Option.map_eq_some_iff.mp hu
        exact ⟨_, by rw [(Row.write_eq hrow).1]⟩
      · cases hu; exact hs.applying j hpc
      · cases hu; exact hs.applying j hpc
    · rw [hrequests hne] at hj
      obtain ⟨row, hown⟩ := hs.applying j hj
      have hcall := Write.run_call_held hu hown hne
      exact ⟨row, by rw [after_call_eq (by rw [hcall, hown]) hne, hcall, hown]⟩
  · intro j row hown
    have hown' := after_call_own hown
    rcases Write.run_call_own hu hown' with ⟨rfl, rfl⟩ | ⟨hheld, hend⟩
    · -- RUNNING was written on a call that had not ended
      obtain ⟨row', hrow, rfl⟩ := Option.map_eq_some_iff.mp hu
      rw [after_self, after_call]
      generalize hpc : s.requests j = pc at hnext
      cases hnext with
      | setRunning hfree hended => exact ⟨rfl, by rw [(Row.write_eq hrow).1]; exact hended⟩
    · obtain ⟨happlying, hended⟩ := hs.running j row hheld
      by_cases hne : j = i
      · subst hne
        rw [after_self, after_call]
        rcases hnext.of_applying happlying with ⟨hpc, rfl | rfl⟩ | ⟨ended, rfl⟩ | ⟨rfl, -⟩
        · cases hu; exact ⟨hpc, hended⟩
        · cases hu; exact ⟨hpc, hended⟩
        · exact absurd rfl (hend ended)
        · cases hu; exact absurd hown' Row.rollback_own_ne
      · have hcall := Write.run_call_held hu hheld hne
        rw [hrequests hne, after_call_eq (by rw [hcall, hheld]) hne, hcall]
        exact ⟨happlying, hended⟩

theorem Held.execution {kind : Kind} {returns : Bool} {t : State} (hs : Held s)
    (h : executionStep kind s returns = .some t) : Held t := by
  rcases execution_cases h with rfl | ⟨-, rfl⟩ | ⟨-, hown, rfl⟩ | ⟨-, rfl⟩ | ⟨-, rfl⟩ | ⟨-, rfl⟩
  case inr.inr.inl =>
    refine ⟨hs.agent, fun j hj => ?_, nofun⟩
    obtain ⟨row, hrow⟩ := hs.applying j hj
    rw [hown] at hrow
    cases hrow
  case inr.inr.inr.inl => exact ⟨nofun, hs.applying, hs.running⟩
  all_goals exact ⟨hs.agent, hs.applying, hs.running⟩

theorem held {kind : Kind} (h : (system kind).Reachable s) : Held s := by
  refine h.invariant ?_ ?_
  · rintro s ⟨file, rfl⟩
    exact ⟨nofun, nofun, nofun⟩
  · intro s a t hs hstep
    cases a with
    | request i answer =>
      obtain ⟨write, pc, u, hnext, hu, rfl⟩ := step_request hstep
      exact hs.request hnext hu
    | execution returns => exact hs.execution hstep

/-! ## The committed rows after a step -/

namespace Write

/-- The approval after a write. -/
def approval : Write → Option ApprovalStatus → Option ApprovalStatus
  | .decide status, _ => .some status
  | _, old => old

def call : Write → Call → Call
  | .endCall row, _ => row
  | _, old => old

def agent : Write → AgentRunStatus → AgentRunStatus
  | .moveRun target, _ => target
  | _, old => old

def step : Write → Option WorkflowStepRunStatus → Option WorkflowStepRunStatus
  | .moveStep target, _ => .some target
  | _, old => old

def file : Write → FileState → FileState
  | .replace, _ => .candidate
  | _, old => old

/-- What a write adds to the replacements, the continuations and the completed events. -/
def replacements : Write → ℕ
  | .replace => 1
  | _ => 0

def continuations : Write → ℕ
  | .continuation => 1
  | _ => 0

def completedEvents : Write → ℕ
  | .endCall row => if row.status = .succeeded then 1 else 0
  | _ => 0

end Write

/-- What a step of request `i` leaves of the committed rows, the file and the counts. -/
structure Effect (s : State) (i : ℕ) (write : Write) (pc : Pc) (t : State) : Prop where
  self : t.requests i = pc
  others : ∀ j, j ≠ i → t.requests j = s.requests j
  approval : t.approval = write.approval s.approval
  call : t.call.committed = write.call s.call.committed
  agent : t.agent.committed = write.agent s.agent.committed
  step : t.step = write.step s.step
  file : t.file = write.file s.file
  replacements : t.replacements = s.replacements + write.replacements
  continuations : t.continuations = s.continuations + write.continuations
  completedEvents : t.completedEvents = s.completedEvents + write.completedEvents
  execution : t.execution = s.execution

/-- A commit of a request that is not applying the mutation publishes nothing. -/
theorem Held.commit_call (hs : Held s) (hpc : (s.requests i).applying = false) :
    (s.call.commit i).committed = s.call.committed := by
  refine Row.commit_committed fun row hown => ?_
  rw [(hs.running i row hown).1] at hpc
  cases hpc

theorem Held.effect {kind : Kind} {answer : Answer} {pc' : Pc} (hs : Held s)
    (hnext : Next kind s i answer (s.requests i) write pc') (hu : write.run s i = .some u) :
    Effect s i write pc' (u.after i pc') := by
  have hothers : ∀ j, j ≠ i → (u.after i pc').requests j = s.requests j := by
    intro j hne
    rw [after_ne hne, Write.run_requests hu]
  have hagent : (s.agent.commit i).committed = s.agent.committed :=
    Row.commit_committed fun status => hs.agent i status
  cases write with
  | none | decide | moveStep | moveWorkflow | replace | continuation =>
    cases hu
    exact ⟨after_self, hothers, after_approval, after_call, after_agent, after_step, after_file,
      after_replacements, after_continuations, after_completedEvents, after_execution⟩
  | rollback =>
    cases hu
    exact ⟨after_self, hothers, after_approval, after_call.trans Row.rollback_committed,
      after_agent.trans Row.rollback_committed, after_step, after_file, after_replacements,
        after_continuations,
      after_completedEvents, after_execution⟩
  | commit =>
    have hpc : (s.requests i).applying = false := by
      by_contra h
      rcases hnext.of_applying (by simpa using h) with ⟨-, h | h⟩ | ⟨ended, h⟩ | ⟨h, -⟩ <;> cases h
    cases hu
    exact ⟨after_self, hothers, after_approval, after_call.trans (hs.commit_call hpc),
      after_agent.trans hagent, after_step, after_file, after_replacements, after_continuations,
        after_completedEvents, after_execution⟩
  | lockCall =>
    obtain ⟨row, hrow, rfl⟩ := Option.map_eq_some_iff.mp hu
    exact ⟨after_self, hothers, after_approval, after_call.trans (Row.lock_committed hrow),
      after_agent, after_step, after_file, after_replacements, after_continuations,
        after_completedEvents, after_execution⟩
  | lockRun =>
    obtain ⟨row, hrow, rfl⟩ := Option.map_eq_some_iff.mp hu
    exact ⟨after_self, hothers, after_approval, after_call,
      after_agent.trans (Row.lock_committed hrow), after_step, after_file, after_replacements,
        after_continuations, after_completedEvents, after_execution⟩
  | running =>
    obtain ⟨row, hrow, rfl⟩ := Option.map_eq_some_iff.mp hu
    have hcommitted : row.committed = s.call.committed := by rw [(Row.write_eq hrow).1]
    exact ⟨after_self, hothers, after_approval, after_call.trans hcommitted, after_agent,
      after_step, after_file, after_replacements, after_continuations, after_completedEvents,
        after_execution⟩
  | endCall ended =>
    obtain ⟨row, hrow, rfl⟩ := Option.map_eq_some_iff.mp hu
    have hcommitted : row.committed = ended := by rw [(Row.put_eq hrow).1]
    exact ⟨after_self, hothers, after_approval, after_call.trans hcommitted,
      after_agent.trans hagent, after_step, after_file, after_replacements, after_continuations,
        after_completedEvents, after_execution⟩
  | moveRun target =>
    have hpc : (s.requests i).applying = false := by
      by_contra h
      rcases hnext.of_applying (by simpa using h) with ⟨-, h | h⟩ | ⟨ended, h⟩ | ⟨h, -⟩ <;> cases h
    obtain ⟨row, hrow, rfl⟩ := Option.map_eq_some_iff.mp hu
    have hcommitted : row.committed = target := by rw [(Row.put_eq hrow).1]
    exact ⟨after_self, hothers, after_approval, after_call.trans (hs.commit_call hpc),
      after_agent.trans hcommitted, after_step, after_file, after_replacements, after_continuations,
        after_completedEvents, after_execution⟩

end

/-- The step of a request, from a reachable state. -/
theorem step_effect {kind : Kind} {s t : State} {i : ℕ} {answer : Answer}
    (hs : (system kind).Reachable s) (h : (system kind).step s (.request i answer) = .some t) :
    ∃ (write : Write) (pc : Pc), Next kind s i answer (s.requests i) write pc ∧
      Effect s i write pc t := by
  obtain ⟨write, pc, u, hnext, hu, rfl⟩ := step_request h
  exact ⟨write, pc, hnext, (held hs).effect hnext hu⟩

end Novalton.Approvals
