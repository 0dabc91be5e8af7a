/-
A live decision: where a suspended agent run waits, its call is pending and its approval
is still to be decided.

Only the requests of a mutation's approval, and only of one whose agent run is linked to
a step, take the run and the step out of WAITING_FOR_APPROVAL after the decision is
committed; those of any other call stop at the decision. Under a condition on the steps
of a run, every state without requests in progress has a live decision for what waits.
The invariant names, while the run waits on a decided approval, a request that will move
it; once the call has ended, one that nothing can make raise before it does.
-/
import Novalton.ApprovalsOnce

namespace Novalton.Approvals

variable {kind : Kind} {s t : State} {i j : ℕ} {answer : Answer} {pc pc' : Pc} {write : Write}

/-! ## The condition -/

/-- The request is past its decision. -/
def Pc.decided : Pc → Bool
  | .idle | .decide _ _ => false
  | _ => true

/-- The request took the agent run out of WAITING_FOR_APPROVAL. -/
def Pc.past : Pc → Bool
  | .resumeStep | .continueAssignment | .continuing | .deliver _ | .failWaitingStep
  | .failWorkflow => true
  | _ => false

/-- And moves the step next. -/
def Pc.settling : Pc → Bool
  | .resumeStep | .failWaitingStep => true
  | _ => false

/-- The request is past its decision and has not moved the agent run. -/
def Pc.responsible (pc : Pc) : Bool := pc.decided && !pc.past

/-- The request moves the agent run whatever has become of the call. -/
def Pc.secure : Pc → Bool
  | .deny _ _ | .assignment | .resumeRun | .failWaitingRun => true
  | _ => false

/-- The request will move what waits: the agent run, and after it the step. -/
def Pc.answers (s : State) (pc : Pc) : Bool :=
  if s.agent.committed = .waitingForApproval then
    if s.call.committed.status = .pendingApproval then pc.responsible else pc.secure
  else pc.settling

/-- The request takes the step of a decision. -/
def Decides (s : State) (i : ℕ) (answer : Answer) : Prop :=
  answer = .proceed ∧ s.approval = .some .pending ∧ ∃ decision,
    s.requests i = .decide decision .pending

/-- A decision is made on a mutation whose agent run and step are suspended, or once
nothing will be; and of the requests that will move what waits one at least does not
fail. -/
def Undisturbed (kind : Kind) (s : State) : Label → Prop
  | .request i answer =>
    (Decides s i answer →
      (kind.mutation = true ∧ s.agent.committed = .waitingForApproval ∧
        s.step = .some .waitingForApproval) ∨
      (s.execution = .done ∧ s.agent.committed ≠ .waitingForApproval)) ∧
    (answer = .fail → (s.requests i).answers s = true → ∃ j, j ≠ i ∧
      (s.requests j).answers s = true)
  | .execution _ => True

/-! ## Requests follow the decision -/

/-- Where a request can be, given the approval. -/
def Pc.follows (approval : Option ApprovalStatus) : Pc → Prop
  | .idle => True
  | .decide _ current => approval = .some current ∨ (current = .pending ∧ approval ≠ .none)
  | .linkedState decision | .getForApproval decision _ | .getRun decision _ | .deny decision _ =>
    approval = .some decision.status
  | .failWaitingRun | .failWaitingStep | .failWorkflow => approval = .some .approved ∨
      approval = .some .rejected
  | _ => approval = .some .approved

/-- A decision is final. -/
structure Final (s : State) : Prop where
  first : s.execution = .createApproval → s.approval = .none
  follows : ∀ j, (s.requests j).follows s.approval

/-- The step of a request follows the approval it leaves. -/
theorem Next.follows (h : Next kind s i answer pc write pc') (hpc : pc.follows s.approval) :
    pc'.follows (write.approval s.approval) := by
  cases h with
  | begin decision current h => exact .inl h
  | replay decision =>
    rcases hpc with h | h
    · exact h
    · exact absurd h.1 decision.status_ne_pending
  | decide decision => rfl
  | getRun decision call =>
    rcases loaded_cases decision call s.agent.committed with h | h | ⟨h, rfl, -⟩ | ⟨h, rfl, -⟩ |
      ⟨h, rfl, -⟩
    · rw [h.1]; trivial
    · rw [h.1]
      show s.approval = _ ∨ s.approval = _
      rw [show s.approval = .some decision.status from hpc]
      rcases decision.status_cases with h | h <;> simp [h]
    · rw [h]; exact hpc
    · rw [h]; exact hpc
    · rw [h]; exact hpc
  | deny decision run =>
    split
    · show s.approval = _ ∨ s.approval = _
      rw [show s.approval = .some decision.status from hpc]
      rcases decision.status_cases with h | h <;> simp [h]
    · trivial
  | evaluated effect pc h => rcases h with rfl | rfl <;> exact hpc
  | failed | unassigned => exact .inl hpc
  | failStep => exact .inl hpc
  | _ => trivial

/-- The other requests follow it too. -/
theorem Next.follows_others {pc'' : Pc} (h : Next kind s i answer pc write pc')
    (hother : pc''.follows s.approval) :
    pc''.follows (write.approval s.approval) := by
  cases h with
  | decide decision happroval | decidePlain decision happroval =>
    rw [happroval] at hother
    cases pc'' with
    | idle => trivial
    | decide decision' current =>
      rcases hother with h | h
      · exact .inr ⟨(Option.some.inj h).symm, nofun⟩
      · exact .inr ⟨h.1, nofun⟩
    | linkedState decision' | getForApproval decision' | getRun decision' | deny decision' =>
      exact absurd (Option.some.inj hother).symm decision'.status_ne_pending
    | failWaitingRun | failWaitingStep | failWorkflow => rcases hother with h | h <;> cases h
    | _ => cases hother
  | _ => exact hother

theorem final (h : (system kind).Reachable s) : Final s := by
  refine h.invariant_with (J := fun s => (system kind).Reachable s) (fun _ hs => hs) ?_ ?_
  · rintro s ⟨file, rfl⟩
    exact ⟨fun _ => rfl, fun _ => trivial⟩
  · intro s a t hs hI hstep
    cases a with
    | execution returns =>
      rcases execution_cases hstep with rfl | ⟨hat, rfl⟩ | ⟨-, -, rfl⟩ | ⟨-, rfl⟩ | ⟨-, rfl⟩ |
        ⟨-, rfl⟩
      case inr.inl =>
        refine ⟨nofun, fun j => ?_⟩
        have hj := hI.follows j
        rw [hI.first hat] at hj
        cases hpc : s.requests j with
        | idle => trivial
        | decide decision current =>
          rw [hpc] at hj
          rcases hj with h | h
          · cases h
          · exact absurd rfl h.2
        | failWaitingRun | failWaitingStep | failWorkflow => rw [hpc] at hj; rcases hj with h
        | h <;> cases h
        | _ => rw [hpc] at hj; cases hj
      case inr.inr.inr.inl =>
        refine ⟨fun h => ?_, hI.follows⟩
        dsimp only at h
        split at h <;> cases h
      all_goals exact ⟨nofun, hI.follows⟩
    | request i answer =>
      obtain ⟨write, pc, hnext, he⟩ := step_effect hs hstep
      refine ⟨fun h => ?_, fun j => ?_⟩
      · rw [he.execution] at h
        have hnone := hI.first h
        rw [he.approval]
        generalize s.requests i = pc' at hnext
        cases hnext with
        | decide decision happroval => rw [hnone] at happroval; cases happroval
        | decidePlain decision happroval => rw [hnone] at happroval; cases happroval
        | _ => exact hnone
      · rw [he.approval]
        by_cases hne : j = i
        · rw [hne, he.self]
          exact hnext.follows (hI.follows i)
        · rw [he.others j hne]
          exact hnext.follows_others (hI.follows j)

/-! ## Before the decision -/

/-- The approval is still to be decided, or not yet created. -/
def Open (s : State) : Prop := s.approval = .none ∨ s.approval = .some .pending

/-- What the execution has brought about, as long as the approval is open. -/
structure Suspending (s : State) : Prop where
  pend : s.execution = .pend → s.approval = .some .pending
  suspend : s.execution = .suspend → s.approval = .some .pending ∧
    s.call.committed.status = .pendingApproval
  linked : s.execution = .link ∨ s.execution = .wait → s.agent.committed = .waitingForApproval
  waits : s.agent.committed = .waitingForApproval →
    s.approval = .some .pending ∧ s.call.committed.status = .pendingApproval
  step : s.step ≠ .none → s.agent.committed = .waitingForApproval
  agent : s.agent.committed = .running ∨ s.agent.committed = .waitingForApproval

/-- While the execution runs the approval is open and no step waits. -/
structure Executing (s : State) : Prop where
  suspending : Open s → Suspending s
  isOpen : s.execution ≠ .done → Open s
  step : s.execution ≠ .done → s.step ≠ .some .waitingForApproval

/-- As long as the approval is open every request is before its decision. -/
theorem Final.undecided (h : Final s) (hopen : Open s) (i : ℕ) :
    (s.requests i).decided = false := by
  have hi := h.follows i
  have hnot : ∀ decision : Decision, s.approval ≠ .some decision.status := by
    intro decision h
    rcases hopen with h' | h' <;> rw [h'] at h
    · cases h
    · exact decision.status_ne_pending (Option.some.inj h).symm
  have happroved := hnot .approve
  have hrejected := hnot .reject
  generalize s.requests i = pc at hi
  cases pc with
  | idle | decide => rfl
  | linkedState decision | getForApproval decision | getRun decision | deny decision =>
    exact absurd hi (hnot decision)
  | failWaitingRun | failWaitingStep | failWorkflow => rcases hi with h | h <;> contradiction
  | _ => exact absurd hi happroved

/-- A request before its decision writes nothing but the decision. -/
theorem Next.of_undecided (h : Next kind s i answer pc write pc') (hpc : pc.decided = false) :
    (write = .none ∨ write = .rollback) ∨ (∃ decision : Decision, write = .decide decision.status ∧
      answer = .proceed ∧ s.approval = .some .pending ∧ pc = .decide decision .pending) := by
  cases h with
  | decide decision happroval => exact .inr ⟨decision, rfl, rfl, happroval, rfl⟩
  | decidePlain decision happroval => exact .inr ⟨decision, rfl, rfl, happroval, rfl⟩
  | begin | replay | replayPlain => exact .inl (.inl rfl)
  | fail | conflict => exact .inl (.inr rfl)
  | _ => cases hpc

theorem Executing.execution {returns : Bool} (hI : Executing s)
    (h : executionStep kind s returns = .some t) : Executing t := by
  rcases execution_cases h with rfl | ⟨hat, rfl⟩ | ⟨hat, -, rfl⟩ | ⟨hat, rfl⟩ | ⟨hat, rfl⟩ |
    ⟨hat, rfl⟩
  · refine ⟨fun hopen => ?_, fun h => absurd rfl h, fun h => absurd rfl h⟩
    have hs := hI.suspending hopen
    exact ⟨nofun, nofun, nofun, hs.waits, hs.step, hs.agent⟩
  all_goals
    have hrunning : s.execution ≠ .done := by rw [hat]; nofun
    have hs := hI.suspending (hI.isOpen hrunning)
    have hstep := hI.step hrunning
  · refine ⟨fun _ => ⟨fun _ => rfl, nofun, nofun, fun hwait => ⟨rfl, (hs.waits hwait).2⟩, hs.step,
      hs.agent⟩, fun _ => .inr rfl, fun _ => hstep⟩
  · have hpending := hs.pend hat
    exact ⟨fun _ => ⟨nofun, fun _ => ⟨hpending, rfl⟩, nofun, fun _ => ⟨hpending, rfl⟩, hs.step,
      hs.agent⟩, fun _ => .inr hpending, fun _ => hstep⟩
  · have hpending := hs.suspend hat
    refine ⟨fun _ => ⟨fun _ => hpending.1, fun _ => hpending, fun _ => rfl, fun _ => hpending,
      fun _ => rfl, .inr rfl⟩, fun _ => .inr hpending.1, fun _ => hstep⟩
  · have hwait := hs.linked (.inl hat)
    exact ⟨fun _ => ⟨nofun, nofun, fun _ => hwait, hs.waits, fun _ => hwait, hs.agent⟩,
      fun _ => hI.isOpen hrunning, fun _ => nofun⟩
  · have hwait := hs.linked (.inr hat)
    exact ⟨fun _ => ⟨nofun, nofun, nofun, hs.waits, fun _ => hwait, hs.agent⟩,
      fun h => absurd rfl h, fun h => absurd rfl h⟩

theorem Executing.request (hI : Executing s) (hfinal : Final s)
    (hcond : Undisturbed kind s (.request i answer))
    (hnext : Next kind s i answer (s.requests i) write pc) (he : Effect s i write pc t) :
    Executing t := by
  have hexecution := he.execution
  by_cases hs : Open s
  · rcases hnext.of_undecided (hfinal.undecided hs i) with hsame |
      ⟨decision, rfl, hanswer, hpending, hat⟩
    · -- nothing is written
      have happroval : t.approval = s.approval := by
        rw [he.approval]; rcases hsame with rfl | rfl <;> rfl
      have hcall : t.call.committed = s.call.committed := by
        rw [he.call]; rcases hsame with rfl | rfl <;> rfl
      have hagent : t.agent.committed = s.agent.committed := by
        rw [he.agent]; rcases hsame with rfl | rfl <;> rfl
      have hstep : t.step = s.step := by rw [he.step]; rcases hsame with rfl | rfl <;> rfl
      have hsus := hI.suspending hs
      refine ⟨fun _ => ⟨?_, ?_, ?_, ?_, ?_, ?_⟩, fun _ => by rw [Open, happroval]; exact hs, ?_⟩
      · rw [hexecution, happroval]; exact hsus.pend
      · rw [hexecution, happroval, hcall]; exact hsus.suspend
      · rw [hexecution, hagent]; exact hsus.linked
      · rw [hagent, happroval, hcall]; exact hsus.waits
      · rw [hstep, hagent]; exact hsus.step
      · rw [hagent]; exact hsus.agent
      · rw [hexecution, hstep]; exact hI.step
    · -- a decision is made when the execution is done
      have hdone : s.execution = .done := by
        rcases hcond.1 ⟨hanswer, hpending, decision, hat⟩ with ⟨-, -, hwait⟩ | ⟨hdone, -⟩
        · by_contra hne
          exact hI.step hne hwait
        · exact hdone
      refine ⟨fun hopen => ?_, fun h => absurd (hexecution.trans hdone) h,
        fun h => absurd (hexecution.trans hdone) h⟩
      unfold Open at hopen
      rw [he.approval] at hopen
      rcases hopen with h | h
      · cases h
      · exact absurd (Option.some.inj h) decision.status_ne_pending
  · have hdone : s.execution = .done := by
      by_contra hne
      exact hs (hI.isOpen hne)
    refine ⟨fun hopen => absurd ?_ hs, fun h => absurd (hexecution.trans hdone) h,
      fun h => absurd (hexecution.trans hdone) h⟩
    unfold Open at hopen ⊢
    rw [he.approval] at hopen
    generalize s.requests i = pc' at hnext
    cases hnext with
    | decide decision happroval | decidePlain decision happroval => exact .inr happroval
    | _ => exact hopen

theorem executing (h : (system kind).ReachableUnder (Undisturbed kind) s) : Executing s := by
  refine h.invariant_with (J := fun s => (system kind).Reachable s) (fun _ hs => hs.reachable) ?_ ?_
  · rintro s ⟨file, rfl⟩
    exact ⟨fun _ => ⟨nofun, nofun, nofun, nofun, fun h => absurd rfl h, .inl rfl⟩,
      fun _ => .inl rfl, fun _ => nofun⟩
  · intro s a t hs hI hcond hstep
    cases a with
    | execution returns => exact hI.execution hstep
    | request i answer =>
      obtain ⟨write, pc, hnext, he⟩ := step_effect hs hstep
      exact hI.request (final hs) hcond hnext he

/-! ## After the decision -/

/-- The tool call as the request has loaded it, as long as it looks at it. -/
def Pc.loaded : Pc → Option Call
  | .getForApproval _ call | .getRun _ call => .some call
  | _ => .none

/-- What holds from the decision on. -/
structure Answered (s : State) : Prop where
  call : s.call.committed.status = .pendingApproval ∨ s.call.committed.status.terminal = true
  rejected : s.approval = .some .rejected →
    s.call.committed.status = .pendingApproval ∨ s.call.committed = ⟨.blocked, true⟩
  loaded : ∀ j call, (s.requests j).loaded = .some call →
    (s.call.committed.status = .pendingApproval → call.status = .pendingApproval) ∧
      (s.approval = .some .rejected → call.status = .pendingApproval ∨ call = ⟨.blocked, true⟩)
  denies : ∀ j decision run, s.requests j = .deny decision run → run ≠ .waitingForApproval →
    s.agent.committed ≠ .waitingForApproval
  past : ∀ j, (s.requests j).past = true → s.agent.committed ≠ .waitingForApproval
  step : s.agent.committed = .waitingForApproval → s.step = .some .waitingForApproval
  linked : s.step ≠ .none
  answers : s.agent.committed = .waitingForApproval ∨ s.step = .some .waitingForApproval →
    ∃ j, (s.requests j).answers s = true

/-- The execution has ended without a suspension, and requests get no further than their
decision. -/
structure Quiet (s : State) : Prop where
  execution : s.execution = .done
  agent : s.agent.committed = .running
  step : s.step = .none
  unlinked : ∀ j, (s.requests j).unlinked = true

/-- The end of a call: a denial, or the end of its mutation. -/
theorem Next.endsCall {row : Call} (h : Next kind s i answer pc (.endCall row) pc') :
    (∃ decision run, pc = .deny decision run ∧ row = ⟨.blocked, decision = .reject⟩ ∧
      pc' = if run = .waitingForApproval then .failWaitingRun else .idle) ∨
    (∃ succeeded, pc = .finish succeeded ∧ row.status.terminal = true ∧ pc'.secure = true) := by
  cases h with
  | deny decision run => exact .inl ⟨decision, run, rfl, rfl, rfl⟩
  | succeeded => exact .inr ⟨true, rfl, rfl, rfl⟩
  | failed => exact .inr ⟨false, rfl, rfl, rfl⟩

/-- A move of the agent run: out of WAITING_FOR_APPROVAL, or to the continuation's end. -/
theorem Next.movesRun {target : AgentRunStatus}
    (h : Next kind s i answer pc (.moveRun target) pc') :
    target ≠ .waitingForApproval ∧ pc'.past = true ∧
      (s.agent.committed = .waitingForApproval → pc'.settling = true) := by
  cases h with
  | resumeRun => exact ⟨nofun, rfl, fun _ => rfl⟩
  | failWaitingRun => exact ⟨nofun, rfl, fun _ => rfl⟩
  | continued status hterminal hrun =>
    refine ⟨fun h => ?_, rfl, fun h => ?_⟩
    · rw [h] at hterminal
      cases hterminal
    · rw [hrun] at h
      cases h

/-- The step is moved by the request that moved the agent run. -/
theorem Next.movesStep {target : WorkflowStepRunStatus}
    (h : Next kind s i answer pc (.moveStep target) pc') :
    target ≠ .waitingForApproval ∧ pc.past = true := by
  cases h <;> exact ⟨nofun, rfl⟩

theorem Next.past (h : Next kind s i answer pc write pc') (hpc : pc'.past = true) :
    pc.past = true ∨ ∃ target, write = .moveRun target := by
  cases h with
  | resumeRun | failWaitingRun | continued => exact .inr ⟨_, rfl⟩
  | resumeStep | continueAssignment | failStep | failWaitingStep => exact .inl rfl
  | evaluated effect pc h => rcases h with rfl | rfl <;> cases hpc
  | deny decision run => split at hpc <;> cases hpc
  | getRun decision call =>
    rcases loaded_cases decision call s.agent.committed with h | h | h | h | h <;>
      rw [h.1] at hpc <;> cases hpc
  | _ => cases hpc

theorem Next.loaded {call : Call} (h : Next kind s i answer pc write pc')
    (hpc : pc'.loaded = .some call) :
    (pc.loaded = .some call ∨ call = s.call.committed) ∧ write.call = Write.call .none := by
  cases h with
  | linked decision step => exact ⟨.inr (Option.some.inj hpc).symm, rfl⟩
  | getForApproval decision call => exact ⟨.inl hpc, rfl⟩
  | evaluated effect pc h => rcases h with rfl | rfl <;> cases hpc
  | deny decision run => split at hpc <;> cases hpc
  | getRun decision call =>
    rcases loaded_cases decision call s.agent.committed with h | h | h | h | h <;>
      rw [h.1] at hpc <;> cases hpc
  | _ => cases hpc

theorem Next.denies {decision : Decision} {run : AgentRunStatus}
    (h : Next kind s i answer pc write pc') (hpc : pc' = .deny decision run) :
    (run = .waitingForApproval ∨ run = s.agent.committed) ∧
      write.agent = Write.agent .none := by
  cases h with
  | unauthorized | unsatisfied | unaudited => cases hpc; exact ⟨.inl rfl, rfl⟩
  | evaluated effect pc h =>
    rcases h with rfl | rfl
    · cases hpc
    · cases hpc; exact ⟨.inl rfl, rfl⟩
  | deny decision run => split at hpc <;> cases hpc
  | getRun decision call =>
    rcases loaded_cases decision call s.agent.committed with h | h | h | h | h <;>
      rw [h.1] at hpc <;> cases hpc
    exact ⟨.inr rfl, rfl⟩
  | _ => cases hpc

/-- A request that is responsible for a pending call stays so until it moves the agent run. -/
theorem Next.responsible (h : Next kind s i answer pc write pc') (hpc : pc.responsible = true)
    (hfail : answer ≠ .fail) (hagent : s.agent.committed = .waitingForApproval)
    (hstep : s.step = .some .waitingForApproval)
    (hcall : s.call.committed.status = .pendingApproval)
    (hloaded : ∀ call, pc.loaded = .some call → call.status = .pendingApproval)
    (hdenies : ∀ decision run, pc = .deny decision run → run = .waitingForApproval) :
    pc'.responsible = true ∨ pc'.settling = true := by
  cases h with
  | fail => exact absurd rfl hfail
  | unlinked decision h =>
    rcases h with h | h | h
    · rw [hcall] at h; cases h
    · rw [hstep] at h; cases h
    · rw [hstep] at h; cases decision <;> cases h
  | violates h => rw [hcall] at h; cases h
  | claimed h | runMoved h => exact absurd hagent h
  | resumeRun | failWaitingRun => exact .inr rfl
  | evaluated effect pc h => rcases h with rfl | rfl <;> exact .inl rfl
  | deny decision run =>
    rw [if_pos (hdenies decision run rfl)]
    exact .inl rfl
  | getRun decision call =>
    have hpending := hloaded call rfl
    rcases loaded_cases decision call s.agent.committed with ⟨h, hrun | hcall'⟩ | h | h | h | h
    · exact absurd hagent hrun
    · exact absurd hpending hcall'.2.1
    all_goals rw [h.1]; exact .inl rfl
  | linked | getForApproval | authorized | unauthorized | unaudited | satisfied | unsatisfied
  | setRunning | replace
    | applied | succeeded | failed | assigned | unassigned => exact .inl rfl
  | _ => cases hpc

/-- A secure request stays so until it moves the agent run. -/
theorem Next.secure (h : Next kind s i answer pc write pc') (hpc : pc.secure = true)
    (hfail : answer ≠ .fail) (hagent : s.agent.committed = .waitingForApproval)
    (hdenies : ∀ decision run, pc = .deny decision run → run = .waitingForApproval) :
    pc'.secure = true ∨ pc'.settling = true := by
  cases h with
  | fail => exact absurd rfl hfail
  | claimed h | runMoved h => exact absurd hagent h
  | resumeRun | failWaitingRun => exact .inr rfl
  | deny decision run =>
    rw [if_pos (hdenies decision run rfl)]
    exact .inl rfl
  | assigned | unassigned => exact .inl rfl
  | _ => cases hpc

/-- The request that moved the agent run moves the step. -/
theorem Next.settling (h : Next kind s i answer pc write pc') (hpc : pc.settling = true)
    (hfail : answer ≠ .fail) (hstep : s.step = .some .waitingForApproval) :
    ∃ target, write = .moveStep target := by
  cases h with
  | fail => exact absurd rfl hfail
  | resumeStep | failWaitingStep => exact ⟨_, rfl⟩
  | stepMoved h | stepLeft h => exact absurd hstep h
  | _ => cases hpc

section
variable (hnext : Next kind s i answer (s.requests i) write pc) (he : Effect s i write pc t)
include hnext he

/-- The agent run does not come back to WAITING_FOR_APPROVAL. -/
theorem Effect.agent_waiting (h : t.agent.committed = .waitingForApproval) :
    s.agent.committed = .waitingForApproval ∧ ∀ target, write ≠ .moveRun target := by
  have hagent := he.agent
  rw [h] at hagent
  cases write with
  | moveRun target => exact absurd hagent.symm hnext.movesRun.1
  | _ => exact ⟨hagent.symm, nofun⟩

/-- Nor does the step. -/
theorem Effect.step_waiting (h : t.step = .some .waitingForApproval) :
    s.step = .some .waitingForApproval ∧ ∀ target, write ≠ .moveStep target := by
  have hstep := he.step
  rw [h] at hstep
  cases write with
  | moveStep target => exact absurd (Option.some.inj hstep).symm hnext.movesStep.1
  | _ => exact ⟨hstep.symm, nofun⟩

/-- A call leaves PENDING_APPROVAL for its end. -/
theorem Effect.call_pending (h : t.call.committed.status = .pendingApproval) :
    s.call.committed = t.call.committed := by
  have hcall := he.call
  cases write with
  | endCall row =>
    change t.call.committed = row at hcall
    rw [hcall] at h
    rcases hnext.endsCall with ⟨decision, run, -, rfl, -⟩ | ⟨-, -, hterminal, -⟩
    · cases h
    · rw [h] at hterminal
      cases hterminal
  | _ => exact hcall.symm

end

theorem Next.approval (h : Next kind s i answer pc write pc') (hopen : ¬ Open s) :
    write.approval s.approval = s.approval := by
  cases h with
  | decide decision happroval | decidePlain decision happroval =>
    exact absurd (.inr happroval) hopen
  | _ => rfl

/-- A request that answers for what waits goes on to, as long as its steps do not move it. -/
theorem Answered.goesOn (hI : Answered s) (hnext : Next kind s i answer (s.requests i) write pc)
    (hanswers : (s.requests i).answers s = true) (hfail : answer ≠ .fail)
    (hwait : s.agent.committed = .waitingForApproval ∨ s.step = .some .waitingForApproval)
    (hrun : s.agent.committed = .waitingForApproval → ∀ target, write ≠ .moveRun target)
    (hstep : s.agent.committed ≠ .waitingForApproval → ∀ target, write ≠ .moveStep target) :
    pc.answers s = true := by
  have hdenies : s.agent.committed = .waitingForApproval →
      ∀ decision run, s.requests i = .deny decision run → run = .waitingForApproval := by
    intro hwait decision run hpc
    by_contra hne
    exact hI.denies i decision run hpc hne hwait
  -- only a move of the agent run leads past it
  have hpast : s.agent.committed = .waitingForApproval → pc.settling = false := by
    intro hwait
    by_contra hsettling
    rcases hnext.past (by cases pc <;> first | rfl | exact absurd rfl hsettling) with h |
      ⟨target, h⟩
    · exact hI.past i h hwait
    · exact hrun hwait target h
  unfold Pc.answers at hanswers ⊢
  split
  next hagent =>
    rw [if_pos hagent] at hanswers
    split
    next hcall =>
      rw [if_pos hcall] at hanswers
      have hgoes := hnext.responsible hanswers hfail hagent (hI.step hagent) hcall
        (fun call h => (hI.loaded i call h).1 hcall) (hdenies hagent)
      exact hgoes.resolve_right (by rw [hpast hagent]; nofun)
    next hcall =>
      rw [if_neg hcall] at hanswers
      exact (hnext.secure hanswers hfail hagent (hdenies hagent)).resolve_right
        (by rw [hpast hagent]; nofun)
  next hagent =>
    rw [if_neg hagent] at hanswers
    obtain ⟨target, h⟩ := hnext.settling hanswers hfail (hwait.resolve_left hagent)
    exact absurd h (hstep hagent target)

theorem Answered.request (hI : Answered s) (hfinal : Final s) (hopen : ¬ Open s)
    (hcond : Undisturbed kind s (.request i answer))
    (hnext : Next kind s i answer (s.requests i) write pc) (he : Effect s i write pc t) :
    Answered t := by
  have happroval : t.approval = s.approval := by rw [he.approval, hnext.approval hopen]
  have hfollows := hfinal.follows i
  constructor
  case call =>
    rw [he.call]
    cases write with
    | endCall row =>
      refine .inr ?_
      rcases hnext.endsCall with ⟨decision, run, -, rfl, -⟩ | ⟨-, -, hterminal, -⟩
      · rfl
      · exact hterminal
    | _ => exact hI.call
  case rejected =>
    intro hrejected
    rw [happroval] at hrejected
    rw [he.call]
    cases write with
    | endCall row =>
      rcases hnext.endsCall with ⟨decision, run, hpc, rfl, -⟩ | ⟨succeeded, hpc, -⟩
      · rw [hpc] at hfollows
        rw [show s.approval = .some decision.status from hfollows] at hrejected
        cases decision with
        | approve => cases hrejected
        | reject => exact .inr rfl
      · rw [hpc] at hfollows
        rw [show s.approval = .some .approved from hfollows] at hrejected
        cases hrejected
    | _ => exact hI.rejected hrejected
  case loaded =>
    intro j call hj
    have hold : ∀ {c : Call}, (∃ k, (s.requests k).loaded = .some c) ∨ c = s.call.committed →
        (t.call.committed.status = .pendingApproval → c.status = .pendingApproval) ∧
          (t.approval = .some .rejected → c.status = .pendingApproval ∨ c = ⟨.blocked, true⟩) := by
      rintro c (⟨k, hk⟩ | rfl)
      · refine ⟨fun h => ?_, fun h => (hI.loaded k c hk).2 (happroval ▸ h)⟩
        have hsame := Effect.call_pending hnext he h
        exact (hI.loaded k c hk).1 (by rw [hsame, h])
      · refine ⟨fun h => ?_, fun h => hI.rejected (happroval ▸ h)⟩
        rw [Effect.call_pending hnext he h, h]
    by_cases hne : j = i
    · rw [hne, he.self] at hj
      exact hold ((hnext.loaded hj).1.imp (fun h => ⟨i, h⟩) id)
    · rw [he.others j hne] at hj
      exact hold (.inl ⟨j, hj⟩)
  case denies =>
    intro j decision run hj hrun hwait
    have hwait' := (Effect.agent_waiting hnext he hwait).1
    by_cases hne : j = i
    · rw [hne, he.self] at hj
      rcases (hnext.denies hj).1 with h | h
      · exact hrun h
      · exact hrun (h.trans hwait')
    · rw [he.others j hne] at hj
      exact hI.denies j decision run hj hrun hwait'
  case past =>
    intro j hj hwait
    obtain ⟨hwait', hmove⟩ := Effect.agent_waiting hnext he hwait
    by_cases hne : j = i
    · rw [hne, he.self] at hj
      rcases hnext.past hj with h | ⟨target, h⟩
      · exact hI.past i h hwait'
      · exact hmove target h
    · rw [he.others j hne] at hj
      exact hI.past j hj hwait'
  case step =>
    intro hwait
    have hwait' := (Effect.agent_waiting hnext he hwait).1
    rw [he.step]
    cases write with
    | moveStep target => exact absurd hwait' (hI.past i hnext.movesStep.2)
    | _ => exact hI.step hwait'
  case linked =>
    rw [he.step]
    cases write with
    | moveStep target => nofun
    | _ => exact hI.linked
  case answers =>
    intro hwait
    by_cases hmoved : s.agent.committed = .waitingForApproval ∧
      t.agent.committed ≠ .waitingForApproval
    · -- the step moved the agent run, and its request moves the step
      have hagent := he.agent
      cases write with
      | moveRun target =>
        refine ⟨i, ?_⟩
        rw [he.self, Pc.answers, if_neg hmoved.2]
        exact hnext.movesRun.2.2 hmoved.1
      | _ => exact absurd (hagent.trans hmoved.1) hmoved.2
    have hwait' : s.agent.committed = .waitingForApproval ∨ s.step = .some .waitingForApproval :=
      hwait.imp (fun h => (Effect.agent_waiting hnext he h).1)
        (fun h => (Effect.step_waiting hnext he h).1)
    have hagent : t.agent.committed = .waitingForApproval ↔
        s.agent.committed = .waitingForApproval := by
      constructor
      · exact fun h => (Effect.agent_waiting hnext he h).1
      · intro h
        by_contra hne
        exact hmoved ⟨h, hne⟩
    by_cases hended : s.agent.committed = .waitingForApproval ∧
      s.call.committed.status = .pendingApproval ∧
        t.call.committed.status ≠ .pendingApproval
    · -- the step ended the call, and its request is secure
      obtain ⟨hbefore, hpending, hnot⟩ := hended
      have hcall := he.call
      cases write with
      | endCall row =>
        refine ⟨i, ?_⟩
        rw [he.self, Pc.answers, if_pos (hagent.mpr hbefore), if_neg hnot]
        rcases hnext.endsCall with ⟨decision, run, hpc, -, hpc'⟩ | ⟨-, -, -, hsecure⟩
        · have hrun : run = .waitingForApproval := by
            by_contra hne
            exact hI.denies i decision run hpc hne hbefore
          rw [hpc', if_pos hrun]
          rfl
        · exact hsecure
      | _ => exact absurd ((congrArg Call.status hcall).trans hpending) hnot
    have hsame : ∀ pc' : Pc, pc'.answers t = pc'.answers s := by
      intro pc'
      unfold Pc.answers
      by_cases hbefore : s.agent.committed = .waitingForApproval
      · rw [if_pos hbefore, if_pos (hagent.mpr hbefore)]
        have hcall : t.call.committed.status = .pendingApproval ↔
            s.call.committed.status = .pendingApproval := by
          constructor
          · intro h
            rw [Effect.call_pending hnext he h, h]
          · intro h
            by_contra hne
            exact hended ⟨hbefore, h, hne⟩
        simp only [hcall]
      · rw [if_neg hbefore, if_neg (fun h => hbefore (hagent.mp h))]
    simp only [hsame]
    obtain ⟨j, hj⟩ := hI.answers hwait'
    by_cases hne : j = i
    · subst hne
      by_cases hfail : answer = .fail
      · obtain ⟨k, hk, hanswers⟩ := hcond.2 hfail hj
        exact ⟨k, by rw [he.others k hk]; exact hanswers⟩
      · refine ⟨j, ?_⟩
        rw [he.self]
        refine hI.goesOn hnext hj hfail hwait' (fun h => ?_) (fun h => ?_)
        · exact (Effect.agent_waiting hnext he (hagent.mpr h)).2
        · exact (Effect.step_waiting hnext he (hwait.resolve_left fun h' => h (hagent.mp h'))).2
    · exact ⟨j, by rw [he.others j hne]; exact hj⟩

/-- The decision on a mutation goes on with its call. -/
theorem Next.of_decide {decision : Decision} {status : ApprovalStatus}
    (h : Next kind s i answer pc (.decide status) pc') (hpc : pc = .decide decision .pending)
    (hkind : kind.mutation = true) :
    pc' = .linkedState decision := by
  generalize hw : Write.decide status = write at h
  cases h with
  | decide decision' => cases hpc; rfl
  | decidePlain decision' happroval hplain => rw [hkind] at hplain; cases hplain
  | _ => cases hw

theorem Next.decide_unlinked (h : Next kind s i answer pc write pc') (hpc : pc.decided = false) :
    pc'.unlinked = true := by
  cases h with
  | begin | replay | replayPlain | conflict | decide | decidePlain | fail => rfl
  | _ => cases hpc

/-- The decision answers for what waits: its request goes on. -/
theorem Answered.decide {decision : Decision} (hfinal : Final s) (hs : Suspending s)
    (hpending : s.approval = .some .pending) (hat : s.requests i = .decide decision .pending)
    (hwait : s.agent.committed = .waitingForApproval) (hstep : s.step = .some .waitingForApproval)
    (hkind : kind.mutation = true)
    (hnext : Next kind s i .proceed (s.requests i) (.decide decision.status) pc)
    (he : Effect s i (.decide decision.status) pc t) : Answered t := by
  have hundecided : ∀ j, j ≠ i → (t.requests j).decided = false := by
    intro j hne
    rw [he.others j hne]
    exact hfinal.undecided (.inr hpending) j
  have hpc : pc = .linkedState decision := hnext.of_decide hat hkind
  have hself : t.requests i = .linkedState decision := he.self.trans hpc
  have hcall : t.call.committed.status = .pendingApproval := by
    rw [he.call]; exact (hs.waits hwait).2
  have hagent : t.agent.committed = .waitingForApproval := by rw [he.agent]; exact hwait
  have hnot : ∀ j {pc' : Pc}, t.requests j = pc' → pc'.decided = true → j = i := by
    intro j pc' hj hdecided
    by_contra hne
    rw [← hj, hundecided j hne] at hdecided
    cases hdecided
  refine ⟨.inl hcall, fun _ => .inl hcall, fun j call hj => ?_, fun j d run hj => ?_,
    fun j hj => ?_, fun _ => ?_, ?_,
      fun _ => ⟨i, by rw [hself, Pc.answers, if_pos hagent, if_pos hcall]; rfl⟩⟩
  · have := hnot j rfl (by generalize t.requests j = pc' at hj; cases pc' <;> first | rfl | cases hj)
    rw [this, hself] at hj
    cases hj
  · rw [hnot j hj rfl, hself] at hj
    cases hj
  · have := hnot j rfl (by generalize t.requests j = pc' at hj; cases pc' <;> first | rfl | cases hj)
    rw [this, hself] at hj
    cases hj
  · rw [he.step]
    exact hstep
  · rw [he.step, show Write.step _ s.step = s.step from rfl, hstep]
    nofun

/-- Where nothing is suspended, nothing moves. -/
theorem Quiet.request (hI : Quiet s) (hnext : Next kind s i answer (s.requests i) write pc)
    (he : Effect s i write pc t) : Quiet t := by
  have hi := hI.unlinked i
  suffices hgoal : write.agent = Write.agent .none ∧ write.step = Write.step .none ∧
      pc.unlinked = true by
    refine ⟨he.execution.trans hI.execution, ?_, ?_, fun j => ?_⟩
    · rw [he.agent, hgoal.1]
      exact hI.agent
    · rw [he.step, hgoal.2.1]
      exact hI.step
    · by_cases hne : j = i
      · rw [hne, he.self]
        exact hgoal.2.2
      · rw [he.others j hne]
        exact hI.unlinked j
  generalize s.requests i = pc' at hnext hi
  cases hnext with
  | begin | replay | replayPlain | conflict | decide | decidePlain | unlinked | fail =>
    exact ⟨rfl, rfl, rfl⟩
  | linked decision step hcall hstep => rw [hI.step] at hstep; cases hstep
  | _ => cases hi

theorem answered (h : (system kind).ReachableUnder (Undisturbed kind) s) : ¬ Open s → Quiet s ∨
    Answered s := by
  refine System.ReachableUnder.invariant_with (I := fun s => ¬ Open s → Quiet s ∨ Answered s)
    (J := fun s => (system kind).ReachableUnder (Undisturbed kind) s) (fun _ hs => hs) ?_ ?_ h
  · rintro s ⟨file, rfl⟩ hopen
    exact absurd (.inl rfl) hopen
  · intro s a t hs hI hcond hstep hdecided
    cases a with
    | execution returns =>
      -- the execution is done where the approval is decided
      have hopen : ¬ Open s := by
        intro hopen
        rcases execution_cases hstep with rfl | ⟨hat, rfl⟩ | ⟨-, -, rfl⟩ | ⟨-, rfl⟩ | ⟨-, rfl⟩ |
          ⟨-, rfl⟩
        case inr.inl => exact absurd (.inr rfl) hdecided
        all_goals exact absurd hopen hdecided
      have hdone : s.execution = .done := by
        by_contra hne
        exact hopen ((executing hs).isOpen hne)
      rcases execution_cases hstep with rfl | ⟨hat, -⟩ | ⟨hat, -⟩ | ⟨hat, -⟩ | ⟨hat, -⟩ | ⟨hat, -⟩
      · refine (hI hopen).imp (fun hQ => ⟨rfl, hQ.agent, hQ.step, hQ.unlinked⟩) fun hA => ?_
        exact ⟨hA.call, hA.rejected, hA.loaded, hA.denies, hA.past, hA.step, hA.linked, hA.answers⟩
      all_goals rw [hdone] at hat; cases hat
    | request i answer =>
      obtain ⟨write, pc, hnext, he⟩ := step_effect hs.reachable hstep
      have hfinal := final hs.reachable
      by_cases hopen : Open s
      · have hsus := (executing hs).suspending hopen
        rcases hnext.of_undecided (hfinal.undecided hopen i) with hsame |
          ⟨decision, rfl, rfl, hpending, hat⟩
        · refine absurd ?_ hdecided
          unfold Open
          rw [he.approval]
          rcases hsame with rfl | rfl <;> exact hopen
        · rcases hcond.1 ⟨rfl, hpending, decision, hat⟩ with ⟨hkind, hwait, hstep'⟩ | ⟨hdone, hrun⟩
          · exact .inr (.decide hfinal hsus hpending hat hwait hstep' hkind hnext he)
          · refine .inl ⟨he.execution.trans hdone, ?_, ?_, fun j => ?_⟩
            · rw [he.agent]
              exact hsus.agent.resolve_right hrun
            · rw [he.step]
              by_contra hlinked
              exact hrun (hsus.step hlinked)
            · by_cases hne : j = i
              · rw [hne, he.self]
                exact hnext.decide_unlinked (hfinal.undecided hopen i)
              · rw [he.others j hne]
                have hj := hfinal.undecided hopen j
                cases hpc : s.requests j <;> rw [hpc] at hj <;> first | rfl | cases hj
      · refine (hI hopen).imp (fun hQ => hQ.request hnext he) fun hA => ?_
        exact hA.request hfinal hopen hcond hnext he

/-! ## What has become of a decision -/

/-- The call has ended, and the request says what becomes of its agent run. -/
def Pc.ended : Pc → Bool
  | .assignment | .failWaitingRun => true
  | _ => false

/-- The request has run the continuation. -/
def Pc.delivering : Pc → Bool
  | .continuing | .deliver _ => true
  | _ => false

/-- An agent run that was not resumed fails after its call and before its step. -/
structure Resolved (s : State) : Prop where
  ended : ∀ j, (s.requests j).ended = true → s.call.committed.status.terminal = true
  delivering : ∀ j, (s.requests j).delivering = true → s.continuations ≠ 0
  claimed : ∀ j, (s.requests j).claimed = true → s.agent.committed = .running
  agent : s.agent.committed = .running ∨ s.agent.committed = .waitingForApproval ∨
    s.agent.committed.terminal = true
  fails : s.continuations = 0 → s.agent.committed.terminal = true →
    s.call.committed.status.terminal = true ∧
      (s.step = .some .waitingForApproval ∨ s.step = .some .failed)

theorem Next.endedCall (h : Next kind s i answer pc write pc') (hpc : pc'.ended = true) :
    (pc.ended = true ∨ (∃ row, write = .endCall row) ∨
      ∃ call, pc.loaded = .some call ∧ call.status ≠ .pendingApproval) := by
  cases h with
  | deny | succeeded | failed => exact .inr (.inl ⟨_, rfl⟩)
  | unassigned => exact .inl rfl
  | evaluated effect pc h => rcases h with rfl | rfl <;> cases hpc
  | getRun decision call =>
    refine .inr (.inr ⟨call, rfl, ?_⟩)
    rcases loaded_cases decision call s.agent.committed with h | h | h | h | h <;> rw [h.1] at hpc
    · cases hpc
    · exact h.2.2
    · rw [h.2.2]; nofun
    · cases hpc
    · cases hpc
  | _ => cases hpc

theorem Next.delivers (h : Next kind s i answer pc write pc') (hpc : pc'.delivering = true) :
    pc.delivering = true ∨ write = .continuation := by
  cases h with
  | continueAssignment => exact .inr rfl
  | continued => exact .inl rfl
  | evaluated effect pc h => rcases h with rfl | rfl <;> cases hpc
  | deny decision run => split at hpc <;> cases hpc
  | getRun decision call =>
    rcases loaded_cases decision call s.agent.committed with h | h | h | h | h <;>
      rw [h.1] at hpc <;> cases hpc
  | _ => cases hpc

/-- A move of the agent run: a claim, a failure, or the end of a continuation. -/
theorem Next.runTarget {target : AgentRunStatus}
    (h : Next kind s i answer pc (.moveRun target) pc') :
    (target = .running ∧ s.agent.committed = .waitingForApproval) ∨
    (target = .failed ∧ s.agent.committed = .waitingForApproval ∧ pc.ended = true) ∨
    (target.terminal = true ∧ pc.delivering = true) := by
  cases h with
  | resumeRun h => exact .inl ⟨rfl, h⟩
  | failWaitingRun h => exact .inr (.inl ⟨rfl, h, rfl⟩)
  | continued status h => exact .inr (.inr ⟨h, rfl⟩)

/-- A move of the step: by a claim, after a continuation, or to FAILED. -/
theorem Next.stepTarget {target : WorkflowStepRunStatus}
    (h : Next kind s i answer pc (.moveStep target) pc') :
    pc.claimed = true ∨ pc.delivering = true ∨ target = .failed := by
  cases h with
  | resumeStep => exact .inl rfl
  | complete => exact .inr (.inl rfl)
  | failStep => exact .inr (.inl rfl)
  | failWaitingStep => exact .inr (.inr rfl)

theorem Resolved.request (hI : Resolved s) (hA : Answered s) (hR : Resumed s)
    (hnext : Next kind s i answer (s.requests i) write pc) (he : Effect s i write pc t) :
    Resolved t := by
  have hcall : s.call.committed.status.terminal = true →
      t.call.committed.status.terminal = true := by
    intro hterminal
    rw [he.call]
    cases write with
    | endCall row =>
      rcases hnext.endsCall with ⟨decision, run, -, rfl, -⟩ | ⟨-, -, hended, -⟩
      · rfl
      · exact hended
    | _ => exact hterminal
  have hcount : t.continuations = 0 → s.continuations = 0 := by
    intro h
    rw [he.continuations] at h
    omega
  refine ⟨fun j hj => ?_, fun j hj => ?_, fun j hj => ?_, ?_, fun hzero hterminal => ?_⟩
  · by_cases hne : j = i
    · rw [hne, he.self] at hj
      rcases hnext.endedCall hj with h | ⟨row, rfl⟩ | ⟨call, hloaded, hcall'⟩
      · exact hcall (hI.ended i h)
      · rw [he.call]
        rcases hnext.endsCall with ⟨decision, run, -, rfl, -⟩ | ⟨-, -, hended, -⟩
        · rfl
        · exact hended
      · refine hcall (hA.call.resolve_left fun hpending => ?_)
        exact hcall' ((hA.loaded i call hloaded).1 hpending)
    · rw [he.others j hne] at hj
      exact hcall (hI.ended j hj)
  · by_cases hne : j = i
    · rw [hne, he.self] at hj
      rcases hnext.delivers hj with h | rfl
      · exact fun hzero => hI.delivering i h (hcount hzero)
      · rw [he.continuations]
        exact Nat.succ_ne_zero _
    · rw [he.others j hne] at hj
      exact fun hzero => hI.delivering j hj (hcount hzero)
  · -- a claimed run is moved by no other request
    have hmoves : ∀ {k}, (s.requests k).claimed = true → ∀ target, write = .moveRun target →
        target = .running := by
      rintro k hk target rfl
      rcases hnext.runTarget with ⟨h, -⟩ | ⟨-, h, -⟩ | ⟨-, h⟩
      · exact h
      · rw [hI.claimed k hk] at h
        cases h
      · exact absurd (hR.before k hk) (hI.delivering i h)
    have hstays : ∀ {k}, (s.requests k).claimed = true → t.agent.committed = .running := by
      intro k hk
      rw [he.agent]
      cases write with
      | moveRun target => exact hmoves hk target rfl
      | _ => exact hI.claimed k hk
    by_cases hne : j = i
    · rw [hne, he.self] at hj
      rcases hnext.claims with ⟨rfl, -, -⟩ | ⟨hold, -⟩ | ⟨-, rfl, -⟩ | ⟨h, -⟩
      · exact he.agent
      · exact hstays hold
      · cases hj
      · rw [h] at hj
        cases hj
    · rw [he.others j hne] at hj
      exact hstays hj
  · rw [he.agent]
    cases write with
    | moveRun target =>
      rcases hnext.runTarget with ⟨rfl, -⟩ | ⟨rfl, -⟩ | ⟨h, -⟩
      · exact .inl rfl
      · exact .inr (.inr rfl)
      · exact .inr (.inr h)
    | _ => exact hI.agent
  · rw [he.agent] at hterminal
    rw [he.step]
    cases write with
    | moveRun target =>
      -- a run that fails waited, and so does its step
      rcases hnext.runTarget with ⟨rfl, -⟩ | ⟨rfl, hwait, hended⟩ | ⟨-, h⟩
      · cases hterminal
      · exact ⟨hcall (hI.ended i hended), .inl (hA.step hwait)⟩
      · exact absurd (hcount hzero) (hI.delivering i h)
    | moveStep target =>
      have hold := hI.fails (hcount hzero) hterminal
      rcases hnext.stepTarget with h | h | rfl
      · rw [show Write.agent _ s.agent.committed = s.agent.committed from rfl,
          hI.claimed i h] at hterminal
        cases hterminal
      · exact absurd (hcount hzero) (hI.delivering i h)
      · exact ⟨hcall hold.1, .inr rfl⟩
    | _ =>
      have hold := hI.fails (hcount hzero) hterminal
      exact ⟨hcall hold.1, hold.2⟩

/-- The decision resolves nothing yet. -/
theorem Resolved.decide (hfinal : Final s) (hopen : Open s) (hs : Suspending s)
    (hnext : Next kind s i answer (s.requests i) write pc) (he : Effect s i write pc t) :
    Resolved t := by
  have hundecided := hfinal.undecided hopen
  have hunlinked : ∀ j, (t.requests j).unlinked = true := by
    intro j
    by_cases hne : j = i
    · rw [hne, he.self]
      exact hnext.decide_unlinked (hundecided i)
    · rw [he.others j hne]
      have hj := hundecided j
      cases hpc : s.requests j <;> rw [hpc] at hj <;> first | rfl | cases hj
  have hnot : ∀ {j} {b : Pc → Bool}, b (t.requests j) = true →
      (∀ pc : Pc, pc.unlinked = true → b pc = false) → False := by
    intro j b hb hall
    rw [hall _ (hunlinked j)] at hb
    cases hb
  have hagent : t.agent.committed = s.agent.committed := by
    rw [he.agent]
    rcases hnext.of_undecided (hundecided i) with (rfl | rfl) | ⟨-, rfl, -⟩ <;> rfl
  refine ⟨fun j hj => (hnot hj ?_).elim, fun j hj => (hnot hj ?_).elim,
    fun j hj => (hnot hj ?_).elim, ?_, fun _ h => ?_⟩
  · intro pc hpc
    cases pc <;> first | rfl | cases hpc
  · intro pc hpc
    cases pc <;> first | rfl | cases hpc
  · intro pc hpc
    cases pc <;> first | rfl | cases hpc
  · rw [hagent]
    rcases hs.agent with h | h
    · exact .inl h
    · exact .inr (.inl h)
  · rw [hagent] at h
    rcases hs.agent with h' | h' <;> rw [h'] at h <;> cases h

theorem resolved (h : (system kind).ReachableUnder (Undisturbed kind) s) : ¬ Open s → Quiet s ∨
    Resolved s := by
  refine System.ReachableUnder.invariant_with (I := fun s => ¬ Open s → Quiet s ∨ Resolved s)
    (J := fun s => (system kind).ReachableUnder (Undisturbed kind) s) (fun _ hs => hs) ?_ ?_ h
  · rintro s ⟨file, rfl⟩ hopen
    exact absurd (.inl rfl) hopen
  · intro s a t hs hI hcond hstep hdecided
    cases a with
    | execution returns =>
      have hopen : ¬ Open s := by
        intro hopen
        rcases execution_cases hstep with rfl | ⟨hat, rfl⟩ | ⟨-, -, rfl⟩ | ⟨-, rfl⟩ | ⟨-, rfl⟩ |
          ⟨-, rfl⟩
        case inr.inl => exact absurd (.inr rfl) hdecided
        all_goals exact absurd hopen hdecided
      have hdone : s.execution = .done := by
        by_contra hne
        exact hopen ((executing hs).isOpen hne)
      rcases execution_cases hstep with rfl | ⟨hat, -⟩ | ⟨hat, -⟩ | ⟨hat, -⟩ | ⟨hat, -⟩ | ⟨hat, -⟩
      · refine (hI hopen).imp (fun hQ => ⟨rfl, hQ.agent, hQ.step, hQ.unlinked⟩) fun hR => ?_
        exact ⟨hR.ended, hR.delivering, hR.claimed, hR.agent, hR.fails⟩
      all_goals rw [hdone] at hat; cases hat
    | request i answer =>
      obtain ⟨write, pc, hnext, he⟩ := step_effect hs.reachable hstep
      by_cases hopen : Open s
      · exact .inr (.decide (final hs.reachable) hopen ((executing hs).suspending hopen) hnext he)
      · rcases answered hs hopen with hQ | hA
        · exact .inl (hQ.request hnext he)
        · rcases hI hopen with hQ | hR
          · exact .inl (hQ.request hnext he)
          · exact .inr (hR.request hA (resumed hs.reachable) hnext he)

/-- **What waits can be decided.** In the runs whose decisions come to what can answer
them, and whose last answering request does not fail, wherever no request is in progress
an agent run or a step waits only on a pending call with a pending approval; and a decided
approval has resumed the run, or has ended call, run and step. -/
theorem waits_on_pending_approval (h : (system kind).ReachableUnder (Undisturbed kind) s)
    (hidle : ∀ i, s.requests i = .idle) :
    (s.agent.committed = .waitingForApproval ∨ s.step = .some .waitingForApproval →
      s.call.committed.status = .pendingApproval ∧ s.approval = .some .pending) ∧
    (∀ decision : Decision, s.approval = .some decision.status →
      s.agent.committed = .running ∨ s.continuations = 1 ∨
        (s.call.committed.status.terminal = true ∧ s.agent.committed.terminal = true ∧
          s.step = .some .failed)) := by
  have hmoved : ¬ Open s → s.agent.committed ≠ .waitingForApproval ∧
      s.step ≠ .some .waitingForApproval := by
    intro hopen
    rcases answered h hopen with hQ | hA
    · rw [hQ.agent, hQ.step]
      exact ⟨nofun, nofun⟩
    · rw [← not_or]
      intro hwait
      obtain ⟨j, hj⟩ := hA.answers hwait
      rw [hidle j, Pc.answers] at hj
      split at hj
      · split at hj <;> cases hj
      · cases hj
  constructor
  · intro hwait
    by_cases hopen : Open s
    · have hs := (executing h).suspending hopen
      have hagent : s.agent.committed = .waitingForApproval := by
        rcases hwait with hagent | hstep
        · exact hagent
        · exact hs.step (by rw [hstep]; nofun)
      exact (hs.waits hagent).symm
    · rcases hwait with hagent | hstep
      · exact absurd hagent (hmoved hopen).1
      · exact absurd hstep (hmoved hopen).2
  · intro decision hdecided
    have hopen : ¬ Open s := by
      rintro (h | h) <;> rw [h] at hdecided
      · cases hdecided
      · exact decision.status_ne_pending (Option.some.inj hdecided).symm
    rcases resolved h hopen with hQ | hR
    · exact .inl hQ.agent
    · rcases hR.agent with hrun | hwait | hterminal
      · exact .inl hrun
      · exact absurd hwait (hmoved hopen).1
      · by_cases hzero : s.continuations = 0
        · obtain ⟨hcall, hstep | hstep⟩ := hR.fails hzero hterminal
          · exact absurd hstep (hmoved hopen).2
          · exact .inr (.inr ⟨hcall, hterminal, hstep⟩)
        · have honce := (resumed h.reachable).once
          exact .inr (.inl (by omega))

/-! ## A confirmed read and a rejected mutation -/

/-- A read-only tool outside any workflow, whose approval is approved: nothing runs it. -/
theorem approved_read_waits_forever :
    ∃ s, (system ⟨false, false⟩).Reachable s ∧ (∀ i, s.requests i = .idle) ∧ s.execution = .done ∧
      s.agent.committed = .waitingForApproval ∧ s.call.committed.status = .pendingApproval ∧
      s.approval = .some .approved := by
  have hexec : (system ⟨false, false⟩).exec exampleStart
    (suspending.take 3 ++ [.request 0 (.begin .approve), .request 0 .proceed]) = .some _ := rfl
  refine ⟨_, System.exec_reachable ⟨.preimage, rfl⟩ hexec, fun i => ?_, rfl, rfl, rfl, rfl⟩
  cases i <;> rfl

theorem undisturbed_proceed (h : ∀ decision, s.requests i ≠ .decide decision .pending) :
    Undisturbed kind s (.request i .proceed) :=
  ⟨fun hdecides => by obtain ⟨-, -, decision,
    hat⟩ := hdecides; exact absurd hat (h decision), nofun⟩

/-- A rejection that is carried out ends the call, the run and the step. -/
theorem waits_on_pending_approval_rejected :
    ∃ s : State, s.approval = .some .rejected ∧ s.agent.committed = .failed ∧
      (s.agent.committed = .running ∨ s.continuations = 1 ∨
        (s.call.committed.status.terminal = true ∧ s.agent.committed.terminal = true ∧
          s.step = .some .failed)) := by
  have h0 : (system exampleKind).ReachableUnder (Undisturbed exampleKind) exampleStart :=
    ⟨_, ⟨.preimage, rfl⟩, .refl⟩
  have h1 := ((((h0.step (a := Label.execution true) trivial rfl).step (a := Label.execution true)
    trivial rfl).step
    (a := Label.execution true) trivial rfl).step (a := Label.execution true) trivial rfl).step
      (a := Label.execution true) trivial rfl
  have h2 := h1.step (a := Label.request 0 (.begin .reject)) ⟨fun h => absurd h.1 nofun, nofun⟩ rfl
  have h3 := h2.step (a := Label.request 0 .proceed) ⟨fun _ => .inl ⟨rfl, rfl, rfl⟩, nofun⟩ rfl
  have h4 := h3.step (a := Label.request 0 .proceed) (undisturbed_proceed nofun) rfl
  have h5 := h4.step (a := Label.request 0 .proceed) (undisturbed_proceed nofun) rfl
  have h6 := h5.step (a := Label.request 0 .proceed) (undisturbed_proceed nofun) rfl
  have h7 := h6.step (a := Label.request 0 .proceed) (undisturbed_proceed nofun) rfl
  have h8 := h7.step (a := Label.request 0 .proceed) (undisturbed_proceed nofun) rfl
  have h9 := h8.step (a := Label.request 0 .proceed) (undisturbed_proceed nofun) rfl
  have h10 := h9.step (a := Label.request 0 .proceed) (undisturbed_proceed nofun) rfl
  exact ⟨_, rfl, rfl, (waits_on_pending_approval h10 fun i => by cases i <;> rfl).2 .reject rfl⟩

end Novalton.Approvals
