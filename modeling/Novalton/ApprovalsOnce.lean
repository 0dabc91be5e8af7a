/-
At most once: of any number of requests that decide one call, at most one replaces the
workspace file, at most one runs the continuation, and one completed event is recorded.
The file is what makes the replacement idempotent, the conditional transition of the
agent run what claims the continuation, and the shape constraint of the tool calls what
keeps an ended call from running again.

The status of an ended call does change, and in one way only: `_deny` writes BLOCKED
whatever the row holds, on the word of a row loaded before another request ended it.
-/
import Novalton.Approvals

namespace Novalton.Approvals

variable {kind : Kind} {s t : State}

/-! ## The replacement -/

/-- Once replaced, the file is the candidate. -/
def Replaced (s : State) : Prop := s.replacements = 0 ∨ (s.replacements = 1 ∧ s.file = .candidate)

theorem replaced (h : (system kind).Reachable s) : Replaced s := by
  refine h.invariant_with (J := fun s => (system kind).Reachable s) (fun _ hs => hs) ?_ ?_
  · rintro s ⟨file, rfl⟩
    exact .inl rfl
  · intro s a t hs hI hstep
    cases a with
    | execution returns =>
      rcases execution_cases hstep with rfl | ⟨-, rfl⟩ | ⟨-, -, rfl⟩ | ⟨-, rfl⟩ | ⟨-, rfl⟩ |
        ⟨-, rfl⟩ <;> exact hI
    | request i answer =>
      obtain ⟨write, pc, hnext, he⟩ := step_effect hs hstep
      unfold Replaced
      rw [he.file, he.replacements]
      generalize s.requests i = pc' at hnext
      cases hnext with
      | replace hpre =>
        rcases hI with h | h
        · exact .inr ⟨by rw [h]; rfl, rfl⟩
        · rw [hpre] at h
          cases h.2
      | _ => exact hI

/-! ## The completed event -/

/-- Before the call is pending no request gets past its linked state. -/
def Pc.unlinked : Pc → Bool
  | .idle | .decide _ _ | .linkedState _ => true
  | _ => false

/-- The call as long as it is only proposed. -/
def Proposed (s : State) : Prop :=
  s.execution = .createApproval ∨ s.execution = .pend →
    s.call.committed.status = .proposed ∧ ∀ j, (s.requests j).unlinked = true

theorem proposed (h : (system kind).Reachable s) : Proposed s := by
  refine h.invariant_with (J := fun s => (system kind).Reachable s) (fun _ hs => hs) ?_ ?_
  · rintro s ⟨file, rfl⟩ -
    exact ⟨rfl, fun j => rfl⟩
  · intro s a t hs hI hstep hearly
    cases a with
    | execution returns =>
      rcases execution_cases hstep with rfl | ⟨hat, rfl⟩ | ⟨-, -, rfl⟩ | ⟨-, rfl⟩ | ⟨-, rfl⟩ |
        ⟨-, rfl⟩
      case inr.inl => exact hI (.inl hat)
      case inr.inr.inr.inl => dsimp only at hearly; split at hearly <;> simp at hearly
      all_goals simp at hearly
    | request i answer =>
      obtain ⟨write, pc, hnext, he⟩ := step_effect hs hstep
      rw [he.execution] at hearly
      obtain ⟨hcall, hunlinked⟩ := hI hearly
      have hi := hunlinked i
      suffices hgoal : t.call.committed.status = .proposed ∧ pc.unlinked = true by
        refine ⟨hgoal.1, fun j => ?_⟩
        by_cases hne : j = i
        · rw [hne, he.self]
          exact hgoal.2
        · rw [he.others j hne]
          exact hunlinked j
      rw [he.call]
      generalize s.requests i = at_ at hnext hi
      cases hnext with
      | begin | replay | replayPlain | conflict | decide | decidePlain | unlinked | fail =>
        exact ⟨hcall, rfl⟩
      | linked decision step hproposed => exact absurd hcall hproposed
      | _ => cases hi

/-- The event is recorded with the end of the call. -/
def Completed (s : State) : Prop :=
  s.completedEvents = 0 ∨ (s.completedEvents = 1 ∧ s.call.committed.status.terminal = true)

theorem completed (h : (system kind).Reachable s) : Completed s := by
  refine h.invariant_with (J := fun s => (system kind).Reachable s) (fun _ hs => hs) ?_ ?_
  · rintro s ⟨file, rfl⟩
    exact .inl rfl
  · intro s a t hs hI hstep
    cases a with
    | execution returns =>
      rcases execution_cases hstep with rfl | ⟨-, rfl⟩ | ⟨hat, -, rfl⟩ | ⟨-, rfl⟩ | ⟨-, rfl⟩ |
        ⟨-, rfl⟩
      case inr.inr.inl =>
        -- the call was only proposed, so no event is recorded yet
        rcases hI with h | h
        · exact .inl h
        · rw [(proposed hs (.inr hat)).1] at h
          cases h.2
      all_goals exact hI
    | request i answer =>
      obtain ⟨write, pc, hnext, he⟩ := step_effect hs hstep
      unfold Completed
      rw [he.call, he.completedEvents]
      generalize hpc : s.requests i = pc' at hnext
      cases hnext with
      | deny | failed =>
        rcases hI with h | h
        · exact .inl h
        · exact .inr ⟨h.1, rfl⟩
      | succeeded =>
        -- the request still holds the call, which has not ended
        obtain ⟨row, hown⟩ := (held hs).applying i (by rw [hpc]; rfl)
        have hended := ((held hs).running i row hown).2
        rcases hI with h | h
        · exact .inr ⟨by rw [h]; rfl, rfl⟩
        · rw [hended] at h
          cases h.2
      | _ => exact hI

/-! ## The continuation -/

/-- The request has claimed the agent run and not run the continuation yet. -/
def Pc.claimed : Pc → Bool
  | .resumeStep | .continueAssignment => true
  | _ => false

/-- The execution has not suspended its agent run yet. -/
def Unsuspended (s : State) : Prop :=
  s.execution = .createApproval ∨ s.execution = .pend ∨ s.execution = .suspend

/-- The continuation is claimed by taking the agent run out of WAITING_FOR_APPROVAL, where
it does not come back to. -/
structure Resumed (s : State) : Prop where
  running : Unsuspended s → s.agent.committed = .running
  unclaimed : Unsuspended s ∨ s.agent.committed = .waitingForApproval →
    s.continuations = 0 ∧ ∀ j, (s.requests j).claimed = false ∧ s.requests j ≠ .continuing
  unique : ∀ j k, (s.requests j).claimed = true → (s.requests k).claimed = true → j = k
  once : s.continuations ≤ 1
  before : ∀ j, (s.requests j).claimed = true → s.continuations = 0

/-- What a step of a request does to the claim of the continuation. -/
theorem Next.claims {i : ℕ} {answer : Answer} {pc pc' : Pc} {write : Write}
    (h : Next kind s i answer pc write pc') :
    (write = .moveRun .running ∧ pc' = .resumeStep ∧ s.agent.committed = .waitingForApproval) ∨
    (pc.claimed = true ∧ pc'.claimed = true ∧ write.continuations = 0 ∧
      write.agent = Write.agent .none) ∨
    (pc.claimed = true ∧ pc' = .continuing ∧ write = .continuation) ∨
    (pc'.claimed = false ∧ pc' ≠ .continuing ∧ write.continuations = 0 ∧
      (write.agent = Write.agent .none ∨
        ((s.agent.committed = .waitingForApproval ∨ pc = .continuing) ∧ ∃ target,
          write = .moveRun target ∧
          target.terminal = true))) := by
  cases h with
  | resumeRun h => exact .inl ⟨rfl, rfl, h⟩
  | resumeStep => exact .inr (.inl ⟨rfl, rfl, rfl, rfl⟩)
  | continueAssignment => exact .inr (.inr (.inl ⟨rfl, rfl, rfl⟩))
  | failWaitingRun h => exact .inr (.inr (.inr ⟨rfl, nofun, rfl, .inr ⟨.inl h, _, rfl, rfl⟩⟩))
  | continued status h => exact .inr (.inr (.inr ⟨rfl, nofun, rfl, .inr ⟨.inr rfl, _, rfl, h⟩⟩))
  | deny decision run =>
    refine .inr (.inr (.inr ?_))
    split <;> exact ⟨rfl, nofun, rfl, .inl rfl⟩
  | evaluated effect pc h =>
    refine .inr (.inr (.inr ?_))
    rcases h with rfl | rfl <;> exact ⟨rfl, nofun, rfl, .inl rfl⟩
  | getRun decision call =>
    refine .inr (.inr (.inr ?_))
    rcases loaded_cases decision call s.agent.committed with h | h | h | h | h <;> rw [h.1] <;>
      exact ⟨rfl, nofun, rfl, .inl rfl⟩
  | _ => exact .inr (.inr (.inr ⟨rfl, nofun, rfl, .inl rfl⟩))

theorem Resumed.execution {returns : Bool} (hI : Resumed s)
    (h : executionStep kind s returns = .some t) : Resumed t := by
  -- past the suspension, only the agent run can leave the continuation unclaimed
  have hpast : ∀ {u : State}, ¬ Unsuspended u → u.agent = s.agent →
    u.continuations = s.continuations →
      u.requests = s.requests → Resumed u := by
    intro u hu hagent hcount hrequests
    refine ⟨fun h => absurd h hu, fun h => ?_, ?_, ?_, ?_⟩
    · rw [hcount, hrequests]
      rw [hagent] at h
      exact hI.unclaimed (.inr (h.resolve_left hu))
    · rw [hrequests]
      exact hI.unique
    · rw [hcount]
      exact hI.once
    · rw [hcount, hrequests]
      exact hI.before
  rcases execution_cases h with rfl | ⟨hat, rfl⟩ | ⟨hat, -, rfl⟩ | ⟨hat, rfl⟩ | ⟨-, rfl⟩ | ⟨-, rfl⟩
  · exact hpast (by simp [Unsuspended]) rfl rfl rfl
  · have hun : Unsuspended s := .inl hat
    exact ⟨fun _ => hI.running hun, fun _ => hI.unclaimed (.inl hun), hI.unique, hI.once, hI.before⟩
  · have hun : Unsuspended s := .inr (.inl hat)
    exact ⟨fun _ => hI.running hun, fun _ => hI.unclaimed (.inl hun), hI.unique, hI.once, hI.before⟩
  · have hun : Unsuspended s := .inr (.inr hat)
    refine ⟨fun h => ?_, fun _ => hI.unclaimed (.inl hun), hI.unique, hI.once, hI.before⟩
    unfold Unsuspended at h
    dsimp only at h
    split at h <;> simp at h
  · exact hpast (by simp [Unsuspended]) rfl rfl rfl
  · exact hpast (by simp [Unsuspended]) rfl rfl rfl

theorem Resumed.request {i : ℕ} {answer : Answer} {write : Write} {pc : Pc} (hI : Resumed s)
    (hnext : Next kind s i answer (s.requests i) write pc) (he : Effect s i write pc t) :
    Resumed t := by
  have hunsuspended : Unsuspended t ↔ Unsuspended s := by rw [Unsuspended, he.execution]; rfl
  have hagent := he.agent
  have hcount := he.continuations
  rcases hnext.claims with ⟨rfl, rfl, hwait⟩ | ⟨hold, hnew, hzero, hsame⟩ | ⟨hold, rfl, rfl⟩ |
    ⟨hnew, hcontinuing, hzero, hmove⟩
  · -- the agent run is claimed, and was not before
    obtain ⟨hnone, hall⟩ := hI.unclaimed (.inr hwait)
    have hpast : ¬ Unsuspended s := by
      intro h
      rw [hI.running h] at hwait
      cases hwait
    have hself : ∀ j, (t.requests j).claimed = true → j = i := by
      intro j hj
      by_contra hne
      rw [he.others j hne, (hall j).1] at hj
      cases hj
    have hcount' : t.continuations = 0 := by rw [hcount, hnone]; rfl
    refine ⟨fun h => absurd (hunsuspended.mp h) hpast, fun h => ?_, fun j k hj hk =>
      (hself j hj).trans (hself k hk).symm, by
        rw [hcount']; exact Nat.zero_le _, fun _ _ => hcount'⟩
    rcases h with h | h
    · exact absurd (hunsuspended.mp h) hpast
    · rw [hagent] at h
      cases h
  · -- the claim stays with the request
    have hopen : ¬ (Unsuspended s ∨ s.agent.committed = .waitingForApproval) := by
      intro h
      rw [((hI.unclaimed h).2 i).1] at hold
      cases hold
    have hagent' : t.agent.committed = s.agent.committed := by rw [hagent, hsame]; rfl
    have hcount' : t.continuations = s.continuations := by rw [hcount, hzero]; rfl
    have hclaimed : ∀ j, (t.requests j).claimed = true → (s.requests j).claimed = true := by
      intro j hj
      by_cases hne : j = i
      · rw [hne]
        exact hold
      · rwa [he.others j hne] at hj
    refine ⟨fun h => absurd (.inl (hunsuspended.mp h)) hopen, fun h => ?_,
      fun j k hj hk => hI.unique j k (hclaimed j hj) (hclaimed k hk), by
        rw [hcount']; exact hI.once,
      fun j hj => by rw [hcount']; exact hI.before j (hclaimed j hj)⟩
    rw [hagent', hunsuspended] at h
    exact absurd h hopen
  · -- the claim is spent on the continuation
    have hopen : ¬ (Unsuspended s ∨ s.agent.committed = .waitingForApproval) := by
      intro h
      rw [((hI.unclaimed h).2 i).1] at hold
      cases hold
    have hspent : ∀ j, (t.requests j).claimed = false := by
      intro j
      by_cases hne : j = i
      · rw [hne, he.self]
        rfl
      · rw [he.others j hne]
        by_contra hj
        exact hne (hI.unique j i (by simpa using hj) hold)
    have hcount' : t.continuations = 1 := by rw [hcount, hI.before i hold]; rfl
    refine ⟨fun h => absurd (.inl (hunsuspended.mp h)) hopen, fun h => ?_, fun j k hj => ?_,
      Nat.le_of_eq hcount', fun j hj => ?_⟩
    · rw [hunsuspended, hagent] at h
      exact absurd h hopen
    · rw [hspent j] at hj
      cases hj
    · rw [hspent j] at hj
      cases hj
  · -- nothing is claimed, and the agent run goes nowhere but to its end
    have hcount' : t.continuations = s.continuations := by rw [hcount, hzero]; rfl
    have hclaimed : ∀ j, (t.requests j).claimed = true → (s.requests j).claimed = true := by
      intro j hj
      by_cases hne : j = i
      · rw [hne, he.self, hnew] at hj
        cases hj
      · rwa [he.others j hne] at hj
    have hstay : Unsuspended s ∨ t.agent.committed = .waitingForApproval →
        Unsuspended s ∨ s.agent.committed = .waitingForApproval := by
      rintro (h | h)
      · exact .inl h
      · rcases hmove with hsame | ⟨-, target, rfl, hterminal⟩
        · rw [hagent, hsame] at h
          exact .inr h
        · rw [hagent] at h
          rw [show target = .waitingForApproval from h] at hterminal
          cases hterminal
    refine ⟨fun h => ?_, fun h => ?_, fun j k hj hk =>
      hI.unique j k (hclaimed j hj) (hclaimed k hk), by
        rw [hcount']; exact hI.once, fun j hj => by rw [hcount']; exact hI.before j (hclaimed j hj)⟩
    · have hun := hunsuspended.mp h
      rcases hmove with hsame | ⟨hwait | hat, target, rfl, -⟩
      · rw [hagent, hsame]
        exact hI.running hun
      · rw [hI.running hun] at hwait
        cases hwait
      · exact absurd hat ((hI.unclaimed (.inl hun)).2 i).2
    · rw [hunsuspended] at h
      obtain ⟨hnone, hall⟩ := hI.unclaimed (hstay h)
      refine ⟨hcount'.trans hnone, fun j => ?_⟩
      by_cases hne : j = i
      · rw [hne, he.self]
        exact ⟨hnew, hcontinuing⟩
      · rw [he.others j hne]
        exact hall j

theorem resumed (h : (system kind).Reachable s) : Resumed s := by
  refine h.invariant_with (J := fun s => (system kind).Reachable s) (fun _ hs => hs) ?_ ?_
  · rintro s ⟨file, rfl⟩
    exact ⟨fun _ => rfl, fun _ => ⟨rfl, fun j => ⟨rfl, nofun⟩⟩, nofun, Nat.zero_le _, nofun⟩
  · intro s a t hs hI hstep
    cases a with
    | execution returns => exact hI.execution hstep
    | request i answer =>
      obtain ⟨write, pc, hnext, he⟩ := step_effect hs hstep
      exact hI.request hnext he

/-! ## The status of an ended call -/

/-- A request denies a call that has SUCCEEDED or FAILED. -/
def LateDenial (s : State) : Label → Prop
  | .request i answer => answer = .proceed ∧ (∃ decision run, s.requests i = .deny decision run) ∧
      (s.call.committed.status = .succeeded ∨ s.call.committed.status = .failed)
  | .execution _ => False

/-- The status of an ended call changes by a late denial and by nothing else. -/
theorem ended_status_iff {a : Label} (hs : (system kind).Reachable s)
    (hended : s.call.committed.status.terminal = true) (hstep : (system kind).step s a = .some t) :
    t.call.committed.status = s.call.committed.status ↔ ¬ LateDenial s a := by
  cases a with
  | execution returns =>
    refine iff_of_true ?_ id
    rcases execution_cases hstep with rfl | ⟨-, rfl⟩ | ⟨hat, -, rfl⟩ | ⟨-, rfl⟩ | ⟨-, rfl⟩ |
      ⟨-, rfl⟩
    case inr.inr.inl =>
      rw [(proposed hs (.inr hat)).1] at hended
      cases hended
    all_goals rfl
  | request i answer =>
    obtain ⟨write, pc, hnext, he⟩ := step_effect hs hstep
    rw [he.call, LateDenial]
    generalize hpc : s.requests i = pc' at hnext
    cases hnext with
    | deny decision run =>
      show ToolExecutionStatus.blocked = _ ↔ _
      constructor
      · rintro h ⟨-, -, hlate | hlate⟩ <;> rw [← h] at hlate <;> cases hlate
      · intro h
        by_contra hne
        refine h ⟨rfl, ⟨decision, run, rfl⟩, ?_⟩
        cases hstatus : s.call.committed.status with
        | succeeded => exact .inl rfl
        | failed => exact .inr rfl
        | blocked => exact absurd hstatus.symm hne
        | proposed | pendingApproval | running => rw [hstatus] at hended; cases hended
    | succeeded | failed =>
      obtain ⟨row, hown⟩ := (held hs).applying i (by rw [hpc]; rfl)
      rw [((held hs).running i row hown).2] at hended
      cases hended
    | fail => exact iff_of_true rfl (by rintro ⟨h, -⟩; cases h)
    | _ => exact iff_of_true rfl (by rintro ⟨-, ⟨_, _, h⟩, -⟩; cases h)

/-- **At most once, and ended for good but for late denials.** In every state that any
requests reach in any order, one request at most has replaced the file, one at most has
run the continuation and one completed event at most is recorded. An ended call changes
its status by a late denial and by no other step, so in every run without late denials it
keeps it. -/
theorem decided_at_most_once (hs : (system kind).Reachable s) :
    (s.replacements ≤ 1 ∧ s.continuations ≤ 1 ∧ s.completedEvents ≤ 1) ∧
      (s.call.committed.status.terminal = true →
        (∀ a t, (system kind).step s a = .some t →
          (t.call.committed.status = s.call.committed.status ↔ ¬ LateDenial s a)) ∧
        ∀ t, (system kind).Run (fun s a => ¬ LateDenial s a) s t →
          t.call.committed.status = s.call.committed.status) := by
  refine ⟨⟨?_, (resumed hs).once, ?_⟩, fun hended =>
    ⟨fun a t => ended_status_iff hs hended, fun t hrun => ?_⟩⟩
  · rcases replaced hs with h | h <;> omega
  · rcases completed hs with h | h <;> omega
  · suffices hkept : (system kind).Reachable t ∧
      t.call.committed.status = s.call.committed.status from hkept.2
    refine hrun.invariant (I := fun u => (system kind).Reachable u ∧
      u.call.committed.status = s.call.committed.status)
      ?_ ⟨hs, rfl⟩
    rintro u a v ⟨hu, hsame⟩ hlate hstep
    have hkept := (ended_status_iff hu (by rw [hsame]; exact hended) hstep).mpr hlate
    exact ⟨hu.step hstep, hkept.trans hsame⟩

/-! ## Two approvals and a changed rule -/

def exampleKind : Kind := ⟨true, true⟩

def exampleStart : State :=
  ⟨.none, .idle ⟨.proposed, false⟩, .idle .running, .none, .running, .preimage, 0, 0, 0,
    .createApproval, fun _ => .idle⟩

/-- The execution suspends its call and its step. -/
def suspending : List Label := List.replicate 5 (.execution true)

/-- A request approves, loads the pending call, locks it and is authorized. -/
def approving (i : ℕ) : List Label :=
  [.request i (.begin .approve), .request i .proceed, .request i .proceed]

def locking (i : ℕ) : List Label := [.request i .proceed, .request i .proceed, .request i .proceed]

/-- The first request is confirmed and satisfied, then a rule starts to block. The second
one has locked the call as pending and is refused, and denies it after the first one has
applied the mutation. -/
def lateDenial : List Label :=
  suspending ++ approving 0 ++ approving 1 ++ locking 0 ++
    [.request 0 (.evaluated .requireConfirmation true), .request 0 .proceed] ++ locking 1 ++
    [.request 1 (.evaluated .block true), .request 0 .proceed, .request 0 .proceed,
      .request 0 .proceed]

/-- A call that SUCCEEDED, with its mutation in the file and its completed event recorded,
becomes BLOCKED. -/
theorem late_denial_blocks_succeeded :
    ∃ s t, (system exampleKind).Reachable s ∧ (system exampleKind).step s
      (.request 1 .proceed) = .some t ∧
      s.call.committed.status = .succeeded ∧ s.replacements = 1 ∧
        t.call.committed.status = .blocked := by
  have hexec : (system exampleKind).exec exampleStart lateDenial = .some _ := rfl
  exact ⟨_, _, System.exec_reachable ⟨.preimage, rfl⟩ hexec, rfl, rfl, rfl, rfl⟩

/-- One approval, up to the end of the call. -/
def applying : List Label :=
  suspending ++ approving 0 ++ locking 0 ++
    [.request 0 (.evaluated .requireConfirmation true), .request 0 .proceed, .request 0 .proceed,
      .request 0 .proceed, .request 0 .proceed]

/-- Without a denial the call that SUCCEEDED stays so, in every further run. -/
theorem decided_at_most_once_succeeded :
    ∃ s, s.replacements ≤ 1 ∧ s.call.committed.status = .succeeded ∧
      ∀ t, (system exampleKind).Run (fun s a => ¬ LateDenial s a) s t →
        t.call.committed.status = .succeeded := by
  have hexec : (system exampleKind).exec exampleStart applying = .some _ := rfl
  have hreach : (system exampleKind).Reachable _ := System.exec_reachable ⟨.preimage, rfl⟩ hexec
  exact ⟨_, (decided_at_most_once hreach).1.1, rfl, ((decided_at_most_once hreach).2 rfl).2⟩

end Novalton.Approvals
