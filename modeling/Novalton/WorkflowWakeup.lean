/-
Lost wake-ups: a step whose prerequisites are all COMPLETED and that nobody has made READY.

A completion looks at each pending dependent and counts the prerequisites it does not see
as COMPLETED. It does not see those another transaction has completed and not committed,
and that one may have counted already. Such a count is the only way to lose a wake-up:
as long as there is none, whoever completes the last prerequisite, as the others see it,
still has the dependent before it.
-/
import Novalton.WorkflowLocks

namespace Novalton.Workflow

variable {n : ℕ} {plan : Plan n} {s t : State n} {i j : ℕ} {k p d : Fin n} {answer : Answer n}
  {pc pc' : Pc n} {write : Write n}

/-! ## The condition -/

/-- The request still looks at the dependent. -/
def Pc.wakes (plan : Plan n) (pc : Pc n) (d : Fin n) : Prop :=
  d ∈ pc.dependents ∨ ∃ k completion, pc = .pendingDependents k completion ∧ k ∈ plan.dependsOn d

/-- The step counts prerequisites of a dependent as incomplete, and every one of them is
completed by a transaction that is past the dependent and has not committed. -/
def Overlooks (plan : Plan n) (s : State n) (a : Label n) : Prop :=
  ∃ k d dependents completion,
    s.requests a.i = .incompleteDependencyCount k (d :: dependents) completion ∧
    a.answer = .proceed ∧ incompleteDependencyCount plan s a.i d ≠ 0 ∧
    ∀ p ∈ plan.dependsOn d, s.status a.i p ≠ .completed →
      ∃ j, (s.step p).own = .some (j, .some .completed) ∧ ¬ (s.requests j).wakes plan d

/-! ## The invariant -/

/-- COMPLETED, or completed in a transaction. -/
def Completes (s : State n) (p : Fin n) : Prop :=
  (s.step p).committed = .completed ∨ ∃ j, (s.step p).own = .some (j, .some .completed)

/-- Where the last prerequisite is completed, somebody wakes the dependent. -/
structure Woken (plan : Plan n) (s : State n) : Prop where
  starts : ∀ d, (s.step d).committed = .pending → plan.dependsOn d ≠ []
  wakes : ∀ d, (s.step d).committed = .pending → (∀ p ∈ plan.dependsOn d, Completes s p) →
    ∃ j, (s.requests j).wakes plan d ∨ (s.step d).own = .some (j, .some .ready)

/-- A step that is PENDING was. -/
theorem Held.pending_before (hs : Held plan s)
    (hnext : Next plan s i answer (s.requests i) write pc) (hallowed : (s.requests i).allowed)
    (h : (write.step i d (s.step d)).committed = .pending) :
    (s.step d).committed = .pending := by
  rcases hs.changes hnext hallowed d with hsame | ⟨target, -, htarget, hmove, -⟩ |
    ⟨target, -, htarget, hown⟩
  · rw [← hsame]
    exact h
  · rw [htarget] at h
    rw [h] at hmove
    cases hstatus : (s.step d).committed <;> rw [hstatus] at hmove <;> cases hmove
  · rw [htarget] at h
    rw [h] at hown
    rcases hs.step hown with ⟨hv, -⟩ | ⟨hv, -⟩ | ⟨hv, -⟩ <;> cases hv

/-- A step that completes did, or is completed now. -/
theorem Held.completes_before (hnext : Next plan s i answer (s.requests i) write pc)
    (hallowed : (s.requests i).allowed) (h : Completes (s.after i write pc) p) :
    Completes s p ∨ write = .writeStep p .completed := by
  unfold Completes at h
  rw [show (s.after i write pc).step p = write.step i p (s.step p) from rfl] at h
  cases write with
  | moveStep q target =>
    simp only [Write.step] at h
    split at h
    · rename_i hq
      subst hq
      rcases h with h | ⟨j, h⟩
      · exact absurd h (hnext.target hallowed).2
      · cases h
    · exact .inl h
  | writeStep q target =>
    simp only [Write.step] at h
    split at h
    · rename_i hq
      subst hq
      rcases h with h | ⟨j, h⟩
      · exact .inl (.inl h)
      · cases h
        exact .inr rfl
    · exact .inl h
  | commit =>
    simp only [Write.step] at h
    rcases h with h | ⟨j, h⟩
    · unfold Row.commit at h
      split at h
      next j w hown =>
        split at h
        next hj =>
          subst hj
          cases w with
          | none => exact .inl (.inl h)
          | some v => exact .inl (.inr ⟨j, hown.trans (by rw [show v = .completed from h])⟩)
        next => exact .inl (.inl h)
      next => exact .inl (.inl h)
    · exact .inl (.inr ⟨j, Row.own_of_commit h⟩)
  | rollback =>
    simp only [Write.step, Row.rollback_committed] at h
    rcases h with h | ⟨j, h⟩
    · exact .inl (.inl h)
    · exact .inl (.inr ⟨j, Row.own_of_rollback h⟩)
  | _ => exact .inl h

/-- The request that wakes a dependent has completed one of its prerequisites. -/
theorem Held.completing_of_wakes (hs : Held plan s)
    (h : (s.requests i).wakes plan d ∨ (s.step d).own = .some (i, .some .ready)) :
    ∃ k ∈ plan.dependsOn d, (s.requests i).completing = .some k := by
  rcases h with (h | ⟨k, completion, hpc, hk⟩) | h
  · exact hs.dependents h
  · exact ⟨k, hk, by rw [hpc]; rfl⟩
  · rcases hs.step h with ⟨hv, -⟩ | ⟨hv, -⟩ | ⟨-, hcompleting, -⟩
    · cases hv
    · cases hv
    · exact hcompleting

/-- The request that wakes a dependent still does so after its step, unless it overlooks it. -/
theorem Woken.goesOn (hs : Held plan s) (hnext : Next plan s i answer (s.requests i) write pc)
    (hguard : ¬ Overlooks plan s ⟨i, answer⟩)
    (hpending : (s.step d).committed = .pending)
    (hpending' : (write.step i d (s.step d)).committed = .pending)
    (hcompletes : ∀ p ∈ plan.dependsOn d, Completes s p)
    (hcompletes' : ∀ p ∈ plan.dependsOn d, Completes (s.after i write pc) p)
    (h : (s.requests i).wakes plan d ∨ (s.step d).own = .some (i, .some .ready)) :
    (∃ j, j ≠ i ∧ (s.requests j).wakes plan d) ∨ pc.wakes plan d ∨
      (write.step i d (s.step d)).own = .some (i, .some .ready) := by
  obtain ⟨k, hk, hcompleting⟩ := hs.completing_of_wakes h
  have hown := hs.completing hcompleting
  -- what is not held by the request is seen as it is
  have hsees : (s.step d).own = .some (i, .some .ready) ∨ s.status i d = .pending := by
    by_cases hheld : ∃ w, (s.step d).own = .some (i, w)
    · obtain ⟨w, hheld⟩ := hheld
      rcases hs.step hheld with ⟨-, -, h⟩ | ⟨-, -, h⟩ | ⟨hw, -, -⟩
      · rw [hpending] at h; cases h
      · rw [hpending] at h; cases h
      · exact .inl (hheld.trans (by rw [hw]))
    · refine .inr ?_
      unfold State.status Row.view
      split
      next j v hj => rw [if_neg (by rintro rfl; exact hheld ⟨_, hj⟩)]; exact hpending
      next => exact hpending
  generalize hpc : s.requests i = pc₀ at hnext h hcompleting
  cases hnext with
  | leave =>
    -- the prerequisite is no longer completed
    exfalso
    have hrow : ((s.step k).rollback i).committed = .running ∧
        ((s.step k).rollback i).own = .none := by
      rcases hs.step hown with ⟨-, -, hrunning⟩ | ⟨hv, -⟩ | ⟨hv, -⟩
      · unfold Row.rollback
        rw [hown]
        simp [hrunning]
      · cases hv
      · cases hv
    rcases hcompletes' k hk with h | ⟨j, h⟩
    · rw [show (s.after i .rollback .idle).step k = (s.step k).rollback i from rfl, hrow.1] at h
      cases h
    · rw [show (s.after i .rollback .idle).step k = (s.step k).rollback i from rfl, hrow.2] at h
      cases h
  | pendingDependents k' completion =>
    cases hcompleting
    rcases hsees with hheld | hstatus
    · exact .inr (.inr hheld)
    · refine .inr (.inl (.inl (List.mem_filter.mpr ⟨List.mem_finRange d, ?_⟩)))
      rw [Bool.and_eq_true]
      exact ⟨decide_eq_true hstatus, List.contains_iff_mem.mpr hk⟩
  | counted k' completion =>
    rcases h with (h | ⟨_, _, h, -⟩) | h
    · cases h
    · cases h
    · exact .inr (.inr h)
  | dependenciesComplete k' d' dependents completion =>
    rcases h with (h | ⟨_, _, h, -⟩) | h
    · exact .inr (.inl (.inl h))
    · cases h
    · exact .inr (.inr h)
  | incomplete k' d' dependents completion hcount =>
    rcases h with (h | ⟨_, _, h, -⟩) | h
    · rcases List.mem_cons.mp h with rfl | h
      · -- somebody else still looks at the dependent
        unfold Overlooks at hguard
        push Not at hguard
        obtain ⟨p, hp, hincomplete, hwakes⟩ := hguard k' d dependents completion hpc rfl hcount
        rcases hcompletes p hp with hcommitted | ⟨j, hj⟩
        · have hnone := hs.committed (p := p) (by rw [hcommitted]; exact ⟨nofun, nofun⟩)
          exact absurd ((State.status_of_unheld hnone).trans hcommitted) hincomplete
        · refine .inl ⟨j, ?_, hwakes j hj⟩
          rintro rfl
          refine hincomplete ?_
          unfold State.status Row.view
          rw [hj]
          exact if_pos rfl
      · exact .inr (.inl (.inl h))
    · cases h
    · exact .inr (.inr h)
  | ready k' d' dependents completion hfree hstatus =>
    have hrow : (Write.writeStep d' .ready).step i d (s.step d) =
        if d = d' then ⟨(s.step d).committed, .some (i, .some .ready)⟩ else s.step d := rfl
    rw [hrow]
    by_cases hd : d = d'
    · rw [if_pos hd]
      exact .inr (.inr rfl)
    · rw [if_neg hd]
      rcases h with (h | ⟨_, _, h, -⟩) | h
      · exact .inr (.inl (.inl ((List.mem_cons.mp h).resolve_left hd)))
      · cases h
      · exact .inr (.inr h)
  | leftPending k' d' dependents completion hfree hstatus =>
    rcases h with (h | ⟨_, _, h, -⟩) | h
    · rcases List.mem_cons.mp h with rfl | h
      · exact .inr (.inr (hsees.resolve_right hstatus))
      · exact .inr (.inl (.inl h))
    · cases h
    · exact .inr (.inr h)
  | commit k' completion =>
    -- the commit publishes the dependent as READY
    exfalso
    rcases h with (h | ⟨_, _, h, -⟩) | h
    · cases h
    · cases h
    · simp only [Write.step, Row.commit, h] at hpending'
      cases hpending'
  | countInTransaction | uncompleted | completeRun =>
    rcases h with (h | ⟨_, _, h, -⟩) | h
    · cases h
    · cases h
    · exact .inr (.inr h)
  | _ => cases hcompleting

theorem Woken.next (hI : Woken plan s) (hs : Held plan s)
    (hnext : Next plan s i answer (s.requests i) write pc) (hallowed : (s.requests i).allowed)
    (hguard : ¬ Overlooks plan s ⟨i, answer⟩) :
    Woken plan (s.after i write pc) := by
  refine ⟨fun d hpending => hI.starts d (hs.pending_before hnext hallowed hpending),
    fun d hpending' hcompletes' => ?_⟩
  have hpending := hs.pending_before hnext hallowed hpending'
  by_cases hcompleted : ∃ k ∈ plan.dependsOn d, write = .writeStep k .completed
  · -- a prerequisite is completed now, by a request that has its dependents before it
    obtain ⟨k, hk, rfl⟩ := hcompleted
    refine ⟨i, .inl ?_⟩
    rw [State.after_self]
    rcases hnext.writesStep.2 with ⟨completion, -, -, -, rfl⟩ | ⟨-, h, -⟩ | ⟨_, _, _, -, h, -⟩
    · exact .inr ⟨k, completion, rfl, hk⟩
    · cases h
    · cases h
  · have hcompletes : ∀ p ∈ plan.dependsOn d, Completes s p := by
      intro p hp
      rcases Held.completes_before hnext hallowed (hcompletes' p hp) with h | h
      · exact h
      · exact absurd ⟨p, hp, h⟩ hcompleted
    obtain ⟨j, hj⟩ := hI.wakes d hpending hcompletes
    by_cases hne : j = i
    · subst hne
      rcases Woken.goesOn hs hnext hguard hpending hpending' hcompletes hcompletes' hj with ⟨k, hk,
        h⟩ | h | h
      · exact ⟨k, .inl (by rw [State.after_ne hk]; exact h)⟩
      · exact ⟨j, .inl (by rw [State.after_self]; exact h)⟩
      · exact ⟨j, .inr h⟩
    · refine ⟨j, hj.imp (fun h => ?_) (fun h => ?_)⟩
      · rw [State.after_ne hne]
        exact h
      · exact (congrArg Row.own (Write.step_held h hne hnext)).trans h

theorem woken (h : (system plan).ReachableUnder (fun s a => ¬ Overlooks plan s a) s) :
    Woken plan s := by
  refine h.invariant_with (J := fun s => (system plan).Reachable s) (fun _ hs => hs.reachable) ?_ ?_
  · rintro s rfl
    refine ⟨fun d hpending hnone => ?_, fun d hpending hcompletes => ?_⟩
    · change (if plan.dependsOn d = [] then _ else _) = _ at hpending
      rw [if_pos hnone] at hpending
      cases hpending
    · change (if plan.dependsOn d = [] then _ else _) = _ at hpending
      cases hdepends : plan.dependsOn d with
      | nil =>
        rw [if_pos hdepends] at hpending
        cases hpending
      | cons p rest =>
        exfalso
        rcases hcompletes p (by rw [hdepends]; exact List.mem_cons_self) with h | ⟨j, h⟩
        · change (if plan.dependsOn p = [] then _ else _) = _ at h
          split at h <;> cases h
        · cases h
  · intro s a t hs hI hguard hstep
    obtain ⟨write, pc, hnext, rfl⟩ := step_cases hstep
    exact hI.next (held hs) hnext (allowed hs a.i) hguard

/-- **No wake-up is lost but by an overlooking count.** In the runs without one, wherever no
request is in progress a step whose prerequisites are all COMPLETED has left PENDING. -/
theorem completed_prerequisites_wake
    (h : (system plan).ReachableUnder (fun s a => ¬ Overlooks plan s a) s)
    (hidle : ∀ i, s.requests i = .idle) (d : Fin n)
    (hcompleted : ∀ p ∈ plan.dependsOn d, (s.step p).committed = .completed) :
    (s.step d).committed ≠ .pending := by
  intro hpending
  obtain ⟨j, hj | hj⟩ := (woken h).wakes d hpending fun p hp => .inl (hcompleted p hp)
  · rw [hidle j] at hj
    rcases hj with hj | ⟨_, _, hj, -⟩ <;> cases hj
  · rw [(held h.reachable).quiescent hidle] at hj
    cases hj

/-! ## Two branches that join -/

/-- Two requests advance the two branches at once. Each completes its step before the
other commits. -/
def joining : List (Label 3) :=
  [⟨0, .begin .advance⟩, ⟨0, .proceed⟩, ⟨0, .proceed⟩] ++ executing 0 unchallenged ++
    [⟨1, .begin .advance⟩, ⟨1, .proceed⟩] ++ executing 1 unchallenged ++
    [⟨0, .proceed⟩, ⟨1, .proceed⟩, ⟨0, .proceed⟩, ⟨1, .proceed⟩, ⟨0, .proceed⟩, ⟨1, .proceed⟩] ++
    [⟨0, .proceed⟩, ⟨0, .proceed⟩, ⟨0, .proceed⟩, ⟨1, .proceed⟩, ⟨1, .proceed⟩, ⟨1, .proceed⟩]

/-- Both branches are COMPLETED and nobody makes the step that joins them READY. -/
theorem overlapping_completions_strand_dependent :
    ∃ s, (system joinPlan).Reachable s ∧ (∀ i, s.requests i = .idle) ∧ s.run.committed = .running ∧
      (∀ p ∈ joinPlan.dependsOn 2, (s.step p).committed = .completed) ∧
      (s.step 2).committed = .pending := by
  have hexec : (system joinPlan).exec (createRun joinPlan) joining = .some _ := rfl
  refine ⟨_, System.exec_reachable rfl hexec, fun i => ?_, rfl, ?_, rfl⟩
  · match i with
    | 0 => rfl
    | 1 => rfl
    | _ + 2 => rfl
  · exact joinPlan_dependsOn rfl rfl

theorem not_overlooks {a : Label n} (h : ∀ k d dependents completion,
    s.requests a.i ≠ .incompleteDependencyCount k (d :: dependents) completion) :
    ¬ Overlooks plan s a := by
  rintro ⟨k, d, dependents, completion, hpc, -⟩
  exact h k d dependents completion hpc

/-- The first one counts the other prerequisite as incomplete, which nobody has completed. -/
theorem completed_prerequisites_wake_joined :
    ∃ s : State 3, (system joinPlan).ReachableUnder (fun s a => ¬ Overlooks joinPlan s a) s ∧
      (∀ i, s.requests i = .idle) ∧
      (∀ p ∈ joinPlan.dependsOn 2, (s.step p).committed = .completed) ∧
      (s.step 2).committed ≠ .pending := by
  have hexec : (system joinPlan).exec (createRun joinPlan) inTurn = .some _ := rfl
  have hincomplete : ∀ {s : State 3}, s.requests 0 = .incompleteDependencyCount 0 [2] .transition →
      s.status 0 1 = .ready → (s.step 1).own = .none → ¬ Overlooks joinPlan s ⟨0, .proceed⟩ := by
    rintro s hpc hready hnone ⟨k, d, dependents, completion, hpc', -, -, hall⟩
    rw [hpc] at hpc'
    cases hpc'
    obtain ⟨j, hown, -⟩ := hall 1 (by decide) (by rw [hready]; nofun)
    rw [hnone] at hown
    cases hown
  have hcomplete : ∀ {s : State 3}, s.requests 0 = .incompleteDependencyCount 1 [2] .transition →
      incompleteDependencyCount joinPlan s 0 2 = 0 → ¬ Overlooks joinPlan s ⟨0, .proceed⟩ := by
    rintro s hpc hzero ⟨k, d, dependents, completion, hpc', -, hcount, -⟩
    rw [hpc] at hpc'
    cases hpc'
    exact hcount hzero
  have hguard : (system joinPlan).Guarded (fun s a => ¬ Overlooks joinPlan s a) (createRun joinPlan)
      inTurn :=
    ⟨not_overlooks nofun, not_overlooks nofun, not_overlooks nofun, not_overlooks nofun,
      not_overlooks nofun, hincomplete rfl rfl rfl, not_overlooks nofun, not_overlooks nofun,
        not_overlooks nofun, not_overlooks nofun,
      not_overlooks nofun, not_overlooks nofun, not_overlooks nofun, hcomplete rfl rfl,
        not_overlooks nofun,
      not_overlooks nofun, not_overlooks nofun, trivial⟩
  have hreachable := (⟨_, rfl, hguard.run hexec⟩ : (system joinPlan).ReachableUnder _ _)
  refine ⟨_, hreachable, fun i => ?_, joinPlan_dependsOn rfl rfl,
    completed_prerequisites_wake hreachable (fun i => ?_) 2
    (joinPlan_dependsOn rfl rfl)⟩ <;> cases i <;> rfl

end Novalton.Workflow
