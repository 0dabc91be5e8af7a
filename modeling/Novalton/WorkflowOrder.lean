/-
The order of a plan: a step is started only after its prerequisites, a run is COMPLETED
only with all its steps, and what has ended stays ended.

A dependent is made READY by a request that has seen every prerequisite as COMPLETED. What
it saw is committed or its own, so the commit that publishes the dependent leaves every
prerequisite COMPLETED, which is final.
-/
import Novalton.WorkflowLocks

namespace Novalton.Workflow

variable {n : ℕ} {plan : Plan n} {s t : State n} {i j : ℕ} {k p d : Fin n} {answer : Answer n}
  {pc pc' : Pc n} {write : Write n}

theorem completed_of_count (h : incompleteDependencyCount plan s i d = 0) :
    ∀ p ∈ plan.dependsOn d, s.status i p = .completed := by
  intro p hp
  have hnot := List.countP_eq_zero.mp h p hp
  simpa using hnot

theorem completed_of_allCompleted (h : allCompleted plan s i = true) (p : Fin n) :
    s.status i p = .completed := by
  unfold allCompleted at h
  rw [Bool.and_eq_true] at h
  have hall := List.all_eq_true.mp h.2 p (plan.order_all p)
  simpa using hall

theorem completed_of_countCompleted (h : countCompleted plan s i = plan.order.length) (p : Fin n) :
    s.status i p = .completed := by
  have hall := List.countP_eq_length.mp h p (plan.order_all p)
  simpa using hall

/-! ## What a request has seen as COMPLETED -/

/-- What a request that holds nothing sees is committed. -/
theorem Held.committed_of_status (hs : Held plan s) (hfree : (s.requests i).free) :
    s.status i p = (s.step p).committed := by
  unfold State.status Row.view
  split
  next j v hown =>
    rw [if_neg]
    rintro rfl
    exact hs.unheld hfree hown
  next => rfl

/-- A step a request sees as COMPLETED is, or it is the one it completes. -/
theorem Held.status_completed (hs : Held plan s) :
    s.status i p = .completed ↔ (s.step p).committed = .completed ∨
      (s.requests i).completing = .some p := by
  constructor
  · intro h
    unfold State.status Row.view at h
    split at h
    next j v hown =>
      split at h
      next hj =>
        subst hj
        subst h
        rcases hs.step hown with ⟨-, hcompleting, -⟩ | ⟨hv, -⟩ | ⟨hv, -⟩
        · exact .inr hcompleting
        · cases hv
        · cases hv
      next => exact .inl h
    next => exact .inl h
  · rintro (h | h)
    · have hnone := hs.committed (p := p) (by rw [h]; exact ⟨nofun, nofun⟩)
      exact (State.status_of_unheld hnone).trans h
    · unfold State.status Row.view
      rw [hs.completing h]
      exact if_pos rfl

/-- It goes on seeing it as COMPLETED until it rolls back. -/
theorem Held.status_stays (hs : Held plan s) (hnext : Next plan s i answer (s.requests i) write pc)
    (hallowed : (s.requests i).allowed) (h : s.status j p = .completed)
    (hkeep : j ≠ i ∨ write ≠ .rollback) :
    (s.after i write pc).status j p = .completed := by
  have ht := hs.next hnext
  rw [hs.status_completed] at h
  rw [ht.status_completed]
  rcases h with h | h
  · refine .inl ?_
    show (write.step i p (s.step p)).committed = _
    rw [hs.terminal_stays hnext hallowed (by rw [h]; rfl)]
    exact h
  · by_cases hne : j = i
    · subst hne
      by_cases hcommit : write = .commit
      · refine .inl ?_
        subst hcommit
        have hown := hs.completing h
        simp [State.after, Write.step, Row.commit, hown]
      · by_cases hwrites : ∃ q target, write = .writeStep q target
        · obtain ⟨q, target, rfl⟩ := hwrites
          rcases hnext.writesStep.2 with ⟨completion, hpc, -⟩ | ⟨hpc, -⟩ |
            ⟨k, dependents, completion, hpc, -, -, rfl⟩
          · rw [hpc] at h; cases h
          · rw [hpc] at h; cases h
          · rw [hpc] at h
            cases h
            exact .inr (by rw [State.after_self]; rfl)
        · push Not at hwrites
          refine .inr ?_
          rw [State.after_self, (hnext.keeps hwrites hcommit (hkeep.resolve_left (absurd rfl))).1]
          exact h
    · exact .inr (by rw [State.after_ne hne]; exact h)

/-! ## The order of steps -/

structure Ordered (plan : Plan n) (s : State n) : Prop where
  started : ∀ d, (s.step d).committed.started = true → ∀ p ∈ plan.dependsOn d,
    (s.step p).committed = .completed
  readied : ∀ i d, (s.step d).own = .some (i, .some .ready) → ∀ p ∈ plan.dependsOn d,
    s.status i p = .completed
  counted : ∀ i k d dependents completion,
    s.requests i = .readyDependent k d dependents completion →
    ∀ p ∈ plan.dependsOn d, s.status i p = .completed

/-- A dependent is about to be made READY where its prerequisites are all seen as COMPLETED. -/
theorem Next.readies {dependents : List (Fin n)} {completion : Completion}
    (h : Next plan s i answer pc write pc')
    (hpc : pc' = .readyDependent k d dependents completion) :
    write = .none ∧ ∀ p ∈ plan.dependsOn d, s.status i p = .completed := by
  have hnot : ∀ {pc'' : Pc n}, pc''.free → pc'' ≠ .readyDependent k d dependents completion := by
    rintro pc'' hfree rfl
    cases hfree.1
  cases h with
  | dependenciesComplete k' d' dependents' completion' h =>
    cases hpc
    exact ⟨rfl, completed_of_count h⟩
  | begin request => exact absurd hpc (hnot (free_start request))
  | startRun selected =>
    exact absurd hpc (hnot (free_elim _ ⟨rfl, rfl, rfl⟩ fun _ => ⟨rfl, rfl, rfl⟩))
  | transitionStep k expected target run =>
    exact absurd hpc (hnot (free_elim _ ⟨rfl, rfl, rfl⟩ fun _ => ⟨rfl, rfl, rfl⟩))
  | handoff k resolution =>
    exact absurd hpc (hnot (free_elim _ ⟨rfl, rfl, rfl⟩ fun _ => ⟨rfl, rfl, rfl⟩))
  | linkAgentRun k role executed => exact absurd hpc (hnot (free_afterLink role executed))
  | continued k response => exact absurd hpc (hnot (free_afterContinuation response))
  | counted | commit | decidePending => split at hpc <;> cases hpc
  | _ => cases hpc

theorem Ordered.next (hI : Ordered plan s) (hs : Held plan s)
    (hnext : Next plan s i answer (s.requests i) write pc) (hallowed : (s.requests i).allowed) :
    Ordered plan (s.after i write pc) := by
  have hfinal : ∀ {p}, (s.step p).committed = .completed →
      (write.step i p (s.step p)).committed = .completed := by
    intro p h
    rw [hs.terminal_stays hnext hallowed (by rw [h]; rfl)]
    exact h
  refine ⟨fun d hd p hp => ?_, fun j d hown p hp => ?_, fun j k d dependents completion hpc p hp =>
    ?_⟩
  · change (write.step i d (s.step d)).committed.started = true at hd
    show (write.step i p (s.step p)).committed = .completed
    rcases hs.changes hnext hallowed d with hsame | ⟨target, -, htarget, hmove, -⟩ |
      ⟨target, hcommit, htarget, hown⟩
    · rw [hsame] at hd
      exact hfinal (hI.started d hd p hp)
    · -- a started step was started before
      rw [htarget] at hd
      exact hfinal (hI.started d (started_of_allowed hmove hd) p hp)
    · rcases hs.step hown with ⟨-, -, hrunning⟩ | ⟨hv, -⟩ | ⟨hv, -⟩
      · exact hfinal (hI.started d (by rw [hrunning]; rfl) p hp)
      · cases hv
        rw [htarget] at hd
        cases hd
      · -- the commit publishes the dependent with the last prerequisite
        cases hv
        subst hcommit
        have hseen := hI.readied i d hown p hp
        exact Row.commit_view.trans hseen
  · by_cases hne : j = i
    · subst hne
      by_cases hwrites : ∃ q target, write = .writeStep q target
      · obtain ⟨q, target, rfl⟩ := hwrites
        have hkeep : Write.writeStep q target ≠ .rollback := by
          intro h
          cases h
        by_cases hq : d = q
        · subst hq
          rcases hnext.writesStep.2 with ⟨-, -, htarget, -⟩ | ⟨-, htarget, -⟩ |
            ⟨k, dependents, completion, hpc, -⟩
          · rw [htarget] at hown
            simp [State.after, Write.step] at hown
          · rw [htarget] at hown
            simp [State.after, Write.step] at hown
          · exact hs.status_stays hnext hallowed (hI.counted j k d dependents completion hpc p hp)
              (.inr hkeep)
        · have hbefore : (s.step d).own = .some (j, .some .ready) := by
            simpa [State.after, Write.step, hq] using hown
          exact hs.status_stays hnext hallowed (hI.readied j d hbefore p hp) (.inr hkeep)
      · push Not at hwrites
        have hrollback : write ≠ .rollback := by
          rintro rfl
          exact Row.rollback_own_ne hown
        have hcommit : write ≠ .commit := by
          rintro rfl
          exact Row.commit_own_ne hown
        have hsame : write.step j d (s.step d) = s.step d := by
          refine Write.step_same (hwrites d) (fun target h => ?_) hcommit hrollback _
          subst h
          simp [State.after, Write.step, Row.idle] at hown
        have hbefore : (s.step d).own = .some (j, .some .ready) := by
          rw [← hsame]
          exact hown
        exact hs.status_stays hnext hallowed (hI.readied j d hbefore p hp) (.inr hrollback)
    · have hbefore := Write.held_step hnext hown hne
      exact hs.status_stays hnext hallowed (hI.readied j d hbefore p hp) (.inl hne)
  · by_cases hne : j = i
    · subst hne
      rw [State.after_self] at hpc
      obtain ⟨rfl, hseen⟩ := hnext.readies hpc
      exact hs.status_stays hnext hallowed (hseen p hp) (.inr fun h => by cases h)
    · rw [State.after_ne hne] at hpc
      exact hs.status_stays hnext hallowed (hI.counted j k d dependents completion hpc p hp)
        (.inl hne)

theorem ordered (h : (system plan).Reachable s) : Ordered plan s := by
  refine h.invariant_with (J := fun s => (system plan).Reachable s) (fun _ hs => hs) ?_ ?_
  · rintro s rfl
    refine ⟨fun d hd p hp => ?_, fun i d hown => (by cases hown),
      fun i k d dependents completion hpc => (by cases hpc)⟩
    change (if plan.dependsOn d = [] then WorkflowStepRunStatus.ready else .pending).started =
      true at hd
    rw [if_neg (List.ne_nil_of_mem hp)] at hd
    cases hd
  · intro s a t hs hI hstep
    obtain ⟨write, pc, hnext, rfl⟩ := step_cases hstep
    exact hI.next (held hs) hnext (allowed hs a.i)

/-! ## The completion of the run -/

/-- A run is about to be COMPLETED, or is, where all its steps are. -/
structure Complete (s : State n) : Prop where
  run : s.run.committed = .completed → ∀ k, (s.step k).committed = .completed
  held : ∀ i, s.run.own = .some (i, .some .completed) → ∀ k, s.status i k = .completed
  moves : ∀ i, s.requests i = .transitionRun .completed → ∀ k, (s.step k).committed = .completed
  writes : ∀ i k, s.requests i = .completeRun k → ∀ p, s.status i p = .completed

/-- A request turns to complete the run where it sees every step as COMPLETED. -/
theorem Next.completesRun (h : Next plan s i answer pc write pc') (hallowed : pc.allowed)
    (hpc : pc' = .transitionRun .completed) : write = .none ∧ pc.free ∧
    ∀ k, s.status i k = .completed := by
  cases h with
  | allCompleted run h => exact ⟨rfl, ⟨rfl, rfl, rfl⟩, completed_of_allCompleted h⟩
  | countStepStates h => exact ⟨rfl, ⟨rfl, rfl, rfl⟩, completed_of_countCompleted h⟩
  | transitionStep k expected target run =>
    cases run with
    | none => cases hpc
    | some run =>
      cases hpc
      exact absurd rfl hallowed.2.2
  | begin request =>
    have hstart : ∀ request : Request n, request.start ≠ .transitionRun .completed := by
      intro request
      cases request with
      | transition k expected target =>
        simp only [Request.start, Workflow.transitionStep]
        split
        · split <;> intro h <;> cases h
        · intro h
          cases h
      | _ =>
        intro h
        cases h
    exact absurd hpc (hstart request)
  | startRun selected => cases selected <;> cases hpc
  | handoff k resolution => cases resolution <;> cases hpc
  | linkAgentRun k role executed =>
    unfold afterLink at hpc
    split at hpc
    · cases hpc
    · cases hpc
    · dsimp only at hpc
      split at hpc <;> cases hpc
    · split at hpc <;> cases hpc
  | continued k response =>
    unfold afterContinuation at hpc
    split at hpc <;> cases hpc
  | counted | commit | decidePending => split at hpc <;> cases hpc
  | _ => cases hpc

theorem Next.completesRunHeld (h : Next plan s i answer pc write pc') (hpc : pc' = .completeRun k) :
    write = .none ∧ ∀ p, s.status i p = .completed := by
  have hnot : ∀ {pc'' : Pc n}, pc''.free → pc'' ≠ .completeRun k := by
    rintro pc'' hfree rfl
    cases hfree.1
  cases h with
  | countInTransaction k' h =>
    cases hpc
    exact ⟨rfl, completed_of_countCompleted h⟩
  | begin request => exact absurd hpc (hnot (free_start request))
  | startRun selected =>
    exact absurd hpc (hnot (free_elim _ ⟨rfl, rfl, rfl⟩ fun _ => ⟨rfl, rfl, rfl⟩))
  | transitionStep k expected target run =>
    exact absurd hpc (hnot (free_elim _ ⟨rfl, rfl, rfl⟩ fun _ => ⟨rfl, rfl, rfl⟩))
  | handoff k resolution =>
    exact absurd hpc (hnot (free_elim _ ⟨rfl, rfl, rfl⟩ fun _ => ⟨rfl, rfl, rfl⟩))
  | linkAgentRun k role executed => exact absurd hpc (hnot (free_afterLink role executed))
  | continued k response => exact absurd hpc (hnot (free_afterContinuation response))
  | counted | commit | decidePending => split at hpc <;> cases hpc
  | _ => cases hpc

theorem Complete.next (hI : Complete s) (hs : Held plan s)
    (hnext : Next plan s i answer (s.requests i) write pc) (hallowed : (s.requests i).allowed) :
    Complete (s.after i write pc) := by
  have hfinal : (∀ k, (s.step k).committed = .completed) →
      ∀ k, (write.step i k (s.step k)).committed = .completed := by
    intro h k
    rw [hs.terminal_stays hnext hallowed (by rw [h k]; rfl)]
    exact h k
  refine ⟨fun hrun => ?_, fun j hown => ?_, fun j hpc => ?_, fun j k hpc p => ?_⟩
  · change (write.run i s.run).committed = _ at hrun
    show ∀ k, (write.step i k (s.step k)).committed = .completed
    cases write with
    | moveRun target =>
      rcases hnext.movesRun.2.2.2.2 with ⟨-, rfl, -⟩ | ⟨-, hpc, -⟩
      · cases hrun
      · cases hrun
        exact hfinal (hI.moves i hpc)
    | commit =>
      simp only [Write.run, Row.commit_view] at hrun
      by_cases hown : s.run.own = .some (i, .some .completed)
      · intro k
        exact Row.commit_view.trans (hI.held i hown k)
      · refine hfinal (hI.run ?_)
        unfold Row.view at hrun
        split at hrun
        next j v hheld =>
          split at hrun
          next hj =>
            subst hj
            subst hrun
            exact absurd hheld hown
          next => exact hrun
        next => exact hrun
    | rollback =>
      simp only [Write.run, Row.rollback_committed] at hrun
      exact hfinal (hI.run hrun)
    | _ => exact hfinal (hI.run hrun)
  · intro k
    change (write.run i s.run).own = _ at hown
    cases write with
    | moveRun target => cases hown
    | writeRun target =>
      cases hown
      have hpc : ∃ k, s.requests i = .completeRun k := by
        generalize hw : Write.writeRun WorkflowRunStatus.completed = w at hnext
        generalize hat : s.requests i = at_ at hnext
        cases hnext with
        | completeRun k => exact ⟨k, rfl⟩
        | failRun => cases hw
        | _ => cases hw
      obtain ⟨q, hpc⟩ := hpc
      exact hs.status_stays hnext hallowed (hI.writes i q hpc k) (.inr nofun)
    | commit =>
      have hne : j ≠ i := by
        rintro rfl
        exact Row.commit_own_ne hown
      exact hs.status_stays hnext hallowed (hI.held j (Row.own_of_commit hown) k) (.inl hne)
    | rollback =>
      have hne : j ≠ i := by
        rintro rfl
        exact Row.rollback_own_ne hown
      exact hs.status_stays hnext hallowed (hI.held j (Row.own_of_rollback hown) k) (.inl hne)
    | _ => exact hs.status_stays hnext hallowed (hI.held j hown k) (.inr nofun)
  · show ∀ k, (write.step i k (s.step k)).committed = .completed
    by_cases hne : j = i
    · subst hne
      rw [State.after_self] at hpc
      obtain ⟨rfl, hfree, hseen⟩ := hnext.completesRun hallowed hpc
      exact fun k => (hs.committed_of_status hfree).symm.trans (hseen k)
    · rw [State.after_ne hne] at hpc
      exact hfinal (hI.moves j hpc)
  · by_cases hne : j = i
    · subst hne
      rw [State.after_self] at hpc
      obtain ⟨rfl, hseen⟩ := hnext.completesRunHeld hpc
      exact hs.status_stays hnext hallowed (hseen p) (.inr nofun)
    · rw [State.after_ne hne] at hpc
      exact hs.status_stays hnext hallowed (hI.writes j k hpc p) (.inl hne)

theorem complete (h : (system plan).Reachable s) : Complete s := by
  refine h.invariant_with (J := fun s => (system plan).Reachable s) (fun _ hs => hs) ?_ ?_
  · rintro s rfl
    exact ⟨fun h => (by cases h), fun i h => (by cases h), fun i h => (by cases h), fun i k h =>
      (by cases h)⟩
  · intro s a t hs hI hstep
    obtain ⟨write, pc, hnext, rfl⟩ := step_cases hstep
    exact hI.next (held hs) hnext (allowed hs a.i)

/-- **Steps run in the order of their plan.** In every state that any requests reach in any
order, a step is started only where its prerequisites are all COMPLETED, a run is COMPLETED
only with all its steps, and a step that has ended keeps its status in every further run. -/
theorem dependency_order (h : (system plan).Reachable s) :
    (∀ d, (s.step d).committed.started = true → ∀ p ∈ plan.dependsOn d,
      (s.step p).committed = .completed) ∧
    (s.run.committed = .completed → ∀ k, (s.step k).committed = .completed) ∧
    (∀ k, (s.step k).committed.terminal = true → ∀ t, (system plan).Run System.always s t →
      (t.step k).committed = (s.step k).committed) := by
  refine ⟨(ordered h).started, (complete h).run, fun k hended t hrun => ?_⟩
  suffices hkept : (system plan).Reachable t ∧ (t.step k).committed = (s.step k).committed from
    hkept.2
  refine hrun.invariant (I := fun t => (system plan).Reachable t ∧
    (t.step k).committed = (s.step k).committed) ?_
    ⟨h, rfl⟩
  rintro u a v ⟨hu, hsame⟩ - hstep
  refine ⟨hu.step hstep, ?_⟩
  obtain ⟨write, pc, hnext, rfl⟩ := step_cases hstep
  have hstays :=
    (held hu).terminal_stays hnext (allowed hu a.i) (p := k) (by rw [hsame]; exact hended)
  exact hstays.trans hsame

/-- The step that joins two branches is READY once both are COMPLETED. -/
theorem dependency_order_joined :
    ∃ s : State 3, (system joinPlan).Reachable s ∧ (s.step 2).committed = .ready ∧
      ∀ p ∈ joinPlan.dependsOn 2, (s.step p).committed = .completed := by
  have hexec : (system joinPlan).exec (createRun joinPlan) inTurn = .some _ := rfl
  have hreachable := @System.exec_reachable _ _ (system joinPlan) _ _ _ rfl hexec
  exact ⟨_, hreachable, rfl, (dependency_order hreachable).1 2 rfl⟩

end Novalton.Workflow
