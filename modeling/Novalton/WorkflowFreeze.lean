/-
Steps of a run that has ended. `advance` and `resolve` look at the run before they move a
step, and `transition_step` does not; neither looks again. So a step that is RUNNING or
WAITING_FOR_APPROVAL when another branch ends the run still completes, and readies what
depends on it, and a step chosen before still is claimed.

Where a run ends with no such step and no such choice, and nobody starts a step of it
directly, its steps do nothing more than be cancelled.
-/
import Novalton.WorkflowLocks

namespace Novalton.Workflow

variable {n : ℕ} {plan : Plan n} {s t : State n} {i j : ℕ} {k p : Fin n} {answer : Answer n}
  {pc pc' : Pc n} {write : Write n} {a : Label n}

/-! ## The condition -/

/-- The request moves the step to RUNNING if it is READY. -/
def Pc.claims (pc : Pc n) (k : Fin n) : Prop :=
  match pc with
  | .orderedStepRuns run => run = .running
  | .claim p => k = p
  | .transitionStep p expected target _ => k = p ∧ expected = .ready ∧ target = .running
  | _ => False

/-- The step ends the run. -/
def EndsRun (s : State n) (a : Label n) : Prop :=
  a.answer = .proceed ∧ s.run.committed = .running ∧
    ((∃ target, s.requests a.i = .transitionRun target) ∨
      ((s.requests a.i).commitsRun = true ∧ ∃ w, s.run.own = .some (a.i, w)))

/-- As the request sees them, no step is RUNNING or WAITING_FOR_APPROVAL, and no other
request is about to claim one that is READY. -/
def Settled (s : State n) (i : ℕ) : Prop :=
  (∀ k, s.status i k ≠ .running ∧ s.status i k ≠ .waitingForApproval) ∧
    ∀ j, j ≠ i → ∀ k, (s.requests j).claims k → s.status i k ≠ .ready

/-- The run ends where its steps are settled, and no step is started directly after it. -/
def Orderly (s : State n) (a : Label n) : Prop :=
  (EndsRun s a → Settled s a.i) ∧
    ∀ k, a.answer = .begin (.transition k .ready .running) → s.run.committed.terminal = false

/-! ## The invariant -/

/-- The steps of a run that has ended. -/
structure Frozen (s : State n) : Prop where
  steps : s.run.committed.terminal = true → ∀ k,
    (s.step k).committed ≠ .running ∧ (s.step k).committed ≠ .waitingForApproval
  claims : s.run.committed.terminal = true → ∀ j k, (s.requests j).claims k →
    (s.step k).committed ≠ .ready

/-- Where no step is RUNNING none is held. -/
theorem Held.unheld_of_not_running (hs : Held plan s) (h : ∀ k, (s.step k).committed ≠ .running) :
    (s.step p).own = .none := by
  cases hown : (s.step p).own with
  | none => rfl
  | some held =>
    rcases hs.step hown with ⟨-, -, hrunning⟩ | ⟨-, -, hrunning⟩ | ⟨-, ⟨k, -, hcompleting⟩, -⟩
    · exact absurd hrunning (h p)
    · exact absurd hrunning (h p)
    · rcases hs.step (hs.completing hcompleting) with ⟨-, -, hrunning⟩ | ⟨hv, -⟩ | ⟨hv, -⟩
      · exact absurd hrunning (h k)
      · cases hv
      · cases hv

/-- A request comes to claim a step by a direct request, or after it has seen the run. -/
theorem Next.claims (h : Next plan s i answer pc write pc') (hclaims : pc'.claims k) :
    pc.claims k ∨ answer = .begin (.transition k .ready .running) ∨ s.run.view i = .created ∨
      s.run.view i = .running ∧ pc = .getRun := by
  have hstart : ∀ request : Request n, request.start.claims k →
      request = .transition k .ready .running := by
    intro request h
    cases request with
    | transition q expected target =>
      simp only [Request.start, Workflow.transitionStep] at h
      split at h
      · split at h
        · cases h
        · obtain ⟨rfl, rfl, rfl⟩ := h
          rfl
      · cases h
    | _ => cases h
  cases h with
  | begin request => exact .inr (.inl (by rw [hstart request hclaims]))
  | getRun run hrun => exact .inr (.inr (.inr ⟨hrun.trans hclaims, rfl⟩))
  | selectStep q h => exact .inl rfl
  | startRun selected hfree h => exact .inr (.inr (.inl h))
  | transitionStep q expected target run =>
    cases run <;> cases hclaims
  | handoff q resolution => cases resolution <;> cases hclaims
  | executionFailed | executionCancelled | handoffFailed | failWaitingRun =>
    obtain ⟨-, h, -⟩ := hclaims
    cases h
  | linkAgentRun q role executed =>
    unfold afterLink at hclaims
    split at hclaims
    · obtain ⟨-, h, -⟩ := hclaims
      cases h
    · obtain ⟨-, h, -⟩ := hclaims
      cases h
    · dsimp only at hclaims
      split at hclaims <;> cases hclaims
    · split at hclaims <;> cases hclaims
  | continued q response =>
    unfold afterContinuation at hclaims
    split at hclaims
    · cases hclaims
    · obtain ⟨-, h, -⟩ := hclaims
      cases h
  | counted | commit | decidePending => split at hclaims <;> cases hclaims
  | _ => cases hclaims

/-- A step of a request moves the steps of a run that has ended no further than CANCELLED. -/
theorem Frozen.changes (hI : Frozen s) (hs : Held plan s)
    (hterminal : s.run.committed.terminal = true)
    (hnext : Next plan s i answer (s.requests i) write pc) (hallowed : (s.requests i).allowed)
    (p : Fin n) :
    (write.step i p (s.step p)).committed = (s.step p).committed ∨
    (write.step i p (s.step p)).committed = .cancelled := by
  have hsteps := hI.steps hterminal
  rcases hs.changes hnext hallowed p with h | ⟨target, rfl, htarget, hmove, -, hstatus⟩ |
    ⟨target, -, -, hown⟩
  · exact .inl h
  · refine .inr (htarget.trans ?_)
    rcases hnext.movesStep.2.2.2 with ⟨hpc, hready, -⟩ | ⟨-, hwaiting, -⟩ | ⟨run, hpc, -⟩
    · refine absurd (hstatus.symm.trans hready) (hI.claims hterminal i p ?_)
      rw [hpc]
      exact rfl
    · exact absurd (hstatus.symm.trans hwaiting) (hsteps p).2
    · cases hbefore : (s.step p).committed with
      | running => exact absurd hbefore (hsteps p).1
      | waitingForApproval => exact absurd hbefore (hsteps p).2
      | pending | completed | failed | cancelled =>
        rw [hbefore] at hmove
        cases target <;> first
          | rfl
          | (change false = true at hmove; contradiction)
      | ready =>
        by_cases hrunning : target = .running
        · refine absurd hbefore (hI.claims hterminal i p ?_)
          rw [hpc, hstatus]
          exact ⟨rfl, hbefore, hrunning⟩
        · rw [hbefore] at hmove
          cases target <;> first
            | rfl
            | contradiction
  · rw [hs.unheld_of_not_running fun k => (hsteps k).1] at hown
    cases hown

/-- A run that has ended stays as it is. -/
theorem HeldRun.terminal_stays (hs : HeldRun s) (hterminal : s.run.committed.terminal = true)
    (hnext : Next plan s i answer (s.requests i) write pc) : write.run i s.run = s.run := by
  have hnone : s.run.own = .none := hs.unheld (by intro h; rw [h] at hterminal; cases hterminal)
  have hview : s.run.view i = s.run.committed := Row.view_of_unheld hnone
  cases write with
  | moveRun target =>
    rcases hnext.movesRun.2.2.2.2 with ⟨h, -⟩ | ⟨h, -⟩
    · rw [hview] at h
      rw [h] at hterminal
      cases hterminal
    · rw [hview] at h
      rw [h] at hterminal
      cases hterminal
  | writeRun target =>
    have h := hnext.writesRun.2.1
    rw [hview] at h
    rw [h] at hterminal
    cases hterminal
  | commit => simp [Write.run, Row.commit, hnone]
  | rollback => simp [Write.run, Row.rollback, hnone]
  | _ => rfl

/-- A step that ends the run is one of the two kinds the condition is about. -/
theorem HeldRun.ends (hs : HeldRun s) (hbefore : s.run.committed.terminal = false)
    (hnext : Next plan s i answer (s.requests i) write pc)
    (h : (write.run i s.run).committed.terminal = true) :
    EndsRun s ⟨i, answer⟩ ∧
      ((∃ target, write = .moveRun target ∧ (s.requests i).free ∧ pc = .idle) ∨
      write = .commit) := by
  cases write with
  | moveRun target =>
    obtain ⟨hfree, hcommits, -, hunheld, hcases⟩ := hnext.movesRun
    rcases hcases with ⟨-, rfl, -⟩ | ⟨hrunning, hpc, hidle⟩
    · cases h
    · have hnone : s.run.own = .none := by
        cases hown : s.run.own with
        | none => rfl
        | some held =>
          have hj := Row.free_own hfree hown
          have hcommitting := (hs.run hown).2.1
          rw [hj, hcommits] at hcommitting
          cases hcommitting
      have hanswer : answer = .proceed := by
        rw [hpc] at hnext
        generalize hw : Write.moveRun target = w at hnext
        cases hnext with
        | leave => cases hw
        | _ => rfl
      exact ⟨⟨hanswer, (Row.view_of_unheld hnone).symm.trans hrunning, .inl ⟨target, hpc⟩⟩,
        .inl ⟨target, rfl, hunheld, hidle⟩⟩
  | commit =>
    have hanswer : answer = .proceed := by
      generalize hw : (Write.commit : Write n) = w at hnext
      generalize s.requests i = at_ at hnext
      cases hnext with
      | commit | commitFailure => rfl
      | _ => cases hw
    cases hown : s.run.own with
    | none =>
      simp only [Write.run, Row.commit, hown] at h
      rw [h] at hbefore
      cases hbefore
    | some held =>
      obtain ⟨j, w⟩ := held
      by_cases hj : j = i
      · subst hj
        exact ⟨⟨hanswer, (hs.run hown).1, .inr ⟨(hs.run hown).2.1, w, hown⟩⟩, .inr rfl⟩
      · simp only [Write.run] at h
        rw [Row.commit_ne hown hj, hbefore] at h
        cases h
  | writeRun target =>
    change s.run.committed.terminal = true at h
    rw [h] at hbefore
    cases hbefore
  | rollback =>
    simp only [Write.run, Row.rollback_committed] at h
    rw [h] at hbefore
    cases hbefore
  | _ =>
    change s.run.committed.terminal = true at h
    rw [h] at hbefore
    cases hbefore

theorem Frozen.next (hI : Frozen s) (hs : Held plan s) (hrun : HeldRun s)
    (hnext : Next plan s i answer (s.requests i) write pc) (hallowed : (s.requests i).allowed)
    (horderly : Orderly s ⟨i, answer⟩) : Frozen (s.after i write pc) := by
  by_cases hbefore : s.run.committed.terminal = true
  · -- the run had ended
    have hsame := hrun.terminal_stays hbefore hnext
    have hchanges := hI.changes hs hbefore hnext hallowed
    refine ⟨fun _ k => ?_, fun _ j k hclaims => ?_⟩
    · show (write.step i k (s.step k)).committed ≠ _ ∧ (write.step i k (s.step k)).committed ≠ _
      rcases hchanges k with h | h
      · rw [h]
        exact hI.steps hbefore k
      · rw [h]
        exact ⟨nofun, nofun⟩
    · show (write.step i k (s.step k)).committed ≠ _
      rcases hchanges k with h | h
      · rw [h]
        by_cases hne : j = i
        · rw [hne, State.after_self] at hclaims
          have hnone : s.run.own = .none :=
            hrun.unheld (by intro h; rw [h] at hbefore; cases hbefore)
          have hview : s.run.view i = s.run.committed := Row.view_of_unheld hnone
          rcases hnext.claims hclaims with h | h | h | ⟨h, -⟩
          · exact hI.claims hbefore i k h
          · rw [horderly.2 k h] at hbefore
            cases hbefore
          · rw [← hview, h] at hbefore
            cases hbefore
          · rw [← hview, h] at hbefore
            cases hbefore
        · rw [State.after_ne hne] at hclaims
          exact hI.claims hbefore j k hclaims
      · rw [h]
        nofun
  · by_cases hafter : (write.run i s.run).committed.terminal = true
    · -- the run ends now, and its steps are settled
      obtain ⟨hends, hcases⟩ := hrun.ends (by simpa using hbefore) hnext hafter
      obtain ⟨hsteps, hclaims⟩ := horderly.1 hends
      have hstatus : ∀ k, (write.step i k (s.step k)).committed = s.status i k := by
        intro k
        rcases hcases with ⟨target, rfl, hfree, -⟩ | rfl
        · show (s.step k).committed = _
          unfold State.status Row.view
          split
          next j v hown => rw [if_neg (by rintro rfl; exact hs.unheld hfree hown)]
          next => rfl
        · exact Row.commit_view
      refine ⟨fun _ k => ?_, fun _ j k h => ?_⟩
      · show (write.step i k (s.step k)).committed ≠ _ ∧ (write.step i k (s.step k)).committed ≠ _
        rw [hstatus]
        exact hsteps k
      · show (write.step i k (s.step k)).committed ≠ _
        rw [hstatus]
        by_cases hne : j = i
        · rw [hne, State.after_self] at h
          rcases hcases with ⟨target, -, -, rfl⟩ | rfl
          · cases h
          · generalize hw : (Write.commit : Write n) = w at hnext
            generalize s.requests i = at_ at hnext
            cases hnext with
            | commit q completion => split at h <;> cases h
            | commitFailure => cases h
            | _ => cases hw
        · rw [State.after_ne hne] at h
          exact hclaims j hne k h
    · exact ⟨fun h => absurd h hafter, fun h => absurd h hafter⟩

theorem frozen (h : (system plan).ReachableUnder Orderly s) : Frozen s := by
  refine h.invariant_with (J := fun s => (system plan).Reachable s) (fun _ hs => hs.reachable) ?_ ?_
  · rintro s rfl
    exact ⟨fun h => (by cases h), fun h => (by cases h)⟩
  · intro s a t hs hI horderly hstep
    obtain ⟨write, pc, hnext, rfl⟩ := step_cases hstep
    exact hI.next (held hs) (heldRun hs) hnext (allowed hs a.i) horderly

/-- **A run that ends in order freezes its steps.** In the runs that end where their steps
are settled, and of which no step is started directly afterwards, once the run is terminal
it stays so, and no step becomes READY, RUNNING, WAITING_FOR_APPROVAL or COMPLETED. -/
theorem ended_run_freezes (h : (system plan).ReachableUnder Orderly s)
    (hterminal : s.run.committed.terminal = true) (hrun : (system plan).Run Orderly s t) :
    t.run.committed = s.run.committed ∧
      ∀ k, (t.step k).committed.started = true → (t.step k).committed = (s.step k).committed := by
  suffices hkept : (system plan).ReachableUnder Orderly t ∧ t.run.committed = s.run.committed ∧
      ∀ k, (t.step k).committed.started = true → (t.step k).committed = (s.step k).committed from
        hkept.2
  refine hrun.invariant (I := fun t => (system plan).ReachableUnder Orderly t ∧
    t.run.committed = s.run.committed ∧
      ∀ k, (t.step k).committed.started = true → (t.step k).committed = (s.step k).committed) ?_ ⟨h,
        rfl, fun _ _ => rfl⟩
  rintro u a v ⟨hu, hsame, hsteps⟩ horderly hstep
  refine ⟨hu.step horderly hstep, ?_⟩
  obtain ⟨write, pc, hnext, rfl⟩ := step_cases hstep
  have hended : u.run.committed.terminal = true := by rw [hsame]; exact hterminal
  refine ⟨(congrArg Row.committed ((heldRun hu.reachable).terminal_stays hended hnext)).trans hsame,
    fun k hstarted => ?_⟩
  change (write.step a.i k (u.step k)).committed.started = true at hstarted
  show (write.step a.i k (u.step k)).committed = _
  rcases (frozen hu).changes (held hu.reachable) hended hnext (allowed hu.reachable a.i) k with h |
    h
  · rw [h] at hstarted ⊢
    exact hsteps k hstarted
  · rw [h] at hstarted
    cases hstarted

/-! ## Two branches, one of which fails -/

/-- Two requests execute the two branches, and the second one fails its branch and the run. -/
def failingBranch : List (Label 3) :=
  [⟨0, .begin .advance⟩, ⟨0, .proceed⟩, ⟨0, .proceed⟩] ++ executing 0 unchallenged ++
    [⟨1, .begin .advance⟩, ⟨1, .proceed⟩, ⟨1, .proceed⟩, ⟨1, .proceed⟩, ⟨1, .refuse⟩, ⟨1, .proceed⟩,
      ⟨1, .proceed⟩] ++
    [⟨0, .proceed⟩, ⟨0, .proceed⟩, ⟨0, .proceed⟩, ⟨0, .proceed⟩]

/-- The run has FAILED when the first request commits the completion of its step. -/
theorem failed_run_completes_step :
    ∃ s t, (system joinPlan).Reachable s ∧ (system joinPlan).step s ⟨0, .proceed⟩ = .some t ∧
      s.run.committed = .failed ∧ (s.step 0).committed = .running ∧
        (t.step 0).committed = .completed := by
  have hexec : (system joinPlan).exec (createRun joinPlan) failingBranch = .some _ := rfl
  exact ⟨_, _, System.exec_reachable rfl hexec, rfl, rfl, rfl, rfl⟩

/-- A single request fails its step and the run. -/
def failingAlone : List (Label 3) :=
  [⟨0, .begin .advance⟩, ⟨0, .proceed⟩, ⟨0, .proceed⟩, ⟨0, .proceed⟩, ⟨0, .proceed⟩, ⟨0, .refuse⟩,
    ⟨0, .proceed⟩, ⟨0, .proceed⟩]

theorem not_endsRun (h : ∀ target, s.requests a.i ≠ .transitionRun target)
    (h' : (s.requests a.i).commitsRun = false)
    (hanswer : ∀ k, a.answer ≠ .begin (.transition k .ready .running)) : Orderly s a := by
  refine ⟨fun hends => ?_, fun k hk => absurd hk (hanswer k)⟩
  rcases hends.2.2 with ⟨target, hpc⟩ | ⟨hcommits, -⟩
  · exact absurd hpc (h target)
  · rw [h'] at hcommits
    cases hcommits

/-- The other branch is not started any more. -/
theorem ended_run_freezes_alone :
    ∃ s : State 3, s.run.committed = .failed ∧ (s.step 1).committed = .ready ∧
      ∀ t, (system joinPlan).Run Orderly s t →
        ∀ k, (t.step k).committed.started = true → (t.step k).committed = (s.step k).committed := by
  have hexec : (system joinPlan).exec (createRun joinPlan) failingAlone = .some _ := rfl
  have hguard : (system joinPlan).Guarded Orderly (createRun joinPlan) failingAlone := by
    refine ⟨not_endsRun nofun rfl nofun, not_endsRun nofun rfl nofun, not_endsRun nofun rfl nofun,
      not_endsRun nofun rfl nofun, not_endsRun nofun rfl nofun, not_endsRun nofun rfl nofun,
      not_endsRun nofun rfl nofun, ⟨fun _ => ⟨fun k => ?_, fun j hne k hclaims => ?_⟩, nofun⟩,
        trivial⟩
    · match k with
      | 0 => exact ⟨nofun, nofun⟩
      | 1 => exact ⟨nofun, nofun⟩
      | 2 => exact ⟨nofun, nofun⟩
    · cases j with
      | zero => exact absurd rfl hne
      | succ j => cases hclaims
  exact ⟨_, rfl, rfl, fun t hrun => (ended_run_freezes ⟨_, rfl, hguard.run hexec⟩ rfl hrun).2⟩

end Novalton.Workflow
