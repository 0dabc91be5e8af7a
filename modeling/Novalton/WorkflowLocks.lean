/-
What the requests on a workflow run hold: a request that completes a step holds it as
COMPLETED until its commit, and with it the dependents it has made READY; a request that
fails a step in the transaction of a resolution holds it as FAILED, and then the run.
Nobody else writes these rows meanwhile, so what they were before is still committed.
-/
import Novalton.Workflow

namespace Novalton.Workflow

variable {n : ℕ} {plan : Plan n} {s t : State n} {i j : ℕ} {k p d : Fin n} {answer : Answer n}
  {pc pc' : Pc n} {write : Write n}

/-- The step a request has completed in its transaction. -/
def Pc.completing : Pc n → Option (Fin n)
  | .pendingDependents k _ | .incompleteDependencyCount k _ _ | .readyDependent k _ _ _
  | .commit k _
  | .countInTransaction k | .completeRun k => .some k
  | _ => .none

/-- The step a request has failed in its transaction. -/
def Pc.failingStep : Pc n → Option (Fin n)
  | .failRun k | .commitFailure k => .some k
  | _ => .none

/-- The dependents a request still looks at. -/
def Pc.dependents : Pc n → List (Fin n)
  | .incompleteDependencyCount _ dependents _ => dependents
  | .readyDependent _ d dependents _ => d :: dependents
  | _ => []

/-- The request commits a move of the run. -/
def Pc.commitsRun : Pc n → Bool
  | .commitFailure _ | .commit _ .resolve => true
  | _ => false

/-- The step of a completed transaction, or of none. -/
def Pc.free (pc : Pc n) : Prop :=
  pc.completing = .none ∧ pc.failingStep = .none ∧ pc.dependents = []

theorem free_start (request : Request n) : request.start.free := by
  cases request with
  | transition k expected target =>
    simp only [Request.start, transitionStep]
    split
    · split <;> exact ⟨rfl, rfl, rfl⟩
    · exact ⟨rfl, rfl, rfl⟩
  | _ => exact ⟨rfl, rfl, rfl⟩

theorem free_afterLink (role : Option SpecializationRole) (executed : Executed) :
    (afterLink k role executed).free := by
  unfold afterLink
  split
  · exact ⟨rfl, rfl, rfl⟩
  · exact ⟨rfl, rfl, rfl⟩
  · dsimp only
    split <;> exact ⟨rfl, rfl, rfl⟩
  · split <;> exact ⟨rfl, rfl, rfl⟩

theorem free_afterContinuation (response : Executed) : (afterContinuation k response).free := by
  unfold afterContinuation
  split <;> exact ⟨rfl, rfl, rfl⟩

theorem free_elim {α : Type} (o : Option α) {f : α → Pc n} (hpc : pc.free) (hf : ∀ v, (f v).free) :
    (o.elim pc f).free := by
  cases o with
  | none => exact hpc
  | some v => exact hf v

namespace Next

/-- A held write of a step: its completion, its failure, or a dependent made READY. -/
theorem writesStep {target : WorkflowStepRunStatus}
    (h : Next plan s i answer pc (.writeStep p target) pc') :
    (s.step p).free i = true ∧
      ((∃ completion, pc = .complete p completion ∧ target = .completed ∧ s.status i p = .running ∧
          pc' = .pendingDependents p completion) ∨
       (pc = .failStep p ∧ target = .failed ∧ s.status i p = .running ∧ pc' = .failRun p) ∨
       (∃ k dependents completion, pc = .readyDependent k p dependents completion ∧
         target = .ready ∧
          s.status i p = .pending ∧ pc' = .incompleteDependencyCount k dependents completion)) := by
  cases h with
  | complete k completion hfree h => exact ⟨hfree, .inl ⟨completion, rfl, rfl, h, rfl⟩⟩
  | failStep k hfree h => exact ⟨hfree, .inr (.inl ⟨rfl, rfl, h, rfl⟩)⟩
  | ready k d dependents completion hfree h =>
    exact ⟨hfree, .inr (.inr ⟨k, dependents, completion, rfl, rfl, h, rfl⟩)⟩

/-- A move of a step is a transaction of its own. -/
theorem movesStep {target : WorkflowStepRunStatus}
    (h : Next plan s i answer pc (.moveStep p target) pc') :
    (s.step p).free i = true ∧ pc.free ∧ pc'.free ∧
      ((pc = .claim p ∧ s.status i p = .ready ∧ target = .running ∧ pc' = .execute p) ∨
       (pc = .resumeStep p ∧ s.status i p = .waitingForApproval ∧ target = .running ∧
         pc' = .continueAssignment p) ∨
       (∃ run, pc = .transitionStep p (s.status i p) target run ∧
         pc' = run.elim .idle .transitionRun)) := by
  cases h with
  | claim k hfree h => exact ⟨hfree, ⟨rfl, rfl, rfl⟩, ⟨rfl, rfl, rfl⟩, .inl ⟨rfl, h, rfl, rfl⟩⟩
  | resumeStep k hfree h =>
    exact ⟨hfree, ⟨rfl, rfl, rfl⟩, ⟨rfl, rfl, rfl⟩, .inr (.inl ⟨rfl, h, rfl, rfl⟩)⟩
  | transitionStep k expected target run hfree h =>
    refine ⟨hfree, ⟨rfl, rfl, rfl⟩, free_elim _ ⟨rfl, rfl, rfl⟩ fun _ => ⟨rfl, rfl, rfl⟩,
      .inr (.inr ⟨run, ?_, rfl⟩)⟩
    rw [h]

theorem commits (h : Next plan s i answer pc .commit pc') : pc'.free := by
  cases h with
  | commit k completion => split <;> exact ⟨rfl, rfl, rfl⟩
  | commitFailure => exact ⟨rfl, rfl, rfl⟩

theorem rollsBack (h : Next plan s i answer pc .rollback pc') : pc' = .idle := by
  cases h
  rfl

/-- Other steps neither open nor end a transaction. -/
theorem keeps (h : Next plan s i answer pc write pc')
    (hstep : ∀ p target, write ≠ .writeStep p target) (hcommit : write ≠ .commit)
    (hrollback : write ≠ .rollback) :
    pc'.completing = pc.completing ∧ pc'.failingStep = pc.failingStep ∧
      ∀ d ∈ pc'.dependents, d ∈ pc.dependents ∨ ∃ k ∈ plan.dependsOn d,
        pc.completing = .some k := by
  have hfree : pc.free → pc'.free → pc'.completing = pc.completing ∧
    pc'.failingStep = pc.failingStep ∧
      ∀ d ∈ pc'.dependents, d ∈ pc.dependents ∨ ∃ k ∈ plan.dependsOn d,
          pc.completing = .some k := by
    rintro ⟨hc, hf, -⟩ ⟨hc', hf', hd'⟩
    refine ⟨hc'.trans hc.symm, hf'.trans hf.symm, fun d hd => ?_⟩
    rw [hd'] at hd
    cases hd
  cases h with
  | leave | commit | commitFailure => contradiction
  | complete | ready | failStep => exact absurd rfl (hstep _ _)
  | begin request => exact hfree ⟨rfl, rfl, rfl⟩ (free_start request)
  | startRun selected =>
    exact hfree ⟨rfl, rfl, rfl⟩ (free_elim _ ⟨rfl, rfl, rfl⟩ fun _ => ⟨rfl, rfl, rfl⟩)
  | transitionStep k expected target run =>
    exact hfree ⟨rfl, rfl, rfl⟩ (free_elim _ ⟨rfl, rfl, rfl⟩ fun _ => ⟨rfl, rfl, rfl⟩)
  | handoff k resolution =>
    exact hfree ⟨rfl, rfl, rfl⟩ (free_elim _ ⟨rfl, rfl, rfl⟩ fun _ => ⟨rfl, rfl, rfl⟩)
  | linkAgentRun k role executed => exact hfree ⟨rfl, rfl, rfl⟩ (free_afterLink role executed)
  | continued k response => exact hfree ⟨rfl, rfl, rfl⟩ (free_afterContinuation response)
  | decidePending => exact hfree ⟨rfl, rfl, rfl⟩ (by split <;> exact ⟨rfl, rfl, rfl⟩)
  | pendingDependents k completion =>
    refine ⟨rfl, rfl, fun d hd => .inr ⟨k, ?_, rfl⟩⟩
    have hd' := (List.mem_filter.mp hd).2
    rw [Bool.and_eq_true] at hd'
    exact List.contains_iff_mem.mp hd'.2
  | counted k completion =>
    refine ⟨?_, ?_, fun d hd => ?_⟩
    · split <;> rfl
    · split <;> rfl
    · split at hd <;> cases hd
  | dependenciesComplete => exact ⟨rfl, rfl, fun d hd => .inl hd⟩
  | incomplete => exact ⟨rfl, rfl, fun d hd => .inl (List.mem_cons_of_mem _ hd)⟩
  | leftPending => exact ⟨rfl, rfl, fun d hd => .inl (List.mem_cons_of_mem _ hd)⟩
  | countInTransaction | uncompleted | completeRun | failRun =>
    refine ⟨rfl, rfl, fun d hd => ?_⟩
    cases hd
  | _ => exact hfree ⟨rfl, rfl, rfl⟩ ⟨rfl, rfl, rfl⟩

end Next

/-- What is held, by whom and why. -/
structure Held (plan : Plan n) (s : State n) : Prop where
  step : ∀ {p i w}, (s.step p).own = .some (i, w) →
    (w = .some .completed ∧ (s.requests i).completing = .some p ∧ (s.step p).committed = .running) ∨
    (w = .some .failed ∧ (s.requests i).failingStep = .some p ∧ (s.step p).committed = .running) ∨
    (w = .some .ready ∧ (∃ k ∈ plan.dependsOn p, (s.requests i).completing = .some k) ∧
      (s.step p).committed = .pending)
  completing : ∀ {i k}, (s.requests i).completing = .some k →
    (s.step k).own = .some (i, .some .completed)
  failing : ∀ {i k}, (s.requests i).failingStep = .some k →
    (s.step k).own = .some (i, .some .failed)
  dependents : ∀ {i d}, d ∈ (s.requests i).dependents → ∃ k ∈ plan.dependsOn d,
    (s.requests i).completing = .some k

/-- A request outside of a transaction holds no step. -/
theorem Held.unheld (hs : Held plan s) {w : Option WorkflowStepRunStatus}
    (hfree : (s.requests i).free) :
    (s.step p).own ≠ .some (i, w) := by
  intro hown
  rcases hs.step hown with ⟨-, h, -⟩ | ⟨-, h, -⟩ | ⟨-, ⟨k, -, h⟩, -⟩
  · rw [hfree.1] at h; cases h
  · rw [hfree.2.1] at h; cases h
  · rw [hfree.1] at h; cases h

/-- A row a request sees as one of the statuses nobody holds is not held by it. -/
theorem Held.status (hs : Held plan s) (hfree : (s.step p).free i = true)
    (h : s.status i p ≠ .completed ∧ s.status i p ≠ .failed ∧ s.status i p ≠ .ready) :
    (s.step p).own = .none := by
  cases hown : (s.step p).own with
  | none => rfl
  | some held =>
    obtain ⟨j, w⟩ := held
    have hj := Row.free_own hfree hown
    subst hj
    unfold State.status Row.view at h
    rw [hown] at h
    rcases hs.step hown with ⟨rfl, -⟩ | ⟨rfl, -⟩ | ⟨rfl, -⟩ <;> simp at h

theorem State.status_of_unheld (h : (s.step p).own = .none) :
    s.status i p = (s.step p).committed := by
  unfold State.status Row.view
  rw [h]

/-- A step that is neither written nor ended by a request is as it was. -/
theorem Write.step_same (hstep : ∀ target, write ≠ .writeStep p target)
    (hmove : ∀ target, write ≠ .moveStep p target) (hcommit : write ≠ .commit)
    (hrollback : write ≠ .rollback) (row : Row WorkflowStepRunStatus) :
    write.step i p row = row := by
  cases write with
  | commit | rollback => contradiction
  | writeStep q target =>
    unfold Write.step
    exact if_neg (by rintro rfl; exact hstep target rfl)
  | moveStep q target =>
    unfold Write.step
    exact if_neg (by rintro rfl; exact hmove target rfl)
  | _ => rfl

/-- What another request holds stays as it is. -/
theorem Write.step_held {w : Option WorkflowStepRunStatus} (hown : (s.step p).own = .some (j, w))
    (hne : j ≠ i) (hnext : Next plan s i answer pc write pc') : write.step i p
    (s.step p) = s.step p := by
  have hnot : (s.step p).free i ≠ true := fun hfree => hne (Row.free_own hfree hown)
  by_cases hcommit : write = .commit
  · rw [hcommit]
    exact Row.commit_ne hown hne
  by_cases hrollback : write = .rollback
  · rw [hrollback]
    exact Row.rollback_ne hown hne
  refine Write.step_same (fun target h => ?_) (fun target h => ?_) hcommit hrollback _
  · rw [h] at hnext
    exact hnot hnext.writesStep.1
  · rw [h] at hnext
    exact hnot hnext.movesStep.1

/-- What another request holds after a step it held before. -/
theorem Write.held_step {w : Option WorkflowStepRunStatus}
    (hnext : Next plan s i answer pc write pc')
    (hown : (write.step i p (s.step p)).own = .some (j, w)) (hne : j ≠ i) : (s.step p).own = .some
    (j, w) := by
  cases write with
  | writeStep q target =>
    simp only [Write.step] at hown
    split at hown
    · exact absurd (congrArg Prod.fst (Option.some.inj hown)).symm hne
    · exact hown
  | moveStep q target =>
    simp only [Write.step] at hown
    split at hown
    · cases hown
    · exact hown
  | commit => exact Row.own_of_commit hown
  | rollback => exact Row.own_of_rollback hown
  | _ => exact hown

theorem Held.next (hs : Held plan s) (hnext : Next plan s i answer (s.requests i) write pc) :
    Held plan (s.after i write pc) := by
  have hothers : ∀ {j}, j ≠ i → (s.after i write pc).requests j = s.requests j := State.after_ne
  -- what the step leaves of the rows the request itself holds
  suffices hself :
      (∀ {p w}, (write.step i p (s.step p)).own = .some (i, w) →
        (w = .some .completed ∧ pc.completing = .some p ∧
          (write.step i p (s.step p)).committed = .running) ∨
        (w = .some .failed ∧ pc.failingStep = .some p ∧
          (write.step i p (s.step p)).committed = .running) ∨
        (w = .some .ready ∧ (∃ k ∈ plan.dependsOn p, pc.completing = .some k) ∧
          (write.step i p (s.step p)).committed = .pending)) ∧
      (∀ {k}, pc.completing = .some k →
        (write.step i k (s.step k)).own = .some (i, .some .completed)) ∧
      (∀ {k}, pc.failingStep = .some k →
        (write.step i k (s.step k)).own = .some (i, .some .failed)) ∧
      (∀ {d}, d ∈ pc.dependents → ∃ k ∈ plan.dependsOn d, pc.completing = .some k) by
    obtain ⟨hstep, hcompleting, hfailing, hdependents⟩ := hself
    refine ⟨fun {p j w} hown => ?_, fun {j k} h => ?_, fun {j k} h => ?_, fun {j d} h => ?_⟩
    · by_cases hne : j = i
      · subst hne
        rw [State.after_self]
        exact hstep hown
      · have hbefore := Write.held_step hnext hown hne
        rw [hothers hne]
        show _ ∨ _ ∨ _
        rw [show (s.after i write pc).step p = s.step p from Write.step_held hbefore hne hnext]
        exact hs.step hbefore
    · by_cases hne : j = i
      · subst hne
        rw [State.after_self] at h
        exact hcompleting h
      · rw [hothers hne] at h
        have hown := hs.completing h
        exact (congrArg Row.own (Write.step_held hown hne hnext)).trans hown
    · by_cases hne : j = i
      · subst hne
        rw [State.after_self] at h
        exact hfailing h
      · rw [hothers hne] at h
        have hown := hs.failing h
        exact (congrArg Row.own (Write.step_held hown hne hnext)).trans hown
    · by_cases hne : j = i
      · subst hne
        rw [State.after_self] at h ⊢
        exact hdependents h
      · rw [hothers hne] at h ⊢
        exact hs.dependents h
  by_cases hcommit : write = .commit
  · subst hcommit
    obtain ⟨hc, hf, hd⟩ := hnext.commits
    refine ⟨fun hown => absurd hown Row.commit_own_ne, fun h => ?_, fun h => ?_, fun h => ?_⟩
    · rw [hc] at h; cases h
    · rw [hf] at h; cases h
    · rw [hd] at h; cases h
  by_cases hrollback : write = .rollback
  · subst hrollback
    rw [hnext.rollsBack]
    exact ⟨fun hown => absurd hown Row.rollback_own_ne, fun h => (by cases h),
      fun h => (by cases h), fun h => (by cases h)⟩
  by_cases hwrites : ∃ q target, write = .writeStep q target
  · obtain ⟨q, target, rfl⟩ := hwrites
    obtain ⟨hfree, hcases⟩ := hnext.writesStep
    have hrow : ∀ {p}, (Write.writeStep q target).step i p (s.step p) =
        if p = q then ⟨(s.step p).committed, .some (i, .some target)⟩ else s.step p := rfl
    rcases hcases with ⟨completion, hpc, rfl, hstatus, rfl⟩ | ⟨hpc, rfl, hstatus, rfl⟩ |
      ⟨k, dependents, completion, hpc, rfl, hstatus, rfl⟩
    · -- the completion opens the transaction
      have hunheld : ∀ {p w}, (s.step p).own ≠ .some (i, w) :=
        hs.unheld (by rw [hpc]; exact ⟨rfl, rfl, rfl⟩)
      have hnone := hs.status hfree (by rw [hstatus]; exact ⟨nofun, nofun, nofun⟩)
      have hcommitted := (State.status_of_unheld hnone).symm.trans hstatus
      refine ⟨fun {p w} hown => ?_, fun {k} h => ?_, fun h => (by cases h), fun h => (by cases h)⟩
      · rw [hrow] at hown ⊢
        by_cases hpq : p = q
        · subst hpq
          rw [if_pos rfl] at hown ⊢
          cases hown
          exact .inl ⟨rfl, rfl, hcommitted⟩
        · rw [if_neg hpq] at hown
          exact absurd hown hunheld
      · cases h
        rw [hrow, if_pos rfl]
    · have hunheld : ∀ {p w}, (s.step p).own ≠ .some (i, w) :=
        hs.unheld (by rw [hpc]; exact ⟨rfl, rfl, rfl⟩)
      have hnone := hs.status hfree (by rw [hstatus]; exact ⟨nofun, nofun, nofun⟩)
      have hcommitted := (State.status_of_unheld hnone).symm.trans hstatus
      refine ⟨fun {p w} hown => ?_, fun h => (by cases h), fun {k} h => ?_, fun h => (by cases h)⟩
      · rw [hrow] at hown ⊢
        by_cases hpq : p = q
        · subst hpq
          rw [if_pos rfl] at hown ⊢
          cases hown
          exact .inr (.inl ⟨rfl, rfl, hcommitted⟩)
        · rw [if_neg hpq] at hown
          exact absurd hown hunheld
      · cases h
        rw [hrow, if_pos rfl]
    · -- a dependent joins it
      have hnone := hs.status hfree (by rw [hstatus]; exact ⟨nofun, nofun, nofun⟩)
      have hcommitted := (State.status_of_unheld hnone).symm.trans hstatus
      have hdependents : ∀ {d}, d ∈ q :: dependents → ∃ k' ∈ plan.dependsOn d,
          Option.some k = .some k' := by
        intro d hd
        have := hs.dependents (i := i) (d := d)
        rw [hpc] at this
        exact this hd
      refine ⟨fun {p w} hown => ?_, fun {k'} h => ?_, fun h => (by cases h),
        fun hd => hdependents (List.mem_cons_of_mem _ hd)⟩
      · rw [hrow] at hown ⊢
        by_cases hpq : p = q
        · subst hpq
          rw [if_pos rfl] at hown ⊢
          cases hown
          exact .inr (.inr ⟨rfl, hdependents List.mem_cons_self, hcommitted⟩)
        · rw [if_neg hpq] at hown ⊢
          have hold := hs.step hown
          rw [hpc] at hold
          exact hold
      · have hown : (s.step k').own = .some (i, .some .completed) :=
          hs.completing (by rw [hpc]; exact h)
        rw [hrow, if_neg]
        · exact hown
        · rintro rfl
          rw [hnone] at hown
          cases hown
  · push Not at hwrites
    obtain ⟨hc, hf, hd⟩ := hnext.keeps hwrites hcommit hrollback
    -- a moved step was not held, and is not
    have hmoved : ∀ {p w}, (s.step p).own = .some (i, w) ∨
      (write.step i p (s.step p)).own = .some (i, w) →
        write.step i p (s.step p) = s.step p := by
      intro p w hown
      refine Write.step_same (hwrites p) (fun target h => ?_) hcommit hrollback _
      rw [h] at hnext
      rcases hown with hown | hown
      · exact hs.unheld hnext.movesStep.2.1 hown
      · rw [h] at hown
        simp only [Write.step, if_true] at hown
        cases hown
    refine ⟨fun {p w} hown => ?_, fun {k} h => ?_, fun {k} h => ?_, fun {d} h => ?_⟩
    · have hsame := hmoved (.inr hown)
      rw [hsame] at hown ⊢
      rw [hc, hf]
      exact hs.step hown
    · rw [hc] at h
      have hown := hs.completing h
      rw [hmoved (.inl hown)]
      exact hown
    · rw [hf] at h
      have hown := hs.failing h
      rw [hmoved (.inl hown)]
      exact hown
    · rw [hc]
      rcases hd d h with h | h
      · exact hs.dependents h
      · exact h

theorem held (h : (system plan).Reachable s) : Held plan s := by
  refine h.invariant ?_ ?_
  · rintro s rfl
    exact ⟨fun hown => (by cases hown), fun h => (by cases h), fun h => (by cases h),
      fun h => (by cases h)⟩
  · intro s a t hs hstep
    obtain ⟨write, pc, hnext, rfl⟩ := step_cases hstep
    exact hs.next hnext

/-- Where no request is in progress, no step is held. -/
theorem Held.quiescent (hs : Held plan s) (hidle : ∀ i, s.requests i = .idle) :
    (s.step p).own = .none := by
  cases hown : (s.step p).own with
  | none => rfl
  | some held => exact absurd hown (hs.unheld (by rw [hidle]; exact ⟨rfl, rfl, rfl⟩))

/-- A held step is still committed as RUNNING or PENDING. -/
theorem Held.committed (hs : Held plan s)
    (h : (s.step p).committed ≠ .running ∧ (s.step p).committed ≠ .pending) :
    (s.step p).own = .none := by
  cases hown : (s.step p).own with
  | none => rfl
  | some held =>
    rcases hs.step hown with ⟨-, -, hrunning⟩ | ⟨-, -, hrunning⟩ | ⟨-, -, hpending⟩
    · exact absurd hrunning h.1
    · exact absurd hrunning h.1
    · exact absurd hpending h.2

/-! ## The moves of a step -/

/-- A `transition_step` to any status but COMPLETED is one of the admitted ones, and no run
is completed after it. -/
def Pc.allowed : Pc n → Prop
  | .transitionStep _ expected target run =>
    stepTransitionAllowed expected target = true ∧ target ≠ .completed ∧ run ≠ .some .completed
  | _ => True

theorem allowed_elim {α : Type} (o : Option α) {f : α → Pc n} (hpc : pc.allowed)
    (hf : ∀ v, (f v).allowed) :
    (o.elim pc f).allowed := by
  cases o with
  | none => exact hpc
  | some v => exact hf v

theorem allowed_start (request : Request n) : request.start.allowed := by
  cases request with
  | transition k expected target =>
    simp only [Request.start, transitionStep]
    split
    next hallowed =>
      split
      · trivial
      next hne => exact ⟨hallowed, hne, nofun⟩
    · trivial
  | _ => trivial

theorem Next.allowed (h : Next plan s i answer pc write pc') : pc'.allowed := by
  cases h with
  | begin request => exact allowed_start request
  | startRun selected => exact allowed_elim _ trivial fun _ => trivial
  | transitionStep k expected target run => exact allowed_elim _ trivial fun _ => trivial
  | handoff k resolution => exact allowed_elim _ trivial fun _ => trivial
  | executionFailed | executionCancelled | handoffFailed | failWaitingRun =>
    exact ⟨rfl, nofun, nofun⟩
  | linkAgentRun k role executed =>
    unfold afterLink
    split
    · exact ⟨rfl, nofun, nofun⟩
    · exact ⟨rfl, nofun, nofun⟩
    · dsimp only
      split <;> trivial
    · split <;> trivial
  | continued k response =>
    unfold afterContinuation
    split
    · trivial
    · exact ⟨rfl, nofun, nofun⟩
  | counted | commit | decidePending => split <;> trivial
  | _ => trivial

theorem allowed (h : (system plan).Reachable s) : ∀ i, (s.requests i).allowed := by
  refine h.invariant (I := fun s => ∀ i, (s.requests i).allowed) ?_ ?_
  · rintro s rfl i
    trivial
  · intro s a t hs hstep i
    obtain ⟨write, pc, hnext, rfl⟩ := step_cases hstep
    by_cases hne : i = a.i
    · rw [hne, State.after_self]
      exact hnext.allowed
    · rw [State.after_ne hne]
      exact hs i

/-- Where a step can be moved in a transaction of its own. -/
theorem Next.target {target : WorkflowStepRunStatus}
    (h : Next plan s i answer pc (.moveStep p target) pc') (hallowed : pc.allowed) :
    stepTransitionAllowed (s.status i p) target = true ∧ target ≠ .completed := by
  rcases h.movesStep.2.2.2 with ⟨-, hstatus, rfl, -⟩ | ⟨-, hstatus, rfl, -⟩ | ⟨run, rfl, -⟩
  · rw [hstatus]
    exact ⟨rfl, nofun⟩
  · rw [hstatus]
    exact ⟨rfl, nofun⟩
  · exact ⟨hallowed.1, hallowed.2.1⟩

/-- How the committed status of a step changes: in a transaction of its own, along an
admitted transition, or by the commit of the request that holds it. -/
theorem Held.changes (hs : Held plan s) (hnext : Next plan s i answer (s.requests i) write pc)
    (hallowed : (s.requests i).allowed) (p : Fin n) :
    (write.step i p (s.step p)).committed = (s.step p).committed ∨
    (∃ target, write = .moveStep p target ∧ (write.step i p (s.step p)).committed = target ∧
      stepTransitionAllowed (s.step p).committed target = true ∧ target ≠ .completed ∧
      s.status i p = (s.step p).committed) ∨
    (∃ target, write = .commit ∧ (write.step i p (s.step p)).committed = target ∧
      (s.step p).own = .some (i, .some target)) := by
  cases write with
  | moveStep q target =>
    by_cases hq : p = q
    · subst hq
      have hstatus : s.status i p = (s.step p).committed := by
        cases hown : (s.step p).own with
        | none => exact State.status_of_unheld hown
        | some held =>
          obtain ⟨j, w⟩ := held
          have hj := Row.free_own hnext.movesStep.1 hown
          subst hj
          exact absurd hown (hs.unheld hnext.movesStep.2.1)
      have htarget := hnext.target hallowed
      rw [hstatus] at htarget
      exact .inr (.inl ⟨target, rfl, by simp [Write.step, Row.idle], htarget.1, htarget.2, hstatus⟩)
    · exact .inl (by simp [Write.step, hq])
  | writeStep q target =>
    refine .inl ?_
    simp only [Write.step]
    split <;> rfl
  | commit =>
    by_cases hown : ∃ v, (s.step p).own = .some (i, .some v)
    · obtain ⟨v, hown⟩ := hown
      exact .inr (.inr ⟨v, rfl, by simp [Write.step, Row.commit, hown], hown⟩)
    · push Not at hown
      exact .inl (Row.commit_committed hown)
  | rollback => exact .inl Row.rollback_committed
  | _ => exact .inl rfl

/-- A step in a terminal status keeps it. -/
theorem Held.terminal_stays (hs : Held plan s)
    (hnext : Next plan s i answer (s.requests i) write pc) (hallowed : (s.requests i).allowed)
    (hterminal : (s.step p).committed.terminal = true) :
    (write.step i p (s.step p)).committed = (s.step p).committed := by
  rcases hs.changes hnext hallowed p with h | ⟨target, -, -, h, -⟩ | ⟨target, -, -, hown⟩
  · exact h
  · rw [not_allowed_of_terminal hterminal] at h
    cases h
  · have hnone :=
      hs.committed (p := p) (by constructor <;> intro h <;> rw [h] at hterminal <;> cases hterminal)
    rw [hnone] at hown
    cases hown

/-! ## The run -/

/-- The request holds the run, which it has ended in its transaction. -/
structure HeldRun (s : State n) : Prop where
  run : ∀ {i w}, s.run.own = .some (i, w) →
    s.run.committed = .running ∧ (s.requests i).commitsRun = true ∧ ∃ target, w = .some target ∧
      target.terminal = true

/-- A held write of the run: its end. -/
theorem Next.writesRun {target : WorkflowRunStatus}
    (h : Next plan s i answer pc (.writeRun target) pc') :
    s.run.free i = true ∧ s.run.view i = .running ∧ pc.commitsRun = false ∧ pc'.commitsRun = true ∧
      target.terminal = true := by
  cases h with
  | failRun k hfree h => exact ⟨hfree, h, rfl, rfl, rfl⟩
  | completeRun k hfree h => exact ⟨hfree, h, rfl, rfl, rfl⟩

/-- A move of the run in a transaction of its own. -/
theorem Next.movesRun {target : WorkflowRunStatus}
    (h : Next plan s i answer pc (.moveRun target) pc') :
    s.run.free i = true ∧ pc.commitsRun = false ∧ pc'.commitsRun = false ∧ pc.free ∧
      ((s.run.view i = .created ∧ target = .running ∧ ∃ selected, pc = .startRun selected) ∨
        (s.run.view i = .running ∧ pc = .transitionRun target ∧ pc' = .idle)) := by
  cases h with
  | startRun selected hfree h =>
    refine ⟨hfree, rfl, ?_, ⟨rfl, rfl, rfl⟩, .inl ⟨h, rfl, selected, rfl⟩⟩
    cases selected <;> rfl
  | transitionRun target hfree h => exact ⟨hfree, rfl, rfl, ⟨rfl, rfl, rfl⟩, .inr ⟨h, rfl, rfl⟩⟩

/-- The commit of the run is the last step of its transaction. -/
theorem Next.of_commitsRun (h : Next plan s i answer pc write pc') (hpc : pc.commitsRun = true) :
    write = .commit ∨ write = .rollback := by
  cases h with
  | leave => exact .inr rfl
  | commit | commitFailure => exact .inl rfl
  | _ => cases hpc

theorem HeldRun.next (hs : HeldRun s) (hnext : Next plan s i answer (s.requests i) write pc) :
    HeldRun (s.after i write pc) := by
  refine ⟨fun {j w} hown => ?_⟩
  change (write.run i s.run).own = _ at hown
  show (write.run i s.run).committed = _ ∧ _
  -- the row another request holds stays as it is
  have hother : j ≠ i → s.run.own = .some (j, w) → write.run i s.run = s.run →
      (write.run i s.run).committed = .running ∧
        ((s.after i write pc).requests j).commitsRun = true ∧
        ∃ target, w = .some target ∧ target.terminal = true := by
    intro hne hbefore hsame
    rw [hsame, State.after_ne hne]
    exact hs.run hbefore
  cases write with
  | moveRun target => cases hown
  | writeRun target =>
    obtain ⟨hfree, hrunning, hfirst, hcommits, hterminal⟩ := hnext.writesRun
    cases hown
    refine ⟨?_, by rw [State.after_self]; exact hcommits, target, rfl, hterminal⟩
    change s.run.committed = _
    cases hbefore : s.run.own with
    | none => rwa [Row.view, hbefore] at hrunning
    | some held =>
      obtain ⟨j, w⟩ := held
      have hj := Row.free_own hfree hbefore
      subst hj
      have hcommitting := (hs.run hbefore).2.1
      rw [hfirst] at hcommitting
      cases hcommitting
  | commit =>
    have hbefore := Row.own_of_commit hown
    have hne : j ≠ i := by
      rintro rfl
      exact Row.commit_own_ne hown
    exact hother hne hbefore (Row.commit_ne hbefore hne)
  | rollback =>
    have hbefore := Row.own_of_rollback hown
    have hne : j ≠ i := by
      rintro rfl
      exact Row.rollback_own_ne hown
    exact hother hne hbefore (Row.rollback_ne hbefore hne)
  | _ =>
    by_cases hne : j = i
    · subst hne
      rcases hnext.of_commitsRun (hs.run hown).2.1 with h | h <;> cases h
    · exact hother hne hown rfl

theorem heldRun (h : (system plan).Reachable s) : HeldRun s := by
  refine h.invariant ?_ ?_
  · rintro s rfl
    exact ⟨fun hown => (by cases hown)⟩
  · intro s a t hs hstep
    obtain ⟨write, pc, hnext, rfl⟩ := step_cases hstep
    exact hs.next hnext

/-- A run that has ended is held by nobody. -/
theorem HeldRun.unheld (hs : HeldRun s) (h : s.run.committed ≠ .running) : s.run.own = .none := by
  cases hown : s.run.own with
  | none => rfl
  | some held => exact absurd (hs.run hown).1 h

end Novalton.Workflow
