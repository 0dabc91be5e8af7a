/-
What happens at most once on a workflow run, whatever the requests on it and their order:
the execution of a step, the resumption of its agent run, the decision of its challenge
(`modules/orchestrator/service.py`, `modules/orchestrator/challenge_service.py`).

A decision is one transaction with the end of its step, so a decided challenge has ended its
step; and a challenge that is not to be accepted has not completed it.
-/
import Novalton.CountedRun
import Novalton.WorkflowChallenge

namespace Novalton.Workflow

variable {n : ℕ} {plan : Plan n} {s t : State n} {i j : ℕ} {k p d : Fin n} {answer : Answer n}
  {pc pc' : Pc n} {write : Write n} {resolution : Challenge}

/-! ## Executions and resumptions -/

/-- A request claims the step, which it then executes. -/
def claims (k : Fin n) (s : State n) (a : Label n) (t : State n) : Bool :=
  s.requests a.i = .claim k && t.requests a.i = .execute k

/-- A request takes the agent run of the step out of its wait for an approval. -/
def resumes (k : Fin n) (s : State n) (a : Label n) (t : State n) : Bool :=
  s.requests a.i = .resumeRun k && t.requests a.i = .resumeStep k

/-- What is left of the claims of a step: one, while it can still be claimed. -/
def claimable : WorkflowStepRunStatus → ℕ
  | .pending | .ready => 1
  | _ => 0

/-- What is left of the resumptions of an agent run: one, until it has been resumed or ended. -/
def resumable : Option AgentRunStatus → ℕ
  | .none | .some .waitingForApproval => 1
  | _ => 0

theorem claimable_le_one (status : WorkflowStepRunStatus) : claimable status ≤ 1 := by
  cases status <;> simp [claimable]

theorem resumable_le_one (status : Option AgentRunStatus) : resumable status ≤ 1 := by
  unfold resumable
  split <;> omega

/-- A step that has been claimed is not to be claimed again. -/
theorem claimable_stays (hs : Held plan s) (hallowed : (s.requests i).allowed)
    (hnext : Next plan s i answer (s.requests i) write pc) :
    claimable (write.step i k (s.step k)).committed ≤ claimable (s.step k).committed := by
  rcases hs.changes hnext hallowed k with h | ⟨target, -, h, hmove, -⟩ | ⟨target, -, h, hown⟩
  · rw [h]
  · rw [h]
    revert hmove
    cases target with
    | pending | ready => cases (s.step k).committed <;> simp [stepTransitionAllowed]
    | _ => simp [claimable]
  · rw [h]
    rcases hs.step hown with ⟨hw, -⟩ | ⟨hw, -⟩ | ⟨-, -, hpending⟩
    · obtain rfl := Option.some.inj hw
      exact Nat.zero_le _
    · obtain rfl := Option.some.inj hw
      exact Nat.zero_le _
    · rw [hpending]
      exact claimable_le_one target

/-- A claim makes of a READY step a RUNNING one. -/
theorem Next.claimed (h : Next plan s i answer (.claim k) write (.execute k)) :
    s.status i k = .ready ∧ write = .moveStep k .running := by
  cases h with
  | claim q hfree hready => exact ⟨hready, rfl⟩

theorem Next.resumedRun (h : Next plan s i answer (.resumeRun k) write (.resumeStep k)) :
    s.agent k = .some .waitingForApproval ∧ write = .moveAgent k .running := by
  cases h with
  | resumeRun q hwaiting => exact ⟨hwaiting, rfl⟩

/-- A linked agent run is not moved to its wait. -/
theorem Next.movesAgent {target : AgentRunStatus}
    (h : Next plan s i answer pc (.moveAgent p target) pc') :
    s.agent p = .none ∨ target ≠ .waitingForApproval := by
  generalize hw : Write.moveAgent p target = write at h
  cases h with
  | linkAgentRun q role executed hnone =>
    cases hw
    exact .inl hnone
  | continued q response hterminal hrunning =>
    cases hw
    refine .inr ?_
    intro h
    rw [h] at hterminal
    cases hterminal
  | resumeRun q hwaiting | failWaitingRun q hwaiting =>
    cases hw
    exact .inr (by simp)
  | _ => cases hw

/-- An agent run does not come back to its wait. -/
theorem resumable_stays (hnext : Next plan s i answer (s.requests i) write pc) :
    resumable (write.agent k (s.agent k)) ≤ resumable (s.agent k) := by
  cases write with
  | moveAgent q target =>
    simp only [Write.agent]
    split
    next heq =>
      subst heq
      rcases hnext.movesAgent with hnone | htarget
      · rw [hnone]
        exact resumable_le_one _
      · cases target with
        | waitingForApproval => exact absurd rfl htarget
        | _ => exact Nat.zero_le _
    next => exact Nat.le_refl _
  | _ => exact Nat.le_refl _

/-- **A step is executed at most once, and its agent run resumed at most once**, in every run
of the requests on a plan. -/
theorem executed_at_most_once (plan : Plan n) (k : Fin n) (labels : List (Label n)) :
    (system plan).count (claims k) (createRun plan) labels ≤ 1 ∧
      (system plan).count (resumes k) (createRun plan) labels ≤ 1 := by
  have hinit : (system plan).Reachable (createRun plan) := ⟨_, rfl, .refl⟩
  have hkeep : ∀ s a t, (system plan).Reachable s → (system plan).step s a = .some t →
      (system plan).Reachable t :=
    fun s a t hs hstep => hs.step hstep
  constructor
  · refine (System.count_le (fun s => claimable (s.step k).committed) hkeep ?_ labels hinit).trans
      (claimable_le_one _)
    intro s a t hreachable hstep
    obtain ⟨write, pc, hnext, rfl⟩ := step_cases hstep
    have hstays := claimable_stays (k := k) (held hreachable) (allowed hreachable a.i) hnext
    split
    next hclaims =>
      -- A claim spends what is left.
      simp only [claims, Bool.and_eq_true, decide_eq_true_eq, State.after_self] at hclaims
      obtain ⟨hpc, rfl⟩ := hclaims
      have hcommitted := (held hreachable).committed_of_status (p := k) (i :=
        a.i) (by rw [hpc]; exact ⟨rfl, rfl, rfl⟩)
      rw [hpc] at hnext
      obtain ⟨hready, rfl⟩ := hnext.claimed
      rw [hready] at hcommitted
      rw [← hcommitted]
      simp [claimable, State.after, Write.step, Row.idle]
    next => exact hstays
  · refine (System.count_le (fun s => resumable (s.agent k)) hkeep ?_ labels hinit).trans
      (resumable_le_one _)
    intro s a t hreachable hstep
    obtain ⟨write, pc, hnext, rfl⟩ := step_cases hstep
    have hstays := resumable_stays (k := k) hnext
    split
    next hresumes =>
      simp only [resumes, Bool.and_eq_true, decide_eq_true_eq, State.after_self] at hresumes
      obtain ⟨hpc, rfl⟩ := hresumes
      rw [hpc] at hnext
      obtain ⟨hwaiting, rfl⟩ := hnext.resumedRun
      rw [hwaiting]
      simp [resumable, State.after, Write.agent]
    next => exact hstays

/-! ## Decisions -/

/-- How far the request is with a challenge that it has locked. -/
inductive Stage where
  | loaded (data : ChallengeResolutionRequest) (resolution : Challenge)
  | failing
  | accepting

/-- The challenge that the request has locked, by its step. -/
def Pc.stage : Pc n → Option (Fin n × Stage)
  | .resolveRun k data resolution | .resolveStep k data resolution
  | .resolveAgentRun k data resolution
  | .resolveOrdered k data resolution | .evaluateDecision k data resolution
  | .decidePending k data resolution => .some (k, .loaded data resolution)
  | .failStep k | .failRun k | .commitFailure k => .some (k, .failing)
  | .complete k .resolve | .pendingDependents k .resolve | .incompleteDependencyCount k _ .resolve
  | .readyDependent k _ _ .resolve | .commit k .resolve | .countInTransaction k | .completeRun k =>
    .some (k, .accepting)
  | _ => .none

/-- A challenge that a request has yet to write is undecided, and one that it has loaded may
be decided as the request wants. -/
def Pc.sound : Pc n → Prop
  | .createPending _ resolution | .persistNextHandoff _ (.some resolution) =>
    resolution.decided = false
  | .resolveRun _ data resolution | .resolveStep _ data resolution
  | .resolveAgentRun _ data resolution
  | .resolveOrdered _ data resolution | .evaluateDecision _ data resolution
  | .decidePending _ data resolution =>
    ¬(resolution.level = .blockRecommended ∧ data.decision = .acceptResult)
  | _ => True

/-- The result is accepted, and may pass for the result of its step. -/
structure Accepted (resolution : Challenge) : Prop where
  decision : resolution.decision.map (·.decision) = .some .acceptResult
  level : resolution.level ≠ .blockRecommended
  result : failureAfterAcceptance resolution = .none

/-- A decided challenge has ended its step, and has completed it only if it is accepted. -/
def Ended (resolution : Challenge) (status : WorkflowStepRunStatus) : Prop :=
  status = .failed ∨ status = .completed ∧ Accepted resolution

theorem sound_elim {α : Type} (o : Option α) {f : α → Pc n} (hpc : pc.sound)
    (hf : ∀ v, (f v).sound) : (o.elim pc f).sound := by
  cases o with
  | none => exact hpc
  | some v => exact hf v

theorem sound_start (request : Request n) : request.start.sound := by
  cases request with
  | transition k expected target =>
    simp only [Request.start, transitionStep]
    split
    · split <;> trivial
    · trivial
  | _ => trivial

theorem sound_afterLink (role : Option SpecializationRole) (executed : Executed) :
    (afterLink k role executed).sound := by
  unfold afterLink
  split
  · trivial
  · trivial
  · dsimp only
    split <;> rfl
  · split <;> trivial

theorem Next.sound (h : Next plan s i answer pc write pc') (hpc : pc.sound) : pc'.sound := by
  cases h with
  | begin request => exact sound_start request
  | startRun selected => exact sound_elim _ trivial fun _ => trivial
  | transitionStep k expected target run => exact sound_elim _ trivial fun _ => trivial
  | linkAgentRun k role executed => exact sound_afterLink role executed
  | handoff k resolution =>
    cases resolution with
    | none => trivial
    | some resolution => exact hpc
  | continued k response =>
    unfold afterContinuation
    split <;> trivial
  | counted | commit | decidePending => split <;> trivial
  | getScopedForUpdate k data resolution hfree hview hundecided hlevel => exact hlevel
  | resolveRun | resolveStep | resolveAgentRun | resolveOrdered | permitted => exact hpc
  | _ => trivial

theorem sound (h : (system plan).Reachable s) : ∀ i, (s.requests i).sound := by
  refine h.invariant (I := fun s => ∀ i, (s.requests i).sound) ?_ ?_
  · rintro s rfl i
    trivial
  · intro s a t hs hstep i
    obtain ⟨write, pc, hnext, rfl⟩ := step_cases hstep
    by_cases hne : i = a.i
    · rw [hne, State.after_self]
      exact hnext.sound (hs a.i)
    · rw [State.after_ne hne]
      exact hs i

theorem stage_resolving : pc.stage.map Prod.fst = pc.resolving := by
  cases pc with
  | complete k completion | pendingDependents k completion
  | incompleteDependencyCount k dependents completion
  | readyDependent k d dependents completion | commit k completion => cases completion <;> rfl
  | _ => rfl

theorem stage_of_unresolved (h : pc.unresolved) : pc.stage = .none := by
  rw [Pc.unresolved, ← stage_resolving, Option.map_eq_none_iff] at h
  exact h

/-- A request keeps the challenge it has locked as it has loaded it. -/
theorem Next.keepsStage (h : Next plan s i answer pc write pc') (hcommit : write ≠ .commit)
    (hrollback : write ≠ .rollback) (hlock : ∀ k, write ≠ .lockChallenge k)
    (hdecide : ∀ k resolution, write ≠ .decide k resolution) : pc'.stage = pc.stage := by
  have hun : pc.unresolved → pc'.unresolved → pc'.stage = pc.stage := by
    intro h h'
    rw [stage_of_unresolved h, stage_of_unresolved h']
  cases h with
  | leave | commit | commitFailure => contradiction
  | getScopedForUpdate => exact absurd rfl (hlock _)
  | decidePending => exact absurd rfl (hdecide _ _)
  | begin request => exact hun rfl (unresolved_start request)
  | startRun selected => exact hun rfl (unresolved_elim _ rfl fun _ => rfl)
  | transitionStep k expected target run => exact hun rfl (unresolved_elim _ rfl fun _ => rfl)
  | handoff k resolution => exact hun rfl (unresolved_elim _ rfl fun _ => rfl)
  | linkAgentRun k role executed => exact hun rfl (unresolved_afterLink role executed)
  | continued k response => exact hun rfl (unresolved_afterContinuation response)
  | complete k completion | pendingDependents k completion | counted k completion
  | dependenciesComplete k d dependents completion | incomplete k d dependents completion
  | ready k d dependents completion | leftPending k d dependents completion =>
    cases completion <;> rfl
  | _ => rfl

/-- What a request has locked is undecided, and what it has written is its decision. -/
structure Decisive (s : State n) : Prop where
  held : ∀ {k i w}, (s.challenge k).own = .some (i, w) → ∃ resolution, (s.challenge k).committed =
    .some resolution ∧
    resolution.decided = false ∧
    ((∃ data, (s.requests i).stage = .some (k, .loaded data resolution) ∧ w = .none) ∨
      ∃ decided, w = .some (.some decided) ∧ ((s.requests i).stage = .some (k, .failing) ∨
        (s.requests i).stage = .some (k, .accepting) ∧ Accepted decided))
  ended : ∀ {k resolution}, (s.challenge k).committed = .some resolution →
    resolution.decided = true →
    Ended resolution (s.step k).committed

/-- A decision is of the challenge that the request has loaded. -/
theorem Next.decidesStage (h : Next plan s i answer pc (.decide k resolution) pc') : ∃ data loaded,
    pc.stage = .some (k, .loaded data loaded) ∧
      (pc'.stage = .some (k, .failing) ∨ pc'.stage = .some (k, .accepting) ∧
        (pc.sound → Accepted resolution)) := by
  cases h with
  | decidePending k data loaded =>
    refine ⟨data, loaded, rfl, ?_⟩
    by_cases hfails : fails data loaded = true
    · rw [if_pos hfails]
      exact .inl rfl
    · rw [if_neg hfails]
      refine .inr ⟨rfl, fun hsound => ?_⟩
      simp only [fails, Bool.or_eq_true, decide_eq_true_eq, not_or, Bool.not_eq_true,
        Option.isSome_eq_false_iff, Option.isNone_iff_eq_none] at hfails
      have haccept : data.decision = .acceptResult := by
        cases hdecision : data.decision with
        | acceptResult => rfl
        | rejectResult => exact absurd hdecision hfails.1
      exact ⟨congrArg Option.some haccept, fun hblock => hsound ⟨hblock, haccept⟩, hfails.2⟩

theorem Next.locksStage (h : Next plan s i answer pc (.lockChallenge k) pc') : ∃ data loaded,
    (s.challenge k).view i = .some loaded ∧ loaded.decided = false ∧ pc'.stage = .some
    (k, .loaded data loaded) := by
  cases h with
  | getScopedForUpdate k data loaded hfree hview hundecided =>
    exact ⟨data, loaded, hview, hundecided, rfl⟩

/-- What is committed with a decision: the end of its step. -/
theorem Next.commitsStage (h : Next plan s i answer pc .commit pc') {stage : Stage}
    (hstage : pc.stage = .some (k, stage)) :
    stage = .failing ∧ pc.failingStep = .some k ∨ stage = .accepting ∧ pc.completing = .some k := by
  cases h with
  | commit q completion =>
    cases completion with
    | transition | advance => cases hstage
    | resolve =>
      cases hstage
      exact .inr ⟨rfl, rfl⟩
  | commitFailure q =>
    cases hstage
    exact .inl ⟨rfl, rfl⟩

theorem Decisive.unheld (hI : Decisive s) (hun : (s.requests i).stage = .none)
    {w : Option (Option Challenge)} :
    (s.challenge k).own ≠ .some (i, w) := by
  intro hown
  obtain ⟨resolution, -, -, ⟨data, hstage, -⟩ | ⟨decided, -, hstage | ⟨hstage, -⟩⟩⟩ := hI.held hown
  · rw [hun] at hstage
    cases hstage
  · rw [hun] at hstage
    cases hstage
  · rw [hun] at hstage
    cases hstage

/-- The rows that request `i` holds after its step. -/
theorem Decisive.holds (hI : Decisive s) (hc : HeldChallenge s) (hsound : (s.requests i).sound)
    (hnext : Next plan s i answer (s.requests i) write pc) {w : Option (Option Challenge)}
    (hown : (write.challenge i k (s.challenge k)).own = .some (i, w)) :
    ∃ resolution, (write.challenge i k (s.challenge k)).committed = .some resolution ∧
      resolution.decided = false ∧
      ((∃ data, pc.stage = .some (k, .loaded data resolution) ∧ w = .none) ∨
        ∃ decided, w = .some (.some decided) ∧ (pc.stage = .some (k, .failing) ∨
          pc.stage = .some (k, .accepting) ∧ Accepted decided)) := by
  have hkeeps : write ≠ .commit → write ≠ .rollback → (∀ k, write ≠ .lockChallenge k) →
      (∀ k resolution, write ≠ .decide k resolution) → pc.stage = (s.requests i).stage :=
        hnext.keepsStage
  cases write with
  | commit => exact absurd hown Row.commit_own_ne
  | rollback => exact absurd hown Row.rollback_own_ne
  | insertChallenge q resolution =>
    simp only [Write.challenge] at hown
    split at hown
    · cases hown
    · have hpc := hnext.insertsChallenge.1
      exact absurd hown (hI.unheld (by rw [hpc]; rfl))
  | lockChallenge q =>
    have hun := stage_of_unresolved hnext.locksChallenge.2.2.1
    obtain ⟨data, loaded, hview, hundecided, hstage⟩ := hnext.locksStage
    simp only [Write.challenge] at hown ⊢
    by_cases hq : k = q
    · subst hq
      rw [if_pos rfl] at hown ⊢
      have hfree := hnext.locksChallenge.1
      have hnone : (s.challenge k).own = .none := by
        cases hheld : (s.challenge k).own with
        | none => rfl
        | some held =>
          obtain ⟨j, v⟩ := held
          have hj := Row.free_own hfree hheld
          subst hj
          exact absurd hheld (hI.unheld hun)
      rw [Row.view_of_unheld hnone] at hview
      refine ⟨loaded, hview, hundecided, .inl ⟨data, hstage, ?_⟩⟩
      exact (Prod.mk.inj (Option.some.inj hown)).2.symm
    · rw [if_neg hq] at hown
      exact absurd hown (hI.unheld hun)
  | decide q decided =>
    obtain ⟨data, loaded, hstage, hstage'⟩ := hnext.decidesStage
    have hdecide : Write.challenge i k (.decide q decided) (s.challenge k) =
        if k = q then ⟨(s.challenge k).committed, .some (i, .some (.some decided))⟩
          else s.challenge k := rfl
    rw [hdecide] at hown ⊢
    have hresolving := hnext.decides.2.1
    by_cases hq : k = q
    · subst hq
      rw [if_pos rfl] at hown ⊢
      have hw := (Prod.mk.inj (Option.some.inj hown)).2.symm
      obtain ⟨w', hheld⟩ := hc.resolving hresolving
      obtain ⟨resolution, hcommitted, hundecided,
        ⟨data', hother, -⟩ | ⟨-, -, hother | ⟨hother, -⟩⟩⟩ := hI.held hheld
      · refine ⟨resolution, hcommitted, hundecided, .inr ⟨decided, hw, ?_⟩⟩
        rcases hstage' with hfailing | ⟨haccepting, haccepted⟩
        · exact .inl hfailing
        · exact .inr ⟨haccepting, haccepted hsound⟩
      · rw [hstage] at hother
        cases hother
      · rw [hstage] at hother
        cases hother
    · rw [if_neg hq] at hown
      obtain ⟨resolution, -, -, ⟨data', hother, -⟩ | ⟨-, -, hother | ⟨hother, -⟩⟩⟩ := hI.held hown
      · rw [hstage] at hother
        cases hother
        exact absurd rfl hq
      · rw [hstage] at hother
        cases hother
      · rw [hstage] at hother
        cases hother
  | _ =>
    rw [hkeeps (by simp) (by simp) (by simp) (by simp)]
    exact hI.held hown

/-- What is decided after a step was, or the step commits it with the end of its step. -/
theorem Decisive.decides_before (hI : Decisive s) (hsound : (s.requests i).sound)
    (hnext : Next plan s i answer (s.requests i) write pc)
    (hcommitted : (write.challenge i k (s.challenge k)).committed = .some resolution)
    (hdecided : resolution.decided = true) :
    (s.challenge k).committed = .some resolution ∨
      write = .commit ∧
        ((s.requests i).stage = .some (k, .failing) ∨ (s.requests i).stage = .some (k, .accepting) ∧
          Accepted resolution) := by
  cases write with
  | insertChallenge q created =>
    simp only [Write.challenge] at hcommitted
    split at hcommitted
    · have hpc := hnext.insertsChallenge.1
      rw [hpc] at hsound
      cases hcommitted
      rw [hsound] at hdecided
      cases hdecided
    · exact .inl hcommitted
  | lockChallenge q | decide q =>
    simp only [Write.challenge] at hcommitted
    split at hcommitted <;> exact .inl hcommitted
  | commit =>
    simp only [Write.challenge, Row.commit_view] at hcommitted
    unfold Row.view at hcommitted
    split at hcommitted
    next j v hown =>
      split at hcommitted
      next hj =>
        subst hj
        obtain ⟨loaded, -, -, ⟨data, -, hw⟩ | ⟨decided, hw, hstage⟩⟩ := hI.held hown
        · cases hw
        · obtain rfl := Option.some.inj hw
          cases hcommitted
          exact .inr ⟨rfl, hstage⟩
      next => exact .inl hcommitted
    next => exact .inl hcommitted
  | rollback =>
    simp only [Write.challenge, Row.rollback_committed] at hcommitted
    exact .inl hcommitted
  | _ => exact .inl hcommitted

/-- What an ended step's status is, it stays. -/
theorem Ended.stays (h : Ended resolution (s.step k).committed) (hs : Held plan s)
    (hallowed : (s.requests i).allowed) (hnext : Next plan s i answer (s.requests i) write pc) :
    (write.step i k (s.step k)).committed = (s.step k).committed := by
  refine hs.terminal_stays hnext hallowed ?_
  rcases h with h | ⟨h, -⟩
  · rw [h]
    rfl
  · rw [h]
    rfl

theorem Decisive.next (hI : Decisive s) (hs : Held plan s) (hc : HeldChallenge s)
    (hallowed : (s.requests i).allowed) (hsound : (s.requests i).sound)
    (hnext : Next plan s i answer (s.requests i) write pc) : Decisive (s.after i write pc) where
  held := by
    intro k j w hown
    change (write.challenge i k (s.challenge k)).own = _ at hown
    show ∃ resolution, (write.challenge i k (s.challenge k)).committed = _ ∧ _
    by_cases hne : j = i
    · subst hne
      rw [State.after_self]
      exact hI.holds hc hsound hnext hown
    · have hbefore : (s.challenge k).own = .some (j, w) := by
        cases write with
        | insertChallenge q created | lockChallenge q | decide q resolution =>
          simp only [Write.challenge] at hown
          split at hown
          · first | exact absurd (congrArg Prod.fst (Option.some.inj hown)).symm hne | cases hown
          · exact hown
        | commit => exact Row.own_of_commit hown
        | rollback => exact Row.own_of_rollback hown
        | _ => exact hown
      rw [State.after_ne hne, Write.challenge_held hbefore hne hc hnext]
      exact hI.held hbefore
  ended := by
    intro k resolution hcommitted hdecided
    change (write.challenge i k (s.challenge k)).committed = _ at hcommitted
    show Ended resolution (write.step i k (s.step k)).committed
    rcases hI.decides_before hsound hnext hcommitted hdecided with hbefore | ⟨rfl, hstage⟩
    · have hended := hI.ended hbefore hdecided
      rw [hended.stays hs hallowed hnext]
      exact hended
    · -- the decision is committed with what the request has written to its step
      rcases hstage with hstage | ⟨hstage, haccepted⟩
      · rcases hnext.commitsStage hstage with ⟨-, hfailing⟩ | ⟨h, -⟩
        · left
          simp [Write.step, Row.commit, hs.failing hfailing]
        · cases h
      · rcases hnext.commitsStage hstage with ⟨h, -⟩ | ⟨-, hcompleting⟩
        · cases h
        · right
          exact ⟨by simp [Write.step, Row.commit, hs.completing hcompleting], haccepted⟩

theorem decisive (h : (system plan).Reachable s) : Decisive s := by
  refine h.invariant_with (J := fun s => (system plan).Reachable s) (fun s hs => hs) ?_ ?_
  · rintro s rfl
    exact ⟨fun h => (by cases h), fun h => (by cases h)⟩
  · intro s a t hreachable hI hstep
    obtain ⟨write, pc, hnext, rfl⟩ := step_cases hstep
    exact hI.next (held hreachable) (heldChallenge hreachable) (allowed hreachable a.i)
      (sound hreachable a.i) hnext

/-- A decision is final, and so is the end of its step. -/
theorem Decisive.final (hI : Decisive s) (hs : Held plan s) (hallowed : (s.requests i).allowed)
    (hnext : Next plan s i answer (s.requests i) write pc)
    (hcommitted : (s.challenge k).committed = .some resolution)
    (hdecided : resolution.decided = true) :
    (write.challenge i k (s.challenge k)).committed = .some resolution ∧
      (write.step i k (s.step k)).committed = (s.step k).committed := by
  refine ⟨?_, (hI.ended hcommitted hdecided).stays hs hallowed hnext⟩
  have hunheld : ∀ {j w}, (s.challenge k).own ≠ .some (j, w) := by
    intro j w hown
    obtain ⟨loaded, hloaded, hundecided, -⟩ := hI.held hown
    rw [hcommitted] at hloaded
    cases hloaded
    rw [hdecided] at hundecided
    cases hundecided
  have hnone : (s.challenge k).own = .none := by
    cases hown : (s.challenge k).own with
    | none => rfl
    | some held => exact absurd hown hunheld
  cases write with
  | insertChallenge q created =>
    simp only [Write.challenge]
    split
    next heq =>
      subst heq
      have hview := hnext.insertsChallenge.2.2.1
      rw [Row.view_of_unheld hnone, hcommitted] at hview
      cases hview
    next => exact hcommitted
  | lockChallenge q | decide q =>
    simp only [Write.challenge]
    split <;> exact hcommitted
  | commit =>
    simp only [Write.challenge, Row.commit_view, Row.view_of_unheld hnone]
    exact hcommitted
  | rollback =>
    simp only [Write.challenge, Row.rollback_committed]
    exact hcommitted
  | _ => exact hcommitted

/-- **A challenge is decided once, together with its step.** In every reachable state a decided
challenge has ended its step: FAILED, or COMPLETED where the decision is to accept and the
result may be accepted. From there on neither the challenge, with its decision and reason,
nor the status of the step changes. -/
theorem challenge_decided_once (h : (system plan).Reachable s)
    (hcommitted : (s.challenge k).committed = .some resolution)
    (hdecided : resolution.decided = true) :
    Ended resolution (s.step k).committed ∧ ∀ t, (system plan).Run System.always s t →
      (t.challenge k).committed = .some resolution ∧
      (t.step k).committed = (s.step k).committed := by
  refine ⟨(decisive h).ended hcommitted hdecided, fun t hrun => ?_⟩
  suffices hall : (system plan).Reachable t ∧ (t.challenge k).committed = .some resolution ∧
      (t.step k).committed = (s.step k).committed from hall.2
  induction hrun with
  | refl => exact ⟨h, hcommitted, rfl⟩
  | tail _ _ hstep ih =>
    obtain ⟨hreachable, hchallenge, hstatus⟩ := ih
    refine ⟨hreachable.step hstep, ?_⟩
    obtain ⟨write, pc, hnext, rfl⟩ := step_cases hstep
    obtain ⟨hchallenge', hstatus'⟩ :=
      (decisive hreachable).final (held hreachable) (allowed hreachable _) hnext hchallenge hdecided
    exact ⟨hchallenge', hstatus'.trans hstatus⟩

/-- A challenged step whose result is rejected, for a reason. -/
def rejectingOne : List (Label 3) :=
  challengingOne ++ ⟨0, .begin (.resolve ⟨0, Nat.succ_pos 2⟩ ⟨.rejectResult, .some ['r']⟩)⟩ ::
    (rejecting .allow).map fun answer => ⟨0, answer⟩

def rejected : Challenge := { review with decision := .some ⟨.rejectResult, .some ['r']⟩ }

theorem challenge_decided_once_rejected : ∃ s, (system joinPlan).Reachable s ∧
    (s.challenge 0).committed = .some rejected ∧
    Ended rejected (s.step 0).committed ∧ ∀ t, (system joinPlan).Run System.always s t →
      (t.challenge 0).committed = .some rejected ∧ (t.step 0).committed = (s.step 0).committed := by
  have hexec : (system joinPlan).exec (createRun joinPlan) rejectingOne = .some _ := rfl
  have hreachable := @System.exec_reachable _ _ (system joinPlan) _ _ _ rfl hexec
  exact ⟨_, hreachable, rfl, challenge_decided_once hreachable rfl rfl⟩

end Novalton.Workflow
