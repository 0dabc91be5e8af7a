/-
Challenges that cannot be decided. `resolve` decides the challenge of a step only where no
other step is RUNNING, and `advance` claims a READY step whatever is RUNNING. So two
branches can both be RUNNING with a challenge, and then neither challenge is ever decided.

Where a step is moved to RUNNING only if no other step is, and only `resolve` takes a
challenged step out of RUNNING, every undecided challenge can be decided.
-/
import Novalton.WorkflowOrder

namespace Novalton.Workflow

variable {n : ℕ} {plan : Plan n} {s t : State n} {i j : ℕ} {k p q : Fin n} {answer : Answer n}
  {pc pc' : Pc n} {write : Write n} {a : Label n} {resolution : Challenge}
  {data : ChallengeResolutionRequest}

/-! ## The condition -/

/-- The step has a challenge that is not decided. -/
def Undecided (s : State n) (k : Fin n) : Prop :=
  ∃ resolution, (s.challenge k).committed = .some resolution ∧ resolution.decided = false

/-- The request executes the step, and may still create a challenge for it. -/
def Pc.executes : Pc n → Option (Fin n)
  | .execute k | .linkAgentRun k _ _ | .persistNextHandoff k _ | .createPending k _ => .some k
  | _ => .none

/-- The move to RUNNING the request is about to make: its step and the status it expects. -/
def Pc.starts : Pc n → Option (Fin n × WorkflowStepRunStatus)
  | .claim k => .some (k, .ready)
  | .resumeStep k => .some (k, .waitingForApproval)
  | .transitionStep k expected .running _ => .some (k, expected)
  | _ => .none

/-- The step the request is about to take out of RUNNING, other than by a resolution. -/
def Pc.ends : Pc n → Option (Fin n)
  | .transitionStep k .running _ _ => .some k
  | .complete k .transition | .complete k .advance => .some k
  | _ => .none

/-- A step is moved to RUNNING where no other is RUNNING; and it is not taken out of RUNNING
from under its challenge or the request that executes it. -/
def Exclusive (s : State n) (a : Label n) : Prop :=
  a.answer = .proceed →
    (∀ k expected, (s.requests a.i).starts = .some (k, expected) → s.status a.i k = expected →
      ∀ p, p ≠ k → (s.step p).committed ≠ .running) ∧
    (∀ k, (s.requests a.i).ends = .some k →
      ¬ Undecided s k ∧ ∀ j, j ≠ a.i → (s.requests j).executes ≠ .some k)

/-! ## What a resolution holds -/

/-- The step whose challenge the request has locked. -/
def Pc.resolving : Pc n → Option (Fin n)
  | .resolveRun k _ _ | .resolveStep k _ _ | .resolveAgentRun k _ _ | .resolveOrdered k _ _
  | .evaluateDecision k _ _
  | .decidePending k _ _ | .failStep k | .failRun k | .commitFailure k | .complete k .resolve
  | .pendingDependents k .resolve | .incompleteDependencyCount k _ .resolve
  | .readyDependent k _ _ .resolve
  | .commit k .resolve | .countInTransaction k | .completeRun k => .some k
  | _ => .none

/-- The step whose challenge the request has decided in its transaction. -/
def Pc.resolved : Pc n → Option (Fin n)
  | .failStep k | .failRun k | .commitFailure k | .complete k .resolve
  | .pendingDependents k .resolve | .incompleteDependencyCount k _ .resolve
  | .readyDependent k _ _ .resolve
  | .commit k .resolve | .countInTransaction k | .completeRun k => .some k
  | _ => .none

theorem Pc.resolving_of_resolved (h : pc.resolved = .some k) : pc.resolving = .some k := by
  unfold Pc.resolved at h
  split at h <;> first | exact h | cases h

/-- A request outside of a resolution. -/
def Pc.unresolved (pc : Pc n) : Prop := pc.resolving = .none

theorem Pc.unresolved_resolved (h : pc.unresolved) : pc.resolved = .none := by
  cases hr : pc.resolved with
  | none => rfl
  | some k =>
    rw [Pc.unresolved, Pc.resolving_of_resolved hr] at h
    cases h

theorem unresolved_start (request : Request n) : request.start.unresolved := by
  cases request with
  | transition k expected target =>
    simp only [Request.start, transitionStep]
    split
    · split <;> rfl
    · rfl
  | _ => rfl

theorem unresolved_afterLink (role : Option SpecializationRole) (executed : Executed) :
    (afterLink k role executed).unresolved := by
  unfold afterLink
  split
  · rfl
  · rfl
  · dsimp only
    split <;> rfl
  · split <;> rfl

theorem unresolved_afterContinuation (response : Executed) :
    (afterContinuation k response).unresolved := by
  unfold afterContinuation
  split <;> rfl

theorem unresolved_elim {α : Type} (o : Option α) {f : α → Pc n} (hpc : pc.unresolved)
    (hf : ∀ v, (f v).unresolved) :
    (o.elim pc f).unresolved := by
  cases o with
  | none => exact hpc
  | some v => exact hf v

namespace Next

/-- A resolution begins with the lock of its challenge. -/
theorem locksChallenge (h : Next plan s i answer pc (.lockChallenge k) pc') :
    (s.challenge k).free i = true ∧ (∃ resolution, (s.challenge k).view i = .some resolution) ∧
    pc.unresolved ∧
      pc'.resolving = .some k ∧ pc'.resolved = .none := by
  cases h with
  | getScopedForUpdate k decision resolution hfree hview =>
    exact ⟨hfree, ⟨resolution, hview⟩, rfl, rfl, rfl⟩

/-- It decides the challenge it has locked. -/
theorem decides (h : Next plan s i answer pc (.decide k resolution) pc') :
    resolution.decided = true ∧ pc.resolving = .some k ∧ pc'.resolving = .some k ∧
      pc'.resolved = .some k := by
  cases h with
  | decidePending k decision resolution => exact ⟨rfl, rfl, by split <;> rfl, by split <;> rfl⟩

/-- A challenge is created once, by the request that executes its step. -/
theorem insertsChallenge (h : Next plan s i answer pc (.insertChallenge k resolution) pc') :
    pc = .createPending k resolution ∧ (s.challenge k).free i = true ∧
      (s.challenge k).view i = .none ∧ pc' = .idle := by
  cases h with
  | createPending k resolution hfree h => exact ⟨rfl, hfree, h, rfl⟩

theorem commits_unresolved (h : Next plan s i answer pc .commit pc') : pc'.unresolved := by
  cases h with
  | commit => split <;> rfl
  | commitFailure => rfl

/-- Other steps neither begin nor end a resolution. -/
theorem keepsResolution (h : Next plan s i answer pc write pc') (hcommit : write ≠ .commit)
    (hrollback : write ≠ .rollback) (hlock : ∀ k, write ≠ .lockChallenge k)
    (hdecide : ∀ k resolution, write ≠ .decide k resolution) :
    pc'.resolving = pc.resolving ∧ pc'.resolved = pc.resolved := by
  have hun : pc.unresolved → pc'.unresolved → pc'.resolving = pc.resolving ∧
      pc'.resolved = pc.resolved := by
    intro h h'
    rw [Pc.unresolved_resolved h, Pc.unresolved_resolved h', h, h']
    exact ⟨rfl, rfl⟩
  cases h with
  | leave | commit | commitFailure => contradiction
  | getScopedForUpdate => exact absurd rfl (hlock _)
  | decidePending => exact absurd rfl (hdecide _ _)
  | begin request => exact hun rfl (unresolved_start request)
  | startRun selected => exact hun rfl (unresolved_elim _ rfl fun _ => rfl)
  | transitionStep k expected target run => exact hun rfl (unresolved_elim _ rfl fun _ => rfl)
  | handoff k resolution => exact hun rfl (unresolved_elim _ rfl fun _ => rfl)
  | linkAgentRun k role executed => exact hun rfl (unresolved_afterLink role executed)
  | continued k response => exact hun rfl (unresolved_afterContinuation response)
  | complete k completion | pendingDependents k completion | counted k completion
  | dependenciesComplete k d dependents completion | incomplete k d dependents completion
  | ready k d dependents completion | leftPending k d dependents completion =>
    cases completion <;> exact ⟨rfl, rfl⟩
  | _ => exact ⟨rfl, rfl⟩

end Next

/-- A challenge is held by the request that resolves it, once it is there. -/
structure HeldChallenge (s : State n) : Prop where
  own : ∀ {k i w}, (s.challenge k).own = .some (i, w) →
    (s.requests i).resolving = .some k ∧ (s.challenge k).committed ≠ .none
  resolved : ∀ {i k}, (s.requests i).resolved = .some k →
    ∃ resolution, (s.challenge k).own = .some (i, .some (.some resolution)) ∧
      resolution.decided = true
  resolving : ∀ {i k}, (s.requests i).resolving = .some k → ∃ w, (s.challenge k).own = .some (i, w)

/-- What another request holds stays as it is. -/
theorem Write.challenge_held {w : Option (Option Challenge)}
    (hown : (s.challenge k).own = .some (j, w)) (hne : j ≠ i) (hs : HeldChallenge s)
    (hnext : Next plan s i answer (s.requests i) write pc) :
    write.challenge i k (s.challenge k) = s.challenge k := by
  have hnot : (s.challenge k).free i ≠ true := fun hfree => hne (Row.free_own hfree hown)
  cases write with
  | commit => exact Row.commit_ne hown hne
  | rollback => exact Row.rollback_ne hown hne
  | insertChallenge q resolution =>
    refine if_neg ?_
    rintro rfl
    exact hnot hnext.insertsChallenge.2.1
  | lockChallenge q =>
    refine if_neg ?_
    rintro rfl
    exact hnot hnext.locksChallenge.1
  | decide q resolution =>
    refine if_neg ?_
    rintro rfl
    obtain ⟨w', hown'⟩ := hs.resolving hnext.decides.2.1
    rw [hown] at hown'
    cases hown'
    exact hne rfl
  | _ => rfl

theorem HeldChallenge.next (hs : HeldChallenge s)
    (hnext : Next plan s i answer (s.requests i) write pc) :
    HeldChallenge (s.after i write pc) := by
  -- what the step leaves of the challenges the request itself holds
  suffices hself :
      (∀ {k w}, (write.challenge i k (s.challenge k)).own = .some (i, w) →
        pc.resolving = .some k ∧ (write.challenge i k (s.challenge k)).committed ≠ .none) ∧
      (∀ {k}, pc.resolved = .some k → ∃ resolution,
        (write.challenge i k (s.challenge k)).own = .some (i, .some (.some resolution)) ∧
          resolution.decided = true) ∧
      (∀ {k}, pc.resolving = .some k → ∃ w, (write.challenge i k (s.challenge k)).own =
        .some (i, w)) ∧
      (∀ {k j w}, j ≠ i → (write.challenge i k (s.challenge k)).own = .some (j, w) →
        (s.challenge k).own = .some (j, w)) by
    obtain ⟨hown, hresolved, hresolving, hothers⟩ := hself
    refine ⟨fun {k j w} h => ?_, fun {j k} h => ?_, fun {j k} h => ?_⟩
    · by_cases hne : j = i
      · subst hne
        rw [State.after_self]
        exact hown h
      · have hbefore := hothers hne h
        rw [State.after_ne hne]
        show _ ∧ (write.challenge i k (s.challenge k)).committed ≠ .none
        rw [Write.challenge_held hbefore hne hs hnext]
        exact hs.own hbefore
    · by_cases hne : j = i
      · subst hne
        rw [State.after_self] at h
        exact hresolved h
      · rw [State.after_ne hne] at h
        obtain ⟨resolution, hbefore, hdecided⟩ := hs.resolved h
        refine ⟨resolution, ?_, hdecided⟩
        exact (congrArg Row.own (Write.challenge_held hbefore hne hs hnext)).trans hbefore
    · by_cases hne : j = i
      · subst hne
        rw [State.after_self] at h
        exact hresolving h
      · rw [State.after_ne hne] at h
        obtain ⟨w, hbefore⟩ := hs.resolving h
        exact ⟨w, (congrArg Row.own (Write.challenge_held hbefore hne hs hnext)).trans hbefore⟩
  have hkeeps : write ≠ .commit → write ≠ .rollback → (∀ k, write ≠ .lockChallenge k) →
      (∀ k resolution, write ≠ .decide k resolution) → pc.resolving = (s.requests i).resolving ∧
        pc.resolved = (s.requests i).resolved := hnext.keepsResolution
  cases write with
  | commit =>
    have hun := hnext.commits_unresolved
    have hun' := Pc.unresolved_resolved hun
    refine ⟨fun h => absurd h Row.commit_own_ne, fun h => ?_, fun h => ?_,
      fun _ h => Row.own_of_commit h⟩
    · rw [hun'] at h; cases h
    · rw [hun] at h; cases h
  | rollback =>
    rw [hnext.rollsBack]
    exact ⟨fun h => absurd h Row.rollback_own_ne, fun h => (by cases h), fun h => (by cases h),
      fun _ h => Row.own_of_rollback h⟩
  | lockChallenge q =>
    obtain ⟨hfree, ⟨resolution, hview⟩, hun, hpc, hpc'⟩ := hnext.locksChallenge
    have hnone : ∀ {k w}, (s.challenge k).own ≠ .some (i, w) := by
      intro k w h
      have := (hs.own h).1
      rw [hun] at this
      cases this
    refine ⟨fun {k w} h => ?_, fun h => ?_, fun {k} h => ?_, fun {k j w} hne h => ?_⟩
    · simp only [Write.challenge] at h ⊢
      by_cases hq : k = q
      · subst hq
        rw [if_pos rfl]
        refine ⟨hpc, fun hcommitted => ?_⟩
        change (s.challenge k).committed = .none at hcommitted
        unfold Row.view at hview
        split at hview
        next hown => exact hnone (hown.trans (by rw [Row.free_own hfree hown]))
        next => rw [hcommitted] at hview; cases hview
      · rw [if_neg hq] at h
        exact absurd h hnone
    · rw [hpc'] at h; cases h
    · rw [hpc] at h
      cases h
      exact ⟨_, by simp [Write.challenge]; rfl⟩
    · simp only [Write.challenge] at h
      split at h
      · exact absurd (congrArg Prod.fst (Option.some.inj h)).symm hne
      · exact h
  | decide q resolution =>
    obtain ⟨hdecided, hbefore, hpc, hpc'⟩ := hnext.decides
    obtain ⟨w', hown⟩ := hs.resolving hbefore
    refine ⟨fun {k w} h => ?_, fun {k} h => ?_, fun {k} h => ?_, fun {k j w} hne h => ?_⟩
    · simp only [Write.challenge] at h ⊢
      by_cases hq : k = q
      · subst hq
        rw [if_pos rfl]
        exact ⟨hpc, (hs.own hown).2⟩
      · rw [if_neg hq] at h
        have := (hs.own h).1
        rw [hbefore] at this
        cases this
        exact absurd rfl hq
    · rw [hpc'] at h
      cases h
      exact ⟨resolution, by simp [Write.challenge], hdecided⟩
    · rw [hpc] at h
      cases h
      exact ⟨_, by simp [Write.challenge]; rfl⟩
    · simp only [Write.challenge] at h
      split at h
      · exact absurd (congrArg Prod.fst (Option.some.inj h)).symm hne
      · exact h
  | insertChallenge q resolution =>
    obtain ⟨hpc, hfree, hview, rfl⟩ := hnext.insertsChallenge
    have hnone : ∀ {k w}, (s.challenge k).own ≠ .some (i, w) := by
      intro k w h
      have := (hs.own h).1
      rw [hpc] at this
      cases this
    refine ⟨fun {k w} h => ?_, fun h => (by cases h), fun h => (by cases h), fun {k j w} hne h =>
      ?_⟩
    · simp only [Write.challenge] at h
      split at h
      · cases h
      · exact absurd h hnone
    · simp only [Write.challenge] at h
      split at h
      · cases h
      · exact h
  | _ =>
    obtain ⟨h1, h2⟩ := hkeeps (by simp) (by simp) (by simp) (by simp)
    refine ⟨fun h => ?_, fun h => ?_, fun h => ?_, fun _ h => h⟩
    · rw [h1]
      exact hs.own h
    · rw [h2] at h
      exact hs.resolved h
    · rw [h1] at h
      exact hs.resolving h

theorem heldChallenge (h : (system plan).Reachable s) : HeldChallenge s := by
  refine h.invariant ?_ ?_
  · rintro s rfl
    exact ⟨fun h => (by cases h), fun h => (by cases h), fun h => (by cases h)⟩
  · intro s a t hs hstep
    obtain ⟨write, pc, hnext, rfl⟩ := step_cases hstep
    exact hs.next hnext

/-! ## The invariant -/

namespace Next

/-- A request executes a step from its claim on. -/
theorem executesStep (h : Next plan s i answer pc write pc') (hpc : pc'.executes = .some k) :
    (pc = .claim k ∧ write = .moveStep k .running) ∨
      (pc.executes = .some k ∧ (write = .none ∨ ∃ target, write = .moveAgent k target)) := by
  cases h with
  | claim q hfree h =>
    cases hpc
    exact .inl ⟨rfl, rfl⟩
  | executed q role response => exact .inr ⟨hpc, .inl rfl⟩
  | linkAgentRun q role executed =>
    refine .inr ?_
    unfold afterLink at hpc
    split at hpc
    · cases hpc
    · cases hpc
    · dsimp only at hpc
      split at hpc <;> cases hpc <;> exact ⟨rfl, .inr ⟨_, rfl⟩⟩
    · split at hpc <;> cases hpc
      exact ⟨rfl, .inr ⟨_, rfl⟩⟩
  | handoff q resolution =>
    cases resolution <;> cases hpc
    exact .inr ⟨rfl, .inl rfl⟩
  | begin request =>
    have hstart : ∀ request : Request n, request.start.executes = .none := by
      intro request
      cases request with
      | transition q expected target =>
        simp only [Request.start, Workflow.transitionStep]
        split
        · split <;> rfl
        · rfl
      | _ => rfl
    rw [hstart] at hpc
    cases hpc
  | startRun selected => cases selected <;> cases hpc
  | transitionStep q expected target run => cases run <;> cases hpc
  | continued q response =>
    unfold afterContinuation at hpc
    split at hpc <;> cases hpc
  | counted | commit | decidePending => split at hpc <;> cases hpc
  | _ => cases hpc

/-- The challenge to be created is that of a result whose agent run SUCCEEDED. -/
theorem challenges (h : Next plan s i answer pc write pc')
    (hpc : pc' = .createPending k resolution ∨ pc' = .persistNextHandoff k (.some resolution)) :
    (pc = .persistNextHandoff k (.some resolution) ∧ write = .none) ∨
    write = .moveAgent k .succeeded := by
  cases h with
  | linkAgentRun q role executed =>
    refine .inr ?_
    have hlink : afterLink q role executed = .createPending k resolution ∨
        afterLink q role executed = .persistNextHandoff k (.some resolution) → q = k ∧
            executed.status = .succeeded := by
      intro h
      have hchallenge : ∃ result handoff, advanceGate role executed = .challenge result handoff ∧
          q = k := by
        unfold afterLink at h
        split at h
        · rcases h with h | h <;> cases h
        · rcases h with h | h <;> cases h
        next result handoff hgate =>
          dsimp only at h
          refine ⟨result, handoff, hgate, ?_⟩
          split at h <;> rcases h with h | h <;> cases h <;> rfl
        · split at h <;> rcases h with h | h <;> cases h
      obtain ⟨result, handoff, hgate, hq⟩ := hchallenge
      refine ⟨hq, ?_⟩
      unfold advanceGate at hgate
      split at hgate
      · cases hgate
      · split at hgate
        next hstatus hresult => exact hstatus
        · cases hgate
    obtain ⟨rfl, hstatus⟩ := hlink hpc
    rw [hstatus]
  | handoff q resolution' =>
    cases resolution' with
    | none => rcases hpc with h | h <;> cases h
    | some resolution' =>
      rcases hpc with h | h <;> cases h
      exact .inl ⟨rfl, rfl⟩
  | begin request =>
    have hstart : ∀ request : Request n, request.start ≠ .createPending k resolution ∧
        request.start ≠ .persistNextHandoff k (.some resolution) := by
      intro request
      cases request with
      | transition q expected target =>
        simp only [Request.start, Workflow.transitionStep]
        split
        · split <;> constructor <;> intro h <;> cases h
        · constructor <;> intro h <;> cases h
      | _ => constructor <;> intro h <;> cases h
    rcases hpc with h | h
    · exact absurd h (hstart request).1
    · exact absurd h (hstart request).2
  | startRun selected => cases selected <;> rcases hpc with h | h <;> cases h
  | transitionStep q expected target run => cases run <;> rcases hpc with h | h <;> cases h
  | continued q response =>
    unfold afterContinuation at hpc
    split at hpc <;> rcases hpc with h | h <;> cases h
  | counted | commit | decidePending => split at hpc <;> rcases hpc with h | h <;> cases h
  | _ => rcases hpc with h | h <;> cases h

/-- An agent run that SUCCEEDED is not moved. -/
theorem agent_succeeded {target : AgentRunStatus}
    (h : Next plan s i answer pc (.moveAgent k target) pc') :
    s.agent k ≠ .some .succeeded := by
  cases h with
  | linkAgentRun q role executed h => rw [h]; nofun
  | resumeRun q h => rw [h]; nofun
  | continued q response hterminal h => rw [h]; nofun
  | failWaitingRun q h => rw [h]; nofun

/-- A move of a step, as the condition speaks of it. -/
theorem moves {target : WorkflowStepRunStatus}
    (h : Next plan s i answer pc (.moveStep k target) pc') :
    answer = .proceed ∧ (target = .running → pc.starts = .some (k, s.status i k)) ∧
      (s.status i k = .running → pc.ends = .some k) := by
  generalize hw : Write.moveStep k target = write at h
  cases h with
  | claim q hfree h =>
    cases hw
    exact ⟨rfl, fun _ => by rw [h]; rfl, fun h' => by rw [h] at h'; cases h'⟩
  | resumeStep q hfree h =>
    cases hw
    exact ⟨rfl, fun _ => by rw [h]; rfl, fun h' => by rw [h] at h'; cases h'⟩
  | transitionStep q expected target' run hfree h =>
    cases hw
    refine ⟨rfl, fun hrunning => ?_, fun hrunning => ?_⟩
    · rw [hrunning, h]
      rfl
    · rw [← h, hrunning]
      rfl
  | _ => cases hw

theorem of_commit (h : Next plan s i answer pc .commit pc') : pc.resolved = pc.resolving ∧
    pc'.executes = .none := by
  generalize hw : (Write.commit : Write n) = write at h
  cases h with
  | commit q completion =>
    refine ⟨?_, by split <;> rfl⟩
    cases completion <;> rfl
  | commitFailure q => exact ⟨rfl, rfl⟩
  | _ => cases hw

end Next

/-- What is undecided was, and is not decided by the step; or it is created. -/
theorem HeldChallenge.undecided_before (hs : HeldChallenge s)
    (hnext : Next plan s i answer (s.requests i) write pc) (h : Undecided (s.after i write pc) k) :
    (Undecided s k ∧ (write = .commit → (s.requests i).resolved ≠ .some k)) ∨
      ∃ resolution, write = .insertChallenge k resolution := by
  obtain ⟨resolution, hcommitted, hundecided⟩ := h
  change (write.challenge i k (s.challenge k)).committed = _ at hcommitted
  cases write with
  | insertChallenge q resolution' =>
    simp only [Write.challenge] at hcommitted
    split at hcommitted
    next hq =>
      subst hq
      exact .inr ⟨resolution', rfl⟩
    next => exact .inl ⟨⟨resolution, hcommitted, hundecided⟩, fun h => by cases h⟩
  | lockChallenge q | decide q =>
    simp only [Write.challenge] at hcommitted
    split at hcommitted <;> exact .inl ⟨⟨resolution, hcommitted, hundecided⟩, fun h => by cases h⟩
  | commit =>
    simp only [Write.challenge, Row.commit_view] at hcommitted
    -- what the request has decided it does not leave undecided
    have hnot : (s.requests i).resolved ≠ .some k := by
      intro hresolved
      obtain ⟨resolution', hown, hdecided⟩ := hs.resolved hresolved
      rw [Row.view, hown] at hcommitted
      simp only [if_true] at hcommitted
      cases hcommitted
      rw [hdecided] at hundecided
      cases hundecided
    refine .inl ⟨⟨resolution, ?_, hundecided⟩, fun _ => hnot⟩
    unfold Row.view at hcommitted
    split at hcommitted
    next j v hown =>
      split at hcommitted
      next hj =>
        subst hj
        have hresolving := (hs.own hown).1
        rw [← hnext.of_commit.1] at hresolving
        exact absurd hresolving hnot
      next => exact hcommitted
    next => exact hcommitted
  | rollback =>
    simp only [Write.challenge, Row.rollback_committed] at hcommitted
    exact .inl ⟨⟨resolution, hcommitted, hundecided⟩, fun h => by cases h⟩
  | _ => exact .inl ⟨⟨resolution, hcommitted, hundecided⟩, fun h => by cases h⟩

/-- One step is RUNNING, and what is challenged is it. -/
structure Single (s : State n) : Prop where
  running : ∀ {p q}, (s.step p).committed = .running → (s.step q).committed = .running → p = q
  fresh : ∀ {k}, (s.step k).committed = .pending ∨ (s.step k).committed = .ready →
    (s.challenge k).committed = .none
  executes : ∀ {j k}, (s.requests j).executes = .some k → (s.step k).committed = .running ∧
    (s.challenge k).committed = .none ∧ ∀ i, (s.requests i).executes = .some k → i = j
  linked : ∀ {j k resolution}, s.requests j = .createPending k resolution ∨
    s.requests j = .persistNextHandoff k (.some resolution) → s.agent k = .some .succeeded
  undecided : ∀ {k}, Undecided s k → (s.step k).committed = .running ∧ s.agent k = .some .succeeded
  held : ∀ {k i v}, (s.step k).own = .some (i, .some v) → v ≠ .ready →
    (∀ j, (s.requests j).executes ≠ .some k) ∧ (Undecided s k → (s.requests i).resolved = .some k)

namespace Single

section
variable (hI : Single s) (hs : Held plan s) (hnext : Next plan s i answer (s.requests i) write pc)
  (hallowed : (s.requests i).allowed) (hexclusive : Exclusive s ⟨i, answer⟩)
include hs hnext hallowed

/-- A step becomes RUNNING by a move. -/
theorem running_before (h : (write.step i p (s.step p)).committed = .running) :
    (s.step p).committed = .running ∨
    (write = .moveStep p .running ∧ s.status i p = (s.step p).committed) := by
  rcases hs.changes hnext hallowed p with hsame | ⟨target, hw, htarget, -, -, hstatus⟩ |
    ⟨target, -, htarget, hown⟩
  · rw [hsame] at h
    exact .inl h
  · rw [htarget] at h
    subst h
    exact .inr ⟨hw, hstatus⟩
  · rw [htarget] at h
    rw [h] at hown
    rcases hs.step hown with ⟨hv, -⟩ | ⟨hv, -⟩ | ⟨hv, -⟩ <;> cases hv

include hI hexclusive

/-- Nobody takes a step out of RUNNING that another request executes. -/
theorem executed_stays (hne : j ≠ i) (hexecutes : (s.requests j).executes = .some k) :
    (write.step i k (s.step k)).committed = .running := by
  have hrunning := (hI.executes hexecutes).1
  rcases hs.changes hnext hallowed k with hsame | ⟨target, rfl, -, -, -, hstatus⟩ |
    ⟨target, -, htarget, hown⟩
  · rw [hsame]
    exact hrunning
  · obtain ⟨hanswer, -, hends⟩ := hnext.moves
    exact absurd hexecutes ((hexclusive hanswer).2 k (hends (hstatus.trans hrunning)) |>.2 j hne)
  · by_cases hready : target = .ready
    · subst hready
      rcases hs.step hown with ⟨hv, -⟩ | ⟨hv, -⟩ | ⟨-, -, hpending⟩
      · cases hv
      · cases hv
      · rw [hpending] at hrunning
        cases hrunning
    · exact absurd hexecutes ((hI.held hown hready).1 j)

/-- Nor one with an undecided challenge, but the request that decides it. -/
theorem undecided_stays (hundecided : Undecided s k)
    (hnot : write = .commit → (s.requests i).resolved ≠ .some k) :
    (write.step i k (s.step k)).committed = .running := by
  have hrunning := (hI.undecided hundecided).1
  rcases hs.changes hnext hallowed k with hsame | ⟨target, rfl, -, -, -, hstatus⟩ |
    ⟨target, hw, htarget, hown⟩
  · rw [hsame]
    exact hrunning
  · obtain ⟨hanswer, -, hends⟩ := hnext.moves
    exact absurd hundecided ((hexclusive hanswer).2 k (hends (hstatus.trans hrunning))).1
  · by_cases hready : target = .ready
    · subst hready
      rcases hs.step hown with ⟨hv, -⟩ | ⟨hv, -⟩ | ⟨-, -, hpending⟩
      · cases hv
      · cases hv
      · rw [hpending] at hrunning
        cases hrunning
    · exact absurd ((hI.held hown hready).2 hundecided) (hnot hw)

end

/-- Where there is no challenge, one is created by the request that executes the step. -/
theorem unchallenged_stays (hc : HeldChallenge s)
    (hnext : Next plan s i answer (s.requests i) write pc)
    (hnone : (s.challenge k).committed = .none)
    (hexecutes : (s.requests i).executes = .some k → write = .none ∨ ∃ target,
    write = .moveAgent k target) :
    (write.challenge i k (s.challenge k)).committed = .none := by
  cases write with
  | insertChallenge q resolution =>
    simp only [Write.challenge]
    split
    next hq =>
      subst hq
      have hpc := hnext.insertsChallenge.1
      rcases hexecutes (by rw [hpc]; rfl) with h | ⟨_, h⟩ <;> cases h
    next => exact hnone
  | lockChallenge q | decide q =>
    simp only [Write.challenge]
    split <;> exact hnone
  | commit =>
    simp only [Write.challenge]
    refine (Row.commit_committed fun v hown => ?_).trans hnone
    exact (hc.own hown).2 hnone
  | rollback => exact Row.rollback_committed.trans hnone
  | _ => exact hnone

theorem agent_stays (hnext : Next plan s i answer (s.requests i) write pc)
    (h : s.agent k = .some .succeeded) : write.agent k (s.agent k) = .some .succeeded := by
  cases write with
  | moveAgent q target =>
    simp only [Write.agent]
    split
    next hq =>
      subst hq
      exact absurd h hnext.agent_succeeded
    next => exact h
  | _ => exact h

theorem next (hI : Single s) (hs : Held plan s) (hc : HeldChallenge s)
    (hnext : Next plan s i answer (s.requests i) write pc) (hallowed : (s.requests i).allowed)
    (hexclusive : Exclusive s ⟨i, answer⟩) : Single (s.after i write pc) := by
  have hfree : (s.requests i).free → ∀ k, (s.step k).own = .none ∨ (s.step k).free i = false := by
    intro hfree k
    cases hown : (s.step k).own with
    | none => exact .inl rfl
    | some held =>
      obtain ⟨j, w⟩ := held
      refine .inr ?_
      by_contra h
      have hj := Row.free_own (by simpa using h) hown
      subst hj
      exact hs.unheld hfree hown
  refine ⟨fun {p q} hp hq => ?_, fun {k} hk => ?_, fun {j k} hj => ?_, fun {j k resolution} hj =>
    ?_, fun {k} hk => ?_, fun {k j v} hown hready => ?_⟩
  · -- a step that starts is the only one
    have hstart : ∀ {p q}, write = .moveStep p .running → s.status i p = (s.step p).committed →
        (s.step q).committed = .running → q = p := by
      rintro p q rfl hstatus hrunning
      obtain ⟨hanswer, hstarts, -⟩ := hnext.moves
      by_contra hne
      exact (hexclusive hanswer).1 p (s.status i p) (hstarts rfl) rfl q hne hrunning
    rcases running_before hs hnext hallowed hp with hp | ⟨hw, hstatus⟩
    · rcases running_before hs hnext hallowed hq with hq | ⟨hw, hstatus⟩
      · exact hI.running hp hq
      · exact hstart hw hstatus hp
    · rcases running_before hs hnext hallowed hq with hq | ⟨hw', -⟩
      · exact (hstart hw hstatus hq).symm
      · rw [hw] at hw'
        cases hw'
        rfl
  · have hbefore : (s.step k).committed = .pending ∨ (s.step k).committed = .ready := by
      change (write.step i k (s.step k)).committed = _ ∨
        (write.step i k (s.step k)).committed = _ at hk
      rcases hs.changes hnext hallowed k with hsame | ⟨target, -, htarget, hmove, -⟩ |
        ⟨target, -, htarget, hown⟩
      · rw [hsame] at hk
        exact hk
      · rw [htarget] at hk
        rcases hk with rfl | rfl <;> cases hstatus : (s.step k).committed <;>
          rw [hstatus] at hmove <;> cases hmove
      · rcases hs.step hown with ⟨hv, -⟩ | ⟨hv, -⟩ | ⟨-, -, hpending⟩
        · cases hv
          rw [htarget] at hk
          rcases hk with hk | hk <;> cases hk
        · cases hv
          rw [htarget] at hk
          rcases hk with hk | hk <;> cases hk
        · exact .inl hpending
    refine unchallenged_stays hc hnext (hI.fresh hbefore) fun hexecutes => ?_
    have hrunning := (hI.executes hexecutes).1
    rcases hbefore with h | h <;> rw [h] at hrunning <;> cases hrunning
  · by_cases hne : j = i
    · subst hne
      rw [State.after_self] at hj
      have hothers : ∀ i', i' ≠ j → (s.requests i').executes ≠ .some k := by
        intro i' hi' hexecutes
        rcases hnext.executesStep hj with ⟨hpc, rfl⟩ | ⟨hexecutes', -⟩
        · have hready := hnext.movesStep.2.2.2
          rw [hpc] at hready
          rcases hready with ⟨-, hready, -⟩ | ⟨h, -⟩ | ⟨run, h, -⟩
          · rcases hs.changes hnext hallowed k with hsame | ⟨target, -, -, -, -, hstatus⟩ |
              ⟨target, hw, -⟩
            · have hrunning := (hI.executes hexecutes).1
              rw [← hsame] at hrunning
              rcases hfree (by rw [hpc]; exact ⟨rfl, rfl, rfl⟩) k with hown | hown
              · rw [State.status_of_unheld hown, (hI.executes hexecutes).1] at hready
                cases hready
              · rw [hnext.movesStep.1] at hown
                cases hown
            · rw [hstatus, (hI.executes hexecutes).1] at hready
              cases hready
            · cases hw
          · cases h
          · cases h
        · exact hi' ((hI.executes hexecutes').2.2 i' hexecutes)
      have hunique : ∀ i', ((s.after j write pc).requests i').executes = .some k → i' = j := by
        intro i' hi'
        by_contra hne'
        rw [State.after_ne hne'] at hi'
        exact hothers i' hne' hi'
      rcases hnext.executesStep hj with ⟨hpc, rfl⟩ | ⟨hexecutes, hw⟩
      · have hunheld := (hfree (by rw [hpc]; exact ⟨rfl, rfl, rfl⟩) k).resolve_right
          (by rw [hnext.movesStep.1]; intro h; cases h)
        have hready : (s.step k).committed = .ready := by
          have hcases := hnext.movesStep.2.2.2
          rw [hpc] at hcases
          rcases hcases with ⟨-, hready, -⟩ | ⟨h, -⟩ | ⟨run, h, -⟩
          · exact (State.status_of_unheld hunheld).symm.trans hready
          · cases h
          · cases h
        refine ⟨?_, hI.fresh (.inr hready), hunique⟩
        show ((Write.moveStep k .running).step j k (s.step k)).committed = _
        simp [Write.step, Row.idle]
      · obtain ⟨hrunning, hnone, -⟩ := hI.executes hexecutes
        refine ⟨?_, unchallenged_stays hc hnext hnone (fun _ => hw), hunique⟩
        rcases hw with rfl | ⟨target, rfl⟩ <;> exact hrunning
    · rw [State.after_ne hne] at hj
      obtain ⟨hrunning, hnone, hunique⟩ := hI.executes hj
      refine ⟨executed_stays hI hs hnext hallowed hexclusive hne hj, ?_, fun i' hi' => ?_⟩
      · refine unchallenged_stays hc hnext hnone fun h => ?_
        exact absurd (hunique i h).symm hne
      · by_cases hi : i' = i
        · subst hi
          rw [State.after_self] at hi'
          rcases hnext.executesStep hi' with ⟨hpc, rfl⟩ | ⟨h, -⟩
          · have hunheld := (hfree (by rw [hpc]; exact ⟨rfl, rfl, rfl⟩) k).resolve_right
              (by rw [hnext.movesStep.1]; intro h; cases h)
            have hcases := hnext.movesStep.2.2.2
            rw [hpc] at hcases
            rcases hcases with ⟨-, hready, -⟩ | ⟨h, -⟩ | ⟨run, h, -⟩
            · rw [State.status_of_unheld hunheld, hrunning] at hready
              cases hready
            · cases h
            · cases h
          · exact hunique i' h
        · rw [State.after_ne hi] at hi'
          exact hunique i' hi'
  · show write.agent k (s.agent k) = _
    by_cases hne : j = i
    · subst hne
      rw [State.after_self] at hj
      rcases hnext.challenges hj with ⟨hpc, -⟩ | rfl
      · exact agent_stays hnext (hI.linked (.inr hpc))
      · simp [Write.agent]
    · rw [State.after_ne hne] at hj
      exact agent_stays hnext (hI.linked hj)
  · rcases hc.undecided_before hnext hk with ⟨hundecided, hnot⟩ | ⟨resolution, rfl⟩
    · exact ⟨undecided_stays hI hs hnext hallowed hexclusive hundecided hnot,
        agent_stays hnext (hI.undecided hundecided).2⟩
    · have hpc := hnext.insertsChallenge.1
      exact ⟨(hI.executes (by rw [hpc]; rfl)).1, hI.linked (.inl hpc)⟩
  · -- a step is written by its completion or its failure
    have hundecided : (∀ j, (s.requests j).executes ≠ .some k) → Undecided (s.after i write pc) k →
        Undecided s k := by
      intro hnone hk
      rcases hc.undecided_before hnext hk with ⟨h, -⟩ | ⟨resolution, rfl⟩
      · exact h
      · exact absurd (by rw [hnext.insertsChallenge.1]; rfl) (hnone i)
    have hnobody : (s.step k).own ≠ .none ∨ write ≠ .moveStep k .running →
      (∀ j, (s.requests j).executes ≠ .some k) →
        ∀ j, ((s.after i write pc).requests j).executes ≠ .some k := by
      intro hheld hnone j' hj'
      by_cases hi : j' = i
      · subst hi
        rw [State.after_self] at hj'
        rcases hnext.executesStep hj' with ⟨hpc, hw⟩ | ⟨h, -⟩
        · rcases hheld with hheld | hheld
          · rcases hfree (by rw [hpc]; exact ⟨rfl, rfl, rfl⟩) k with h | h
            · exact hheld h
            · rw [hw] at hnext
              rw [hnext.movesStep.1] at h
              cases h
          · exact hheld hw
        · exact hnone j' h
      · rw [State.after_ne hi] at hj'
        exact hnone j' hj'
    by_cases hwrites : ∃ target, write = .writeStep k target
    · obtain ⟨target, rfl⟩ := hwrites
      have hv : j = i ∧ v = target := by
        have h : (Write.writeStep k target).step i k (s.step k) =
            ⟨(s.step k).committed, .some (i, .some target)⟩ :=
          if_pos rfl
        change ((Write.writeStep k target).step i k (s.step k)).own = _ at hown
        rw [h] at hown
        cases hown
        exact ⟨rfl, rfl⟩
      obtain ⟨rfl, rfl⟩ := hv
      have hresolving : (s.requests j).resolved = .some k →
          ∀ j', (s.requests j').executes ≠ .some k := by
        intro hresolved j' hj'
        obtain ⟨resolution, hheld, -⟩ := hc.resolved hresolved
        exact (hc.own hheld).2 (hI.executes hj').2.1
      rcases hnext.writesStep.2 with ⟨completion, hpc, -, -, rfl⟩ | ⟨hpc, -, -, rfl⟩ |
        ⟨_, _, _, -, h, -⟩
      · by_cases hresolve : completion = .resolve
        · subst hresolve
          refine ⟨hnobody (.inr (by intro h; cases h)) (hresolving (by rw [hpc]; rfl)), fun _ => ?_⟩
          rw [State.after_self]
          rfl
        · have hanswer : answer = .proceed := by
            rw [hpc] at hnext
            generalize hw : Write.writeStep k v = w at hnext
            cases hnext with
            | complete => rfl
          obtain ⟨hnot, hothers⟩ := (hexclusive hanswer).2 k (by
            rw [hpc]
            cases completion <;> first | rfl | exact absurd rfl hresolve)
          have hnone : ∀ j', (s.requests j').executes ≠ .some k := by
            intro j' hj'
            by_cases hi : j' = j
            · rw [hi, hpc] at hj'
              cases hj'
            · exact hothers j' hi hj'
          exact ⟨hnobody (.inr (by intro h; cases h)) hnone,
            fun h => absurd (hundecided hnone h) hnot⟩
      · refine ⟨hnobody (.inr (by intro h; cases h)) (hresolving (by rw [hpc]; rfl)), fun _ => ?_⟩
        rw [State.after_self]
        rfl
      · exact absurd h hready
    · -- the row was held before
      have hcommit : j = i → write ≠ .commit := by
        rintro rfl rfl
        exact Row.commit_own_ne hown
      have hrollback : j = i → write ≠ .rollback := by
        rintro rfl rfl
        exact Row.rollback_own_ne hown
      have hbefore : (s.step k).own = .some (j, .some v) := by
        by_cases hne : j = i
        · have hsame : write.step i k (s.step k) = s.step k := by
            refine Write.step_same (fun target h => hwrites ⟨target, h⟩) (fun target h => ?_)
              (hcommit hne) (hrollback hne) _
            subst h
            simp [State.after, Write.step, Row.idle] at hown
          rw [← hsame]
          exact hown
        · exact Write.held_step hnext hown hne
      obtain ⟨hnone, hresolved⟩ := hI.held hbefore hready
      refine ⟨hnobody (.inl (by rw [hbefore]; intro h; cases h)) hnone, fun h => ?_⟩
      have hold := hresolved (hundecided hnone h)
      by_cases hne : j = i
      · subst hne
        rw [State.after_self]
        by_cases hdecide : ∃ q resolution, write = .decide q resolution
        · obtain ⟨q, resolution, rfl⟩ := hdecide
          have hresolving := Pc.resolving_of_resolved hold
          rw [hnext.decides.2.1] at hresolving
          cases hresolving
          exact hnext.decides.2.2.2
        · push Not at hdecide
          by_cases hlock : ∃ q, write = .lockChallenge q
          · obtain ⟨q, rfl⟩ := hlock
            rw [Pc.unresolved_resolved hnext.locksChallenge.2.2.1] at hold
            cases hold
          · push Not at hlock
            rw [(hnext.keepsResolution (hcommit rfl) (hrollback rfl) hlock hdecide).2]
            exact hold
      · rw [State.after_ne hne]
        exact hold

end Single

theorem single (h : (system plan).ReachableUnder Exclusive s) : Single s := by
  refine h.invariant_with (J := fun s => (system plan).Reachable s) (fun _ hs => hs.reachable) ?_ ?_
  · rintro s rfl
    refine ⟨fun {p q} hp => ?_, fun _ => rfl, fun h => (by cases h),
      fun h => (by rcases h with h | h <;> cases h), fun h => ?_, fun h => (by cases h)⟩
    · change (if plan.dependsOn p = [] then WorkflowStepRunStatus.ready else .pending) =
        .running at hp
      split at hp <;> cases hp
    · obtain ⟨resolution, h, -⟩ := h
      cases h
  · intro s a t hs hI hexclusive hstep
    obtain ⟨write, pc, hnext, rfl⟩ := step_cases hstep
    exact hI.next (held hs) (heldChallenge hs) hnext (allowed hs a.i) hexclusive

/-! ## Every undecided challenge is decidable -/

/-- A request that runs alone, under a policy that has `effect`, leads from `s` to `t`. -/
def Accepts (plan : Plan n) (effect : PolicyEffect) (s : State n) (request : Request n)
    (t : State n) : Prop :=
  ∃ i answers, (system plan).exec s ((Answer.begin request :: answers).map (Label.mk i)) = .some t ∧
    (∀ e, Answer.policy e ∈ answers → e = effect) ∧ ∀ j, t.requests j = .idle

theorem step_of_next (h : next plan s i (s.requests i) answer = .some (write, pc)) :
    (system plan).step s ⟨i, answer⟩ = .some (s.after i write pc) := by
  show Option.map _ _ = _
  rw [h]
  rfl

/-- The answers to a request that rejects a result. -/
def rejecting (effect : PolicyEffect) : List (Answer n) :=
  [.proceed, .proceed, .proceed, .proceed, .proceed, .policy effect, .proceed, .proceed, .proceed,
    .proceed]

/-- `resolve` with REJECT_RESULT is accepted where its step is the one that is RUNNING. -/
theorem reject_accepted {effect : PolicyEffect} (hs : Held plan s) (hr : HeldRun s)
    (hc : HeldChallenge s) (hidle : ∀ j, s.requests j = .idle) (hrun : s.run.committed = .running)
    (hresolution : (s.challenge k).committed = .some resolution)
    (hundecided : resolution.decided = false) (hstep : (s.step k).committed = .running)
    (hagent : s.agent k = .some .succeeded) (honly : ∀ p, p ≠ k → (s.step p).committed ≠ .running)
    (heffect : effect ≠ .block) (reason : Option Text) :
    ∃ t, Accepts plan effect s (.resolve k ⟨.rejectResult, reason⟩) t ∧ t.run.committed = .failed ∧
      (t.step k).committed = .failed ∧
      (t.challenge k).committed = .some
      { resolution with decision := .some ⟨.rejectResult, reason⟩ } := by
  have hrow : s.run = ⟨.running, .none⟩ := by
    cases hown : s.run.own with
    | none => rw [← hrun, ← hown]
    | some held =>
      have := (hr.run hown).2.1
      rw [hidle] at this
      cases this
  have hsteps : ∀ p, s.step p = ⟨(s.step p).committed, .none⟩ := by
    intro p
    rw [← hs.quiescent hidle (p := p)]
  have hchallenge : s.challenge k = ⟨.some resolution, .none⟩ := by
    cases hown : (s.challenge k).own with
    | none => rw [← hresolution, ← hown]
    | some held =>
      have := (hc.own hown).1
      rw [hidle] at this
      cases this
  have hk : s.step k = ⟨.running, .none⟩ := by rw [hsteps k, hstep]
  let s1 := s.after 0 .none (.getScopedForUpdate k ⟨.rejectResult, reason⟩)
  let s2 := s1.after 0 (.lockChallenge k) (.resolveRun k ⟨.rejectResult, reason⟩ resolution)
  let s3 := s2.after 0 .none (.resolveStep k ⟨.rejectResult, reason⟩ resolution)
  let s4 := s3.after 0 .none (.resolveAgentRun k ⟨.rejectResult, reason⟩ resolution)
  let s5 := s4.after 0 .none (.resolveOrdered k ⟨.rejectResult, reason⟩ resolution)
  let s6 := s5.after 0 .none (.evaluateDecision k ⟨.rejectResult, reason⟩ resolution)
  let s7 := s6.after 0 .none (.decidePending k ⟨.rejectResult, reason⟩ resolution)
  let s8 := s7.after 0 (.decide k { resolution with decision := .some ⟨.rejectResult, reason⟩ })
    (.failStep k)
  let s9 := s8.after 0 (.writeStep k .failed) (.failRun k)
  let s10 := s9.after 0 (.writeRun .failed) (.commitFailure k)
  have h1 : (system plan).step s ⟨0, .begin (.resolve k ⟨.rejectResult, reason⟩)⟩ = .some s1 :=
    step_of_next (by rw [hidle]; rfl)
  have h2 : (system plan).step s1 ⟨0, .proceed⟩ = .some s2 := by
    refine step_of_next ?_
    rw [State.after_self]
    have hrow1 : s1.challenge k = ⟨.some resolution, .none⟩ := hchallenge
    simp [next, hrow1, Row.free, Row.view, hundecided]
  have h3 : (system plan).step s2 ⟨0, .proceed⟩ = .some s3 := by
    refine step_of_next ?_
    rw [State.after_self]
    have hrow2 : s2.run = ⟨.running, .none⟩ := hrow
    simp [next, hrow2, Row.view]
  have h4 : (system plan).step s3 ⟨0, .proceed⟩ = .some s4 := by
    refine step_of_next ?_
    rw [State.after_self]
    have hrow3 : s3.step k = ⟨.running, .none⟩ := hk
    simp [next, State.status, hrow3, Row.view]
  have h5 : (system plan).step s4 ⟨0, .proceed⟩ = .some s5 := by
    refine step_of_next ?_
    rw [State.after_self]
    have hagent4 : s4.agent k = .some .succeeded := hagent
    simp [next, hagent4]
  have h6 : (system plan).step s5 ⟨0, .proceed⟩ = .some s6 := by
    refine step_of_next ?_
    rw [State.after_self]
    have honly5 : onlyRunning plan s5 0 k = true := by
      refine List.all_eq_true.mpr fun p _ => ?_
      by_cases hp : p = k
      · simp [hp]
      · have hstatus : s5.status 0 p = (s.step p).committed :=
          State.status_of_unheld (by rw [← hs.quiescent hidle (p := p)]; rfl)
        simp [hp, hstatus, honly p hp]
    simp [next, honly5]
  have h7 : (system plan).step s6 ⟨0, .policy effect⟩ = .some s7 := by
    refine step_of_next ?_
    rw [State.after_self]
    simp [next, heffect]
  have h8 : (system plan).step s7 ⟨0, .proceed⟩ = .some s8 :=
    step_of_next (by rw [State.after_self]; rfl)
  have h9 : (system plan).step s8 ⟨0, .proceed⟩ = .some s9 := by
    refine step_of_next ?_
    rw [State.after_self]
    have hrow8 : s8.step k = ⟨.running, .none⟩ := hk
    simp [next, next.write, State.status, hrow8, Row.free, Row.view]
  have h10 : (system plan).step s9 ⟨0, .proceed⟩ = .some s10 := by
    refine step_of_next ?_
    rw [State.after_self]
    have hrow9 : s9.run = ⟨.running, .none⟩ := hrow
    simp [next, next.writeRun, hrow9, Row.free, Row.view]
  have h11 : (system plan).step s10 ⟨0, .proceed⟩ = .some (s10.after 0 .commit .idle) :=
    step_of_next (by rw [State.after_self]; rfl)
  refine ⟨s10.after 0 .commit .idle, ⟨0, rejecting effect, ?_, fun e he => ?_, fun j => ?_⟩, ?_, ?_,
    ?_⟩
  · show (system plan).exec s [⟨0, _⟩, ⟨0, _⟩, ⟨0, _⟩, ⟨0, _⟩, ⟨0, _⟩, ⟨0, _⟩, ⟨0, _⟩, ⟨0, _⟩,
      ⟨0, _⟩, ⟨0, _⟩, ⟨0, _⟩] = _
    rw [System.exec_cons h1, System.exec_cons h2, System.exec_cons h3, System.exec_cons h4,
      System.exec_cons h5, System.exec_cons h6, System.exec_cons h7, System.exec_cons h8,
        System.exec_cons h9, System.exec_cons h10, System.exec_cons h11]
    rfl
  · simpa [rejecting] using he
  · by_cases hj : j = 0
    · rw [hj, State.after_self]
    · simp only [State.after_ne hj, s10, s9, s8, s7, s6, s5, s4, s3, s2, s1]
      exact hidle j
  · rfl
  · have hrow10 : s10.step k = ⟨.running, .some (0, .some .failed)⟩ := by
      show (Write.writeStep k .failed).step 0 k (s.step k) = _
      simp [Write.step, hk]
    show ((s10.step k).commit 0).committed = _
    rw [hrow10]
    rfl
  · have hrow10 : s10.challenge k =
        ⟨.some resolution,
            .some (0, .some
            (.some { resolution with decision := .some ⟨.rejectResult, reason⟩ }))⟩ := by
      show (Write.decide k { resolution with decision := .some ⟨.rejectResult, reason⟩ }).challenge
        0 k
        ((Write.lockChallenge k).challenge 0 k (s.challenge k)) = _
      simp [Write.challenge, hchallenge]
    show ((s10.challenge k).commit 0).committed = _
    rw [hrow10]
    rfl

/-- **Every undecided challenge can be decided.** In the runs in which a step is RUNNING
alone and only `resolve` takes a challenged step out of RUNNING, wherever no request is in
progress and the run is RUNNING, each undecided challenge is decided by a `resolve` with
REJECT_RESULT and any reason, where the policy does not block it. -/
theorem undecided_challenge_resolves (h : (system plan).ReachableUnder Exclusive s)
    (hidle : ∀ j, s.requests j = .idle) (hrun : s.run.committed = .running)
    (hundecided : Undecided s k) {effect : PolicyEffect} (heffect : effect ≠ .block)
    (reason : Option Text) :
    ∃ t, Accepts plan effect s (.resolve k ⟨.rejectResult, reason⟩) t ∧ t.run.committed = .failed ∧
      (t.step k).committed = .failed ∧ ¬ Undecided t k := by
  have hI := single h
  obtain ⟨hstep, hagent⟩ := hI.undecided hundecided
  obtain ⟨resolution, hresolution, hnot⟩ := hundecided
  obtain ⟨t, haccepts, hfailed, hended, hdecided⟩ :=
    reject_accepted (held h.reachable) (heldRun h.reachable)
    (heldChallenge h.reachable) hidle hrun hresolution hnot hstep hagent
    (fun p hp hrunning => hp (hI.running hrunning hstep)) heffect reason
  refine ⟨t, haccepts, hfailed, hended, ?_⟩
  rintro ⟨resolution', hcommitted, hundecided'⟩
  rw [hdecided] at hcommitted
  cases hcommitted
  cases hundecided'

/-! ## Two challenged branches -/

/-- A result that is to be reviewed. -/
def challenged : Executed := ⟨.succeeded, .none, .some ⟨.completed, .humanReviewRecommended, .none⟩⟩

/-- The challenge of that result. -/
def review : Challenge := ⟨.humanReviewRecommended, .completed, .none, .none, .none⟩

/-- Both branches are executed, one after the other, and challenged. -/
def challenging : List (Label 3) :=
  [⟨0, .begin .advance⟩, ⟨0, .proceed⟩, ⟨0, .proceed⟩] ++ executing 0 challenged ++
    [⟨0, .proceed⟩, ⟨1, .begin .advance⟩, ⟨1, .proceed⟩] ++ executing 1 challenged ++
      [⟨1, .proceed⟩]

/-- Only `advance` and `resolve` are requested. -/
def Attempts (_ : State n) (a : Label n) : Prop :=
  ∀ request, a.answer = .begin request → request = .advance ∨ ∃ k decision,
    request = .resolve k decision

/-- Where the requests get, none of which writes anything. -/
def Pc.stuck : Pc 3 → Bool
  | .idle | .getRun | .getScopedForUpdate _ _ => true
  | .orderedStepRuns run => run = .running
  | .resolveRun k _ _ | .resolveStep k _ _ | .resolveAgentRun k _ _ | .resolveOrdered k _ _ =>
    k.val ≠ 2
  | _ => false

/-- Two steps are RUNNING and challenged. -/
structure Stuck (s : State 3) : Prop where
  run : s.run = .idle .running
  step : ∀ k, s.step k = .idle (if k = 2 then .pending else .running)
  challenge : ∀ k, (s.challenge k).committed = (if k = 2 then .none else .some review) ∧
    ∀ i v, (s.challenge k).own ≠ .some (i, .some v)
  requests : ∀ j, (s.requests j).stuck = true

/-- Nothing is written to a row that nobody holds. -/
theorem unwritten_of_own {row : Row (Option Challenge)} (h : row.own = .none) :
    ∀ i v, row.own ≠ .some (i, .some v) := by
  intro i v hown
  rw [h] at hown
  cases hown

theorem Stuck.next {s : State 3} {answer : Answer 3} {pc : Pc 3} {write : Write 3} (hI : Stuck s)
    (hnext : Next joinPlan s i answer (s.requests i) write pc)
    (hattempts : Attempts s ⟨i, answer⟩) :
    Stuck (s.after i write pc) := by
  have hstatus : ∀ k, s.status i k = if k = 2 then .pending else .running := by
    intro k
    rw [State.status, hI.step k]
    rfl
  suffices hgoal : (write = .none ∨ write = .rollback ∨ ∃ k, write = .lockChallenge k) ∧
      pc.stuck = true by
    obtain ⟨hw, hpc⟩ := hgoal
    refine ⟨?_, fun k => ?_, fun k => ?_, fun j => ?_⟩
    · show write.run i s.run = _
      rcases hw with rfl | rfl | ⟨k, rfl⟩ <;> rw [hI.run] <;> rfl
    · show write.step i k (s.step k) = _
      rcases hw with rfl | rfl | ⟨k, rfl⟩ <;> rw [hI.step] <;> rfl
    · show (write.challenge i k (s.challenge k)).committed = _ ∧
        ∀ i' v, (write.challenge i k (s.challenge k)).own ≠ .some (i', .some v)
      obtain ⟨hcommitted, hown⟩ := hI.challenge k
      rcases hw with rfl | rfl | ⟨q, rfl⟩
      · exact ⟨hcommitted, hown⟩
      · exact ⟨Row.rollback_committed.trans hcommitted, fun i' v h =>
          hown i' v (Row.own_of_rollback h)⟩
      · simp only [Write.challenge]
        split
        · refine ⟨hcommitted, fun i' v h => ?_⟩
          cases h
        · exact ⟨hcommitted, hown⟩
    · by_cases hne : j = i
      · rw [hne, State.after_self]
        exact hpc
      · rw [State.after_ne hne]
        exact hI.requests j
  have hstuck := hI.requests i
  generalize s.requests i = pc₀ at hnext hstuck
  cases hnext with
  | begin request =>
    rcases hattempts request rfl with rfl | ⟨k, decision, rfl⟩ <;> exact ⟨.inl rfl, rfl⟩
  | leave => exact ⟨.inr (.inl rfl), rfl⟩
  | getRun run hrun =>
    rw [hI.run] at hrun
    exact ⟨.inl rfl, by rw [← hrun]; rfl⟩
  | allCompleted run h =>
    have := (hstatus 0).symm.trans (completed_of_allCompleted h 0)
    cases this
  | select => cases hstuck
  | selectStep k h =>
    -- the step that joins the branches is the only one that is not RUNNING
    have hready := List.find?_some h
    rw [hstatus] at hready
    split at hready <;> simp at hready
  | getScopedForUpdate k decision resolution hfree hview =>
    refine ⟨.inr (.inr ⟨k, rfl⟩), decide_eq_true fun hk => ?_⟩
    obtain ⟨hcommitted, hown⟩ := hI.challenge k
    rw [if_pos (Fin.ext hk)] at hcommitted
    unfold Row.view at hview
    split at hview
    next j v h => exact hown j v h
    next =>
      rw [hcommitted] at hview
      cases hview
  | resolveRun | resolveStep | resolveAgentRun => exact ⟨.inl rfl, hstuck⟩
  | resolveOrdered k decision resolution h =>
    -- the other branch is RUNNING
    have hother : ∃ p, p ≠ k ∧ p ≠ 2 := by
      match k with
      | 0 => exact ⟨1, by decide, by decide⟩
      | 1 => exact ⟨0, by decide, by decide⟩
      | 2 => exact ⟨0, by decide, by decide⟩
    obtain ⟨p, hp, hp2⟩ := hother
    have hnot := List.all_eq_true.mp h p (joinPlan.order_all p)
    rw [hstatus, if_neg hp2] at hnot
    simp [hp] at hnot
  | _ => cases hstuck

/-- Two undecided challenges, which no `resolve` and no `advance` ever changes. -/
theorem challenged_branches_deadlock :
    ∃ s, (system joinPlan).Reachable s ∧ (∀ j, s.requests j = .idle) ∧ s.run.committed = .running ∧
      Undecided s 0 ∧ Undecided s 1 ∧
      ∀ t, (system joinPlan).Run Attempts s t → t.run.committed = s.run.committed ∧
        (∀ k, (t.step k).committed = (s.step k).committed) ∧
        ∀ k, (t.challenge k).committed = (s.challenge k).committed := by
  have hexec : (system joinPlan).exec (createRun joinPlan) challenging = .some _ := rfl
  refine ⟨_, System.exec_reachable rfl hexec, fun j => ?_, rfl, ⟨review, rfl, rfl⟩,
    ⟨review, rfl, rfl⟩, fun t hrun => ?_⟩
  · match j with
    | 0 => rfl
    | 1 => rfl
    | _ + 2 => rfl
  · have ht : Stuck t := by
      refine hrun.invariant (fun s a t hs hattempts hstep => ?_) ⟨rfl, fun k => ?_, fun k => ?_,
        fun j => ?_⟩
      · obtain ⟨write, pc, hnext, rfl⟩ := step_cases hstep
        exact hs.next hnext hattempts
      · match k with
        | 0 => rfl
        | 1 => rfl
        | 2 => rfl
      · match k with
        | 0 => exact ⟨rfl, unwritten_of_own rfl⟩
        | 1 => exact ⟨rfl, unwritten_of_own rfl⟩
        | 2 => exact ⟨rfl, unwritten_of_own rfl⟩
      · match j with
        | 0 => rfl
        | 1 => rfl
        | _ + 2 => rfl
    refine ⟨by rw [ht.run]; rfl, fun k => ?_, fun k => ?_⟩
    · rw [ht.step]
      match k with
      | 0 => rfl
      | 1 => rfl
      | 2 => rfl
    · rw [(ht.challenge k).1]
      match k with
      | 0 => rfl
      | 1 => rfl
      | 2 => rfl

/-- One branch alone, executed and challenged. -/
def challengingOne : List (Label 3) :=
  [⟨0, .begin .advance⟩, ⟨0, .proceed⟩, ⟨0, .proceed⟩] ++ executing 0 challenged ++ [⟨0, .proceed⟩]

theorem exclusive_of {s : State n} (h : (s.requests a.i).starts = .none)
    (h' : (s.requests a.i).ends = .none) :
    Exclusive s a := by
  refine fun _ => ⟨fun k expected hstarts => ?_, fun k hends => ?_⟩
  · rw [h] at hstarts
    cases hstarts
  · rw [h'] at hends
    cases hends

/-- Its challenge can be decided. -/
theorem undecided_challenge_resolves_one :
    ∃ s t, (system joinPlan).ReachableUnder Exclusive s ∧
      Accepts joinPlan .allow s (.resolve 0 ⟨.rejectResult, .some ['r']⟩) t ∧ Undecided s 0 ∧
        ¬ Undecided t 0 := by
  have hexec : (system joinPlan).exec (createRun joinPlan) challengingOne = .some _ := rfl
  have hguard : (system joinPlan).Guarded Exclusive (createRun joinPlan) challengingOne := by
    refine ⟨exclusive_of rfl rfl, exclusive_of rfl rfl, exclusive_of rfl rfl, exclusive_of rfl rfl,
      fun _ => ⟨fun k expected hstarts _ p hp => ?_, nofun⟩, exclusive_of rfl rfl,
        exclusive_of rfl rfl,
      exclusive_of rfl rfl, trivial⟩
    match p with
    | 0 => cases hstarts; exact absurd rfl hp
    | 1 => nofun
    | 2 => nofun
  obtain ⟨t, haccepts, -, -, hdecided⟩ :=
    undecided_challenge_resolves (k := 0) ⟨_, rfl, hguard.run hexec⟩
    (fun j => by cases j <;> rfl) rfl ⟨review, rfl, rfl⟩ (show PolicyEffect.allow ≠ .block from
      nofun) (.some ['r'])
  exact ⟨_, t, ⟨_, rfl, hguard.run hexec⟩, haccepts, ⟨review, rfl, rfl⟩, hdecided⟩

end Novalton.Workflow
