/-
The worker that runs verifications (`Worker` of `infra/verification/i044a-v2/worker/i044a.py`):
it stages a snapshot and hands out a capability for it, accepts the capability once, and runs
a probe on the snapshot in a thread of its own.

A request is one step, under the worker's lock; what the file system, the clock and the
thread start answer is part of it. The thread is two steps, its cleanup and its last
section under the lock. Identities and capabilities are drawn at random and never repeat,
so they are counted here. `issued` and `accepted` are the history of both.
-/
import Novalton.Transition

namespace Novalton.VerificationWorker

/-- How `destroy_snapshot` ends: the directory is gone, or is left with `False` or an exception. -/
inductive Destroyed where
  | removed | left | raised
deriving DecidableEq, Repr

/-- How `stage_snapshot` ends. A failure that has made the directory tries to remove it. -/
inductive Staged where
  | staged (sourceDigest : ℕ)
  | failed (left : Bool)
deriving DecidableEq, Repr

/-- What is outside the worker in one request. -/
structure Surroundings where
  discarded : Destroyed
  staged : Staged
  written : Bool
  threadStarted : Bool
deriving DecidableEq, Repr

inductive Operation where
  | health
  | prepare
  | verify (capability : ℕ)
  | result (runId : ℕ)
  | cancel (runId : ℕ)
  | cleanup (runId : ℕ)
deriving DecidableEq, Repr

/-- `self.pending`; the snapshot is the directory of its run. -/
structure Pending where
  capability : ℕ
  expires : ℕ
  peerPid : ℕ
  sourceDigest : ℕ
  runId : ℕ
deriving DecidableEq, Repr

/-- Where the thread of a run is: not started or dead, running, or past its cleanup with the
population empty and the snapshot destroyed or not. -/
inductive Thread where
  | stopped
  | running
  | cleaned (populationEmpty snapshotDestroyed : Bool)
deriving DecidableEq, Repr

structure Job where
  runId : ℕ
  sourceDigest : ℕ
  cancelled : Bool
  thread : Thread
deriving DecidableEq, Repr

/-- A capability as it is handed out, and as it is accepted. -/
structure Issue where
  capability : ℕ
  peerPid : ℕ
  expires : ℕ
deriving DecidableEq, Repr

structure Acceptance where
  capability : ℕ
  peerPid : ℕ
  time : ℕ
deriving DecidableEq, Repr

/-- The worker, with the snapshot directories on the disk. -/
structure State where
  pending : Option Pending
  active : Option Job
  recent : Option ℕ
  blocked : Bool
  snapshots : List ℕ
  drawn : ℕ
  issued : List Issue
  accepted : List Acceptance
deriving DecidableEq, Repr

inductive Response where
  | health (blocked active : Bool)
  | error (code : String)
  | prepared (capability sourceDigest : ℕ)
  | accepted (runId : ℕ)
  | running (runId : ℕ)
  | recent (runId : ℕ)
deriving DecidableEq, Repr

/-- What a request returns, or that it raises, and the worker it leaves. -/
abbrev Handled := Option Response × State

/-- `CAPABILITY_LIFETIME`, in milliseconds. -/
def capabilityLifetime : ℕ := 2000

namespace State
variable (s : State)

/-- `_discard_pending`; `none` where it raises. -/
def discardPending (o : Destroyed) : Option State :=
  match s.pending with
  | .none => .some s
  | .some pending =>
    match o with
    | .removed => .some { s with snapshots := s.snapshots.filter fun id => !(id == pending.runId), pending := .none }
    | .left => .some { s with blocked := true, pending := .none }
    | .raised => .none

/-- The discarding of a pending run past its expiry. -/
def expire (now : ℕ) (o : Destroyed) : Option State :=
  match s.pending with
  | .some pending => if pending.expires ≤ now then s.discardPending o else .some s
  | .none => .some s

def prepare (peerPid now : ℕ) (around : Surroundings) : Handled :=
  if s.blocked || s.active.isSome || s.pending.isSome then
    (.some (.error (if s.blocked then "unavailable" else "busy")), s)
  else
    match around.staged with
    | .failed left =>
      (.none, { s with drawn := s.drawn + 1, snapshots := if left then s.drawn :: s.snapshots
        else s.snapshots })
    | .staged sourceDigest =>
      (.some (.prepared s.drawn sourceDigest),
        { s with
          drawn := s.drawn + 1
          snapshots := s.drawn :: s.snapshots
          pending := .some ⟨s.drawn, now + capabilityLifetime, peerPid, sourceDigest, s.drawn⟩
          issued := ⟨s.drawn, peerPid, now + capabilityLifetime⟩ :: s.issued })

/-- A pending run is taken out before its state is written. -/
def verify (capability peerPid now : ℕ) (around : Surroundings) : Handled :=
  match s.pending with
  | .none => (.some (.error "invalid_capability"), s)
  | .some pending =>
    if peerPid ≠ pending.peerPid || capability ≠ pending.capability then
      (.some (.error "invalid_capability"), s)
    else if !around.written then (.none, { s with pending := .none })
    else
      let accepted : State := { s with
        pending := .none
        active := .some ⟨pending.runId, pending.sourceDigest, false, if around.threadStarted then
          .running else .stopped⟩
        accepted := ⟨capability, peerPid, now⟩ :: s.accepted }
      (if around.threadStarted then .some (.accepted pending.runId) else .none, accepted)

def ofRun (cancels : Bool) (runId : ℕ) : Handled :=
  match s.active with
  | .some job =>
    if runId = job.runId then
      (.some (.running runId), if cancels then
        { s with active := .some { job with cancelled := true } } else s)
    else if s.recent = .some runId then (.some (.recent runId), s)
    else (.some (.error "unknown_run"), s)
  | .none => if s.recent = .some runId then (.some (.recent runId), s)
      else (.some (.error "unknown_run"), s)

/-- A request once the expiry is dealt with. -/
def dispatch (operation : Operation) (peerPid now : ℕ) (around : Surroundings) : Handled :=
  match operation with
  | .health => (.some (.health s.blocked (s.active.isSome || s.pending.isSome)), s)
  | .prepare => s.prepare peerPid now around
  | .verify capability => s.verify capability peerPid now around
  | .result runId => s.ofRun false runId
  | .cancel runId | .cleanup runId => s.ofRun true runId

def request (operation : Operation) (peerPid now : ℕ) (around : Surroundings) : Handled :=
  match s.expire now around.discarded with
  | .none => (.none, s)
  | .some current => current.dispatch operation peerPid now around

/-- The end of `execute_probe` before its last section: the population is killed, and the
snapshot destroyed if that left it empty. An exception ends the thread. -/
def cleanupProbe (empty : Bool) (o : Destroyed) : Option State :=
  match s.active with
  | .some job =>
    if job.thread = .running then
      match o with
      | .raised => .some { s with active := .some { job with thread := .stopped } }
      | .removed =>
        if empty then
          .some { s with
            snapshots := s.snapshots.filter fun id => !(id == job.runId)
            active := .some { job with thread := .cleaned true true } }
        else .some { s with active := .some { job with thread := .cleaned false false } }
      | .left => .some { s with active := .some { job with thread := .cleaned empty false } }
    else .none
  | .none => .none

/-- The last section of `execute_probe`. -/
def finishProbe (written : Bool) : Option State :=
  match s.active with
  | .some job =>
    match job.thread with
    | .cleaned empty destroyed =>
      .some { s with blocked := !empty || !destroyed || !written, recent := .some job.runId, active := .none }
    | _ => .none
  | .none => .none

end State

inductive Label where
  | request (operation : Operation) (peerPid now : ℕ) (around : Surroundings)
  | cleanup (empty : Bool) (o : Destroyed)
  | finish (written : Bool)
deriving DecidableEq, Repr

def step (s : State) : Label → Option State
  | .request operation peerPid now around => .some (s.request operation peerPid now around).2
  | .cleanup empty o => s.cleanupProbe empty o
  | .finish written => s.finishProbe written

/-- A worker that starts has destroyed the snapshots it found, or is blocked. -/
def system : System State Label where
  Init s := s.pending = .none ∧ s.active = .none ∧ s.issued = [] ∧ s.accepted = [] ∧
    (s.blocked = true ∨ s.snapshots = [])
  step := step

/-! ## Capabilities and runs -/

/-- The history of the capabilities, that pending, active and blocked exclude each other, and
that a snapshot which the active run has destroyed is gone. -/
structure Inv (s : State) : Prop where
  exclusive : s.pending = .none ∨ s.active = .none
  idle : s.blocked = true → s.pending = .none ∧ s.active = .none
  pending : ∀ p, s.pending = .some p → ⟨p.capability, p.peerPid, p.expires⟩ ∈ s.issued ∧
    p.capability ∉ s.accepted.map Acceptance.capability
  drawn : ∀ i ∈ s.issued, i.capability < s.drawn
  issuedOnce : (s.issued.map Issue.capability).Nodup
  acceptedOnce : (s.accepted.map Acceptance.capability).Nodup
  issued : ∀ a ∈ s.accepted, ∃ i ∈ s.issued, i.capability = a.capability ∧ i.peerPid = a.peerPid ∧
    a.time < i.expires
  numbered : ∀ p, s.pending = .some p → p.runId = p.capability
  running : ∀ job, s.active = .some job → job.runId < s.drawn
  gone : ∀ job empty, s.active = .some job → job.thread = .cleaned empty true →
    job.runId ∉ s.snapshots

variable {s s' t : State} {a : Label} {operation : Operation} {peerPid now : ℕ}
  {around : Surroundings} {o : Destroyed}

/-- A worker whose pending run is given up, with the histories as they were. -/
theorem Inv.discarded (h : Inv s) {snapshots : List ℕ} {blocked : Bool} (hactive : s.active = .none) :
    Inv { s with snapshots, blocked, pending := .none } where
  exclusive := .inl rfl
  idle := fun _ => ⟨rfl, hactive⟩
  pending := fun p hp => by cases hp
  drawn := h.drawn
  issuedOnce := h.issuedOnce
  acceptedOnce := h.acceptedOnce
  issued := h.issued
  numbered := fun p hp => by cases hp
  running := h.running
  gone := by
    intro job empty hjob
    rw [show s.active = .some job from hjob] at hactive
    cases hactive

theorem Inv.discardPending (h : Inv s) (hs : s.discardPending o = .some s') : Inv s' := by
  unfold State.discardPending at hs
  split at hs
  next => cases hs; exact h
  next p hp =>
    have hactive : s.active = .none := h.exclusive.resolve_left fun hnone => by
      rw [hnone] at hp
      cases hp
    split at hs
    next => cases hs; exact h.discarded hactive
    next => cases hs; exact h.discarded hactive
    next => cases hs

theorem Inv.expire (h : Inv s) (hs : s.expire now o = .some s') : Inv s' ∧
    ∀ p, s'.pending = .some p → now < p.expires := by
  unfold State.expire at hs
  split at hs
  next p hp =>
    split at hs
    next =>
      refine ⟨h.discardPending hs, fun q hq => ?_⟩
      unfold State.discardPending at hs
      rw [hp] at hs
      cases o <;> cases hs <;> cases hq
    next hlt =>
      cases hs
      refine ⟨h, fun q hq => ?_⟩
      rw [hp] at hq
      cases hq
      omega
  next hp =>
    cases hs
    refine ⟨h, fun q hq => ?_⟩
    rw [hp] at hq
    cases hq

theorem Inv.prepare (h : Inv s) : Inv (s.prepare peerPid now around).2 := by
  unfold State.prepare
  split
  next => exact h
  next hfree =>
    simp only [Bool.or_eq_true, not_or, Bool.not_eq_true, Option.isSome_eq_false_iff,
      Option.isNone_iff_eq_none] at hfree
    obtain ⟨⟨hblocked, hactive⟩, hpending⟩ := hfree
    have hnone : ∀ {job : Job} {P : Prop}, s.active = .some job → P := by
      intro job P hjob
      rw [hactive] at hjob
      cases hjob
    split
    next left =>
      exact { h with
        drawn := fun i hi => Nat.lt_succ_of_lt (h.drawn i hi)
        running := fun job hjob => hnone hjob
        gone := fun job empty hjob => hnone hjob }
    next sourceDigest =>
      have hfresh : s.drawn ∉ s.issued.map Issue.capability := by
        intro hmem
        obtain ⟨i, hi, heq⟩ := List.mem_map.mp hmem
        have hlt := h.drawn i hi
        omega
      refine ⟨.inr hactive, ?_, ?_, ?_, ?_, h.acceptedOnce, ?_, (fun p hp => by cases hp; rfl),
        (fun job hjob => hnone hjob), fun job empty hjob => hnone hjob⟩
      · intro hb
        rw [show s.blocked = true from hb] at hblocked
        cases hblocked
      · intro p hp
        cases hp
        refine ⟨List.mem_cons_self, fun hmem => ?_⟩
        obtain ⟨a, ha, heq⟩ := List.mem_map.mp hmem
        obtain ⟨i, hi, hcapability, -⟩ := h.issued a ha
        exact hfresh (List.mem_map.mpr ⟨i, hi, hcapability.trans heq⟩)
      · intro i hi
        rcases List.mem_cons.mp hi with rfl | hi
        · exact Nat.lt_succ_self _
        · exact Nat.lt_succ_of_lt (h.drawn i hi)
      · exact List.nodup_cons.mpr ⟨hfresh, h.issuedOnce⟩
      · intro a ha
        obtain ⟨i, hi, hissue⟩ := h.issued a ha
        exact ⟨i, List.mem_cons_of_mem _ hi, hissue⟩

theorem Inv.verify {capability : ℕ} (h : Inv s)
    (hexpires : ∀ p, s.pending = .some p → now < p.expires) :
    Inv (s.verify capability peerPid now around).2 := by
  unfold State.verify
  split
  next => exact h
  next p hp =>
    have hactive : s.active = .none := h.exclusive.resolve_left fun hnone => by
      rw [hnone] at hp
      cases hp
    have hblocked : s.blocked ≠ true := fun hb => by
      rw [(h.idle hb).1] at hp
      cases hp
    split
    next => exact h
    next hmatch =>
      simp only [Bool.or_eq_true, decide_eq_true_eq, not_or, ne_eq, not_not] at hmatch
      obtain ⟨rfl, rfl⟩ := hmatch
      split
      next => exact h.discarded hactive
      next =>
        obtain ⟨hissued, hnot⟩ := h.pending p hp
        refine ⟨.inl rfl, fun hb => absurd hb hblocked, (fun q hq => by cases hq), h.drawn,
          h.issuedOnce, ?_, ?_, (fun q hq => by cases hq), ?_, ?_⟩
        · exact List.nodup_cons.mpr ⟨hnot, h.acceptedOnce⟩
        · intro a ha
          rcases List.mem_cons.mp ha with rfl | ha
          · exact ⟨_, hissued, rfl, rfl, hexpires p hp⟩
          · exact h.issued a ha
        · intro job hjob
          cases hjob
          have hlt := h.drawn _ hissued
          rw [← h.numbered p hp] at hlt
          exact hlt
        · intro job empty hjob hthread
          cases hjob
          dsimp only at hthread
          split at hthread <;> cases hthread

/-- The active run may change in itself. -/
theorem Inv.rerun {job job' : Job} (h : Inv s) (hjob : s.active = .some job) {snapshots : List ℕ}
    (hrun : job'.runId = job.runId) (hgone : ∀ empty, job'.thread = .cleaned empty true →
      job'.runId ∉ snapshots) : Inv { s with snapshots, active := .some job' } := by
  have hpending : s.pending = .none := h.exclusive.resolve_right fun hnone => by
    rw [hnone] at hjob
    cases hjob
  refine ⟨.inl hpending, fun hb => ?_, h.pending, h.drawn, h.issuedOnce, h.acceptedOnce, h.issued,
    h.numbered, ?_, ?_⟩
  · have hactive := (h.idle hb).2
    rw [hactive] at hjob
    cases hjob
  · intro found hfound
    cases hfound
    rw [hrun]
    exact h.running job hjob
  · intro found empty hfound
    cases hfound
    exact hgone empty

theorem Inv.ofRun {cancels : Bool} {runId : ℕ} (h : Inv s) : Inv (s.ofRun cancels runId).2 := by
  unfold State.ofRun
  split
  next job hjob =>
    split
    next =>
      cases cancels with
      | true => exact h.rerun hjob rfl fun empty => h.gone job empty hjob
      | false => exact h
    next => split <;> exact h
  next => split <;> exact h

theorem Inv.request (h : Inv s) : Inv (s.request operation peerPid now around).2 := by
  unfold State.request
  split
  next => exact h
  next current hcurrent =>
    obtain ⟨hs, hexpires⟩ := h.expire hcurrent
    cases operation with
    | health => exact hs
    | prepare => exact hs.prepare
    | verify capability => exact hs.verify hexpires
    | result runId => exact hs.ofRun
    | cancel runId => exact hs.ofRun
    | cleanup runId => exact hs.ofRun

theorem Inv.cleanupProbe {empty : Bool} (h : Inv s) (hs : s.cleanupProbe empty o = .some s') :
    Inv s' := by
  unfold State.cleanupProbe at hs
  split at hs
  next job hjob =>
    split at hs
    next =>
      split at hs
      next =>
        cases hs
        exact h.rerun hjob rfl fun e hthread => by cases hthread
      next =>
        split at hs
        next =>
          cases hs
          exact h.rerun hjob rfl fun e _ => by simp
        next =>
          cases hs
          exact h.rerun hjob rfl fun e hthread => by cases hthread
      next =>
        cases hs
        exact h.rerun hjob rfl fun e hthread => by cases hthread
    next => cases hs
  next => cases hs

theorem Inv.finishProbe {written : Bool} (h : Inv s) (hs : s.finishProbe written = .some s') :
    Inv s' := by
  unfold State.finishProbe at hs
  split at hs
  next job hjob =>
    have hpending : s.pending = .none := h.exclusive.resolve_right fun hnone => by
      rw [hnone] at hjob
      cases hjob
    split at hs
    next =>
      cases hs
      exact ⟨.inl hpending, fun _ => ⟨hpending, rfl⟩, h.pending, h.drawn, h.issuedOnce,
        h.acceptedOnce, h.issued, h.numbered, (fun found hfound => by cases hfound),
          fun found empty hfound => by cases hfound⟩
    next => cases hs
  next => cases hs

theorem Inv.step (h : Inv s) (hs : VerificationWorker.step s a = .some s') : Inv s' := by
  cases a with
  | request operation peerPid now around =>
    cases hs
    exact h.request
  | cleanup empty o => exact h.cleanupProbe hs
  | finish written => exact h.finishProbe hs

theorem inv (h : system.Reachable s) : Inv s := by
  refine h.invariant ?_ fun s a t hs hstep => hs.step hstep
  rintro s ⟨hpending, hactive, hissued, haccepted, -⟩
  refine ⟨.inl hpending, fun _ => ⟨hpending, hactive⟩, ?_, ?_, ?_, ?_, ?_, ?_, ?_, ?_⟩
  · intro p hp
    rw [hpending] at hp
    cases hp
  · intro i hi
    rw [hissued] at hi
    cases hi
  · rw [hissued]
    exact List.nodup_nil
  · rw [haccepted]
    exact List.nodup_nil
  · intro a ha
    rw [haccepted] at ha
    cases ha
  · intro p hp
    rw [hpending] at hp
    cases hp
  · intro job hjob
    rw [hactive] at hjob
    cases hjob
  · intro job empty hjob
    rw [hactive] at hjob
    cases hjob

/-! ## Blocked -/

/-- A blocked worker that has neither a pending nor an active run. -/
def Halted (s : State) : Prop := s.blocked = true ∧ s.pending = .none ∧ s.active = .none

theorem Halted.request (h : Halted s) : (s.request operation peerPid now around).2 = s := by
  obtain ⟨hblocked, hpending, hactive⟩ := h
  have hexpire : s.expire now around.discarded = .some s := by
    unfold State.expire
    rw [hpending]
  have hrun : ∀ cancels runId, (s.ofRun cancels runId).2 = s := by
    intro cancels runId
    unfold State.ofRun
    rw [hactive]
    dsimp only
    split <;> rfl
  unfold State.request
  rw [hexpire]
  cases operation with
  | health => rfl
  | prepare => simp [State.dispatch, State.prepare, hblocked]
  | verify capability => simp [State.dispatch, State.verify, hpending]
  | result runId => exact hrun false runId
  | cancel runId => exact hrun true runId
  | cleanup runId => exact hrun true runId

/-- A blocked worker does nothing any more. -/
theorem Halted.run (h : Halted s) (hrun : system.Run System.always s t) : t = s := by
  induction hrun with
  | refl => rfl
  | @tail t u a _ _ hstep ih =>
    subst ih
    cases a with
    | request operation peerPid now around =>
      cases hstep
      exact h.request
    | cleanup empty o =>
      replace hstep : t.cleanupProbe empty o = .some u := hstep
      rw [State.cleanupProbe, h.2.2] at hstep
      cases hstep
    | finish written =>
      replace hstep : t.finishProbe written = .some u := hstep
      rw [State.finishProbe, h.2.2] at hstep
      cases hstep

/-! ## The snapshots -/

/-- Every snapshot directory is the pending run's or the active run's, or the worker is blocked. -/
def Owned (s : State) : Prop :=
  ∀ id ∈ s.snapshots, (∃ p, s.pending = .some p ∧ p.runId = id) ∨
    (∃ job, s.active = .some job ∧ job.runId = id) ∨ s.blocked = true

/-- A request loses no snapshot: a staging that is admitted does not fail and leave its
directory, and the state of a verification that is accepted is written. -/
def Undropped (s : State) : Label → Prop
  | .request .prepare _ now around => ∀ current, s.expire now around.discarded = .some current →
      current.blocked = false → current.active = .none → current.pending = .none →
        around.staged ≠ .failed true
  | .request (.verify capability) peerPid now around => ∀ current p, s.expire now around.discarded =
      .some current →
      current.pending = .some p → peerPid = p.peerPid → capability = p.capability →
        around.written = true
  | _ => True

theorem Owned.discardPending (h : Owned s) (hi : Inv s) (hs : s.discardPending o = .some s') :
    Owned s' := by
  unfold State.discardPending at hs
  split at hs
  next => cases hs; exact h
  next p hp =>
    have hactive : s.active = .none := hi.exclusive.resolve_left fun hnone => by
      rw [hnone] at hp
      cases hp
    split at hs
    next =>
      cases hs
      intro id hid
      obtain ⟨hid, hne⟩ := List.mem_filter.mp hid
      rcases h id hid with ⟨q, hq, hrun⟩ | ⟨job, hjob, -⟩ | hb
      · rw [hp] at hq
        cases hq
        simp [hrun] at hne
      · rw [hactive] at hjob
        cases hjob
      · exact .inr (.inr hb)
    next =>
      cases hs
      exact fun id hid => .inr (.inr rfl)
    next => cases hs

theorem Owned.expire (h : Owned s) (hi : Inv s) (hs : s.expire now o = .some s') : Owned s' := by
  unfold State.expire at hs
  split at hs
  next =>
    split at hs
    next => exact h.discardPending hi hs
    next => cases hs; exact h
  next => cases hs; exact h

theorem Owned.prepare (h : Owned s)
    (hcond : s.blocked = false → s.active = .none → s.pending = .none →
      around.staged ≠ .failed true) :
    Owned (s.prepare peerPid now around).2 := by
  unfold State.prepare
  split
  next => exact h
  next hfree =>
    simp only [Bool.or_eq_true, not_or, Bool.not_eq_true, Option.isSome_eq_false_iff,
      Option.isNone_iff_eq_none] at hfree
    obtain ⟨⟨hblocked, hactive⟩, hpending⟩ := hfree
    split
    next left hstaged =>
      cases left with
      | true => exact absurd hstaged (hcond hblocked hactive hpending)
      | false => exact h
    next sourceDigest hstaged =>
      intro id hid
      rcases List.mem_cons.mp hid with rfl | hid
      · exact .inl ⟨_, rfl, rfl⟩
      · rcases h id hid with ⟨p, hp, -⟩ | ⟨job, hjob, -⟩ | hb
        · rw [hpending] at hp
          cases hp
        · rw [hactive] at hjob
          cases hjob
        · rw [hblocked] at hb
          cases hb

theorem Owned.verify {capability : ℕ} (h : Owned s) (hi : Inv s)
    (hcond : ∀ p, s.pending = .some p → peerPid = p.peerPid → capability = p.capability →
      around.written = true) :
    Owned (s.verify capability peerPid now around).2 := by
  unfold State.verify
  split
  next => exact h
  next p hp =>
    split
    next => exact h
    next hmatch =>
      simp only [Bool.or_eq_true, decide_eq_true_eq, not_or, ne_eq, not_not] at hmatch
      obtain ⟨rfl, rfl⟩ := hmatch
      rw [hcond p hp rfl rfl]
      intro id hid
      rcases h id hid with ⟨q, hq, hrun⟩ | ⟨job, hjob, -⟩ | hb
      · rw [hp] at hq
        cases hq
        exact .inr (.inl ⟨_, rfl, hrun⟩)
      · have hnone := hi.exclusive
        rw [hp, hjob] at hnone
        rcases hnone with hnone | hnone <;> cases hnone
      · exact .inr (.inr hb)

/-- The run goes on owning its snapshot, whatever its thread does. -/
theorem Owned.rerun {job job' : Job} (h : Owned s) (hjob : s.active = .some job)
    (hrun : job'.runId = job.runId) :
    Owned { s with active := .some job' } := by
  intro id hid
  rcases h id hid with hp | ⟨found, hfound, hid⟩ | hb
  · exact .inl hp
  · rw [hjob] at hfound
    cases hfound
    exact .inr (.inl ⟨job', rfl, hrun.trans hid⟩)
  · exact .inr (.inr hb)

theorem Owned.ofRun {cancels : Bool} {runId : ℕ} (h : Owned s) : Owned
    (s.ofRun cancels runId).2 := by
  unfold State.ofRun
  split
  next job hjob =>
    split
    next =>
      cases cancels with
      | true => exact h.rerun hjob rfl
      | false => exact h
    next => split <;> exact h
  next => split <;> exact h

theorem Owned.request (h : Owned s) (hi : Inv s)
    (hcond : Undropped s (.request operation peerPid now around)) :
    Owned (s.request operation peerPid now around).2 := by
  unfold State.request
  split
  next => exact h
  next current hcurrent =>
    have hk := h.expire hi hcurrent
    cases operation with
    | health => exact hk
    | prepare => exact hk.prepare (hcond current hcurrent)
    | verify capability => exact hk.verify (hi.expire hcurrent).1 fun p => hcond current p hcurrent
    | result runId => exact hk.ofRun
    | cancel runId => exact hk.ofRun
    | cleanup runId => exact hk.ofRun

theorem Owned.cleanupProbe {empty : Bool} (h : Owned s) (hs : s.cleanupProbe empty o = .some s') :
    Owned s' := by
  unfold State.cleanupProbe at hs
  split at hs
  next job hjob =>
    split at hs
    next =>
      split at hs
      next => cases hs; exact h.rerun hjob rfl
      next =>
        split at hs
        next =>
          cases hs
          intro id hid
          obtain ⟨hid, hne⟩ := List.mem_filter.mp hid
          rcases h id hid with hp | ⟨job', hjob', hrun⟩ | hb
          · exact .inl hp
          · rw [hjob] at hjob'
            cases hjob'
            simp [hrun] at hne
          · exact .inr (.inr hb)
        next => cases hs; exact h.rerun hjob rfl
      next => cases hs; exact h.rerun hjob rfl
    next => cases hs
  next => cases hs

theorem Owned.finishProbe {written : Bool} (h : Owned s) (hi : Inv s)
    (hs : s.finishProbe written = .some s') : Owned s' := by
  unfold State.finishProbe at hs
  split at hs
  next job hjob =>
    split at hs
    next empty destroyed hthread =>
      cases hs
      intro id hid
      rcases h id hid with ⟨p, hp, -⟩ | ⟨job', hjob', hrun⟩ | hb
      · have hnone := hi.exclusive
        rw [hp, hjob] at hnone
        rcases hnone with hnone | hnone <;> cases hnone
      · rw [hjob] at hjob'
        cases hjob'
        subst hrun
        refine .inr (.inr ?_)
        cases destroyed with
        | true => exact absurd hid (hi.gone job empty hjob hthread)
        | false => simp
      · have hnone := (hi.idle hb).2
        rw [hjob] at hnone
        cases hnone
    next => cases hs
  next => cases hs

/-- Where no request loses one, every snapshot has its run. -/
theorem owned (h : system.ReachableUnder Undropped s) : Owned s := by
  refine h.invariant_with (fun s hs => inv hs.reachable) ?_ ?_
  · rintro s ⟨-, hactive, -, -, hstart⟩ id hid
    rcases hstart with hb | hnone
    · exact .inr (.inr hb)
    · rw [hnone] at hid
      cases hid
  · intro s a t hi hk hcond hstep
    cases a with
    | request operation peerPid now around =>
      cases hstep
      exact hk.request hi hcond
    | cleanup empty o => exact hk.cleanupProbe hstep
    | finish written => exact hk.finishProbe hi hstep

/-- **The protocol of the worker.** A capability is accepted once, before its expiry and from
the process it was handed to; a run is never both pending and active; a blocked worker does
nothing any more; and where no request loses one, every snapshot has its run. -/
theorem worker_protocol (h : system.Reachable s) :
    (s.accepted.map Acceptance.capability).Nodup ∧ (s.issued.map Issue.capability).Nodup ∧
      (∀ a ∈ s.accepted, ∃ i ∈ s.issued, i.capability = a.capability ∧ i.peerPid = a.peerPid ∧
        a.time < i.expires) ∧
      (s.pending = .none ∨ s.active = .none) ∧
      (s.blocked = true → ∀ t, system.Run System.always s t → t = s) ∧
      (system.ReachableUnder Undropped s → Owned s) := by
  have hi := inv h
  refine ⟨hi.acceptedOnce, hi.issuedOnce, hi.issued, hi.exclusive, fun hb t hrun => ?_, owned⟩
  have hhalted : Halted s := ⟨hb, hi.idle hb⟩
  exact hhalted.run hrun

/-- A worker without history, that found no snapshot. -/
def started : State := ⟨.none, .none, .none, false, [], 0, [], []⟩

/-- Surroundings in which all goes well. -/
def sound : Surroundings := ⟨.removed, .staged 0, true, true⟩

def verification : List Label := [.request .prepare 7 0 sound, .request (.verify 0) 7 1000 sound]

theorem worker_protocol_verification : ∃ s, system.exec started verification = .some s ∧
    s.accepted = [⟨0, 7, 1000⟩] ∧
    s.snapshots = [0] ∧ Owned s := by
  have howned : ∀ s, system.exec started verification = .some s → Owned s := by
    intro s hs
    have hguarded : system.Guarded Undropped started verification := by
      refine ⟨?_, ?_, trivial⟩
      · intro current _ _ _ _ hstaged
        cases hstaged
      · intro current p _ _ _ _
        rfl
    have hstarted : system.Init started := ⟨rfl, rfl, rfl, rfl, .inr rfl⟩
    exact (worker_protocol (System.exec_reachable hstarted hs)).2.2.2.2.2 ⟨started, hstarted,
      hguarded.run hs⟩
  exact ⟨_, rfl, rfl, rfl, howned _ rfl⟩

/-- **A request may lose a snapshot**: a staging that fails and cannot remove its directory,
and a verification whose state cannot be written, leave it without a run, on a worker that
goes on. -/
theorem snapshot_lost :
    (∃ s, system.exec started [.request .prepare 7 0 ⟨.removed, .failed true, true, true⟩] =
      .some s ∧ ¬ Owned s) ∧
      ∃ s, system.exec started
        [.request .prepare 7 0 sound,
        .request (.verify 0) 7 1000 ⟨.removed, .staged 0, false, true⟩] = .some s ∧
        ¬ Owned s := by
  have hlost : ∀ s : State, s.snapshots = [0] → s.pending = .none → s.active = .none →
      s.blocked = false → ¬ Owned s := by
    intro s hsnapshots hpending hactive hblocked howned
    have hzero := howned 0 (by rw [hsnapshots]; exact List.mem_singleton_self 0)
    rw [hpending, hactive, hblocked] at hzero
    rcases hzero with ⟨p, hp, -⟩ | ⟨job, hjob, -⟩ | hb
    · cases hp
    · cases hjob
    · cases hb
  exact ⟨⟨_, rfl, hlost _ rfl rfl rfl rfl⟩, ⟨_, rfl, hlost _ rfl rfl rfl rfl⟩⟩

end Novalton.VerificationWorker
