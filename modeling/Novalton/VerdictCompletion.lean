/-
That a verification passes: left alone with a worker that is free, over a sound source and with a
probe that reports every check as true, however often it asks for the result and whenever its
requests come in time.
-/
import Novalton.VerdictSoundness

namespace Novalton.VerificationVerdict

open SnapshotDigest (SourceTree Sound Snapshottable sourceDigest stageSnapshot framed ordered)
open VerificationWorker (Operation Surroundings Thread)

/-! ## A verification that is left alone -/

/-- Nothing fails. -/
def quiet : Surroundings := ⟨.removed, .staged 0, true, true⟩

/-- The worker is free, and the verification has not begun. -/
structure Ready (s : State) (i : ℕ) : Prop where
  idle : s.requests i = .idle
  pending : s.worker.pending = .none
  active : s.worker.active = .none
  open_ : s.worker.blocked = false
  probe : s.probe = .none

/-- A request for the state of the worker or of a run, with what is outside of the worker then. -/
structure Asking where
  now : ℕ
  around : Surroundings
  copied : Option SourceTree

def Asking.label (i : ℕ) (late : Bool) (asking : Asking) : Label :=
  .call i asking.now asking.around asking.copied .answered late

/-- When the requests of a verification come, and how the cleanup of the probe and its last
section fare otherwise than in what they leave of the run. The polls come while the probe runs,
before its last section, and after it. -/
structure Schedule where
  health : Asking
  preparedAt : ℕ
  verifiedAt : ℕ
  probing : List Asking
  cleaning : List Asking
  fails : Bool
  helper : Bytes
  stored : Bool
  written : Bool
  result : Asking
  late : Bool

/-- The run is verified before its capability expires, and nothing but the writing of `recent.json`
decides what is stored. -/
structure Schedule.InTime (schedule : Schedule) : Prop where
  prompt : schedule.verifiedAt < schedule.preparedAt + VerificationWorker.capabilityLifetime
  stored : schedule.written = true → schedule.stored = true

/-- The steps of a verification that is left alone. -/
def Schedule.labels (schedule : Schedule) (i : ℕ) (run : ProbeRun) : List Label :=
  .begin i :: schedule.health.label i false ::
    .call i schedule.preparedAt quiet .none .answered false ::
    .call i schedule.verifiedAt quiet .none .answered false ::
      (schedule.probing.map (Asking.label i false) ++ .collect run ::
        .cleanup true .removed schedule.fails schedule.helper ::
          (schedule.cleaning.map (Asking.label i false) ++
            [.finish schedule.stored schedule.written, schedule.result.label i schedule.late,
              .compare i .whole]))

/-- The verification waits for its run, which is where `thread` and `probe` say. -/
structure Waits (s : State) (i runId : ℕ) (digest : Text) (source : SourceTree) (thread : Thread)
    (probe : Option Probe) : Prop where
  waits : s.requests i = .result digest runId
  pending : s.worker.pending = .none
  active : ∃ number, s.worker.active = .some ⟨runId, number, false, thread⟩
  staged : s.digestOf runId = .some digest
  probe : s.probe = probe
  source : s.source = source

section
variable {sha256 : Bytes → Text} {frames : ℕ} {loads : Bytes → Report} {evidence : Evidence}
  {pid : ℕ → ℕ} {s t : State} {i now runId : ℕ} {digest : Text} {source : SourceTree}
  {run : ProbeRun} {labels : List Label} {probe : Probe}

/-- A request of the verification that is answered. -/
theorem step_call {asking : Asking} {late : Bool} {operation : Operation} {reply : Reply}
    (hoperation : (s.requests i).operation = .some operation)
    (hrequest : s.request sha256 frames (.some i) operation (pid i) asking.now asking.around
    asking.copied = (reply, t)) :
    (system sha256 frames loads evidence pid).step s (asking.label i late) =
      .some (t.goto i ((s.requests i).answered evidence late reply)) := by
  show State.call sha256 frames evidence pid s i asking.now asking.around asking.copied .answered
    late = _
  rw [State.call, hoperation]
  simp only [hrequest]

theorem goto_requests {pc : Pc} : (s.goto i pc).requests i = pc := if_pos rfl

/-- The verification is ready to ask for a snapshot. -/
theorem exec_health (schedule : Schedule) (h : Ready s i) (hevidence : evidence.accepted = true) :
    ∃ t,
    (∀ labels, (system sha256 frames loads evidence pid).exec s
      (.begin i :: schedule.health.label i false :: labels) =
      (system sha256 frames loads evidence pid).exec t labels) ∧
      t.requests i = .prepare ∧ t.worker = s.worker ∧ t.probe = .none ∧ t.source = s.source := by
  have hbegin : (system sha256 frames loads evidence pid).step s (.begin i) =
      .some (s.goto i .health) := by
    show step sha256 frames loads evidence pid s (.begin i) = _
    rw [step, h.idle]
  have hrequest : (s.goto i .health).request sha256 frames (.some i) .health (pid i)
    schedule.health.now schedule.health.around
      schedule.health.copied = (.health false, s.goto i .health) := by
    simp [State.request, State.goto, VerificationWorker.State.request,
      VerificationWorker.State.expire, VerificationWorker.State.dispatch, h.pending, h.active,
        h.open_, State.reply, State.stagedBy, State.handedBy]
  have hoperation : ((s.goto i .health).requests i).operation = .some .health := by
    rw [goto_requests]
    rfl
  have hhealth :
      ((s.goto i .health).requests i).answered evidence false (.health false) = .prepare := by
    rw [goto_requests, Pc.answered, if_neg (by simp [hevidence])]
  refine ⟨(s.goto i .health).goto i .prepare, fun labels => ?_, goto_requests, rfl, h.probe, rfl⟩
  rw [System.exec_cons hbegin, System.exec_cons (step_call hoperation hrequest), hhealth]

/-- The worker hands out a snapshot of the source, and accepts its run. -/
theorem exec_verify (schedule : Schedule) (hintime : schedule.InTime)
    (hrequests : s.requests i = .prepare) (hpending : s.worker.pending = .none)
    (hactive : s.worker.active = .none) (hblocked : s.worker.blocked = false)
    (hprobe : s.probe = .none) (hstaged : stageSnapshot sha256 frames s.source.root = .ok digest)
    (hhex : hexDigest digest = true) : ∃ t,
    (∀ labels, (system sha256 frames loads evidence pid).exec s
      (.call i schedule.preparedAt quiet .none .answered false ::
        .call i schedule.verifiedAt quiet .none .answered false :: labels) =
      (system sha256 frames loads evidence pid).exec t labels) ∧
      Waits t i s.worker.drawn digest s.source .running .none := by
  -- The worker with the snapshot of the source, and then with its run.
  let worker : VerificationWorker.State := { s.worker with
    drawn := s.worker.drawn + 1
    snapshots := s.worker.drawn :: s.worker.snapshots
    pending := .some ⟨s.worker.drawn, schedule.preparedAt + VerificationWorker.capabilityLifetime,
      pid i, digestNumber digest, s.worker.drawn⟩
    issued := ⟨s.worker.drawn, pid i,
      schedule.preparedAt + VerificationWorker.capabilityLifetime⟩ :: s.worker.issued }
  let prepared : State :=
    { s with worker := worker, staged := ⟨s.worker.drawn, s.source, digest⟩ :: s.staged }
  let handed : State := prepared.goto i (.verify s.worker.drawn digest)
  let accepted : State := { handed with
    worker := { worker with
      pending := .none
      active := .some ⟨s.worker.drawn, digestNumber digest, false, .running⟩
      accepted := ⟨s.worker.drawn, pid i, schedule.verifiedAt⟩ :: s.worker.accepted }
    handed := (.some i, s.worker.drawn) :: s.handed
    currentFile := .some s.worker.drawn }
  have hprepare : s.request sha256 frames (.some i) .prepare (pid i) schedule.preparedAt quiet
    .none =
      (.prepared s.worker.drawn digest, prepared) := by
    simp [State.request, VerificationWorker.State.request, VerificationWorker.State.expire,
      VerificationWorker.State.dispatch, VerificationWorker.State.prepare, hpending, hactive,
        hblocked, State.reply, State.stagedBy, State.handedBy, State.stages,
      State.copied, quiet, hstaged, State.digestOf, prepared, worker]
  have hverify : handed.request sha256 frames (.some i) (.verify s.worker.drawn) (pid i)
    schedule.verifiedAt quiet .none =
      (.accepted s.worker.drawn, accepted) := by
    have hfresh : ¬ schedule.preparedAt + VerificationWorker.capabilityLifetime ≤
      schedule.verifiedAt := Nat.not_le.mpr hintime.prompt
    simp [hfresh, State.request, State.goto, VerificationWorker.State.request,
      VerificationWorker.State.expire, VerificationWorker.State.dispatch,
        VerificationWorker.State.verify, hactive, State.reply, State.stagedBy, State.handedBy,
      State.stages, quiet, accepted, handed, prepared, worker]
  have hfirst : (system sha256 frames loads evidence pid).step s
      (.call i schedule.preparedAt quiet .none .answered false) = .some handed := by
    have hanswered : (s.requests i).answered evidence false (.prepared s.worker.drawn digest) =
        .verify s.worker.drawn digest := by
      rw [hrequests, Pc.answered, if_pos hhex]
    have hstep := @step_call sha256 frames loads evidence pid s prepared i ⟨schedule.preparedAt,
      quiet, .none⟩ false .prepare _
      (by rw [hrequests]; rfl) hprepare
    rw [hanswered] at hstep
    exact hstep
  have hsecond : (system sha256 frames loads evidence pid).step handed
    (.call i schedule.verifiedAt quiet .none .answered false) =
      .some (accepted.goto i (.result digest s.worker.drawn)) := by
    have hpc : handed.requests i = .verify s.worker.drawn digest := goto_requests
    have hstep := @step_call sha256 frames loads evidence pid handed accepted i
      ⟨schedule.verifiedAt, quiet, .none⟩ false (.verify s.worker.drawn) _
      (by rw [hpc]; rfl) hverify
    rw [hpc] at hstep
    exact hstep
  refine ⟨accepted.goto i (.result digest s.worker.drawn), fun labels => ?_, ?_⟩
  · rw [System.exec_cons hfirst, System.exec_cons hsecond]
  · refine ⟨goto_requests, rfl, ⟨_, rfl⟩, ?_, hprobe, rfl⟩
    show (List.find? _ (_ :: _)).map _ = _
    simp

/-- A poll changes nothing. -/
theorem exec_polls {thread : Thread} {probe : Option Probe} : ∀ (polls : List Asking) {s : State},
    Waits s i runId digest source thread probe → ∃ t,
    (∀ labels, (system sha256 frames loads evidence pid).exec s (polls.map (Asking.label i false) ++
      labels) =
      (system sha256 frames loads evidence pid).exec t labels) ∧
      Waits t i runId digest source thread probe
  | [], s, h => ⟨s, fun _ => rfl, h⟩
  | asking :: polls, s, h => by
    obtain ⟨number, hactive⟩ := h.active
    have hrequest : s.request sha256 frames (.some i) (.result runId) (pid i) asking.now
        asking.around asking.copied = (.running, s) := by
      simp [State.request, VerificationWorker.State.request, VerificationWorker.State.expire,
        VerificationWorker.State.dispatch, VerificationWorker.State.ofRun, h.pending, hactive,
          State.reply, State.stagedBy, State.handedBy]
    have hstep := @step_call sha256 frames loads evidence pid s s i asking false (.result runId) _
      (by rw [h.waits]; rfl) hrequest
    have hpolled : Waits (s.goto i ((s.requests i).answered evidence false .running)) i runId digest
        source thread probe := by
      have hanswered : (s.requests i).answered evidence false .running = .result digest runId := by
        rw [h.waits, Pc.answered, if_neg (by simp)]
      rw [hanswered]
      exact { h with waits := goto_requests }
    obtain ⟨t, hexec, hwaits⟩ := exec_polls polls hpolled
    refine ⟨t, fun labels => ?_, hwaits⟩
    rw [List.map_cons, List.cons_append, System.exec_cons hstep, hexec]

theorem exec_collect (h : Waits s i runId digest source .running .none)
    (hprobe : run.probe loads = .some probe) (hended : probe.termination ≠ .cancelled) : ∃ t,
    (∀ labels, (system sha256 frames loads evidence pid).exec s (.collect run :: labels) =
      (system sha256 frames loads evidence pid).exec t labels) ∧
      Waits t i runId digest source .running (.some probe) := by
  obtain ⟨number, hactive⟩ := h.active
  have hstep : (system sha256 frames loads evidence pid).step s (.collect run) =
      .some { s with probe := .some probe, probed := (runId, run) :: s.probed } := by
    show State.collect loads s run = _
    rw [State.collect, hactive, h.probe, hprobe]
    exact if_pos ⟨rfl, fun hcancelled => absurd hcancelled hended⟩
  exact ⟨_, fun _ => System.exec_cons hstep,
    ⟨h.waits, h.pending, ⟨number, hactive⟩, h.staged, rfl, h.source⟩⟩

theorem exec_cleanup {fails : Bool} {helper : Bytes}
    (h : Waits s i runId digest source .running (.some probe)) : ∃ t,
    (∀ labels, (system sha256 frames loads evidence pid).exec s
      (.cleanup true .removed fails helper :: labels) =
      (system sha256 frames loads evidence pid).exec t labels) ∧
      Waits t i runId digest source (.cleaned true true) (.some (probe.cleaned fails helper)) := by
  obtain ⟨number, hactive⟩ := h.active
  have hstep : (system sha256 frames loads evidence pid).step s
      (.cleanup true .removed fails helper) = .some { s with
      worker := { s.worker with
        snapshots := s.worker.snapshots.filter fun id => !(id == runId)
        active := .some ⟨runId, number, false, .cleaned true true⟩ }
      probe := .some (probe.cleaned fails helper) } := by
    show State.cleanup s true .removed fails helper = _
    simp [State.cleanup, VerificationWorker.State.cleanupProbe, hactive, h.probe]
  exact ⟨_, fun _ => System.exec_cons hstep,
    ⟨h.waits, h.pending, ⟨number, rfl⟩, h.staged, rfl, h.source⟩⟩

/-- The last section leaves the result, which the next request gets. -/
theorem exec_result {schedule : Schedule} (hintime : schedule.InTime)
    (h : Waits s i runId digest source (.cleaned true true) (.some probe)) : ∃ t,
    (∀ labels, (system sha256 frames loads evidence pid).exec s
        (.finish schedule.stored schedule.written :: schedule.result.label i schedule.late ::
          labels) =
      (system sha256 frames loads evidence pid).exec t labels) ∧
      t.requests i = .compare digest runId (probe.result runId digest true true) ∧
        t.source = source := by
  obtain ⟨number, hactive⟩ := h.active
  have hfinish : ∃ t, (system sha256 frames loads evidence pid).step s
    (.finish schedule.stored schedule.written) = .some t ∧
      t.requests = s.requests ∧ t.worker.pending = .none ∧ t.worker.active = .none ∧
        t.worker.recent = .some runId ∧
      t.recent = .some (probe.result runId digest true true) ∧ t.source = s.source := by
    have hstored : ¬ (schedule.written = true ∧ ¬ schedule.stored = true) :=
      fun hlost => hlost.2 (hintime.stored hlost.1)
    show ∃ t, State.finish s schedule.stored schedule.written = .some t ∧ _
    simp only [State.finish, VerificationWorker.State.finishProbe, hactive, h.probe, h.staged,
      if_neg hstored]
    exact ⟨_, rfl, rfl, h.pending, rfl, rfl, rfl, rfl⟩
  obtain ⟨u, hstep, hrequests, hpending, hidle, hrecentId, hrecent, hsource⟩ := hfinish
  have hrequest : u.request sha256 frames (.some i) (.result runId) (pid i) schedule.result.now
    schedule.result.around schedule.result.copied =
      (.recent (probe.result runId digest true true), u) := by
    simp [State.request, VerificationWorker.State.request, VerificationWorker.State.expire,
      VerificationWorker.State.dispatch, VerificationWorker.State.ofRun, hpending, hidle, hrecentId,
        hrecent, State.reply, State.stagedBy, State.handedBy]
    rw [← hrecent]
  have hpc : u.requests i = .result digest runId := by rw [hrequests, h.waits]
  have hcall := @step_call sha256 frames loads evidence pid u u i schedule.result schedule.late
    (.result runId) _ (by rw [hpc]; rfl) hrequest
  refine ⟨u.goto i (.compare digest runId (probe.result runId digest true true)), fun labels => ?_,
    goto_requests, hsource.trans h.source⟩
  rw [System.exec_cons hstep, System.exec_cons hcall, hpc]
  rfl

theorem report_named {report : Report} {checks : Checks} (h : report.checks = .some checks) :
    sameNames (checks.map Prod.fst) = true := by
  unfold Report.checks at h
  split at h
  next entries =>
    split at h
    next hcomplete =>
      cases h
      rw [List.map_map]
      exact (Bool.and_eq_true _ _ ▸ hcomplete).1
    next => cases h
  next => cases h

theorem probe_named {checks : Checks} (hprobe : run.probe loads = .some probe)
    (hchecks : probe.checks = .some checks) :
    sameNames (checks.map Prod.fst) = true := by
  cases run with
  | broken turns code =>
    cases hprobe
    cases hchecks
  | ended turns =>
    rw [ProbeRun.probe] at hprobe
    split at hprobe
    next => cases hprobe
    next =>
      cases hprobe
      exact report_named hchecks

/-- The result of a probe that ends by itself or at its deadline with every check true has passed,
and is accepted. -/
theorem conclude_result {checks : Checks} {fails : Bool} {helper : Bytes}
    (hnamed : sameNames (checks.map Prod.fst) = true)
    (hended : probe.termination = .exited ∨ probe.termination = .timeout)
    (hchecks : probe.checks = .some checks) (hall : checks.all Prod.snd = true) :
    ∃ result, conclude (.ok digest) digest runId
      ((probe.cleaned fails helper).result runId digest true true) = .ok result ∧
      result.state = .run .passed ∧ result.checks = checks ∧ result.failureCode = .none := by
  have hpassed : (probe.cleaned fails helper).passed true true = true := by
    simp only [Probe.passed, Probe.cleaned, hchecks, Option.any_some, hall, Bool.true_and,
      Bool.or_eq_true, decide_eq_true_eq]
    exact hended
  rw [conclude]
  simp only [bne_self_eq_false]
  simp only [concluded, Probe.result, hpassed, if_true, Bool.not_true, Bool.false_and,
    Bool.false_eq_true, if_false, show (probe.cleaned fails helper).checks = .some checks from
      hchecks, Option.getD_some, hnamed, hall, Bool.and_false, Bool.or_false]
  simp

/-- **A verification completes.** Left alone with a worker that is free, over a source that can be
digested and copied, with a probe that ends and reports every check as true and a cleanup that
leaves neither a process nor the snapshot, it passes: however often it asks while the probe runs,
and whatever the clock says, as long as it verifies before the capability expires. -/
theorem verification_completes {checks : Checks} (schedule : Schedule) (hintime : schedule.InTime)
    (h : Ready s i) (hevidence : evidence.accepted = true) (hsound : Sound s.source)
    (hsnapshot : Snapshottable frames s.source)
    (hhex : hexDigest (sha256 (framed (ordered s.source))) = true)
    (hprobe : run.probe loads = .some probe)
    (hended : probe.termination = .exited ∨ probe.termination = .timeout)
    (hchecks : probe.checks = .some checks) (hall : checks.all Prod.snd = true) :
    ∃ t result, (system sha256 frames loads evidence pid).exec s (schedule.labels i run) = .some t ∧
      t.source = s.source ∧
      t.requests i = .done (.ok result) ∧ result.state = .run .passed ∧ result.checks = checks ∧
        result.failureCode = .none := by
  have hstaged :
      stageSnapshot sha256 frames s.source.root = .ok (sha256 (framed (ordered s.source))) :=
    SnapshotDigest.stageSnapshot_ok.mpr ⟨⟨hsound, hsnapshot⟩, rfl⟩
  have hdigest : sourceDigest sha256 s.source.root = .ok (sha256 (framed (ordered s.source))) :=
    SnapshotDigest.sourceDigest_ok.mpr ⟨hsound, rfl⟩
  generalize sha256 (framed (ordered s.source)) = digest at hhex hstaged hdigest
  have hnot : probe.termination ≠ .cancelled := by
    intro hcancelled
    rw [hcancelled] at hended
    rcases hended with hended | hended <;> cases hended
  obtain ⟨result, hresult, hpassed, hreported, hcode⟩ :=
    @conclude_result s.worker.drawn digest probe checks schedule.fails schedule.helper
      (probe_named hprobe hchecks) hended hchecks hall
  obtain ⟨s₁, hexec₁, hrequests, hworker, hnone, hsource⟩ :=
    @exec_health sha256 frames loads evidence pid s i schedule h hevidence
  have hfree : s₁.worker.pending = .none ∧ s₁.worker.active = .none ∧
      s₁.worker.blocked = false := by
    rw [hworker]
    exact ⟨h.pending, h.active, h.open_⟩
  obtain ⟨s₂, hexec₂, hwaits₂⟩ := @exec_verify sha256 frames loads evidence pid s₁ i digest schedule
    hintime hrequests hfree.1 hfree.2.1
    hfree.2.2 hnone (hsource ▸ hstaged) hhex
  obtain ⟨s₃, hexec₃, hwaits₃⟩ :=
    @exec_polls sha256 frames loads evidence pid i _ _ _ _ _ schedule.probing s₂ hwaits₂
  obtain ⟨s₄, hexec₄, hwaits₄⟩ :=
    @exec_collect sha256 frames loads evidence pid s₃ i _ _ _ run probe hwaits₃ hprobe hnot
  obtain ⟨s₅, hexec₅, hwaits₅⟩ :=
    @exec_cleanup sha256 frames loads evidence pid s₄ i _ _ _ probe schedule.fails schedule.helper
      hwaits₄
  obtain ⟨s₆, hexec₆, hwaits₆⟩ :=
    @exec_polls sha256 frames loads evidence pid i _ _ _ _ _ schedule.cleaning s₅ hwaits₅
  obtain ⟨s₇, hexec₇, hcompares, hsource₇⟩ :=
    @exec_result sha256 frames loads evidence pid s₆ i _ _ _ _ schedule hintime hwaits₆
  have hsource' : s₇.source = s.source := hsource₇.trans hsource
  have hcompare : (system sha256 frames loads evidence pid).step s₇ (.compare i .whole) =
      .some (s₇.goto i (.done (.ok result))) := by
    show step sha256 frames loads evidence pid s₇ (.compare i .whole) = _
    rw [step, hcompares]
    show some (s₇.goto i (.done (conclude (sourceDigest sha256 s₇.source.root) digest _ _))) = _
    rw [hsource', hdigest, hworker, hresult]
  refine ⟨s₇.goto i (.done (.ok result)), result, ?_, hsource', goto_requests, hpassed, hreported,
    hcode⟩
  rw [Schedule.labels, hexec₁, hexec₂, hexec₃, hexec₄, hexec₅, hexec₆, hexec₇,
    System.exec_cons hcompare]
  rfl

end

/-! ## A report -/

/-- The rounds of a probe that writes one line, closes its pipes and exits. -/
def reporting (line : Bytes) : List Turn :=
  [⟨false, false, .none, [(true, line ++ [10])]⟩, ⟨false, false, .none, [(true, []), (false, [])]⟩,
    ⟨false, false, .some true, []⟩]

theorem reporting_probe {loads : Bytes → Report} {line : Bytes}
    {entries : List (Text × Option Bool)} {checks : Checks} (hshort : line.length < 4096)
    (hplain : ∀ b ∈ line, (b != 10 && b != 13) = true) (hloads : loads line = .object entries)
    (hchecks : (Report.object entries).checks = .some checks) :
    ∃ probe, (ProbeRun.ended (reporting line)).probe loads = .some probe ∧
      probe.termination = .exited ∧ probe.checks = .some checks := by
  have hwritten : (line ++ [10]).take (4096 - ([] : Bytes).length) = line ++ [10] :=
    List.take_of_length_le (by simp; omega)
  have hfirst : firstLine (line ++ [10]) = .some line := by
    have hstops : (line ++ [10]).takeWhile (fun b => b != 10 && b != 13) = line := by
      rw [List.takeWhile_append_of_pos hplain]
      simp
    rw [firstLine, if_neg (by simp), hstops]
  have hbound : ¬ 16384 < line.length + 1 := by omega
  have hread : readOutput (reporting line) .empty =
      .some (.exited, ⟨⟨[] ++ (line ++ [10]).take (4096 - ([] : Bytes).length),
        false || decide (4096 - ([] : Bytes).length < (line ++ [10]).length), false⟩,
            ⟨[], false, false⟩, 0 + (line ++ [10]).length + 0 + 0⟩) := by
    simp [readOutput, reporting, Capture.read, Pipe.read, Capture.empty, hbound]
  refine ⟨_, by rw [ProbeRun.probe, hread], rfl, ?_⟩
  show (((firstLine _).map loads).getD .other).checks = _
  rw [hwritten, List.nil_append, hfirst, Option.map_some, Option.getD_some, hloads, hchecks]

/-- All checks, as the probe prints them. -/
def exampleLine : Bytes :=
  encode ('\x7b' :: List.intercalate [','] (PROBE_CHECKS.map fun name => '\x22' :: name ++ '\x22' ::
    ":true".toList) ++ ['\x7d'])

def exampleEntries : List (Text × Option Bool) := PROBE_CHECKS.map fun name => (name, .some true)

def exampleLoads (line : Bytes) : Report :=
  if line = exampleLine then .object exampleEntries else .other

def exampleEvidence : Evidence :=
  ⟨I044A_INPUT_SHA256, List.replicate 64 'a', FOUNDATION_INPUT_SHA256, List.replicate 64 'b'⟩

/-- A file, and a directory of two files. -/
def exampleSource : SourceTree := SnapshotDigest.nestedTree

/-- Tells the framing of the source from all others. -/
def exampleSha256 (raw : Bytes) : Text :=
  if raw = framed [([[97]], [120]), ([[98], [99]], [121]), ([[98], [100]], [])] then
    "f08e32e8924ec9678992262319d678b441220094f9210e0a65ad971d45a387bd".toList
  else List.replicate 64 '0'

theorem exampleSha256_hex (raw : Bytes) : hexDigest (exampleSha256 raw) = true := by
  unfold exampleSha256
  split <;> decide

def exampleStart : State where
  worker := ⟨.none, .none, .none, false, [], 0, [], []⟩
  probe := .none
  recent := .none
  currentFile := .none
  recentFile := .none
  source := exampleSource
  requests := fun _ => .idle
  staged := []
  probed := []
  handed := []

theorem exampleLine_plain : exampleLine.length < 4096 ∧ ∀ b ∈ exampleLine,
    (b != 10 && b != 13) = true := by
  have hplain : (exampleLine.all fun b => b != 10 && b != 13) = true := by decide +kernel
  exact ⟨by decide +kernel, List.all_eq_true.mp hplain⟩

theorem exampleEntries_checks : (Report.object exampleEntries).checks = .some
    (PROBE_CHECKS.map fun name => (name, true)) := by
  have hnames : exampleEntries.map Prod.fst = PROBE_CHECKS := by
    rw [exampleEntries, List.map_map]
    exact List.map_id _
  have hsame : sameNames (exampleEntries.map Prod.fst) = true := by
    rw [hnames, sameNames_iff]
    exact fun _ => Iff.rfl
  have hsome : (exampleEntries.all fun entry => entry.2.isSome) = true := by simp [exampleEntries]
  rw [Report.checks, hsame, hsome, if_pos (by decide)]
  simp [exampleEntries]

/-- Two polls come while the probe runs, and one after it. -/
def exampleSchedule : Schedule where
  health := ⟨0, quiet, .none⟩
  preparedAt := 10
  verifiedAt := 1500
  probing := [⟨1510, quiet, .none⟩, ⟨1560, quiet, .none⟩]
  cleaning := [⟨1610, quiet, .none⟩]
  fails := false
  helper := []
  stored := true
  written := true
  result := ⟨1660, quiet, .none⟩
  late := false

/-- The probe prints its checks, and exits. -/
theorem example_verification_completes : ∃ run t result,
    (system exampleSha256 1000 exampleLoads exampleEvidence fun _ => 7).exec exampleStart
    (exampleSchedule.labels 0 run) = .some t ∧
      t.source = exampleStart.source ∧ t.requests 0 = .done (.ok result) ∧
        result.state = .run .passed ∧
      result.checks = (PROBE_CHECKS.map fun name => (name, true)) ∧ result.failureCode = .none := by
  have hloads : exampleLoads exampleLine = .object exampleEntries := if_pos rfl
  obtain ⟨probe, hprobe, hexited, hchecks⟩ :=
    reporting_probe exampleLine_plain.1 exampleLine_plain.2 hloads exampleEntries_checks
  have hready : Ready exampleStart 0 := ⟨rfl, rfl, rfl, rfl, rfl⟩
  have hintime : exampleSchedule.InTime := ⟨by decide, fun _ => rfl⟩
  exact ⟨_, verification_completes exampleSchedule hintime hready (by decide)
    SnapshotDigest.nested_sound SnapshotDigest.nested_snapshottable (exampleSha256_hex _) hprobe
    (.inl hexited) hchecks (by simp)⟩

end Novalton.VerificationVerdict
