/-
What a verdict says: a verification that passes has had the probe run to its end, with every
check true, on a snapshot that is gone again, of the files that the source has when it returns.
-/
import Novalton.CountedRun
import Novalton.VerdictInvariant

namespace Novalton.VerificationVerdict

open SnapshotDigest (SourceTree Refusal sourceDigest stageSnapshot framed ordered)

section
variable {sha256 : Bytes → Text} {frames : ℕ} {loads : Bytes → Report} {runId : ℕ} {digest : Text}

/-! ## The output of a probe -/

/-- What was written to a stream, of the chunks that were read. -/
def written (stream : Bool) (chunks : List (Bool × Bytes)) : Bytes :=
  chunks.flatMap fun chunk => if chunk.1 = stream then chunk.2 else []

/-- The first 4096 bytes are captured, and what is dropped is noted. -/
structure Pipe.Holds (pipe : Pipe) (bytes : Bytes) : Prop where
  captured : pipe.captured = bytes.take 4096
  truncated : pipe.truncated = true ↔ 4096 < bytes.length

structure Capture.Holds (capture : Capture) (chunks : List (Bool × Bytes)) : Prop where
  stdout : capture.stdout.Holds (written true chunks)
  stderr : capture.stderr.Holds (written false chunks)
  total : capture.total = (written true chunks).length + (written false chunks).length

theorem Pipe.Holds.read {pipe : Pipe} {bytes : Bytes} (h : pipe.Holds bytes) (chunk : Bytes) :
    (pipe.read chunk).Holds (bytes ++ chunk) := by
  unfold Pipe.read
  split
  next hempty =>
    rw [List.isEmpty_iff] at hempty
    rw [hempty, List.append_nil]
    exact ⟨h.captured, h.truncated⟩
  next =>
    have hlength : pipe.captured.length = min 4096 bytes.length := by
      rw [h.captured, List.length_take]
    constructor
    · show pipe.captured ++ chunk.take (4096 - pipe.captured.length) = (bytes ++ chunk).take 4096
      rw [List.take_append, hlength, h.captured]
      congr 2
      omega
    · show (pipe.truncated || decide (4096 - pipe.captured.length < chunk.length)) = true ↔ _
      rw [Bool.or_eq_true, decide_eq_true_eq, h.truncated, hlength, List.length_append]
      omega

theorem written_append (stream : Bool) (chunks more : List (Bool × Bytes)) :
    written stream (chunks ++ more) = written stream chunks ++ written stream more :=
      List.flatMap_append

theorem Capture.Holds.read {capture : Capture} {chunks : List (Bool × Bytes)}
    (h : capture.Holds chunks) (chunk : Bool × Bytes) :
    (capture.read chunk).Holds (chunks ++ [chunk]) := by
  obtain ⟨stream, bytes⟩ := chunk
  have hone : ∀ other, written other [(stream, bytes)] = if stream = other then bytes else [] := by
    intro other
    simp [written]
  cases stream with
  | true =>
    refine ⟨?_, ?_, ?_⟩
    · rw [written_append, hone, if_pos rfl]
      exact h.stdout.read bytes
    · rw [written_append, hone, if_neg (by simp), List.append_nil]
      exact h.stderr
    · show capture.total + bytes.length = _
      rw [written_append, written_append, hone, hone, if_pos rfl, if_neg (by simp), List.append_nil,
        List.length_append, h.total]
      omega
  | false =>
    refine ⟨?_, ?_, ?_⟩
    · rw [written_append, hone, if_neg (by simp), List.append_nil]
      exact h.stdout
    · rw [written_append, hone, if_pos rfl]
      exact h.stderr.read bytes
    · show capture.total + bytes.length = _
      rw [written_append, written_append, hone, hone, if_pos rfl, if_neg (by simp), List.append_nil,
        List.length_append, h.total]
      omega

theorem Capture.Holds.reads {more : List (Bool × Bytes)} :
    ∀ {capture : Capture} {chunks : List (Bool × Bytes)}, capture.Holds chunks →
    (more.foldl Capture.read capture).Holds (chunks ++ more) := by
  induction more with
  | nil =>
    intro capture chunks h
    rw [List.append_nil]
    exact h
  | cons chunk more ih =>
    intro capture chunks h
    have hread := ih (h.read chunk)
    rw [List.append_assoc] at hread
    exact hread

/-- The loop has captured the output of the rounds before the one it ends in. -/
theorem readOutput_holds {termination : Termination} {after : Capture} :
    ∀ {turns : List Turn} {capture : Capture} {chunks : List (Bool × Bytes)},
    capture.Holds chunks → readOutput turns capture = .some (termination, after) →
      ∃ handled rest, turns = handled ++ rest ∧ after.Holds (chunks ++ handled.flatMap Turn.chunks)
  | [], _, _, _, h => by cases h
  | turn :: turns, capture, chunks, hholds, h => by
    have hnow : after = capture → ∃ handled rest, turn :: turns = handled ++ rest ∧
        after.Holds (chunks ++ handled.flatMap Turn.chunks) := by
      intro heq
      refine ⟨[], turn :: turns, rfl, ?_⟩
      rw [List.flatMap_nil, List.append_nil, heq]
      exact hholds
    rw [readOutput] at h
    split at h
    next => cases h; exact hnow rfl
    next =>
      split at h
      next => cases h; exact hnow rfl
      next =>
        split at h
        next => cases h; exact hnow rfl
        next =>
          split at h
          next =>
            cases h
            refine ⟨[turn], turns, rfl, ?_⟩
            rw [List.flatMap_singleton]
            exact hholds.reads
          next =>
            obtain ⟨handled, rest, rfl, hafter⟩ := readOutput_holds hholds.reads h
            refine ⟨turn :: handled, rest, rfl, ?_⟩
            rw [List.flatMap_cons, ← List.append_assoc]
            exact hafter

theorem empty_holds : Capture.empty.Holds [] :=
  ⟨⟨rfl, by simp [Capture.empty, written]⟩, ⟨rfl, by simp [Capture.empty, written]⟩, rfl⟩

/-- The probe wrote a line that reports every check, each of them true. -/
def Reported (loads : Bytes → Report) (run : ProbeRun) (checks : Checks) : Prop :=
  ∃ turns handled rest line entries, run = .ended turns ∧ turns = handled ++ rest ∧
    firstLine ((written true (handled.flatMap Turn.chunks)).take 4096) = .some line ∧
      loads line = .object entries ∧
    (∀ name ∈ PROBE_CHECKS, (name, .some true) ∈ entries) ∧ checks = entries.map fun entry =>
      (entry.1, entry.2.getD false)

theorem sameNames_iff {names : List Text} : sameNames names = true ↔ ∀ name, name ∈ names ↔
    name ∈ PROBE_CHECKS := by
  rw [sameNames, Bool.and_eq_true, List.all_eq_true, List.all_eq_true]
  constructor
  · rintro ⟨hnames, hchecks⟩ name
    exact ⟨fun h => List.contains_iff_mem.mp (hnames name h),
      fun h => List.contains_iff_mem.mp (hchecks name h)⟩
  · intro h
    exact ⟨fun name hname => List.contains_iff_mem.mpr ((h name).mp hname), fun name hname =>
      List.contains_iff_mem.mpr ((h name).mpr hname)⟩

theorem reported_of_probe {run : ProbeRun} {p : Probe} {checks : Checks}
    (hprobe : run.probe loads = .some p) (hchecks : p.checks = .some checks)
    (hall : checks.all Prod.snd = true) : Reported loads run checks := by
  cases run with
  | broken turns code =>
    cases hprobe
    cases hchecks
  | ended turns =>
    rw [ProbeRun.probe] at hprobe
    split at hprobe
    next => cases hprobe
    next termination capture hread =>
      cases hprobe
      obtain ⟨handled, rest, hturns, hholds⟩ := readOutput_holds empty_holds hread
      rw [List.nil_append] at hholds
      have hcaptured := hholds.stdout.captured
      rw [Capture.probe, hcaptured] at hchecks
      dsimp only at hchecks
      cases hline : firstLine ((written true (handled.flatMap Turn.chunks)).take 4096) with
      | none =>
        rw [hline] at hchecks
        cases hchecks
      | some line =>
        rw [hline, Option.map_some, Option.getD_some] at hchecks
        cases hloads : loads line with
        | other =>
          rw [hloads] at hchecks
          cases hchecks
        | raises =>
          rw [hloads] at hchecks
          cases hchecks
        | object entries =>
          rw [hloads, Report.checks] at hchecks
          split at hchecks
          next hcomplete =>
            cases hchecks
            rw [Bool.and_eq_true, sameNames_iff, List.all_eq_true] at hcomplete
            rw [List.all_map, List.all_eq_true] at hall
            refine ⟨turns, handled, rest, line, entries, rfl, hturns, hline, hloads, ?_, rfl⟩
            intro name hname
            obtain ⟨entry, hentry, rfl⟩ := List.mem_map.mp ((hcomplete.1 name).mpr hname)
            obtain ⟨name, value⟩ := entry
            have htrue : value.getD false = true := hall _ hentry
            cases value with
            | none => cases htrue
            | some value =>
              cases htrue
              exact hentry
          next => cases hchecks

/-! ## A verdict -/

/-- Two sources of one digest have the same files, unless their framings collide. -/
def SameFiles (sha256 : Bytes → Text) (tree other : SourceTree) : Prop :=
  (∀ file, tree.Covers file ↔ other.Covers file) ∨
    (framed (ordered tree) ≠ framed (ordered other) ∧
      sha256 (framed (ordered tree)) = sha256 (framed (ordered other)))

/-- What stands behind a verification that passes, with the reading it has compared by. -/
structure Verified (sha256 : Bytes → Text) (frames : ℕ) (loads : Bytes → Report) (s : State) (i : ℕ)
    (reading : Reading) (result : VerificationResult) : Prop where
  fresh : s.digested sha256 reading = .ok result.sourceDigest ∧ result.staleSource = false
  /-- The files that were copied are those of the source, where it has not changed under the
  reading. -/
  snapshot : ∃ staging ∈ s.staged, staging.runId = result.runId ∧
    stageSnapshot sha256 frames staging.copied.root = .ok result.sourceDigest ∧
      (reading = .whole → SameFiles sha256 staging.copied s.source)
  /-- The run was accepted of this verification, and of no other client. -/
  handed : (.some i, result.runId) ∈ s.handed ∧ ∀ asker, (asker, result.runId) ∈ s.handed →
    asker = .some i
  probed : ∃ run, (result.runId, run) ∈ s.probed ∧ Reported loads run result.checks
  /-- The worker has found no process of the run left, with which its scratch goes; the snapshot is
  gone. -/
  clean : result.populationEmpty = true ∧ result.scratchDestroyed = true ∧
    result.snapshotDestroyed = true ∧
    result.runId ∉ s.worker.snapshots

theorem sameFiles_of_digests {tree other : SourceTree}
    (h : stageSnapshot sha256 frames tree.root = .ok digest)
    (h' : sourceDigest sha256 other.root = .ok digest) : SameFiles sha256 tree other := by
  have hdigest := (SnapshotDigest.stageSnapshot_ok.mp h).2
  have hdigest' := (SnapshotDigest.sourceDigest_ok.mp h').2
  by_cases hframed : framed (ordered tree) = framed (ordered other)
  · left
    intro file
    rw [← SnapshotDigest.mem_ordered, ← SnapshotDigest.mem_ordered,
      SnapshotDigest.framed_inj hframed]
  · exact .inr ⟨hframed, hdigest.symm.trans hdigest'⟩

/-- What a verification that passes has compared. -/
theorem conclude_passed {digested : Except Refusal Text} {value : Result}
    {result : VerificationResult} (h : conclude digested digest runId value = .ok result)
    (hpassed : result.state = .run .passed) :
    digested = .ok digest ∧ value.state = .passed ∧ value.sourceDigest = .some digest ∧
      result.runId = runId ∧ result.sourceDigest = digest ∧ result.staleSource = false ∧
        result.checks = value.checks.getD [] ∧
      result.populationEmpty = value.populationEmpty ∧
        result.scratchDestroyed = value.scratchDestroyed ∧
      result.snapshotDestroyed = value.snapshotDestroyed := by
  have hconcluded : ∀ stale, concluded digest runId value stale = .ok result →
      stale = false ∧ value.state = .passed ∧ value.sourceDigest = .some digest ∧
        result.runId = runId ∧ result.sourceDigest = digest ∧
        result.staleSource = false ∧ result.checks = value.checks.getD [] ∧
          result.populationEmpty = value.populationEmpty ∧
        result.scratchDestroyed = value.scratchDestroyed ∧
            result.snapshotDestroyed = value.snapshotDestroyed := by
    intro stale hok
    unfold concluded at hok
    dsimp only at hok
    split at hok
    next => cases hok
    next =>
      split at hok
      next => cases hok
      next hdigest =>
        split at hok
        next => cases hok
        next =>
          cases hok
          rw [not_or, not_not] at hdigest
          cases stale with
          | true => cases hpassed
          | false =>
            rw [if_neg Bool.false_ne_true] at hpassed
            exact ⟨rfl, Verdict.run.inj hpassed, hdigest.1, rfl, rfl, rfl, rfl, rfl, rfl, rfl⟩
  unfold conclude at h
  split at h
  next found =>
    obtain ⟨hstale, hrest⟩ := hconcluded _ h
    rw [bne_eq_false_iff_eq] at hstale
    exact ⟨congrArg Except.ok hstale, hrest⟩
  next => cases (hconcluded _ h).1
  next => cases h

end

/-- **A verdict is about the source.** In every run, where a verification returns that its run has
passed, the worker has accepted that run of this verification and of no other client, with a
snapshot whose files are those that the source has then, if it is not edited under the last
reading; the probe of the run has reported every check as true; the worker has found none of its
processes left; and its snapshot is gone. -/
theorem passed_verified (sha256 : Bytes → Text) (frames : ℕ) (loads : Bytes → Report)
    (evidence : Evidence) (pid : ℕ → ℕ) :
    (system sha256 frames loads evidence pid).EveryStep fun s label t => ∀ i reading,
    label = .compare i reading → ∀ result,
      t.requests i = .done (.ok result) → result.state = .run .passed →
        Verified sha256 frames loads s i reading result := by
  intro s label t hreachable hstep i reading hlabel result hdone hpassed
  have hinv := inv_reachable hreachable
  subst hlabel
  have hstep' : step sha256 frames loads evidence pid s (.compare i reading) = .some t := hstep
  simp only [step] at hstep'
  split at hstep'
  next digest runId value hpc =>
    have hknown := hinv.following.requests i
    rw [hpc] at hknown
    obtain ⟨-, hown, hlegit⟩ := hknown
    have hhanded : (.some i, runId) ∈ s.handed := hinv.following.handed i runId (by rw [hpc]; rfl)
    obtain rfl := Option.some.inj hstep'
    have houtcome : conclude (s.digested sha256 reading) digest runId value = .ok result := by
      have hgoto : (s.goto i
        (.done (conclude (s.digested sha256 reading) digest runId value))).requests i =
          .done (conclude (s.digested sha256 reading) digest runId value) := if_pos rfl
      rw [hgoto] at hdone
      exact Pc.done.inj hdone
    obtain ⟨hfresh, hvalue, hvalueDigest, hrun, hdigest, hstale, hchecks, hempty, hscratch,
      hsnapshot⟩ := conclude_passed houtcome hpassed
    have hearned := hlegit hvalue
    obtain ⟨staged, ⟨staging, hstaging, hstagingRun, hstagingDigest⟩, hsame⟩ := hearned.staged
    obtain rfl : staged = digest := Option.some.inj (hsame.symm.trans hvalueDigest)
    obtain ⟨probe, checks, ⟨run, p, hrunMem, hp, hpChecks, hpTermination⟩, hprobeChecks,
      hvalueChecks, -, hall⟩ := hearned.probed
    have htaken : stageSnapshot sha256 frames staging.copied.root = .ok result.sourceDigest := by
      rw [hdigest, ← hstagingDigest]
      exact hinv.taken staging hstaging
    exact {
      fresh := ⟨hdigest ▸ hfresh, hstale⟩
      snapshot := by
        refine ⟨staging, hstaging, by rw [hstagingRun, hown, hrun], htaken, ?_⟩
        rintro rfl
        exact sameFiles_of_digests htaken (hdigest ▸ hfresh)
      handed := by
        rw [hrun]
        refine ⟨hhanded, fun asker hasker => ?_⟩
        -- A run is accepted once.
        exact congrArg Prod.fst (List.inj_on_of_nodup_map hinv.handedOnce hasker hhanded rfl)
      probed := by
        rw [hchecks, hvalueChecks, Option.getD_some, hrun, ← hown]
        exact ⟨run, hrunMem, reported_of_probe hp (hpChecks.trans hprobeChecks) hall⟩
      clean := by
        rw [hempty, hscratch, hsnapshot, hrun, ← hown]
        exact ⟨hearned.populationEmpty, hearned.scratchDestroyed, hearned.snapshotDestroyed,
          hearned.gone.2⟩ }
  next => cases hstep'

end Novalton.VerificationVerdict
