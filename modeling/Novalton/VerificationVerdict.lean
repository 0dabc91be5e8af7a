/-
A verification from end to end: `VerificationSandboxAdapter.verify` of
`infrastructure/verification_sandbox.py` against the worker of
`infra/verification/i044a-v2/worker/i044a.py`, over the source tree both of them read, with the
output of the probe (`execute_probe`), the result made of it and the state files a worker
finds when it starts again.

The worker's lock, requests and threads are those of its own model; here its answers carry
their data. Other verifications, other clients of the worker, edits of the source and
restarts may come between any two steps. Edits may also go on while the source is read, file
by file: the worker may then copy any tree, and the API may come to any digest or refusal. What
`json.loads` makes of a line is a parameter.
-/
import Novalton.SnapshotAgreement
import Novalton.VerificationWorker

namespace Novalton.VerificationVerdict

open SnapshotDigest (SourceTree Refusal sourceDigest stageSnapshot)
open VerificationWorker (Operation Surroundings Destroyed)

/-! ## The output of the probe -/

/-- `CHECKS` of the worker and `_PROBE_CHECKS` of the API. -/
def PROBE_CHECKS : List Text :=
  ["caps_empty", "clone3_newuser_denied", "clone3_ordinary_seccomp_denied",
    "clone3_namespaces_denied", "clone_newnet_denied", "clone_newns_denied", "clone_newuser_denied",
      "clone_ordinary_allowed", "clone_namespaces_denied", "core_disabled",
    "descendants_started", "docker_absent", "dotenv_absent", "environment_minimal", "fds_clean",
      "git_absent", "home_absent",
    "host_api_denied", "host_filesystem_absent", "loopback_only", "mount_escape_absent",
      "network_denied", "no_new_privileges",
    "no_pty", "outside_fixture_absent", "postgres_denied", "private_pid", "provider_secrets_absent",
      "python_313",
    "scratch_bounded", "scratch_writable", "seccomp_active", "seccomp_filter_present",
      "source_readonly", "ssh_agent_absent",
    "stdin_closed", "user_namespace_private"].map String.toList

abbrev Checks := List (Text × Bool)

/-- `set(checks) == CHECKS`. -/
def sameNames (names : List Text) : Bool :=
  names.all PROBE_CHECKS.contains && PROBE_CHECKS.all names.contains

inductive Termination where
  | exited | failed | cancelled | timeout | outputLimit
deriving DecidableEq, Repr

/-- One round of the loop over the pipes: whether the run is cancelled or past its deadline, the
exit of the process (with 0 or not), and what `os.read` gives of the ready pipes. -/
structure Turn where
  cancelled : Bool
  late : Bool
  exited : Option Bool
  chunks : List (Bool × Bytes)

/-- A pipe with what is captured of it. -/
structure Pipe where
  captured : Bytes
  truncated : Bool
  registered : Bool

/-- `stdout` and `stderr`, and the `total` of both. -/
structure Capture where
  stdout : Pipe
  stderr : Pipe
  total : ℕ

/-- A chunk that `os.read` gives; the empty one is the end of the pipe. -/
def Pipe.read (pipe : Pipe) (chunk : Bytes) : Pipe :=
  if chunk.isEmpty then { pipe with registered := false }
  else
    { pipe with
      captured := pipe.captured ++ chunk.take (4096 - pipe.captured.length)
      truncated := pipe.truncated || decide (4096 - pipe.captured.length < chunk.length) }

def Capture.read (capture : Capture) (chunk : Bool × Bytes) : Capture :=
  match chunk.1 with
  | true => { capture with stdout := capture.stdout.read chunk.2, total :=
      capture.total + chunk.2.length }
  | false => { capture with stderr := capture.stderr.read chunk.2, total :=
      capture.total + chunk.2.length }

def Capture.empty : Capture := ⟨⟨[], false, true⟩, ⟨[], false, true⟩, 0⟩

/-- The loop of `execute_probe` to its `break`; `none` where the rounds end before. -/
def readOutput : List Turn → Capture → Option (Termination × Capture)
  | [], _ => .none
  | turn :: turns, capture =>
    if turn.cancelled then .some (.cancelled, capture)
    else if turn.late then .some (.timeout, capture)
    else if turn.exited.isSome && !capture.stdout.registered && !capture.stderr.registered then
      .some (if turn.exited = .some true then .exited else .failed, capture)
    else if 16384 < (turn.chunks.foldl Capture.read capture).total then
      .some (.outputLimit, turn.chunks.foldl Capture.read capture)
    else readOutput turns (turn.chunks.foldl Capture.read capture)

/-- `bytes(stdout).splitlines()[0]`. -/
def firstLine (raw : Bytes) : Option Bytes :=
  if raw.isEmpty then .none else .some (raw.takeWhile fun b => b != 10 && b != 13)

/-- What `json.loads` makes of the first line: an object, with those of its values that are
Booleans; what the check of the names passes over; what has the names, but no values. -/
inductive Report where
  | object (entries : List (Text × Option Bool))
  | other
  | raises
deriving DecidableEq

/-- What `execute_probe` comes to before its cleanup: an exception after some rounds of the loop,
with its code, or the end of the loop. -/
inductive ProbeRun where
  | broken (turns : List Turn) (code : Text)
  | ended (turns : List Turn)

/-- The locals of `execute_probe` when it comes to its cleanup. -/
structure Probe where
  termination : Termination
  checks : Option Checks
  failureCode : Option Text
  stdoutTruncated : Bool
  stderr : Pipe

/-- `failure_code or code`. -/
def orCode (failureCode : Option Text) (code : String) : Option Text :=
  failureCode.or (.some code.toList)

/-- The checks that a report holds, if they are all there. -/
def Report.checks : Report → Option Checks
  | .object entries =>
    if sameNames (entries.map Prod.fst) && entries.all fun entry => entry.2.isSome then
      .some (entries.map fun entry => (entry.1, entry.2.getD false))
    else .none
  | _ => .none

/-- The failure code after the report. -/
def reportFailure (termination : Termination) (report : Report) : Option Text :=
  let failureCode := if termination = .outputLimit then .some "output_limit".toList else .none
  if report = .raises then .some "internal_failed".toList
  else if report.checks.isNone && decide (termination ≠ .cancelled) then
    orCode failureCode "probe_invalid"
  else failureCode

/-- What the loop and the report make of the locals. -/
def Capture.probe (capture : Capture) (loads : Bytes → Report) (termination : Termination) :
    Probe where
  termination := termination
  checks := (((firstLine capture.stdout.captured).map loads).getD .other).checks
  failureCode :=
    reportFailure termination (((firstLine capture.stdout.captured).map loads).getD .other)
  stdoutTruncated := capture.stdout.truncated
  stderr := capture.stderr

/-- `execute_probe` up to its cleanup. -/
def ProbeRun.probe (loads : Bytes → Report) : ProbeRun → Option Probe
  | .broken turns code =>
    let capture := turns.foldl (fun capture turn => turn.chunks.foldl Capture.read capture) .empty
    .some ⟨.failed, .none, .some code, capture.stdout.truncated, capture.stderr⟩
  | .ended turns =>
    match readOutput turns .empty with
    | .none => .none
    | .some (termination, capture) => .some (capture.probe loads termination)

/-- What the cleanup adds: a failure of its own, and what the helper wrote to `stderr`. -/
def Probe.cleaned (probe : Probe) (fails : Bool) (helper : Bytes) : Probe :=
  { probe with
    failureCode := if fails then orCode probe.failureCode "cleanup_failed" else probe.failureCode
    stderr := probe.stderr.read helper }

/-! ## Results -/

inductive RunState where
  | passed
  | ended (termination : Termination)
  | reconciled
deriving DecidableEq, Repr

/-- `result`, as it is kept in `recent` and in `recent.json`. -/
structure Result where
  runId : ℕ
  state : RunState
  sourceDigest : Option Text
  checks : Option Checks
  populationEmpty : Bool
  scratchDestroyed : Bool
  snapshotDestroyed : Bool
  outputTruncated : Bool
  failureCode : Option Text

def Probe.passed (probe : Probe) (empty destroyed : Bool) : Bool :=
  (probe.checks.any fun checks => checks.all Prod.snd) && empty && destroyed &&
    (decide (probe.termination = .exited) || decide (probe.termination = .timeout))

/-- The result of a run that is cleaned up. -/
def Probe.result (probe : Probe) (runId : ℕ) (sourceDigest : Text) (empty destroyed : Bool) :
    Result where
  runId := runId
  state := if probe.passed empty destroyed then .passed else .ended probe.termination
  sourceDigest := .some sourceDigest
  checks := probe.checks
  populationEmpty := empty
  scratchDestroyed := empty
  snapshotDestroyed := destroyed
  outputTruncated := probe.stdoutTruncated || probe.stderr.truncated
  failureCode :=
    if !probe.passed empty destroyed && decide (probe.termination ≠ .cancelled) then
      orCode probe.failureCode "probe_failed" else .none

/-- What a worker that starts makes of `current.json`. -/
def reconciled (runId : ℕ) (snapshotDestroyed : Bool) : Result where
  runId := runId
  state := .reconciled
  sourceDigest := .none
  checks := .none
  populationEmpty := true
  scratchDestroyed := true
  snapshotDestroyed := snapshotDestroyed
  outputTruncated := false
  failureCode := .none

/-! ## The client -/

/-- The metadata of the installed release. -/
structure Evidence where
  i044aInputSha256 : Text
  installedManifestSha256 : Text
  foundationInputSha256 : Text
  foundationInstalledManifestSha256 : Text

def FOUNDATION_INPUT_SHA256 : Text :=
  "412f4b3fb41491dc3b7b4cb6eb7f2395ab4bbc3a36afd84d803206742fcb8ec2".toList

def I044A_INPUT_SHA256 : Text :=
  "f45980459fc114a7f2aa6c61c359e8c095a96f166e6393fd6994f74de26ae8df".toList

def hexDigest (text : Text) : Bool :=
  decide (text.length = 64) && text.all fun c => decide ('0' ≤ c ∧ c ≤ '9') ||
    decide ('a' ≤ c ∧ c ≤ 'f')

/-- What `health` asks of a worker that is ready. -/
def Evidence.accepted (evidence : Evidence) : Bool :=
  evidence.foundationInputSha256 = FOUNDATION_INPUT_SHA256 &&
    evidence.i044aInputSha256 = I044A_INPUT_SHA256 &&
    hexDigest evidence.foundationInstalledManifestSha256 &&
      hexDigest evidence.installedManifestSha256

/-- `_ERROR_CODE`. -/
def errorCode (text : Text) : Bool :=
  decide (1 ≤ text.length) && decide (text.length ≤ 64) &&
    text.all fun c => decide ('a' ≤ c ∧ c ≤ 'z') || decide ('0' ≤ c ∧ c ≤ '9') || c = '_'

inductive Failure where
  | sandbox (code : Text)
  | uncaught (refusal : Refusal)

/-- The `state` that a verification returns. -/
inductive Verdict where
  | run (state : RunState)
  | staleSource
deriving DecidableEq, Repr

structure VerificationResult where
  runId : ℕ
  state : Verdict
  sourceDigest : Text
  staleSource : Bool
  populationEmpty : Bool
  scratchDestroyed : Bool
  snapshotDestroyed : Bool
  outputTruncated : Bool
  checks : Checks
  failureCode : Option Text

/-- What the worker answers. -/
inductive Reply where
  | health (blocked : Bool)
  | error (code : Text)
  | prepared (capability : ℕ) (sourceDigest : Text)
  | accepted (runId : ℕ)
  | running
  | recent (result : Result)

/-- Where a verification is. -/
inductive Pc where
  | idle
  | health
  | prepare
  | verify (capability : ℕ) (snapshotDigest : Text)
  | result (snapshotDigest : Text) (runId : ℕ)
  | cancel (runId : ℕ)
  | compare (snapshotDigest : Text) (runId : ℕ) (value : Result)
  | done (outcome : Except Failure VerificationResult)

/-- The request that is sent next. -/
def Pc.operation : Pc → Option Operation
  | .health => .some .health
  | .prepare => .some .prepare
  | .verify capability _ => .some (.verify capability)
  | .result _ runId => .some (.result runId)
  | .cancel runId => .some (.cancel runId)
  | _ => .none

def Pc.failed (code : String) : Pc := .done (.error (.sandbox code.toList))

/-- Where an answer leads; `late` is whether the deadline has passed. -/
def Pc.answered (evidence : Evidence) (pc : Pc) (late : Bool) (reply : Reply) : Pc :=
  match pc, reply with
  | _, .error code => .done (.error (.sandbox code))
  | .health, .health blocked => if blocked || !evidence.accepted then
      .failed "sandbox_definition_mismatch" else .prepare
  | .prepare, .prepared capability digest => if hexDigest digest then .verify capability digest
      else .failed "invalid_response"
  | .verify _ digest, .accepted runId => .result digest runId
  | .result digest runId, .running => if late then .cancel runId else .result digest runId
  | .result digest runId, .recent value => .compare digest runId value
  | .cancel _, _ => .failed "adapter_timeout"
  | _, _ => .failed "invalid_response"

/-- What `verify` makes of the value, with `stale` as it has found it. -/
def concluded (snapshotDigest : Text) (runId : ℕ) (value : Result) (stale : Bool) :
    Except Failure VerificationResult :=
  let checks := value.checks.getD []
  if !checks.isEmpty && !sameNames (checks.map Prod.fst) then
    .error (.sandbox "invalid_response".toList)
  else if value.sourceDigest ≠ .some snapshotDigest ∨
      (value.state = .passed ∧
        (!sameNames (checks.map Prod.fst) || !checks.all Prod.snd) = true) then
    .error (.sandbox "invalid_response".toList)
  else if !value.failureCode.all errorCode then .error (.sandbox "invalid_response".toList)
  else
    .ok {
      runId := runId
      state := if stale then .staleSource else .run value.state
      sourceDigest := snapshotDigest
      staleSource := stale
      populationEmpty := value.populationEmpty
      scratchDestroyed := value.scratchDestroyed
      snapshotDestroyed := value.snapshotDestroyed
      outputTruncated := value.outputTruncated
      checks := checks
      failureCode := value.failureCode }

/-- The end of `verify`, with what `source_digest` comes to. -/
def conclude (digested : Except Refusal Text) (snapshotDigest : Text) (runId : ℕ) (value : Result) :
    Except Failure VerificationResult :=
  match digested with
  | .ok digest => concluded snapshotDigest runId value (digest != snapshotDigest)
  | .error (.sandbox _) => concluded snapshotDigest runId value true
  | .error refusal => .error (.uncaught refusal)

/-! ## Both together -/

/-- A snapshot that was handed out: its run, and the files that were copied. -/
structure Staging where
  runId : ℕ
  copied : SourceTree
  sourceDigest : Text

/-- The worker with its data, its state files, the source and the verifications. `probe` belongs
to the thread of the active run; `staged`, `probed` and `handed` are the history, the last of
the runs that were accepted, with the verification that asked or none for another client. -/
structure State where
  worker : VerificationWorker.State
  probe : Option Probe
  recent : Option Result
  currentFile : Option ℕ
  recentFile : Option Result
  source : SourceTree
  requests : ℕ → Pc
  staged : List Staging
  probed : List (ℕ × ProbeRun)
  handed : List (Option ℕ × ℕ)

def State.goto (s : State) (i : ℕ) (pc : Pc) : State :=
  { s with requests := fun j => if j = i then pc else s.requests j }

/-- The digest of a run. -/
def State.digestOf (s : State) (runId : ℕ) : Option Text :=
  (s.staged.find? (·.runId = runId)).map (·.sourceDigest)

/-- A digest, as the model of the worker's requests has it. -/
def digestNumber (digest : Text) : ℕ := digest.foldl (fun n c => n * 256 + c.toNat) 0

/-- The answer with its data. -/
def State.reply (s : State) : Option VerificationWorker.Response → Reply
  | .some (.health blocked _) => .health blocked
  | .some (.error code) => .error code.toList
  | .some (.prepared capability _) =>
    match s.digestOf capability with
    | .some digest => .prepared capability digest
    | .none => .error "invalid_request".toList
  | .some (.accepted runId) => .accepted runId
  | .some (.running _) => .running
  | .some (.recent _) =>
    match s.recent with
    | .some result => .recent result
    | .none => .error "invalid_request".toList
  | .none => .error "invalid_request".toList

/-- How a request fares: not handled at all, handled without an answer that arrives, or answered. -/
inductive Delivery where
  | lost | unanswered | answered
deriving DecidableEq, Repr

/-- How `source_digest` reads: the source as it is, or with edits going on. -/
inductive Reading where
  | whole
  | torn (digested : Except Refusal Text)

/-- What happens; `copied` is what a staging copies where edits go on meanwhile. -/
inductive Label where
  | begin (i : ℕ)
  | call (i now : ℕ) (around : Surroundings) (copied : Option SourceTree) (delivery : Delivery)
      (late : Bool)
  | compare (i : ℕ) (reading : Reading)
  | other (operation : Operation) (peerPid now : ℕ) (around : Surroundings)
      (copied : Option SourceTree)
  | collect (run : ProbeRun)
  | cleanup (empty : Bool) (o : Destroyed) (fails : Bool) (helper : Bytes)
  | finish (stored written : Bool)
  | restart (left : List ℕ)
  | edit (source : SourceTree)

section
variable (sha256 : Bytes → Text) (frames : ℕ) (loads : Bytes → Report) (evidence : Evidence)
  (pid : ℕ → ℕ)

/-- What a staging copies. -/
def State.copied (s : State) (copied : Option SourceTree) : SourceTree := copied.getD s.source

/-- The surroundings of a request, with the snapshot that is staged of the source. -/
def State.stages (s : State) (around : Surroundings) (copied : Option SourceTree) : Surroundings :=
  { around with
    staged :=
      match around.staged with
      | .failed left => .failed left
      | .staged _ =>
        match stageSnapshot sha256 frames (s.copied copied).root with
        | .ok digest => .staged (digestNumber digest)
        | .error _ => .failed false }

/-- The snapshots after an answer. -/
def State.stagedBy (s : State) (copied : Option SourceTree) : Option VerificationWorker.Response →
    List Staging
  | .some (.prepared capability _) =>
    match stageSnapshot sha256 frames (s.copied copied).root with
    | .ok digest => ⟨capability, s.copied copied, digest⟩ :: s.staged
    | .error _ => s.staged
  | _ => s.staged

/-- The accepted runs after an answer. -/
def State.handedBy (s : State) (asker : Option ℕ) : Option VerificationWorker.Response →
    List (Option ℕ × ℕ)
  | .some (.accepted runId) => (asker, runId) :: s.handed
  | _ => s.handed

/-- A request to the worker. The state of a run that is accepted is in `current.json`. -/
def State.request (s : State) (asker : Option ℕ) (operation : Operation) (peerPid now : ℕ)
    (around : Surroundings) (copied : Option SourceTree) : Reply × State :=
  let handled := s.worker.request operation peerPid now (s.stages sha256 frames around copied)
  let after : State := { s with
    worker := handled.2
    staged := s.stagedBy sha256 frames copied handled.1
    handed := s.handedBy asker handled.1
    currentFile := if s.worker.active.isNone then (handled.2.active.map (·.runId)).or s.currentFile
      else s.currentFile }
  (after.reply handled.1, after)

/-- One request of a verification. -/
def State.call (s : State) (i now : ℕ) (around : Surroundings) (copied : Option SourceTree)
    (delivery : Delivery) (late : Bool) :
    Option State :=
  match (s.requests i).operation with
  | .none => .none
  | .some operation =>
    match delivery with
    | .lost => .some (s.goto i (.failed "sandbox_unavailable"))
    | .unanswered =>
      let (_, after) := s.request sha256 frames (.some i) operation (pid i) now around copied
      .some (after.goto i (.failed "sandbox_unavailable"))
    | .answered =>
      let (reply, after) := s.request sha256 frames (.some i) operation (pid i) now around copied
      .some (after.goto i ((s.requests i).answered evidence late reply))

/-- `source_digest` at the end of `verify`. -/
def State.digested (s : State) : Reading → Except Refusal Text
  | .whole => sourceDigest sha256 s.source.root
  | .torn digested => digested

/-- `execute_probe` of the active run, up to its cleanup. It has seen its run cancelled only where
it is. -/
def State.collect (s : State) (run : ProbeRun) : Option State :=
  match s.worker.active, s.probe, run.probe loads with
  | .some job, .none, .some probe =>
    if job.thread = .running ∧ (probe.termination = .cancelled → job.cancelled = true) then
      .some { s with probe := .some probe, probed := (job.runId, run) :: s.probed }
    else .none
  | _, _, _ => .none

def State.cleanup (s : State) (empty : Bool) (o : Destroyed) (fails : Bool) (helper : Bytes) :
    Option State :=
  match s.probe, s.worker.cleanupProbe empty o with
  | .some probe, .some worker =>
    .some { s with worker := worker, probe := .some (probe.cleaned fails helper) }
  | _, _ => .none

/-- The last section of `execute_probe`; `stored` is whether `recent.json` is written, `written`
whether nothing fails. -/
def State.finish (s : State) (stored written : Bool) : Option State :=
  match s.worker.active, s.probe, s.worker.finishProbe written with
  | .some job, .some probe, .some worker =>
    match job.thread, s.digestOf job.runId with
    | .cleaned empty destroyed, .some digest =>
      if written ∧ ¬stored then .none
      else
        let result := probe.result job.runId digest empty destroyed
        .some { s with
          worker := worker
          probe := .none
          recent := .some result
          recentFile := if stored then .some result else s.recentFile
          currentFile := if worker.blocked then s.currentFile else .none }
    | _, _ => .none
  | _, _, _ => .none

/-- What a worker that starts reads of the state files. -/
def State.recovered (s : State) (cleared : Bool) : Option Result :=
  match s.currentFile with
  | .some runId => .some (reconciled runId cleared)
  | .none => s.recentFile.map fun result => if result.state = .reconciled then
      { result with snapshotDestroyed := cleared } else result

/-- A worker that stops and starts again, with the snapshots it could not destroy. -/
def State.restart (s : State) (left : List ℕ) : State :=
  let recent := s.recovered left.isEmpty
  { s with
    worker := {
      pending := .none
      active := .none
      recent := recent.map (·.runId)
      blocked := !left.isEmpty
      snapshots := left
      drawn := s.worker.drawn
      issued := []
      accepted := [] }
    probe := .none
    recent := recent
    currentFile := .none
    recentFile := recent }

def step (s : State) : Label → Option State
  | .begin i =>
    match s.requests i with
    | .idle => .some (s.goto i .health)
    | _ => .none
  | .call i now around copied delivery late =>
    s.call sha256 frames evidence pid i now around copied delivery late
  | .compare i reading =>
    match s.requests i with
    | .compare digest runId value =>
      .some (s.goto i (.done (conclude (s.digested sha256 reading) digest runId value)))
    | _ => .none
  | .other operation peerPid now around copied =>
    .some (s.request sha256 frames .none operation peerPid now around copied).2
  | .collect run => s.collect loads run
  | .cleanup empty o fails helper => s.cleanup empty o fails helper
  | .finish stored written => s.finish stored written
  | .restart left => if left.all s.worker.snapshots.contains then .some (s.restart left) else .none
  | .edit source => .some { s with source := source }

/-- A worker that starts with nothing of an earlier one, and any source. -/
def system : System State Label where
  Init s := VerificationWorker.system.Init s.worker ∧ s.worker.recent = .none ∧ s.probe = .none ∧
    s.recent = .none ∧
    s.currentFile = .none ∧ s.recentFile = .none ∧ (∀ i, s.requests i = .idle) ∧ s.staged = [] ∧
      s.probed = [] ∧ s.handed = []
  step := step sha256 frames loads evidence pid

end

end Novalton.VerificationVerdict
