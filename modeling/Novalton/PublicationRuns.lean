/-
The publication of one applied commit (`modules/github_publications`): the trusted bindings
of the processes, `prepare`, which records one with the proof it has read, the decisions on
the approval, and the requests of `GitHubPublications`, each with the binding of its process.

`get_settings` reads the configuration once in a process, so a request keeps the binding
its process started with, and its adapter addresses the repository of that binding.
Reconfigured, the next process has another one. Every repository has a remote of its own,
which changes at any time: by others, or by a create that was sent and takes effect late.

What publication comes to rests on the proof: an item that `prepare` stores has no
`head_blob_id`, and the object read of `publish` demands one (`publishRead_fails`). No
request gets past that read.
-/
import Novalton.GitHubPublications

namespace Novalton.GitHubPublications

/-- `trusted_binding()`, whole. -/
structure TrustedBinding extends GitHubBinding where
  version : Text
  key : Text
deriving DecidableEq, Repr

/-- What an action records of a binding: `repository_identity`, `binding_version` and
`base_branch`. -/
structure RecordedBinding where
  owner : Text
  repository : Text
  bindingKey : Text
  bindingVersion : Text
  baseBranch : Text
deriving DecidableEq, Repr

def TrustedBinding.recorded (binding : TrustedBinding) : RecordedBinding where
  owner := binding.owner
  repository := binding.repository
  bindingKey := binding.key
  bindingVersion := binding.version
  baseBranch := binding.baseBranch

/-- The columns of an action that do not change once it is prepared. -/
structure PreparedAction where
  binding : RecordedBinding
  action : PublicationAction
  preparedRemoteBaseSha : Text
  branchRef : Text
  prTitle : Text
  prBody : Text
  publicationFingerprint : Text
deriving DecidableEq

/-- What `publish` reads of the action, in a process with this binding. -/
def PreparedAction.publishing (prepared : PreparedAction) (binding : TrustedBinding) :
    Publishing where
  action := prepared.action
  binding := binding.toGitHubBinding
  preparedRemoteBaseSha := prepared.preparedRemoteBaseSha
  branchRef := prepared.branchRef
  prTitle := prepared.prTitle
  prBody := prepared.prBody

/-! ## `prepare` -/

/-- What is hashed into the fingerprint. -/
structure FingerprintData where
  commit : Text
  base : Text
  branch : Text
  title : Text
  body : Text
  binding : Text
  key : Text
deriving DecidableEq, Repr

/-- A `GitCommitAction` row whose `prepared_paths` are those of a preparation the git adapter
has accepted. -/
structure CommitRow (lib : Library) where
  action : GitCommitAction
  paths : ∃ repo candidates preparation, GitLocal.prepare lib repo candidates = .ok preparation ∧
    action.preparedPaths = preparation.paths.map PreparedPath.toJson

/-- What one call of `prepare` meets. `commit` is the applied commit, `workspaceBound` says
whether its repository key is that of the binding's workspace root, `metadata` and `base`
how the remote answers, `repository` is what the approved root holds, `decided` whether the
policy requires a confirmation, `stored` whether the approval and the action are committed. -/
structure PrepareCall (lib : Library) where
  commit : Option (CommitRow lib)
  commitId : Text
  workspaceBound : Bool
  metadata : Option RepositoryMetadata
  base : Option Text
  repository : Option Repository
  title : Text
  body : Text
  decided : Bool
  stored : Bool

section
variable {lib : Library} (fingerprint : FingerprintData → Text)

/-- The read of `prepare`, to what it stores of it. -/
def PrepareCall.read (call : PrepareCall lib) (commit : GitCommitAction) :
    Option PublicationAction :=
  match call.repository with
  | .none => .none
  | .some repo =>
    match preparationRead lib repo commit with
    | .ok (proof, _) => .some (PublicationAction.ofProof commit proof)
    | .error _ => .none

/-- `prepare`, to the action there is after it; `none` where it raises. -/
def prepare (binding : TrustedBinding) (existing : Option PreparedAction) (call : PrepareCall lib) :
    Option PreparedAction := do
  let row ← call.commit
  let commit := row.action
  let sha ← commit.resultingCommitSha
  if commit.status ≠ "APPLIED".toList ∨ sha = [] then .none
  else if call.workspaceBound = false then .none
  else if commit.branchRef ≠ "refs/heads/".toList ++ binding.baseBranch then .none
  else do
    let metadata ← call.metadata
    if metadata ≠ ⟨binding.provider, binding.owner, binding.repository, binding.baseBranch⟩ then
      .none
    else do
      let observedBase ← call.base
      if observedBase ≠ commit.preparedHeadSha then .none
      else do
        let action ← call.read commit
        let branch := "novalton/".toList ++ call.commitId
        let digest := fingerprint ⟨sha, observedBase, branch, call.title, call.body,
          binding.version, binding.key⟩
        match existing with
        | .some existing =>
          if existing.binding.owner ≠ binding.owner ∨
            existing.binding.repository ≠ binding.repository ∨
              existing.binding.bindingKey ≠ binding.key ∨
                existing.binding.bindingVersion ≠ binding.version ∨
              existing.preparedRemoteBaseSha ≠ observedBase ∨ existing.branchRef ≠ branch ∨
              existing.prTitle ≠ call.title ∨ existing.prBody ≠ call.body ∨
              existing.publicationFingerprint ≠ digest then .none
          else .some existing
        | .none =>
          if call.decided && call.stored then
            .some ⟨binding.recorded, action, observedBase, branch, call.title, call.body, digest⟩
          else .none

end

/-! ## The processes -/

/-- `trusted` is the binding of a process that starts now, `bindings` are those of the requests'
processes. `sent` are the writes that were sent to remotes. -/
structure State where
  trusted : TrustedBinding
  prepared : Option PreparedAction
  approval : ApprovalStatus
  action : Row GitHubPublicationAction
  remotes : GitHubBinding → Remote
  sent : List RemoteWrite
  requests : ℕ → Pc
  bindings : ℕ → TrustedBinding

/-- The binding of the process of request `i`. A request that begins runs in a process that
has started by now. -/
def State.bindingOf (s : State) (i : ℕ) : TrustedBinding :=
  if s.requests i = .idle then s.trusted else s.bindings i

/-- `_decide`, where it returns. -/
def decide? (approval target : ApprovalStatus) : Option ApprovalStatus :=
  if approval = target ∨ approval = .pending then .some target else .none

/-- The approval after a step of a request: it is decided on, and then it must be APPROVED. -/
def approvalAfter (approval : ApprovalStatus) : Pc → Answer → Option ApprovalStatus
  | .approve _, .proceed => decide? approval .approved
  | .satisfied _, .proceed => if approval = .approved then .some approval else .none
  | _, _ => .some approval

/-- A configuration for the processes that start from now on, a call of `prepare` in one of
them, a decision, a step of a publication request, or whatever happens to a remote. -/
inductive Label (lib : Library) where
  | reconfigure (binding : TrustedBinding)
  | prepare (call : PrepareCall lib)
  | decide (decision : Decision)
  | request (i : ℕ) (answer : Answer)
  | remote (repository : GitHubBinding) (remote : Remote)

section
variable (lib : Library) (fingerprint : FingerprintData → Text)

/-- The step of request `i` on the prepared action. A write to the remote counts as sent
however its call ends. -/
def requestStep (s : State) (prepared : PreparedAction) (i : ℕ) (answer : Answer) :
    Option State := do
  let binding := s.bindingOf i
  let data := prepared.publishing binding
  let approval ← approvalAfter s.approval (s.requests i) answer
  let (write, pc) ← next lib data s.action.committed (s.remotes binding.toGitHubBinding)
    (s.requests i) answer
  let row ← write.run s.action i
  return { s with
    approval := approval
    action := row
    sent := s.sent ++ ((s.requests i).call data).toList
    requests := Function.update s.requests i pc
    bindings := Function.update s.bindings i binding }

def step (s : State) : Label lib → Option State
  | .reconfigure binding => .some { s with trusted := binding }
  | .prepare call => (prepare fingerprint s.trusted s.prepared call).map fun prepared =>
    { s with prepared := .some prepared }
  | .decide decision => (decide? s.approval decision.status).map fun approval =>
    { s with approval := approval }
  | .request i answer => s.prepared.bind fun prepared => requestStep lib s prepared i answer
  | .remote repository remote =>
    .some { s with remotes := Function.update s.remotes repository remote }

/-- Nothing is prepared, and no request has begun. -/
def system : System State (Label lib) where
  Init s := s.prepared = .none ∧ s.approval = .pending ∧ s.action = .idle prepared ∧ s.sent = [] ∧
    ∀ i, s.requests i = .idle
  step := step lib fingerprint

/-! ## Every run -/

/-- The objects of the commit cannot be read with what is prepared. -/
def PreparedAction.Unreadable (prepared : PreparedAction) : Prop :=
  ∀ repo baseBranch result, publishRead lib repo baseBranch prepared.action ≠ .ok result

/-- What holds in every run: a request past its approval has an approved one, none has got the
objects of the commit, and nothing is published or sent. -/
structure Unpublished (s : State) : Prop where
  prepared : ∀ prepared, s.prepared = .some prepared → prepared.Unreadable lib
  approved : ∀ i, (s.requests i).approved = true → s.approval = .approved
  early : ∀ i, (s.requests i).early = true
  clean : s.action.Clean
  status : s.action.committed.status.unpublished = true
  sent : s.sent = []

end

section
variable {lib : Library} {fingerprint : FingerprintData → Text} {s t : State} {i : ℕ}

/-- What a call stores of its read cannot be read again. -/
theorem read_unreadable {call : PrepareCall lib} {commit : CommitRow lib}
    {action : PublicationAction} (h : call.read commit.action = .some action) (repo : Repository)
    (baseBranch : Text) (result : ChangesetProof × List PublicationObject) :
    publishRead lib repo baseBranch action ≠ .ok result := by
  obtain ⟨prepared, candidates, preparation, hprepare, hpaths⟩ := commit.paths
  have hne : commit.action.preparedPaths ≠ [] := by
    rw [hpaths]
    exact prepared_paths_ne hprepare
  unfold PrepareCall.read at h
  split at h
  next => cases h
  next current _ =>
    split at h
    next proof objects hread =>
      cases h
      exact publishRead_fails hne hread repo baseBranch result
    next => cases h

/-- What is prepared is what was, or is made of a read. -/
theorem prepare_cases {binding : TrustedBinding} {existing : Option PreparedAction}
    {prepared : PreparedAction} {call : PrepareCall lib}
    (h : prepare fingerprint binding existing call = .some prepared) :
    existing = .some prepared ∨ ∃ commit : CommitRow lib, call.read commit.action =
      .some prepared.action := by
  simp only [prepare, Option.bind_eq_bind, Option.bind_eq_some_iff] at h
  obtain ⟨row, -, sha, -, h⟩ := h
  split at h
  next => cases h
  next =>
    split at h
    next => cases h
    next =>
      split at h
      next => cases h
      next =>
        obtain ⟨metadata, -, h⟩ := Option.bind_eq_some_iff.mp h
        split at h
        next => cases h
        next =>
          obtain ⟨base, -, h⟩ := Option.bind_eq_some_iff.mp h
          split at h
          next => cases h
          next =>
            obtain ⟨action, haction, h⟩ := Option.bind_eq_some_iff.mp h
            split at h
            next =>
              split at h <;> cases h
              exact .inl rfl
            next =>
              split at h <;> cases h
              exact .inr ⟨row, haction⟩

/-- A decision is final. -/
theorem decide_approved {target approval : ApprovalStatus}
    (h : decide? .approved target = .some approval) :
    approval = .approved := by
  rw [decide?] at h
  split at h
  next htarget =>
    cases h
    rcases htarget with htarget | htarget
    · exact htarget.symm
    · cases htarget
  next => cases h

theorem approvalAfter_approved {pc : Pc} {answer : Answer} {approval : ApprovalStatus}
    (h : approvalAfter .approved pc answer = .some approval) : approval = .approved := by
  unfold approvalAfter at h
  split at h
  next => exact decide_approved h
  next =>
    split at h <;> cases h
    rfl
  next =>
    cases h
    rfl

/-- A request gets past its approval with an approved one. -/
theorem approvalAfter_satisfied {action : GitHubPublicationAction}
    {approval approval' : ApprovalStatus}
    (h : approvalAfter approval (.satisfied action) .proceed = .some approval') :
    approval' = .approved := by
  simp only [approvalAfter] at h
  split at h
  next happroved =>
    cases h
    exact happroved
  next => cases h

/-- A write leaves the committed row, but for an update. -/
theorem run_committed {row row' : Row GitHubPublicationAction} {write : Write} (hclean : row.Clean)
    (h : write.run row i = .some row') : row'.Clean ∧
    (row'.committed = row.committed ∨ write = .update row'.committed) := by
  cases write with
  | none =>
    cases h
    exact ⟨hclean, .inl rfl⟩
  | commit =>
    cases h
    exact ⟨hclean.commit, .inl (Row.commit_committed fun v => hclean i v)⟩
  | rollback =>
    cases h
    exact ⟨hclean.rollback, .inl Row.rollback_committed⟩
  | lock => exact ⟨hclean.lock h, .inl (Row.lock_committed h)⟩
  | update action =>
    refine ⟨Row.Clean.put h, .inr ?_⟩
    rw [(Row.put_eq h).1]

/-- The step of a request: it moves on, and the others stay. -/
theorem request_cases {answer : Answer}
    (h : (system lib fingerprint).step s (.request i answer) = .some t) :
    ∃ prepared approval write pc row, s.prepared = .some prepared ∧
      approvalAfter s.approval (s.requests i) answer = .some approval ∧
      next lib (prepared.publishing (s.bindingOf i)) s.action.committed
        (s.remotes (s.bindingOf i).toGitHubBinding) (s.requests i) answer = .some (write, pc) ∧
      write.run s.action i = .some row ∧
      t = { s with
        approval := approval
        action := row
        sent := s.sent ++ ((s.requests i).call (prepared.publishing (s.bindingOf i))).toList
        requests := Function.update s.requests i pc
        bindings := Function.update s.bindings i (s.bindingOf i) } := by
  obtain ⟨prepared, hprepared, h⟩ := Option.bind_eq_some_iff.mp h
  simp only [requestStep, Option.bind_eq_bind, Option.bind_eq_some_iff] at h
  obtain ⟨approval, happroval, ⟨write, pc⟩, hnext, row, hrun, h⟩ := h
  cases h
  exact ⟨prepared, approval, write, pc, row, hprepared, happroval, hnext, hrun, rfl⟩

theorem Unpublished.request (hs : Unpublished lib s) {answer : Answer}
    (h : (system lib fingerprint).step s (.request i answer) = .some t) : Unpublished lib t := by
  obtain ⟨prepared, approval, write, pc, row, hprepared, happroval, hnext, hrun, rfl⟩ :=
    request_cases h
  have hread : ∀ repo result,
    publishRead lib repo (prepared.publishing (s.bindingOf i)).binding.baseBranch
      (prepared.publishing (s.bindingOf i)).action ≠ .ok result :=
    fun repo result => hs.prepared prepared hprepared repo _ result
  obtain ⟨hearly, hwrite⟩ := next_early hread hnext (hs.early i)
  obtain ⟨hclean, hrow⟩ := run_committed hs.clean hrun
  refine ⟨hs.prepared, ?_, ?_, hclean, ?_, ?_⟩
  · intro j hj
    -- an approval that was APPROVED is still
    have hstays : s.approval = .approved → approval = .approved := by
      intro happroved
      rw [happroved] at happroval
      exact approvalAfter_approved happroval
    by_cases hji : j = i
    · dsimp only at hj
      rw [hji, Function.update_self] at hj
      rcases next_approved hnext hj with hbefore | ⟨action, hpc, rfl⟩
      · exact hstays (hs.approved i hbefore)
      · rw [hpc] at happroval
        exact approvalAfter_satisfied happroval
    · dsimp only at hj
      rw [Function.update_of_ne hji] at hj
      exact hstays (hs.approved j hj)
  · intro j
    by_cases hji : j = i
    · simp only [hji, Function.update_self, hearly]
    · simp only [Function.update_of_ne hji, hs.early j]
  · rcases hrow with hsame | hupdate
    · dsimp only
      rw [hsame]
      exact hs.status
    · exact hwrite row.committed hupdate hs.status
  · dsimp only
    rw [hs.sent, early_call (hs.early i)]
    rfl

theorem Unpublished.step (hs : Unpublished lib s) {label : Label lib}
    (h : (system lib fingerprint).step s label = .some t) : Unpublished lib t := by
  cases label with
  | reconfigure binding =>
    cases h
    exact ⟨hs.prepared, hs.approved, hs.early, hs.clean, hs.status, hs.sent⟩
  | prepare call =>
    obtain ⟨prepared, hprepare, rfl⟩ := Option.map_eq_some_iff.mp h
    refine ⟨?_, hs.approved, hs.early, hs.clean, hs.status, hs.sent⟩
    intro prepared' hprepared
    cases hprepared
    rcases prepare_cases hprepare with hexisting | ⟨commit, hread⟩
    · exact hs.prepared prepared hexisting
    · exact fun repo baseBranch result => read_unreadable hread repo baseBranch result
  | decide decision =>
    obtain ⟨approval, hdecide, rfl⟩ := Option.map_eq_some_iff.mp h
    refine ⟨hs.prepared, ?_, hs.early, hs.clean, hs.status, hs.sent⟩
    intro i hi
    rw [hs.approved i hi] at hdecide
    exact decide_approved hdecide
  | request i answer => exact hs.request h
  | remote repository remote =>
    cases h
    exact ⟨hs.prepared, hs.approved, hs.early, hs.clean, hs.status, hs.sent⟩

theorem reachable_unpublished (h : (system lib fingerprint).Reachable s) : Unpublished lib s := by
  refine System.Reachable.invariant ?_ (fun _ _ _ hs hstep => Unpublished.step hs hstep) h
  intro s hinit
  obtain ⟨hprepared, -, haction, hsent, hidle⟩ := hinit
  refine ⟨?_, ?_, ?_, ?_, ?_, hsent⟩
  · intro prepared hprepared'
    rw [hprepared] at hprepared'
    cases hprepared'
  · intro i hi
    rw [hidle i] at hi
    cases hi
  · intro i
    rw [hidle i]
    rfl
  · rw [haction]
    exact Row.idle_clean _
  · rw [haction]
    rfl

end

/-! ## What is published, and where -/

/-- A call of a request that writes to the remote. -/
def State.writes (s : State) (i : ℕ) : Bool :=
  s.prepared.any fun prepared => ((s.requests i).call (prepared.publishing (s.bindings i))).isSome

/-- The branch is at the commit, the pull request recorded is the one there is, of the expected
head, base, title and body, and there is no failure code. -/
def State.Recorded (s : State) (prepared : PreparedAction) : Prop :=
  s.action.committed.failureCode = .none ∧
    ∃ binding : TrustedBinding, binding.recorded = prepared.binding ∧
      (s.remotes binding.toGitHubBinding).branch = .some prepared.action.localCommitSha ∧
      ∃ pull, (s.remotes binding.toGitHubBinding).pull = .some pull ∧
        pullMatches (prepared.publishing binding) pull = true ∧
        s.action.committed.prNumber = .some pull.number ∧ s.action.committed.prUrl = .some pull.url

/-- The creation of a branch, and of a pull request. -/
def RemoteWrite.isBranch : RemoteWrite → Bool
  | .createBranch _ _ => true
  | _ => false

def RemoteWrite.isPullRequest : RemoteWrite → Bool
  | .createPullRequest _ _ _ _ => true
  | _ => false

/-- **Publication converges**, in every run: what is PUBLISHED is recorded as the remote shows
it, a branch is only created where there is none, at most one branch and one pull request are
created, and PUBLISHED stays. For no run gets so far: the object read of `publish` refuses the
proof that `prepare` stores, so a publication stays pending or ends FAILED or STALE, and
nothing is sent to a remote. -/
theorem publication_converges (lib : Library) (fingerprint : FingerprintData → Text) (s : State)
    (h : (system lib fingerprint).Reachable s) :
    (∀ prepared, s.prepared = .some prepared → s.action.committed.status = .published →
      s.Recorded prepared) ∧
    (∀ i prepared ref sha, s.prepared = .some prepared →
      (s.requests i).call (prepared.publishing (s.bindings i)) = .some (.createBranch ref sha) →
        (s.remotes (s.bindings i).toGitHubBinding).branch = .none) ∧
    (s.sent.countP RemoteWrite.isBranch ≤ 1 ∧ s.sent.countP RemoteWrite.isPullRequest ≤ 1) ∧
    (∀ label t, (system lib fingerprint).step s label = .some t →
      s.action.committed.status = .published →
      t.action.committed.status = .published) ∧
    s.action.committed.status.unpublished = true ∧ s.sent = [] := by
  have hs := reachable_unpublished h
  have hstatus : s.action.committed.status ≠ .published := by
    intro hpublished
    have hunpublished := hs.status
    rw [hpublished] at hunpublished
    cases hunpublished
  refine ⟨fun _ _ hpublished => absurd hpublished hstatus, ?_, ?_, fun _ _ _ hpublished =>
    absurd hpublished hstatus, hs.status, hs.sent⟩
  · intro i prepared ref sha _ hcall
    rw [early_call (hs.early i)] at hcall
    cases hcall
  · rw [hs.sent]
    exact ⟨Nat.zero_le 1, Nat.zero_le 1⟩

/-! ### The one-file repository -/

theorem exampleRow_paths : ∃ repo candidates preparation,
    GitLocal.prepare exampleLibrary repo candidates = .ok preparation ∧
    exampleAction.preparedPaths = preparation.paths.map PreparedPath.toJson :=
  ⟨_, _, examplePreparation, examplePrepare, rfl⟩

/-- The binding of the example's process. -/
def exampleTrusted : TrustedBinding :=
  ⟨⟨"github".toList, ['o'], ['r'], "main".toList⟩, "v1".toList, ['k']⟩

/-- The next one: another repository, a copy of the first. -/
def movedTrusted : TrustedBinding :=
  ⟨⟨"github".toList, ['x'], ['r'], "main".toList⟩, "v2".toList, ['k']⟩

def exampleCall : PrepareCall exampleLibrary where
  commit := .some ⟨exampleAction, exampleRow_paths⟩
  commitId := ['1']
  workspaceBound := true
  metadata := .some ⟨"github".toList, ['o'], ['r'], "main".toList⟩
  base := .some exampleBase
  repository := .some exampleNext
  title := ['t']
  body := ['b']
  decided := true
  stored := true

def exampleState : State where
  trusted := exampleTrusted
  prepared := .none
  approval := .pending
  action := .idle prepared
  remotes := fun _ => ⟨exampleBase, .none, .none⟩
  sent := []
  requests := fun _ => .idle
  bindings := fun _ => exampleTrusted

/-- The title stands for the hash. -/
def exampleFingerprint (data : FingerprintData) : Text := data.title

theorem exampleState_init : (system exampleLibrary exampleFingerprint).Init exampleState :=
  ⟨rfl, rfl, rfl, rfl, fun _ => rfl⟩

/-- An attempt from its start on, to the metadata of its repository. -/
def attempt (metadata : Answer) (rest : List Answer) : List (Label exampleLibrary) :=
  (.begin :: .proceed :: .proceed :: .evaluated .requireConfirmation true :: .proceed :: metadata ::
    rest).map (.request 0)

/-- The metadata cannot be read; another attempt gets to the objects. -/
def retried : List (Label exampleLibrary) :=
  .prepare exampleCall :: attempt .unavailable [.proceed] ++
    attempt (.metadata ⟨"github".toList, ['o'], ['r'], "main".toList⟩) [.proceed, .proceed,
      .reads exampleNext]

/-- The attempt of a process that is configured for another repository gets to the objects. -/
def moved : List (Label exampleLibrary) :=
  .prepare exampleCall :: .reconfigure movedTrusted ::
    attempt (.metadata ⟨"github".toList, ['x'], ['r'], "main".toList⟩) [.proceed, .proceed]

theorem example_runs :
    ((system exampleLibrary exampleFingerprint).exec exampleState retried).any
      (fun s => s.prepared.isSome && s.action.committed.status == .failed) = true ∧
    ((system exampleLibrary exampleFingerprint).exec exampleState moved).any
      (fun s => s.prepared.any (fun prepared => (s.bindings 0).recorded != prepared.binding) &&
        (s.requests 0).approved) =
        true := by
  decide +kernel

/-- A retry of a failed attempt has sent nothing. -/
theorem publication_converges_example :
    ∃ s, (system exampleLibrary exampleFingerprint).Reachable s ∧
    s.prepared.isSome = true ∧ s.action.committed.status = .failed ∧ s.sent = [] := by
  obtain ⟨s, hexec, hs⟩ := (Option.any_eq_true _ _).mp example_runs.1
  obtain ⟨hprepared, hfailed⟩ := (Bool.and_eq_true _ _).mp hs
  have hreachable := System.exec_reachable exampleState_init hexec
  obtain ⟨-, -, -, -, -, hsent⟩ :=
    publication_converges exampleLibrary exampleFingerprint s hreachable
  exact ⟨s, hreachable, hprepared, beq_iff_eq.mp hfailed, hsent⟩

/-- **A publication writes only where it was approved to**, for any sequence of
reconfigurations, preparations, decisions and steps of publications: a request past its
approval has an approved one; whenever the next call of a request is a write to the remote,
its approval is APPROVED, and the owner, the repository, the key, the version and the base
branch of its process's binding are the recorded ones. For no request gets as far as a write. -/
theorem publication_writes_bound (lib : Library) (fingerprint : FingerprintData → Text) (s : State)
    (h : (system lib fingerprint).Reachable s) :
    (∀ i, (s.requests i).approved = true → s.approval = .approved) ∧
    (∀ i, s.writes i = true → s.approval = .approved ∧
      ∃ prepared, s.prepared = .some prepared ∧ (s.bindings i).recorded = prepared.binding) ∧
    (∀ i, s.writes i = false) ∧ s.sent = [] := by
  have hs := reachable_unpublished h
  have hwrites : ∀ i, s.writes i = false := by
    intro i
    cases hprepared : s.prepared with
    | none => simp [State.writes, hprepared]
    | some prepared => simp [State.writes, hprepared, early_call (hs.early i)]
  refine ⟨hs.approved, fun i hi => ?_, hwrites, hs.sent⟩
  rw [hwrites i] at hi
  cases hi

/-- Approved, and configured for another repository than the recorded one. -/
theorem publication_writes_bound_example :
    ∃ s, (system exampleLibrary exampleFingerprint).Reachable s ∧
    (∃ prepared, s.prepared = .some prepared ∧ (s.bindings 0).recorded ≠ prepared.binding) ∧
    s.approval = .approved ∧ s.writes 0 = false := by
  obtain ⟨s, hexec, hs⟩ := (Option.any_eq_true _ _).mp example_runs.2
  obtain ⟨hmoved, hpast⟩ := (Bool.and_eq_true _ _).mp hs
  obtain ⟨prepared, hprepared, hne⟩ := (Option.any_eq_true _ _).mp hmoved
  have hreachable := System.exec_reachable exampleState_init hexec
  obtain ⟨happroved, -, hwrites, -⟩ :=
    publication_writes_bound exampleLibrary exampleFingerprint s hreachable
  exact ⟨s, hreachable, ⟨prepared, hprepared, bne_iff_ne.mp hne⟩, happroved 0 hpast, hwrites 0⟩

end Novalton.GitHubPublications
