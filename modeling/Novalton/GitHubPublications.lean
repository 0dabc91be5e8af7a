/-
One request that publishes an action (the approve route, `publish`, `_mark` and
`_mark_failed` of `modules/github_publications/service.py`).

A request is a sequence of transactions and remote calls. It reads the action before it
locks it, its session keeps the row as it first loaded it, and the lock goes with the
audit commit of the policy evaluation. An `UPDATE` writes the columns whose values are not
the loaded ones.

Nothing is said here of how the remote behaves. A read answers what the remote shows, a
create answers anything and may raise, and what a create does to the remote is the
remote's.
-/
import Novalton.Publication
import Novalton.RowLock
import Novalton.Status
import Novalton.Transition

namespace Novalton.GitHubPublications

inductive PublicationStatus where
  | pendingApproval | publishing | published | failed | stale | conflict | rejected
deriving DecidableEq, Repr

/-- The columns of a `GitHubPublicationAction` that change. -/
structure GitHubPublicationAction where
  status : PublicationStatus
  failureCode : Option String
  remoteTreeSha : Option Text
  remoteCommitSha : Option Text
  remoteRefSha : Option Text
  prNumber : Option ℕ
  prUrl : Option Text
deriving DecidableEq, Repr

/-- `trusted_binding()`. -/
structure GitHubBinding where
  provider : Text
  owner : Text
  repository : Text
  baseBranch : Text
deriving DecidableEq, Repr

/-- What `prepare` stored and `publish` reads of the action, with the binding. -/
structure Publishing where
  action : PublicationAction
  binding : GitHubBinding
  preparedRemoteBaseSha : Text
  branchRef : Text
  prTitle : Text
  prBody : Text
deriving DecidableEq

/-! ## The remote -/

structure RemoteCommit where
  sha : Text
  treeSha : Text
  parentSha : Text
  message : Text
  author : Text
  committer : Text
  authorTimestamp : Int
  committerTimestamp : Int
  authorTimezone : Int
  committerTimezone : Int
deriving DecidableEq, Repr

structure RemotePullRequest where
  number : ℕ
  url : Text
  headSha : Text
  title : Text
  body : Text
  headRef : Text
  baseRef : Text
deriving DecidableEq, Repr

/-- `repository_metadata`. -/
structure RepositoryMetadata where
  provider : Text
  owner : Text
  repository : Text
  defaultBranch : Text
deriving DecidableEq, Repr

/-- What the remote shows of its base branch, of the branch of the action's name, and of pull
requests for its head and base. -/
structure Remote where
  base : Text
  branch : Option Text
  pull : Option RemotePullRequest
deriving DecidableEq, Repr

/-- The calls that write to the remote. -/
inductive RemoteWrite where
  | createBlob (sha : Text)
  | createTree (sha : Text)
  | createCommit (sha : Text)
  | createBranch (ref sha : Text)
  | createPullRequest (title body head base : Text)
deriving DecidableEq, Repr

/-! ## The requests -/

/-- Where a request is, with the action as its session has it. -/
inductive Pc where
  | idle
  | approve (action : GitHubPublicationAction)
  | getForApproval (action : GitHubPublicationAction)
  | evaluate (action : GitHubPublicationAction)
  | satisfied (action : GitHubPublicationAction)
  | metadata (action : GitHubPublicationAction)
  | eligible (action : GitHubPublicationAction)
  | baseRef (action : GitHubPublicationAction)
  | readObjects (action : GitHubPublicationAction)
  | setPublishing (action : GitHubPublicationAction) (objects : List PublicationObject)
  | blobs (action : GitHubPublicationAction) (retrying : Bool) (objects : List PublicationObject)
  | createBlob (action : GitHubPublicationAction) (retrying : Bool) (object : PublicationObject)
      (objects : List PublicationObject)
  | parent (action : GitHubPublicationAction)
  | tree (action : GitHubPublicationAction)
  | createTree (action : GitHubPublicationAction)
  | commit (action : GitHubPublicationAction)
  | createCommit (action : GitHubPublicationAction)
  | baseRefAgain (action : GitHubPublicationAction)
  | branchRef (action : GitHubPublicationAction)
  | createBranch (action : GitHubPublicationAction)
  | branchRefAgain (action : GitHubPublicationAction)
  | findPull (action : GitHubPublicationAction)
  | createPull (action : GitHubPublicationAction)
  | findPullAgain (action : GitHubPublicationAction)
  | setPublished (action : GitHubPublicationAction) (pull : RemotePullRequest)
  | mark (action : GitHubPublicationAction) (status : PublicationStatus) (code : String)
deriving DecidableEq

/-- How the code a step calls answers. `refuse` is a check that fails, `unavailable` a
`GitHubOperationalError`, `fail` any other exception, a cancellation or a crash. -/
inductive Answer where
  | begin
  | proceed
  | refuse
  | evaluated (effect : PolicyEffect) (audited : Bool)
  | metadata (value : RepositoryMetadata)
  | reads (repo : Repository)
  | sha (value : Option Text)
  | commit (value : Option RemoteCommit)
  | ref (sha : Text)
  | pull (value : RemotePullRequest)
  | unavailable
  | fail

/-- The write of one step to the row. -/
inductive Write where
  | none
  | commit
  | rollback
  | lock
  | update (action : GitHubPublicationAction)
deriving DecidableEq

/-- The write of session `i`, if the row is free. -/
def Write.run (row : Row GitHubPublicationAction) (i : ℕ) : Write →
    Option (Row GitHubPublicationAction)
  | .none => .some row
  | .commit => .some (row.commit i)
  | .rollback => .some (row.rollback i)
  | .lock => row.lock i
  | .update action => row.put i action

/-- A column after `SET` where its value is not the loaded one. -/
def setColumn {α : Type} [DecidableEq α] (row loaded new : α) : α :=
  if new = loaded then row else new

/-- The row after `SET` of the columns in which `new` is not `loaded`. -/
def GitHubPublicationAction.set (row loaded new : GitHubPublicationAction) :
    GitHubPublicationAction where
  status := setColumn row.status loaded.status new.status
  failureCode := setColumn row.failureCode loaded.failureCode new.failureCode
  remoteTreeSha := setColumn row.remoteTreeSha loaded.remoteTreeSha new.remoteTreeSha
  remoteCommitSha := setColumn row.remoteCommitSha loaded.remoteCommitSha new.remoteCommitSha
  remoteRefSha := setColumn row.remoteRefSha loaded.remoteRefSha new.remoteRefSha
  prNumber := setColumn row.prNumber loaded.prNumber new.prNumber
  prUrl := setColumn row.prUrl loaded.prUrl new.prUrl

/-- `action.status = "PUBLISHING"`. -/
def GitHubPublicationAction.publishing (action : GitHubPublicationAction) :
    GitHubPublicationAction :=
  { action with status := .publishing }

/-- `_mark`, and with FAILED `_mark_failed`. -/
def GitHubPublicationAction.marked (action : GitHubPublicationAction) (status : PublicationStatus)
    (code : String) :
    GitHubPublicationAction :=
  { action with status := status, failureCode := .some code }

/-- `action.status in {"PUBLISHING", "FAILED"}`. -/
def GitHubPublicationAction.retrying (action : GitHubPublicationAction) : Bool :=
  action.status = .publishing || action.status = .failed

section
variable (lib : Library) (data : Publishing)

/-- What `publish` records at its end. The commit is the one it has checked. -/
def GitHubPublicationAction.published (action : GitHubPublicationAction)
    (pull : RemotePullRequest) :
    GitHubPublicationAction :=
  { action with
    status := .published
    remoteTreeSha := .some data.action.localTreeSha
    remoteCommitSha := .some data.action.localCommitSha
    remoteRefSha := .some data.action.localCommitSha
    prNumber := .some pull.number
    prUrl := .some pull.url }

/-- The call to the remote a request makes next, where it is a write. -/
def Pc.call : Pc → Option RemoteWrite
  | .createBlob _ _ object _ => .some (.createBlob object.sha)
  | .createTree _ => .some (.createTree data.action.localTreeSha)
  | .createCommit _ => .some (.createCommit data.action.localCommitSha)
  | .createBranch _ => .some (.createBranch data.branchRef data.action.localCommitSha)
  | .createPull _ =>
    .some (.createPullRequest data.prTitle data.prBody data.branchRef data.binding.baseBranch)
  | _ => .none

/-- `commit_matches`. -/
def commitMatches (remote : RemoteCommit) : Bool :=
  remote.sha == data.action.localCommitSha && remote.treeSha == data.action.localTreeSha &&
    remote.parentSha == data.action.localParentSha &&
      remote.message == data.action.changesetProof.message &&
    remote.author == data.action.changesetProof.author &&
      remote.committer == data.action.changesetProof.committer &&
    remote.authorTimestamp == data.action.changesetProof.timestamp &&
    remote.committerTimestamp == data.action.changesetProof.timestamp &&
      remote.authorTimezone == 0 &&
    remote.committerTimezone == 0

/-- The checks on the pull request. -/
def pullMatches (pull : RemotePullRequest) : Bool :=
  pull.headSha == data.action.localCommitSha && pull.headRef == data.branchRef &&
    pull.baseRef == data.binding.baseBranch && pull.title == data.prTitle &&
      pull.body == data.prBody

/-- The checks on the metadata. -/
def metadataMatches (value : RepositoryMetadata) : Bool :=
  value.provider == data.binding.provider && value.owner == data.binding.owner &&
    value.repository == data.binding.repository && value.defaultBranch == data.binding.baseBranch

/-- The step a request at `pc` takes on an answer, where the row and the remote are these. A
raise rolls its transaction back. -/
def next (row : GitHubPublicationAction) (remote : Remote) (pc : Pc) (answer : Answer) :
    Option (Write × Pc) :=
  match pc, answer with
  | .idle, .begin => go (.approve row)
  | .idle, _ => .none
  | _, .fail => leave
  | .approve action, .proceed => go (.getForApproval action)
  | .approve _, .refuse => leave
  | .getForApproval action, .proceed => if action.status = .published then leave
      else .some (.lock, .evaluate action)
  -- the audit commit lets the lock go
  | .evaluate action, .evaluated effect audited =>
    if effect ≠ .allow ∧ audited = false then .none
    else if effect = .requireConfirmation then .some (.commit, .satisfied action)
    else leave
  | .satisfied action, .proceed => go (.metadata action)
  | .satisfied _, .refuse => leave
  | .metadata action, .metadata value => if metadataMatches data value then go (.eligible action)
      else leave
  | .metadata action, .unavailable => failed action "repository_metadata_failed"
  | .eligible action, .proceed => go (.baseRef action)
  | .eligible _, .refuse => leave
  | .baseRef action, .proceed =>
    if remote.base = data.preparedRemoteBaseSha then go (.readObjects action)
      else go (.mark action .stale "stale_base")
  | .baseRef action, .unavailable => failed action "remote_base_read_failed"
  | .readObjects action, .reads repo =>
    match publishRead lib repo data.binding.baseBranch data.action with
    | .ok (_, objects) => go (.setPublishing action objects)
    | .error _ => leave
  -- no column changes where the loaded status is PUBLISHING
  | .setPublishing action objects, .proceed =>
    if action.status = .publishing then .some (.commit, .blobs action action.retrying objects)
    else .some (.update (row.set action action.publishing),
      .blobs action.publishing action.retrying objects)
  | .blobs action _ [], .proceed => go (.parent action)
  | .blobs action false (object :: objects), .proceed =>
    go (.createBlob action false object objects)
  | .blobs action true (object :: objects), .sha value =>
    match value with
    | .some sha => if sha = object.sha then go (.blobs action true objects)
        else conflict action "blob_sha_mismatch"
    | .none => go (.createBlob action true object objects)
  | .blobs action true (_ :: _), .unavailable => failed action "blob_creation_failed"
  | .createBlob action retrying object objects, .sha value =>
    if value = .some object.sha then go (.blobs action retrying objects)
      else conflict action "blob_sha_mismatch"
  | .createBlob action _ _ _, .unavailable => failed action "blob_creation_failed"
  | .parent action, .commit value =>
    if value.any fun parent => parent.sha == data.action.localParentSha then go (.tree action)
    else conflict action "parent_sha_mismatch"
  | .parent action, .unavailable => failed action "parent_read_failed"
  | .tree action, .sha value =>
    match value with
    | .some sha => if sha = data.action.localTreeSha then go (.commit action)
        else conflict action "tree_sha_mismatch"
    | .none => go (.createTree action)
  | .tree action, .unavailable => failed action "tree_read_failed"
  | .createTree action, .sha value =>
    if value = .some data.action.localTreeSha then go (.commit action)
      else conflict action "tree_sha_mismatch"
  | .createTree action, .unavailable => failed action "tree_creation_failed"
  | .commit action, .commit value =>
    match value with
    | .some created => if commitMatches data created then go (.baseRefAgain action)
        else conflict action "commit_sha_mismatch"
    | .none => go (.createCommit action)
  | .commit action, .unavailable => failed action "commit_read_failed"
  | .createCommit action, .commit value =>
    if value.any (commitMatches data) then go (.baseRefAgain action)
      else conflict action "commit_sha_mismatch"
  | .createCommit action, .unavailable => failed action "commit_creation_failed"
  | .baseRefAgain action, .proceed =>
    if remote.base = data.preparedRemoteBaseSha then go (.branchRef action)
      else go (.mark action .stale "stale_base")
  | .baseRefAgain action, .unavailable => failed action "remote_base_read_failed"
  | .branchRef action, .proceed =>
    match remote.branch with
    | .some sha => found action sha
    | .none => go (.createBranch action)
  | .branchRef action, .unavailable => failed action "branch_read_failed"
  | .createBranch action, .ref sha => found action sha
  | .createBranch action, .unavailable => go (.branchRefAgain action)
  | .branchRefAgain action, .proceed =>
    match remote.branch with
    | .some sha => found action sha
    | .none => failed action "branch_creation_uncertain"
  | .branchRefAgain action, .unavailable => failed action "branch_creation_uncertain"
  | .findPull action, .proceed =>
    match remote.pull with
    | .some pull => recorded action pull
    | .none => go (.createPull action)
  | .findPull action, .unavailable => failed action "pr_read_failed"
  | .createPull action, .pull pull => recorded action pull
  | .createPull action, .unavailable => go (.findPullAgain action)
  | .findPullAgain action, .proceed =>
    match remote.pull with
    | .some pull => recorded action pull
    | .none => failed action "pr_creation_uncertain"
  | .findPullAgain action, .unavailable => failed action "pr_creation_uncertain"
  | .setPublished action pull, .proceed =>
    .some (.update (row.set action (action.published data pull)), .idle)
  | .mark action status code, .proceed =>
    .some (.update (row.set action (action.marked status code)), .idle)
  | _, _ => .none
where
  leave : Option (Write × Pc) := .some (.rollback, .idle)
  go (pc : Pc) : Option (Write × Pc) := .some (.none, pc)
  failed (action : GitHubPublicationAction) (code : String) : Option (Write × Pc) :=
    go (.mark action .failed code)
  conflict (action : GitHubPublicationAction) (code : String) : Option (Write × Pc) :=
    go (.mark action .conflict code)
  /-- The branch that was read or created, checked. -/
  found (action : GitHubPublicationAction) (sha : Text) : Option (Write × Pc) :=
    if sha = data.action.localCommitSha then go (.findPull action)
      else conflict action "branch_conflict"
  /-- The pull request that was found or created, checked. -/
  recorded (action : GitHubPublicationAction) (pull : RemotePullRequest) : Option (Write × Pc) :=
    if pullMatches data pull then go (.setPublished action pull) else conflict action "pr_conflict"

/-- The row `prepare` stores. -/
def prepared : GitHubPublicationAction :=
  ⟨.pendingApproval, .none, .none, .none, .none, .none, .none⟩

end

/-! ## What a request can do -/

/-- A request past its approval. -/
def Pc.approved : Pc → Bool
  | .idle | .approve _ | .getForApproval _ | .evaluate _ | .satisfied _ => false
  | _ => true

/-- What a request marks before it has got the objects of the commit, and the status before. -/
def PublicationStatus.unpublished : PublicationStatus → Bool
  | .pendingApproval | .failed | .stale => true
  | _ => false

/-- A request that has not got the objects of the commit. -/
def Pc.early : Pc → Bool
  | .idle | .approve _ | .getForApproval _ | .evaluate _ | .satisfied _ | .metadata _ | .eligible _
  | .baseRef _
  | .readObjects _ => true
  | .mark _ status _ => status.unpublished
  | _ => false

section
variable {lib : Library} {data : Publishing} {row : GitHubPublicationAction} {remote : Remote}
  {pc pc' : Pc} {answer : Answer} {write : Write}

theorem early_call (h : pc.early = true) : pc.call data = .none := by
  cases pc with
  | createBlob | createTree | createCommit | createBranch | createPull => cases h
  | _ => rfl

/-- A column is the row's, or the new one. -/
theorem setColumn_cases {α : Type} [DecidableEq α] (x y z : α) : setColumn x y z = x ∨
    setColumn x y z = z := by
  unfold setColumn
  split
  · exact .inl rfl
  · exact .inr rfl

/-- A request gets past its approval where the approval is found APPROVED. -/
theorem next_approved (h : next lib data row remote pc answer = .some (write, pc'))
    (hpc : pc'.approved = true) :
    pc.approved = true ∨ ∃ action, pc = .satisfied action ∧ answer = .proceed := by
  cases pc with
  | idle =>
    cases answer with
    | begin => cases h; cases hpc
    | _ => cases h
  | approve action =>
    cases answer with
    | proceed | refuse | fail => cases h; cases hpc
    | _ => cases h
  | getForApproval action =>
    cases answer with
    | proceed =>
      simp only [next] at h
      split at h <;> cases h <;> cases hpc
    | fail => cases h; cases hpc
    | _ => cases h
  | evaluate action =>
    cases answer with
    | evaluated effect audited =>
      simp only [next] at h
      split at h
      · cases h
      · split at h <;> cases h <;> cases hpc
    | fail => cases h; cases hpc
    | _ => cases h
  | satisfied action =>
    cases answer with
    | proceed => exact .inr ⟨action, rfl, rfl⟩
    | refuse | fail => cases h; cases hpc
    | _ => cases h
  | _ => exact .inl rfl

/-- Where the objects of the commit cannot be read, a request stays in front of them, and
records no more than a failure. -/
theorem next_early
    (hread : ∀ repo result, publishRead lib repo data.binding.baseBranch data.action ≠ .ok result)
    (h : next lib data row remote pc answer = .some (write, pc')) (hpc : pc.early = true) :
    pc'.early = true ∧ ∀ action, write = .update action → row.status.unpublished = true →
      action.status.unpublished = true := by
  cases pc with
  | idle =>
    cases answer with
    | begin => cases h; exact ⟨rfl, (fun _ hwrite => by cases hwrite)⟩
    | _ => cases h
  | approve action =>
    cases answer with
    | proceed | refuse | fail => cases h; exact ⟨rfl, (fun _ hwrite => by cases hwrite)⟩
    | _ => cases h
  | getForApproval action =>
    cases answer with
    | proceed =>
      simp only [next] at h
      split at h <;> cases h <;> exact ⟨rfl, (fun _ hwrite => by cases hwrite)⟩
    | fail => cases h; exact ⟨rfl, (fun _ hwrite => by cases hwrite)⟩
    | _ => cases h
  | evaluate action =>
    cases answer with
    | evaluated effect audited =>
      simp only [next] at h
      split at h
      · cases h
      · split at h <;> cases h <;> exact ⟨rfl, (fun _ hwrite => by cases hwrite)⟩
    | fail => cases h; exact ⟨rfl, (fun _ hwrite => by cases hwrite)⟩
    | _ => cases h
  | satisfied action | eligible action =>
    cases answer with
    | proceed | refuse | fail => cases h; exact ⟨rfl, (fun _ hwrite => by cases hwrite)⟩
    | _ => cases h
  | metadata action =>
    cases answer with
    | metadata value =>
      simp only [next] at h
      split at h <;> cases h <;> exact ⟨rfl, (fun _ hwrite => by cases hwrite)⟩
    | unavailable | fail => cases h; exact ⟨rfl, (fun _ hwrite => by cases hwrite)⟩
    | _ => cases h
  | baseRef action =>
    cases answer with
    | proceed =>
      simp only [next] at h
      split at h <;> cases h <;> exact ⟨rfl, (fun _ hwrite => by cases hwrite)⟩
    | unavailable | fail => cases h; exact ⟨rfl, (fun _ hwrite => by cases hwrite)⟩
    | _ => cases h
  | readObjects action =>
    cases answer with
    | reads repo =>
      simp only [next] at h
      split at h
      next proof objects hok => exact absurd hok (hread repo (proof, objects))
      next =>
        cases h
        exact ⟨rfl, (fun _ hwrite => by cases hwrite)⟩
    | fail => cases h; exact ⟨rfl, (fun _ hwrite => by cases hwrite)⟩
    | _ => cases h
  | mark action status code =>
    cases answer with
    | proceed =>
      cases h
      refine ⟨rfl, fun new hwrite hrow => ?_⟩
      cases hwrite
      have hstatus : (setColumn row.status action.status status).unpublished = true := by
        rcases setColumn_cases row.status action.status status with hsame | hmarked
        · rw [hsame]
          exact hrow
        · rw [hmarked]
          exact hpc
      exact hstatus
    | fail => cases h; exact ⟨rfl, (fun _ hwrite => by cases hwrite)⟩
    | _ => cases h
  | _ => cases hpc

end

end Novalton.GitHubPublications
