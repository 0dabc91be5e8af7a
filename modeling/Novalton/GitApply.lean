/-
Applying a prepared changeset (`apply`, `_replace_tree` and `_write_index_entries` of
`modules/git_changesets/local.py`), and the commit id `prepare` expects it to come to.

`apply` is in three parts, for other processes may act between them: what it reads and
checks, to the commit it is to set the branch to; the compare and set of the branch; and
the index entries it writes last. The ids Dulwich gives trees and commits are parameters.
-/
import Novalton.Publication
import Mathlib.Data.List.Dedup

namespace Novalton

/-- Dulwich's ids of trees and commits, as hex strings. -/
structure ObjectIds where
  treeId : TreeEntries → Text
  commitId : Commit → Text

/-- `object_store.add_object`. -/
def ObjectStore.add (store : ObjectStore) (id : Text) (object : GitObject) : ObjectStore :=
  if (store.lookup id).isSome then store else (id, object) :: store

/-- The `replacements` of `_replace_tree`: the mode and blob id at a path. -/
abbrev Replacements := Dict (List Bytes) (Nat × Text)

/-- The `child_names` of `_replace_tree`. -/
def childNames (replacements : Replacements) (pre : List Bytes) : List Bytes :=
  replacements.keys.filterMap fun path => path[pre.length]?

/-- There are `child_paths` below a name. -/
def hasChildPaths (replacements : Replacements) (pre : List Bytes) (name : Bytes) : Bool :=
  replacements.keys.any fun path => decide (pre.length + 1 < path.length) &&
    path.take (pre.length + 1) == pre ++ [name]

/-- `sorted(names | child_names)`. -/
def replacedNames (replacements : Replacements) (pre : List Bytes) (tree : TreeEntries) :
    List Bytes :=
  (tree.map Prod.fst ++ childNames replacements pre).dedup.insertionSort fun a b => bytesLe a b =
    true

section
variable (lib : Library) (ids : ObjectIds)

/-- `_replace_tree`, to the new tree's id and the store. Trees nest at most `depth` deep
before Python's recursion limit. -/
def replaceTree (persist : Bool) (replacements : Replacements) :
    Nat → List Bytes → TreeEntries → ObjectStore → Py (Text × ObjectStore)
  | 0, _, _, _ => .error .recursionError
  | depth + 1, pre, tree, store => do
    let (entries, store) ← (replacedNames replacements pre tree).foldlM
        (fun (acc : TreeEntries × ObjectStore) name => do
      match replacements.get? (pre ++ [name]) with
      | .some (mode, sha) => return (acc.1 ++ [(name, mode, sha)], acc.2)
      | .none =>
        let (mode, sha) ← orRaise (tree.lookup name) (.keyError "name")
        if hasChildPaths replacements pre name then
          match ← acc.2.get sha with
          | .tree child => do
            let (sha, store) ← replaceTree persist replacements depth (pre ++ [name]) child acc.2
            return (acc.1 ++ [(name, mode, sha)], store)
          | _ => .error (.tool "git_tree_invalid")
        else return (acc.1 ++ [(name, mode, sha)], acc.2)) ([], store)
    let id := ids.treeId entries
    return (id, if persist then store.add id (.tree entries) else store)

/-- The arguments of `apply`, from the row of the commit action. -/
structure ApplyArguments where
  paths : List PreparedPath
  expectedHead : Text
  expectedIndex : Text
  branchRef : Text
  message : Text
  identity : Text
  timestamp : Int
  expectedCommit : Text
deriving DecidableEq

/-- The commit both `apply` and `expected_commit_sha` make. -/
def changesetCommit (tree head message identity : Text) (timestamp : Int) : Commit where
  tree := tree
  parents := [head]
  author := encode identity
  committer := encode identity
  message := encode message
  authorTime := epochSeconds timestamp
  commitTime := epochSeconds timestamp
  authorTimezone := 0
  commitTimezone := 0

/-- The replacement key of a path. -/
def pathKey (path : Text) : List Bytes := splitSlashBytes (encode path)

/-- The body of the recovery loop. -/
def recoverPath (repo : Repository) (recovered : Replacements) (item : PreparedPath) :
    Py Replacements := do
  let raw ← readWorktree lib repo.worktree item.path item.mode
  raiseIf (lib.sha256 raw != item.candidateSha256) (.tool "git_stale_worktree")
  let candidate ← repo.objects.get item.candidateBlobId
  raiseIf (candidate != .blob raw) (.tool "git_commit_recovery_invalid")
  return recovered.set (pathKey item.path) (item.mode, item.candidateBlobId)

/-- The body of the loop that collects the replacements, with the store. -/
def replacePath (repo : Repository) (index : GitIndex) (tree : TreeEntries)
    (acc : Replacements × ObjectStore) (item : PreparedPath) : Py (Replacements × ObjectStore) := do
  let (oldMode, oldBlobId) ← treeEntry acc.2 tree (pathKey item.path)
  raiseIf (oldMode != item.mode || oldBlobId != item.headBlobId) (.tool "git_stale_path")
  raiseIf (index.entries.lookup (encode item.path) != .some ⟨oldBlobId, item.mode, 0⟩)
    (.tool "git_stale_index")
  let raw ← readWorktree lib repo.worktree item.path item.mode
  raiseIf (lib.sha256 raw != item.candidateSha256) (.tool "git_stale_worktree")
  return (acc.1.set (pathKey item.path) (item.mode, lib.blobId raw),
    acc.2.add (lib.blobId raw) (.blob raw))

/-- What `apply` comes to before it sets the branch. -/
inductive Applying where
  /-- HEAD is the expected commit already. -/
  | recovered (entries : Replacements)
  | commit (commit : Commit) (store : ObjectStore) (entries : Replacements)
deriving DecidableEq

/-- The index entries written last. -/
def Applying.entries : Applying → Replacements
  | .recovered entries => entries
  | .commit _ _ entries => entries

/-- The commit from `expected_head`, once the head is known to be it. -/
def applyCommit (repo : Repository) (head : Text) (data : ApplyArguments) : Py Applying := do
  let (index, fingerprint) ← readIndex lib repo
  raiseIf (fingerprint != data.expectedIndex) (.tool "git_stale_index")
  match ← repo.objects.get head with
  | .commit base => do
    match ← repo.objects.get base.tree with
    | .tree tree => do
      let (replacements, store) ← data.paths.foldlM (replacePath lib repo index tree) ([],
        repo.objects)
      let (newTree, store) ← replaceTree ids true replacements recursionLimit [] tree store
      let commit := changesetCommit newTree head data.message data.identity data.timestamp
      raiseIf (ids.commitId commit != data.expectedCommit) (.tool "git_commit_identity_mismatch")
      return .commit commit (store.add (ids.commitId commit) (.commit commit)) replacements
    | _ => .error (.tool "git_head_invalid")
  | _ => .error (.tool "git_head_invalid")

/-- `apply`, up to the compare and set. -/
def applyChecked (repo : Repository) (data : ApplyArguments) : Py Applying := do
  let (branch, head) ← openRepo lib repo
  raiseIf (branch != data.branchRef) (.tool "git_stale_branch")
  if head = data.expectedCommit then do
    let _ ← readIndex lib repo
    let recovered ← data.paths.foldlM (recoverPath lib repo) []
    return .recovered recovered
  else do
    raiseIf (head != data.expectedHead) (.tool "git_stale_head")
    applyCommit lib ids repo head data

/-- `_write_index_entries`: the entries by path, from the files that stand there. Writing
the index file is not part of it. -/
def indexEntries (worktree : Node) (replacements : Replacements) : Py (List (Bytes × IndexEntry)) :=
  replacements.mapM fun entry => do
    let path ← orRaise (decode (joinSlashBytes entry.1)) .unicodeDecodeError
    let _ ← resolve lib worktree path false
    return (joinSlashBytes entry.1, ⟨entry.2.2, entry.2.1, 0⟩)

/-- The replacements of a preparation. -/
def preparedReplacements (paths : List PreparedPath) : Replacements :=
  paths.foldl (fun acc item => acc.set (pathKey item.path) (item.mode, item.candidateBlobId)) []

/-- `expected_commit_sha`. -/
def expectedCommitSha (repo : Repository) (preparation : LocalPreparation) (message identity : Text)
    (timestamp : Int) :
    Py Text := do
  let (_, head) ← openRepo lib repo
  match ← repo.objects.get head with
  | .commit base => do
    match ← repo.objects.get base.tree with
    | .tree tree => do
      let (newTree, _) ← replaceTree ids false (preparedReplacements preparation.paths)
        recursionLimit [] tree repo.objects
      return ids.commitId (changesetCommit newTree head message identity timestamp)
    | _ => .error (.tool "git_head_invalid")
  | _ => .error (.tool "git_head_invalid")

/-! ## What a check that passes says -/

variable {lib ids}

/-- A commit to be made stands on the expected head and is the expected one. -/
theorem applyChecked_commit {repo : Repository} {data : ApplyArguments} {commit : Commit}
    {store : ObjectStore} {entries : Replacements}
    (h : applyChecked lib ids repo data = .ok (.commit commit store entries)) :
    openRepo lib repo = .ok (data.branchRef, data.expectedHead) ∧
      commit.parents = [data.expectedHead] ∧
      ids.commitId commit = data.expectedCommit := by
  simp only [applyChecked, Py.bind_eq_ok, raiseIf_eq_ok] at h
  obtain ⟨⟨branch, head⟩, hopen, _, hbranch, h⟩ := h
  have hbranch' : branch = data.branchRef := by simpa using hbranch
  subst hbranch'
  split at h
  · simp [Py.bind_eq_ok, pure, Except.pure] at h
  · simp only [Py.bind_eq_ok, raiseIf_eq_ok] at h
    obtain ⟨_, hhead, h⟩ := h
    have hhead' : head = data.expectedHead := by simpa using hhead
    subst hhead'
    refine ⟨hopen, ?_⟩
    simp only [applyCommit, Py.bind_eq_ok, raiseIf_eq_ok] at h
    obtain ⟨⟨index, fingerprint⟩, -, -, -, object, -, h⟩ := h
    split at h
    next base =>
      simp only [Py.bind_eq_ok] at h
      obtain ⟨object, -, h⟩ := h
      split at h
      next tree =>
        simp only [Py.bind_eq_ok, raiseIf_eq_ok] at h
        obtain ⟨⟨replacements, store₁⟩, -, ⟨newTree, store₂⟩, -, _, hid, h⟩ := h
        cases h
        exact ⟨rfl, by simpa using hid⟩
      next => cases h
    next => cases h

/-- A recovery is of the expected commit, on the branch. -/
theorem applyChecked_recovered {repo : Repository} {data : ApplyArguments} {entries : Replacements}
    (h : applyChecked lib ids repo data = .ok (.recovered entries)) :
    openRepo lib repo = .ok (data.branchRef, data.expectedCommit) := by
  simp only [applyChecked, Py.bind_eq_ok, raiseIf_eq_ok] at h
  obtain ⟨⟨branch, head⟩, hopen, _, hbranch, h⟩ := h
  have hbranch' : branch = data.branchRef := by simpa using hbranch
  subst hbranch'
  split at h
  · rename_i hhead
    have hhead' : head = data.expectedCommit := hhead
    rw [hopen, hhead']
  · simp only [Py.bind_eq_ok, raiseIf_eq_ok, applyCommit] at h
    obtain ⟨-, -, ⟨index, fingerprint⟩, -, -, -, object, -, h⟩ := h
    split at h
    · simp only [Py.bind_eq_ok] at h
      obtain ⟨object, -, h⟩ := h
      split at h
      · simp [Py.bind_eq_ok, pure, Except.pure] at h
      · cases h
    · cases h

end

/-! ## The one-file repository

The commit of `b` over `exampleBase`, as prepared from `examplePreparation`. -/

/-- The ids of the example's tree and commit. -/
def exampleIds : ObjectIds where
  treeId entries := if entries = [(encode "a.txt".toList, 0o100644, exampleBlobB)] then exampleTreeB
    else exampleTreeA
  commitId commit :=
    if commit = changesetCommit exampleTreeB exampleBase ['n'] exampleIdentity 2000000 then
      exampleCommit else exampleBase

def exampleArguments : ApplyArguments where
  paths := examplePreparation.paths
  expectedHead := exampleBase
  expectedIndex := examplePreparation.indexFingerprint
  branchRef := examplePreparation.branchRef
  message := ['n']
  identity := exampleIdentity
  timestamp := 2000000
  expectedCommit := exampleCommit

def exampleEntries : Replacements := [([encode "a.txt".toList], (0o100644, exampleBlobB))]

end Novalton
