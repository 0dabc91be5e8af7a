/-
The local git adapter (`modules/git_changesets/local.py`): reading the repository,
preparing a changeset over its HEAD, index and worktree, and proving a commit from
the object store alone.

Dulwich is what it reads a repository through, so a repository is given by what
Dulwich returns for it: the followed HEAD, the parsed index, the objects by id.
Object ids are the hex strings `_hex` makes of them. Names in trees are bytes, as
git has them; they need not be UTF-8.
-/
import Novalton.Workspace
import Mathlib.Data.List.Sort

namespace Novalton

/-! ## Repositories -/

/-- `dulwich.objects.Commit`. -/
structure Commit where
  tree : Text
  parents : List Text
  author : Bytes
  committer : Bytes
  message : Bytes
  authorTime : Int
  commitTime : Int
  authorTimezone : Int
  commitTimezone : Int
deriving DecidableEq

/-- The entries of a tree: name, mode and object id. -/
abbrev TreeEntries := List (Bytes × Nat × Text)

inductive GitObject where
  | blob (data : Bytes)
  | tree (entries : TreeEntries)
  | commit (commit : Commit)
deriving DecidableEq

abbrev ObjectStore := List (Text × GitObject)

/-- `repo.object_store[sha]`. -/
def ObjectStore.get (store : ObjectStore) (sha : Text) : Py GitObject :=
  orRaise (store.lookup sha) (.objectMissing sha)

structure IndexEntry where
  sha : Text
  mode : Nat
  stage : Nat
deriving DecidableEq

/-- `dulwich.index.Index`, as far as it is read. -/
structure GitIndex where
  entries : List (Bytes × IndexEntry)
  hasConflicts : Bool
  isSparse : Bool
  extensions : Bool
deriving DecidableEq

/-- The index file: its bytes, and what Dulwich parses from them. -/
structure IndexFile where
  regular : Bool
  raw : Bytes
  parsed : Option GitIndex
deriving DecidableEq

/-- What `_git_dir` looks at. `plain` says of a name below `.git` that it exists and
is no symbolic link, `present` that it exists. -/
structure GitDir where
  directory : Bool
  plain : String → Bool
  present : String → Bool

/-- An approved root with the repository in it. `follow` is `repo.refs.follow(b"HEAD")`,
or `none` where opening the repository raises. -/
structure Repository where
  rootPath : Text
  worktree : Node
  gitDir : GitDir
  follow : Option (List Text × Option Text)
  bare : Bool
  atRoot : Bool
  config : Option Text
  directRefRegular : Text → Bool
  index : IndexFile
  objects : ObjectStore

/-- `_git_dir`. -/
def gitDirChecked (dir : GitDir) : Py Unit := do
  raiseIf (!dir.directory) (.tool "git_repository_unsupported")
  raiseIf (["HEAD", "config", "objects", "refs"].any (!dir.plain ·)) (.tool "git_repository_unsafe")
  raiseIf (["objects/info/alternates", "info/grafts"].any dir.present)
    (.tool "git_repository_unsupported")
  raiseIf (["MERGE_HEAD", "CHERRY_PICK_HEAD", "REVERT_HEAD", "rebase-merge", "rebase-apply"].any
    dir.present)
    (.tool "git_operation_in_progress")

/-- The config section scanned so far, and whether anything unsupported was met. -/
structure ConfigScan where
  sectionName : Text
  unsupported : Bool

/-- One line of the config loop, already stripped and case-folded. -/
def ConfigScan.line (scan : ConfigScan) (line : Text) : ConfigScan :=
  if line.isEmpty || ['#'].isPrefixOf line || [';'].isPrefixOf line then scan
  else if ['['].isPrefixOf line && [']'].isSuffixOf line then
    let sectionName := strip (partition '"' (line.drop 1).dropLast).1
    { sectionName
      unsupported := scan.unsupported ||
        ["extensions", "include", "includeif"].any (·.toList.isPrefixOf sectionName) }
  else
    let (key, found, value) := partition '=' line
    { scan with
      unsupported := scan.unsupported || !found ||
        (scan.sectionName == "core".toList && strip key == "repositoryformatversion".toList &&
          strip value != ['0']) ||
        ["extensions.objectformat", "objectformat"].any (·.toList == strip key) }

section
variable (lib : Library)

def configUnsupported (config : Text) : Bool :=
  ((splitLinesKeep config).foldl (fun (scan : ConfigScan) raw =>
    scan.line (lib.casefold (strip raw)))
    ⟨[], false⟩).unsupported

/-- `_repo`, to the branch ref and the id HEAD resolves to. -/
def openRepo (repo : Repository) : Py (Text × Text) := do
  gitDirChecked repo.gitDir
  let (chain, tip) ← orRaise repo.follow (.tool "git_repository_unavailable")
  raiseIf (repo.bare || chain.length != 2 || chain.head? != .some "HEAD".toList ||
    !("refs/heads/".toList.isPrefixOf (chain.getLast?.getD [])))
      (.tool "git_repository_unsupported")
  let branch := chain.getLast?.getD []
  let head ← orRaise tip (.tool "git_repository_unsupported")
  raiseIf (head.length != 40 || !repo.atRoot) (.tool "git_repository_unsupported")
  let config ← orRaise repo.config .unicodeDecodeError
  raiseIf (configUnsupported lib config) (.tool "git_repository_unsupported")
  raiseIf (!repo.directRefRegular branch) (.tool "git_repository_unsafe")
  return (branch, head)

/-- `_index`, with the fingerprint of the index file. -/
def readIndex (repo : Repository) : Py (GitIndex × Text) := do
  raiseIf (!repo.index.regular) (.tool "git_index_unsupported")
  let raw := repo.index.raw
  raiseIf (decide (raw.length < 32) || raw.take 4 != encode "DIRC".toList ||
    !([[0, 0, 0, 2], [0, 0, 0, 3]].contains ((raw.drop 4).take 4))) (.tool "git_index_unsupported")
  let index ← orRaise repo.index.parsed (.tool "git_index_unsupported")
  raiseIf (index.hasConflicts || index.isSparse || index.extensions) (.tool "git_index_unsupported")
  return (index, lib.sha256 raw)

/-- `stat.S_ISDIR`. -/
def isDirMode (mode : Nat) : Bool := mode &&& 0o170000 == 0o040000

def regularModes : List Nat := [0o100644, 0o100755]

/-- `_tree_entry`: the mode and object id at a path of a tree. -/
def treeEntry (store : ObjectStore) : TreeEntries → List Bytes → Py (Nat × Text)
  | _, [] => .error (.tool "git_head_path_invalid")
  | entries, [part] => orRaise (entries.lookup part) (.tool "git_head_path_missing")
  | entries, part :: rest => do
    let (mode, sha) ← orRaise (entries.lookup part) (.tool "git_head_path_missing")
    if isDirMode mode then
      match ← store.get sha with
      | .tree child => treeEntry store child rest
      | _ => .error (.tool "git_tree_invalid")
    else .error (.tool "git_head_path_invalid")

/-- `_tree_entries`: every non-tree entry below a tree, by its joined path. Trees nest
at most `depth` deep before Python's recursion limit. -/
def treeEntries (store : ObjectStore) : Nat → List Bytes → TreeEntries → Py (Dict Text (Nat × Text))
  | 0, _, _ => .error .recursionError
  | depth + 1, pre, entries =>
    entries.foldlM (fun acc entry => do
      let (name, mode, sha) := entry
      let path := pre ++ [name]
      if isDirMode mode then
        match ← store.get sha with
        | .tree child => do
          let below ← treeEntries store depth path child
          return Dict.update acc below
        | _ => .error (.tool "git_tree_invalid")
      else do
        let key ← orRaise (decode (joinSlashBytes path)) .unicodeDecodeError
        return Dict.set acc key (mode, sha)) []

/-- `sys.getrecursionlimit()`. -/
def recursionLimit : Nat := 1000

/-- `stat.S_IFREG`: `S_IFMT` of a regular file. -/
def sIfreg : Nat := 0o100000

/-- `_read_worktree`. -/
def readWorktree (worktree : Node) (path : Text) (expectedMode : Nat) : Py Bytes := do
  raiseIf (denied lib (splitSlash path)) (.tool "sensitive_path_denied")
  let parts ← resolve lib worktree path false
  let (perm, raw) ← orRaise (readFile worktree parts) (.tool "workspace_read_failed")
  raiseIf (sIfreg + perm != expectedMode || decide (65536 < raw.length) || raw.contains 0)
    (.tool "git_worktree_unsupported")
  return raw

/-! ## Preparing a changeset -/

/-- One mutated path with the hashes its tool calls recorded. -/
structure Candidate where
  path : Text
  preimageSha256 : Text
  candidateSha256 : Text
deriving DecidableEq

structure PreparedPath where
  path : Text
  headSha256 : Text
  candidateSha256 : Text
  mode : Nat
  headBlobId : Text
  candidateBlobId : Text
deriving DecidableEq

structure LocalPreparation where
  repositoryKey : Text
  branchRef : Text
  headSha : Text
  indexFingerprint : Text
  paths : List PreparedPath
  previewDiff : Text
  treeId : Text
deriving DecidableEq

def maxGitDiffBytes : Nat := 32768

/-- The tree of a commit, with `git_head_invalid` for anything missing or of another kind. -/
def headTree (store : ObjectStore) (head : Text) : Py (Text × TreeEntries) :=
  match store.lookup head with
  | .some (.commit base) =>
    match store.lookup base.tree with
    | .some (.tree entries) => .ok (base.tree, entries)
    | _ => .error (.tool "git_head_invalid")
  | _ => .error (.tool "git_head_invalid")

/-- The body of `prepare`'s loop: the prepared path and its diff. -/
def preparePath (repo : Repository) (tree : TreeEntries) (index : GitIndex) (item : Candidate) :
    Py (PreparedPath × Text) := do
  let raw := encode item.path
  let (mode, oldBlobId) ← treeEntry repo.objects tree (splitSlashBytes raw)
  raiseIf (!regularModes.contains mode) (.tool "git_head_path_unsupported")
  raiseIf (index.entries.lookup raw != .some ⟨oldBlobId, mode, 0⟩) (.tool "git_index_target_dirty")
  match ← repo.objects.get oldBlobId with
  | .blob oldBytes => do
    raiseIf (lib.sha256 oldBytes != item.preimageSha256) (.tool "git_preexisting_target_dirty")
    let current ← readWorktree lib repo.worktree item.path mode
    raiseIf (lib.sha256 current != item.candidateSha256) (.tool "git_stale_worktree")
    let oldText ← orRaise (decode oldBytes) .unicodeDecodeError
    let currentText ← orRaise (decode current) .unicodeDecodeError
    let diff := lib.unifiedDiff (splitLinesKeep oldText) (splitLinesKeep currentText)
      ("a/".toList ++ item.path) ("b/".toList ++ item.path)
    return (⟨item.path, item.preimageSha256, item.candidateSha256, mode, oldBlobId,
      lib.blobId current⟩, diff)
  | _ => .error (.tool "git_head_path_invalid")

/-- `prepare`. -/
def GitLocal.prepare (repo : Repository) (candidates : List Candidate) : Py LocalPreparation := do
  let (branch, head) ← openRepo lib repo
  let (index, indexFingerprint) ← readIndex lib repo
  let (treeId, tree) ← headTree repo.objects head
  let ordered := candidates.insertionSort fun (a b : Candidate) =>
    bytesLe (encode a.path) (encode b.path) = true
  let prepared ← ordered.mapM (preparePath lib repo tree index)
  let diffText := (prepared.map Prod.snd).flatten
  raiseIf (prepared.isEmpty || decide (maxGitDiffBytes < (encode diffText).length))
    (.tool "git_diff_preview_too_large")
  return {
    repositoryKey := lib.sha256 (encode repo.rootPath)
    branchRef := branch
    headSha := head
    indexFingerprint
    paths := prepared.map Prod.fst
    previewDiff := diffText
    treeId }

end

/-! ## A one-file repository

`a.txt` holding `a`, committed on `main`; `exampleNext` is the repository after the
commit that makes it `b`. Ids and hashes are the real ones. -/

/-- The `width` hex digits of a number. -/
def hexText : Nat → Nat → Text
  | 0, _ => []
  | width + 1, value =>
    let digit := value % 16
    hexText width (value / 16) ++ [Char.ofNat (if digit < 10 then 48 + digit else 87 + digit)]

def exampleShaA : Text :=
  hexText 64 0xca978112ca1bbdcafac231b39a23dc4da786eff8147c4e72b9807785afee48bb

def exampleShaB : Text :=
  hexText 64 0x3e23e8160039594a33894f6564e1b1348bbd7a0088d42c4acb73eeaed59c009d

def exampleBlobA : Text := hexText 40 0x2e65efe2a145dda7ee51d1741299f848e5bf752e

def exampleBlobB : Text := hexText 40 0x63d8dbd40c23542e740659a7168a0ce3138ea748

def exampleTreeA : Text := hexText 40 0x1a602d9bd07ce5272ddaa64e21da12dbca2b8c9f

def exampleTreeB : Text := hexText 40 0x582e95bc6c77c328882256fc78ce9e626fa05ecf

def exampleBase : Text := hexText 40 0x6e2718d9ce1d2f49d19facf2bf87428f58993ac9

def exampleCommit : Text := hexText 40 0x756b995f087a660f372771142022a627bce2fd73

def exampleIdentity : Text := "Novalton OS <novalton@local.invalid>".toList

/-- The index file with `a.txt` as its one entry. -/
def exampleIndexRaw : Bytes :=
  [68, 73, 82, 67, 0, 0, 0, 2, 0, 0, 0, 1] ++ List.replicate 26 0 ++ [129, 164] ++
    List.replicate 11 0 ++
    [1, 46, 101, 239, 226, 161, 69, 221, 167, 238, 81, 209, 116, 18, 153, 248, 72, 229, 191, 117,
      46, 0, 5, 97, 46, 116, 120, 116, 0, 0, 0, 0, 0, 221, 188, 94, 12, 229, 255, 224, 243, 252, 86,
        99, 238, 7, 211, 45, 28, 30, 102,
      246, 148]

/-- The library functions on the inputs the example meets. -/
def exampleLibrary : Library where
  sha256 raw :=
    if raw = encode ['a'] then exampleShaA
    else if raw = encode ['b'] then exampleShaB
    else if raw = encode ("a.txt".toList ++ '\x00' :: exampleShaA ++ '\x00' :: exampleShaB) then
      hexText 64 0xa3ebab26429c41d86c052b4938878dc2ed92ff1e77d2fcfbde7547e4f8c6de8d
    else if raw = encode ("a.txt".toList ++ '\x00' :: exampleShaA ++ '\x00' :: exampleShaA) then
      hexText 64 0x8c8bfbb9e54c21fcfa35a56648026177aedada9096880528ad65e558cc581bd5
    else if raw = encode "/w".toList then
      hexText 64 0xd1bb8ca354673cd575d31d952490058c9943aef39d5a9553fb4a21ab7a59a19d
    else if raw = exampleIndexRaw then
      hexText 64 0xf3e62c8fb6b5a568ec8bba6ef41a9ce2642c45815b62cb8d41830892ff53b41b
    else []
  casefold text := text.map Char.toLower
  -- right for two texts of at most one line without a newline
  unifiedDiff old new fromFile toFile :=
    if old = new then []
    else "--- ".toList ++ fromFile ++ "\n+++ ".toList ++ toFile ++ "\n@@ -1 +1 @@\n-".toList ++
      old.flatten ++
      '+' :: new.flatten
  blobId raw := if raw = encode ['a'] then exampleBlobA else exampleBlobB

def exampleStore : ObjectStore :=
  [(exampleBlobA, .blob (encode ['a'])), (exampleBlobB, .blob (encode ['b'])),
    (exampleTreeA, .tree [(encode "a.txt".toList, 0o100644, exampleBlobA)]),
    (exampleTreeB, .tree [(encode "a.txt".toList, 0o100644, exampleBlobB)]),
    (exampleBase, .commit ⟨exampleTreeA, [], encode exampleIdentity, encode exampleIdentity,
      encode ['m'], 1, 1, 0, 0⟩),
    (exampleCommit, .commit ⟨exampleTreeB, [exampleBase], encode exampleIdentity,
      encode exampleIdentity, encode ['n'], 2, 2, 0, 0⟩)]

/-- The repository at `exampleBase`, with `data` in the worktree's `a.txt`. -/
def exampleRepository (data : Bytes) : Repository where
  rootPath := "/w".toList
  worktree := .directory [("a.txt".toList, .file 0o644 data)]
  gitDir := ⟨true, fun _ => true, fun _ => false⟩
  follow := .some (["HEAD".toList, "refs/heads/main".toList], .some exampleBase)
  bare := false
  atRoot := true
  config := .some "[core]\nrepositoryformatversion = 0\n".toList
  directRefRegular _ := true
  index := ⟨true, exampleIndexRaw,
    .some ⟨[(encode "a.txt".toList, ⟨exampleBlobA, 0o100644, 0⟩)], false, false, false⟩⟩
  objects := exampleStore

def exampleNext : Repository :=
  { exampleRepository (encode ['b']) with
    follow := .some (["HEAD".toList, "refs/heads/main".toList], .some exampleCommit) }

def exampleCandidate : Candidate := ⟨"a.txt".toList, exampleShaA, exampleShaB⟩

def exampleDiff : Text := "--- a/a.txt\n+++ b/a.txt\n@@ -1 +1 @@\n-a+b".toList

def examplePreparation : LocalPreparation where
  repositoryKey := hexText 64 0xd1bb8ca354673cd575d31d952490058c9943aef39d5a9553fb4a21ab7a59a19d
  branchRef := "refs/heads/main".toList
  headSha := exampleBase
  indexFingerprint := hexText 64 0xf3e62c8fb6b5a568ec8bba6ef41a9ce2642c45815b62cb8d41830892ff53b41b
  paths := [⟨"a.txt".toList, exampleShaA, exampleShaB, 0o100644, exampleBlobA, exampleBlobB⟩]
  previewDiff := exampleDiff
  treeId := exampleTreeA

theorem examplePrepare : GitLocal.prepare exampleLibrary (exampleRepository (encode ['b']))
    [exampleCandidate] =
    .ok examplePreparation := by decide +kernel

end Novalton
