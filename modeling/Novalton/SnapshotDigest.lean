/-
The digest of a source tree, computed twice: by the API (`source_digest` of
`infrastructure/verification_sandbox.py`), which walks the tree with `os.walk`, and by the
verification worker (`stage_snapshot` of `infra/verification/i044a-v2/worker/i044a.py`),
which copies the tree first and then digests the copy.

Both leave out the same names and keep to the same bounds. `os.walk` passes over a
directory that it cannot list; the copy does not. The copy also encodes every name it
lists, wants at least one entry, and descends by recursion.
-/
import Mathlib.Data.List.Nodup
import Mathlib.Data.List.Perm.Basic
import Mathlib.Data.List.Sort
import Novalton.BoundedTally
import Novalton.FramedRecords
import Novalton.Workspace

namespace Novalton.SnapshotDigest

open BoundedTally (Tally Within Walks)

/-! ## Source trees -/

/-- What stands under a name. `readable` is whether it can be opened, a directory to be listed;
what `lstat` cannot reach, in a directory that can be listed but not entered, is
`unavailable`. The entries come in the order of the file system. -/
inductive SourceNode where
  | file (readable : Bool) (data : Bytes)
  | directory (readable : Bool) (entries : List (Bytes × SourceNode))
  | symlink (toDirectory : Bool)
  | special
  | unavailable

def SourceNode.isSymlink : SourceNode → Bool
  | .symlink _ => true
  | _ => false

/-- `os.walk` puts links to directories among the directories. -/
def SourceNode.isDirectory : SourceNode → Bool
  | .directory _ _ => true
  | .symlink toDirectory => toDirectory
  | _ => false

def SourceNode.size : SourceNode → ℕ
  | .file _ data => data.length
  | _ => 0

/-- How a walk ends that refuses the tree. `encodeError` is the `UnicodeEncodeError` of a name
that is not UTF-8. -/
inductive Refusal where
  | sandbox (code : String)
  | worker (code : String)
  | osError
  | encodeError
  | recursionError
deriving DecidableEq, Repr

def MAX_FILES : ℕ := 4096

def MAX_FILE_BYTES : ℕ := 2 * 1024 * 1024

def MAX_SOURCE_BYTES : ℕ := 32 * 1024 * 1024

/-- `_EXCLUDED_NAMES` of the API and `EXCLUDED` of the worker. -/
def EXCLUDED : List Bytes :=
  [".git", ".mypy_cache", ".next", ".pytest_cache", ".ruff_cache", ".tox", ".venv", "__pycache__",
    "coverage", "dist", "node_modules"].map fun name => encode name.toList

/-- `_excluded` of the API and `_sensitive` of the worker. -/
def excluded (relative : List Bytes) : Bool :=
  relative.any fun part => EXCLUDED.contains part || (encode ".env".toList).isPrefixOf part

/-- The name is UTF-8, so that `str.encode` takes what it was decoded to. -/
def encodable (name : Bytes) : Bool := (decode name).isSome

/-- `relative.as_posix().encode()`, where every part is encodable. -/
def posix (relative : List Bytes) : Bytes := joinSlashBytes relative

/-- A file that is digested: its path below the root and its content. -/
abbrev Admitted := List Bytes × Bytes

/-- The first character of `raw`, and its length. -/
def leadingChar (raw : Bytes) : Option (Char × ℕ) :=
  [1, 2, 3, 4].findSome? fun n => ((decode (raw.take n)).bind List.head?).map fun c => (c, n)

/-- `os.fsdecode`, as code points: a byte that is part of no character becomes a lone surrogate. -/
def fsdecode : Bytes → List ℕ
  | [] => []
  | byte :: rest =>
    match leadingChar (byte :: rest) with
    | .some (c, n) => c.toNat :: fsdecode (rest.drop (n - 1))
    | .none => (0xdc00 + byte.toNat) :: fsdecode rest
termination_by raw => raw.length

/-- In the order of the decoded names. -/
def byText {α : Type} (entries : List (Bytes × α)) : List (Bytes × α) :=
  entries.insertionSort fun a b => fsdecode a.1 ≤ fsdecode b.1

/-- In the order of the names themselves. -/
def byName {α : Type} (entries : List (Bytes × α)) : List (Bytes × α) :=
  entries.insertionSort fun a b => bytesLe a.1 b.1 = true

/-- `str(n).encode("ascii")`. -/
def decimalBytes (n : ℕ) : Bytes := (Nat.toDigits 10 n).map fun c => UInt8.ofNat c.toNat

/-- What is fed to the hash. -/
def framed (files : List Admitted) : Bytes :=
  Framed.records 0 decimalBytes (files.map fun file => (posix file.1, file.2))

/-! ## The API -/

/-- One directory that `os.walk` yields. -/
structure Visited where
  directory : List Bytes
  names : List (Bytes × SourceNode)
  filenames : List (Bytes × SourceNode)

mutual

/-- `os.walk(root, topdown=True, followlinks=False)` with `names[:] = kept`. A directory that
cannot be listed is passed over. -/
def osWalk (directory : List Bytes) : SourceNode → List Visited
  | .directory true entries =>
    ⟨directory, entries.filter fun entry => entry.2.isDirectory, entries.filter fun entry =>
      !entry.2.isDirectory⟩ ::
      (byText (osWalkEntries directory entries)).flatMap Prod.snd
  | _ => []

def osWalkEntries (directory : List Bytes) : List (Bytes × SourceNode) → List (Bytes × List Visited)
  | [] => []
  | (name, node) :: entries =>
    if node.isDirectory && !excluded (directory ++ [name]) then
      (name, osWalk (directory ++ [name]) node) :: osWalkEntries directory entries
    else osWalkEntries directory entries

end

/-- One round of the loop over `sorted(names)`. -/
def keepName (directory : List Bytes) (tally : Tally (List Bytes × SourceNode))
    (entry : Bytes × SourceNode) :
    Except Refusal (Tally (List Bytes × SourceNode)) :=
  if excluded (directory ++ [entry.1]) then .ok tally
  else if entry.2.isSymlink then .error (.sandbox "source_symlink_denied")
  else if MAX_FILES < tally.entries + 1 then .error (.sandbox "source_bound_exceeded")
  else .ok { tally with entries := tally.entries + 1 }

/-- One round of the loop over `sorted(filenames)`. -/
def admitFile (directory : List Bytes) (tally : Tally (List Bytes × SourceNode))
    (entry : Bytes × SourceNode) :
    Except Refusal (Tally (List Bytes × SourceNode)) :=
  if excluded (directory ++ [entry.1]) then .ok tally
  else
    match entry.2 with
    | .unavailable => .error (.sandbox "source_unavailable")
    | .symlink _ => .error (.sandbox "source_symlink_denied")
    | .file _ data =>
      if MAX_FILE_BYTES < data.length then .error (.sandbox "source_file_too_large")
      else if MAX_FILES < tally.entries + 1 || MAX_SOURCE_BYTES < tally.total + data.length then
        .error (.sandbox "source_bound_exceeded")
      else .ok ⟨tally.kept ++ [(directory ++ [entry.1], entry.2)], tally.entries + 1,
        tally.total + data.length⟩
    | _ => .error (.sandbox "source_special_file_denied")

/-- The loop over what `os.walk` yields. -/
def visitDirectory (tally : Tally (List Bytes × SourceNode)) (visited : Visited) :
    Except Refusal (Tally (List Bytes × SourceNode)) := do
  let tally ← (byText visited.names).foldlM (keepName visited.directory) tally
  (byText visited.filenames).foldlM (admitFile visited.directory) tally

/-- `sorted(files, key=…as_posix().encode())`. -/
def sortedFiles {α : Type} (files : List (List Bytes × α)) :
    Except Refusal (List (List Bytes × α)) :=
  if files.all fun file => file.1.all encodable then
    .ok (files.insertionSort fun a b => bytesLe (posix a.1) (posix b.1) = true)
  else .error .encodeError

/-- `_regular_files`. -/
def regularFiles (root : SourceNode) : Except Refusal (List (List Bytes × SourceNode)) := do
  let tally ← (osWalk [] root).foldlM visitDirectory ⟨[], 0, 0⟩
  sortedFiles tally.kept

/-- The content of a file that `_digest_files` opens. -/
def readFile (file : List Bytes × SourceNode) : Except Refusal Admitted :=
  match file.2 with
  | .file true data =>
    if MAX_FILE_BYTES < data.length then .error (.sandbox "source_file_too_large")
      else .ok (file.1, data)
  | _ => .error (.sandbox "source_unavailable")

section
variable (sha256 : Bytes → Text)

/-- `_digest_files`. -/
def digestFiles (files : List (List Bytes × SourceNode)) : Except Refusal Text := do
  let contents ← files.mapM readFile
  return sha256 (framed contents)

/-- `source_digest`. -/
def sourceDigest (root : SourceNode) : Except Refusal Text := do
  let files ← regularFiles root
  digestFiles sha256 files

end

/-! ## The worker -/

/-- What a copy has made: the files in the destination, and the two counters of `budget`. -/
abbrev Copied := Tally Admitted

mutual

/-- `_copy_directory` of a directory that is opened first, in the order of the encoded names.
`frames` is how many calls of it may still be nested. -/
def copyDirectory (prefixPath : List Bytes) (frames : ℕ) : SourceNode → Copied →
    Except Refusal Copied
  | .directory true entries, copied =>
    if frames = 0 then .error .recursionError
    else if entries.all fun entry => encodable entry.1 then
      (byName (copyEntries prefixPath (frames - 1) entries)).foldlM (fun copied action =>
        action.2 copied) copied
    else .error .encodeError
  | _, _ => .error .osError

/-- What the loop of `_copy_directory` does with each entry. -/
def copyEntries (prefixPath : List Bytes) (frames : ℕ) : List (Bytes × SourceNode) →
    List (Bytes × (Copied → Except Refusal Copied))
  | [] => []
  | (name, node) :: entries =>
    (name, fun copied =>
      if excluded (prefixPath ++ [name]) then .ok copied
      else if MAX_FILES < copied.entries + 1 then .error (.worker "snapshot_bound_exceeded")
      else
        match node with
        | .directory readable inner =>
          copyDirectory (prefixPath ++ [name]) frames (.directory readable inner)
            { copied with entries := copied.entries + 1 }
        | .file readable data =>
          if MAX_FILE_BYTES < data.length then .error (.worker "snapshot_file_too_large")
          else if !readable then .error .osError
          else if MAX_SOURCE_BYTES < copied.total + data.length then
            .error (.worker "snapshot_bound_exceeded")
          else .ok ⟨copied.kept ++ [(prefixPath ++ [name], data)], copied.entries + 1,
            copied.total + data.length⟩
        | .unavailable => .error .osError
        | _ => .error (.worker "snapshot_special_file")) :: copyEntries prefixPath frames entries

end

/-- `stage_snapshot`, to the digest of the snapshot. -/
def stageSnapshot (sha256 : Bytes → Text) (frames : ℕ) (root : SourceNode) :
    Except Refusal Text := do
  let copied ← copyDirectory [] frames root ⟨[], 0, 0⟩
  if copied.entries = 0 then .error (.worker "snapshot_empty")
  else do
    let files ← sortedFiles copied.kept
    return sha256 (framed files)

/-! ## What is met -/

mutual

/-- What both walks meet below a directory: the names that are not excluded, behind
directories that can be listed. -/
def below (directory : List Bytes) : SourceNode → List (List Bytes × SourceNode)
  | .directory true entries => belowEntries directory entries
  | _ => []

def belowEntries (directory : List Bytes) : List (Bytes × SourceNode) →
    List (List Bytes × SourceNode)
  | [] => []
  | (name, node) :: entries =>
    if excluded (directory ++ [name]) then belowEntries directory entries
    else (directory ++ [name], node) ::
      (below (directory ++ [name]) node ++ belowEntries directory entries)

end

/-- An entry, when it is not excluded. -/
def met (directory : List Bytes) (entry : Bytes × SourceNode) : List (List Bytes × SourceNode) :=
  if excluded (directory ++ [entry.1]) then [] else [(directory ++ [entry.1], entry.2)]

def size (found : List Bytes × SourceNode) : ℕ := found.2.size

def keptNode (found : List Bytes × SourceNode) : Option (List Bytes × SourceNode) :=
  match found.2 with
  | .file _ _ => .some found
  | _ => .none

/-- The file that is digested for what is met. -/
def admittedOf (found : List Bytes × SourceNode) : Option Admitted :=
  match found.2 with
  | .file _ data => .some (found.1, data)
  | _ => .none

/-- What the walk of the API lets pass. -/
def Countable (found : List Bytes × SourceNode) : Prop :=
  match found.2 with
  | .file _ data => data.length ≤ MAX_FILE_BYTES
  | .directory _ _ => True
  | _ => False

/-- What the copy of the worker lets pass. -/
def Copyable (frames : ℕ) (found : List Bytes × SourceNode) : Prop :=
  match found.2 with
  | .file readable data => readable = true ∧ data.length ≤ MAX_FILE_BYTES
  | .directory readable entries => readable = true ∧ (∀ entry ∈ entries, encodable entry.1 = true) ∧
      found.1.length < frames
  | _ => False

theorem byName_perm {α : Type} (entries : List (Bytes × α)) : (byName entries).Perm entries :=
  List.perm_insertionSort _ _

theorem byText_perm {α : Type} (entries : List (Bytes × α)) : (byText entries).Perm entries :=
  List.perm_insertionSort _ _

/-! ### The walk of the API -/

theorem keepName_walks {directory : List Bytes} {entry : Bytes × SourceNode}
    (hentry : entry.2.isDirectory = true) :
    Walks Countable size keptNode MAX_FILES MAX_SOURCE_BYTES
      (fun tally => keepName directory tally entry) (met directory entry) := by
  by_cases hexcluded : excluded (directory ++ [entry.1]) = true
  · simp only [keepName, met, if_pos hexcluded]
    exact Walks.nil
  · simp only [keepName, met, if_neg hexcluded]
    refine Walks.single ?_
    intro tally hwithin after
    obtain ⟨name, node⟩ := entry
    cases node with
    | file readable data => cases hentry
    | special => cases hentry
    | unavailable => cases hentry
    | symlink toDirectory =>
      simp [SourceNode.isSymlink, Countable]
    | directory readable entries =>
      rw [if_neg (by simp [SourceNode.isSymlink])]
      split
      next hmany =>
        simp only [reduceCtorEq, false_iff]
        rintro ⟨-, hentries, -⟩
        omega
      next hfew =>
        simp only [Except.ok.injEq, Countable, size, SourceNode.size, keptNode, Option.toList_none,
          List.append_nil, Nat.add_zero, true_and]
        exact ⟨fun h => ⟨by omega, hwithin.2, h.symm⟩, fun h => h.2.2.symm⟩

theorem admitFile_walks {directory : List Bytes} {entry : Bytes × SourceNode}
    (hentry : entry.2.isDirectory = false) :
    Walks Countable size keptNode MAX_FILES MAX_SOURCE_BYTES
      (fun tally => admitFile directory tally entry) (met directory entry) := by
  by_cases hexcluded : excluded (directory ++ [entry.1]) = true
  · simp only [admitFile, met, if_pos hexcluded]
    exact Walks.nil
  · simp only [admitFile, met, if_neg hexcluded]
    refine Walks.single ?_
    intro tally hwithin after
    obtain ⟨name, node⟩ := entry
    cases node with
    | directory readable entries => cases hentry
    | symlink toDirectory => simp [Countable]
    | special => simp [Countable]
    | unavailable => simp [Countable]
    | file readable data =>
      dsimp only
      split
      next hlarge =>
        simp only [reduceCtorEq, false_iff, Countable]
        rintro ⟨hsmall, -⟩
        omega
      next hsmall =>
        split
        next hbound =>
          simp only [Bool.or_eq_true, decide_eq_true_eq] at hbound
          simp only [reduceCtorEq, false_iff, Countable, size, SourceNode.size]
          rintro ⟨-, hentries, htotal, -⟩
          omega
        next hbound =>
          simp only [Bool.or_eq_true, decide_eq_true_eq, not_or, not_lt] at hbound
          simp only [Except.ok.injEq, Countable, size, SourceNode.size, keptNode,
            Option.toList_some]
          exact ⟨fun h => ⟨by omega, hbound.1, hbound.2, h.symm⟩, fun h => h.2.2.2.symm⟩

def Visited.met (visited : Visited) : List (List Bytes × SourceNode) :=
  (visited.names ++ visited.filenames).flatMap (SnapshotDigest.met visited.directory)

/-- Directories and links to them among the names, everything else among the file names. -/
def Visited.Parted (visited : Visited) : Prop :=
  (∀ entry ∈ visited.names, entry.2.isDirectory = true) ∧ ∀ entry ∈ visited.filenames,
    entry.2.isDirectory = false

theorem visitDirectory_walks {visited : Visited} (h : visited.Parted) :
    Walks Countable size keptNode MAX_FILES MAX_SOURCE_BYTES
      (fun tally => visitDirectory tally visited) visited.met := by
  have hnames : Walks Countable size keptNode MAX_FILES MAX_SOURCE_BYTES
      (fun tally => (byText visited.names).foldlM (keepName visited.directory) tally)
      ((byText visited.names).flatMap (met visited.directory)) :=
    Walks.foldlM fun entry hentry => keepName_walks (h.1 entry ((byText_perm _).subset hentry))
  have hfilenames : Walks Countable size keptNode MAX_FILES MAX_SOURCE_BYTES
      (fun tally => (byText visited.filenames).foldlM (admitFile visited.directory) tally)
      ((byText visited.filenames).flatMap (met visited.directory)) :=
    Walks.foldlM fun entry hentry => admitFile_walks (h.2 entry ((byText_perm _).subset hentry))
  refine (hnames.append hfilenames).perm ?_
  rw [Visited.met, List.flatMap_append]
  exact ((byText_perm _).flatMap_right _).append ((byText_perm _).flatMap_right _)

mutual

/-- `os.walk` yields what is below the directory. -/
theorem osWalk_met : ∀ (directory : List Bytes) (node : SourceNode),
    (∀ visited ∈ osWalk directory node, visited.Parted) ∧
    ((osWalk directory node).flatMap Visited.met).Perm (below directory node)
  | directory, .directory true entries => by
    obtain ⟨hparted, hmet⟩ := osWalkEntries_met directory entries
    rw [osWalk, below]
    constructor
    · intro visited hvisited
      rcases List.mem_cons.mp hvisited with rfl | hvisited
      · refine ⟨fun entry hentry => (List.mem_filter.mp hentry).2, fun entry hentry => ?_⟩
        simpa using (List.mem_filter.mp hentry).2
      · obtain ⟨walked, hwalked, hvisited⟩ := List.mem_flatMap.mp hvisited
        exact hparted walked ((byText_perm _).subset hwalked) visited hvisited
    · rw [List.flatMap_cons]
      refine List.Perm.trans (List.Perm.append ?_ ?_) hmet
      · exact (List.filter_append_perm (fun entry : Bytes × SourceNode => entry.2.isDirectory)
          entries).flatMap_right _
      · rw [List.flatMap_assoc]
        exact (byText_perm _).flatMap_right _
  | _, .directory false _ => by simp [osWalk, below]
  | _, .file _ _ => by simp [osWalk, below]
  | _, .symlink _ => by simp [osWalk, below]
  | _, .special => by simp [osWalk, below]
  | _, .unavailable => by simp [osWalk, below]

theorem osWalkEntries_met : ∀ (directory : List Bytes) (entries : List (Bytes × SourceNode)),
    (∀ walked ∈ osWalkEntries directory entries, ∀ visited ∈ walked.2, visited.Parted) ∧
      (entries.flatMap (met directory) ++ (osWalkEntries directory entries).flatMap fun walked =>
        walked.2.flatMap Visited.met).Perm
        (belowEntries directory entries)
  | _, [] => by simp [osWalkEntries, belowEntries]
  | directory, (name, node) :: entries => by
    obtain ⟨hparted, hmet⟩ := osWalkEntries_met directory entries
    obtain ⟨hpartedNode, hmetNode⟩ := osWalk_met (directory ++ [name]) node
    rw [osWalkEntries, belowEntries, List.flatMap_cons, met]
    by_cases hexcluded : excluded (directory ++ [name]) = true
    · rw [if_pos hexcluded, if_pos hexcluded, if_neg (by simp [hexcluded]), List.nil_append]
      exact ⟨hparted, hmet⟩
    · rw [if_neg hexcluded, if_neg hexcluded, List.singleton_append, List.cons_append]
      cases hdirectory : node.isDirectory with
      | true =>
        rw [if_pos (by simpa using hexcluded), List.flatMap_cons]
        constructor
        · intro walked hwalked
          rcases List.mem_cons.mp hwalked with rfl | hwalked
          · exact hpartedNode
          · exact hparted walked hwalked
        · refine List.Perm.cons _ ?_
          refine List.perm_append_comm_assoc _ _ _ |>.trans ?_
          exact hmetNode.append hmet
      | false =>
        have hleaf : below (directory ++ [name]) node = [] := by
          cases node with
          | directory readable inner => cases hdirectory
          | file | symlink | special | unavailable => rw [below]; intro _ h; cases h
        rw [if_neg (by simp), hleaf, List.nil_append]
        exact ⟨hparted, hmet.cons _⟩

end

theorem osWalk_walks (node : SourceNode) :
    Walks Countable size keptNode MAX_FILES MAX_SOURCE_BYTES
      (fun tally => (osWalk [] node).foldlM visitDirectory tally) (below [] node) := by
  obtain ⟨hparted, hmet⟩ := osWalk_met [] node
  exact (Walks.foldlM fun visited hvisited => visitDirectory_walks (hparted visited hvisited)).perm
    hmet


/-! ### The copy of the worker -/

/-- An entry that is not excluded, with what is below it. -/
def metBelow (prefixPath : List Bytes) (entry : Bytes × SourceNode) :
    List (List Bytes × SourceNode) :=
  if excluded (prefixPath ++ [entry.1]) then []
  else (prefixPath ++ [entry.1], entry.2) :: below (prefixPath ++ [entry.1]) entry.2

theorem belowEntries_eq (prefixPath : List Bytes) (entries : List (Bytes × SourceNode)) :
    belowEntries prefixPath entries = entries.flatMap (metBelow prefixPath) := by
  induction entries with
  | nil => rfl
  | cons entry entries ih =>
    obtain ⟨name, node⟩ := entry
    rw [belowEntries, List.flatMap_cons, metBelow, ih]
    split
    next => rfl
    next => rfl

/-- One round of the loop of `_copy_directory`. -/
def copyEntry (prefixPath : List Bytes) (frames : ℕ) (entry : Bytes × SourceNode)
    (copied : Copied) : Except Refusal Copied :=
  if excluded (prefixPath ++ [entry.1]) then .ok copied
  else if MAX_FILES < copied.entries + 1 then .error (.worker "snapshot_bound_exceeded")
  else
    match entry.2 with
    | .directory readable inner =>
      copyDirectory (prefixPath ++ [entry.1]) frames (.directory readable inner)
        { copied with entries := copied.entries + 1 }
    | .file readable data =>
      if MAX_FILE_BYTES < data.length then .error (.worker "snapshot_file_too_large")
      else if !readable then .error .osError
      else if MAX_SOURCE_BYTES < copied.total + data.length then
        .error (.worker "snapshot_bound_exceeded")
      else .ok ⟨copied.kept ++ [(prefixPath ++ [entry.1], data)], copied.entries + 1,
        copied.total + data.length⟩
    | .unavailable => .error .osError
    | _ => .error (.worker "snapshot_special_file")

theorem copyEntries_eq (prefixPath : List Bytes) (frames : ℕ)
    (entries : List (Bytes × SourceNode)) :
    copyEntries prefixPath frames entries = entries.map fun entry =>
      (entry.1, copyEntry prefixPath frames entry) := by
  induction entries with
  | nil => rfl
  | cons entry entries ih =>
    obtain ⟨name, node⟩ := entry
    rw [copyEntries, ih, List.map_cons]
    rfl

/-- The loop of `_copy_directory` takes the entries in the order of their names. -/
theorem copyDirectory_loop (prefixPath : List Bytes) (frames : ℕ)
    (entries : List (Bytes × SourceNode)) (copied : Copied) :
    (byName (copyEntries prefixPath frames entries)).foldlM
    (fun copied action => action.2 copied) copied =
      (byName entries).foldlM
      (fun copied entry => copyEntry prefixPath frames entry copied) copied := by
  have hsorted : byName (entries.map fun entry => (entry.1, copyEntry prefixPath frames entry)) =
      (byName entries).map fun entry => (entry.1, copyEntry prefixPath frames entry) :=
    (List.map_insertionSort (fun a b : Bytes × SourceNode => bytesLe a.1 b.1 = true)
      (fun a b : Bytes × (Copied → Except Refusal Copied) => bytesLe a.1 b.1 = true)
      (fun entry => (entry.1, copyEntry prefixPath frames entry)) entries fun _ _ _ _ =>
        Iff.rfl).symm
  rw [copyEntries_eq, hsorted, List.foldlM_map]

theorem copyDirectory_refuses {prefixPath : List Bytes} {frames : ℕ} {readable : Bool}
    {entries : List (Bytes × SourceNode)}
    (h : ¬Copyable (prefixPath.length + frames) (prefixPath, .directory readable entries))
    (copied : Copied) :
    ∃ e, copyDirectory prefixPath frames (.directory readable entries) copied = .error e := by
  cases readable with
  | false => exact ⟨_, by rw [copyDirectory]; intro _ h; cases h⟩
  | true =>
    rw [copyDirectory]
    split
    next => exact ⟨_, rfl⟩
    next hframes =>
      split
      next hall =>
        refine absurd ⟨rfl, ?_, ?_⟩ h
        · exact fun entry hentry => List.all_eq_true.mp hall entry hentry
        · dsimp only
          omega
      next => exact ⟨_, rfl⟩

/-- A round for a file, a link or a special file. -/
theorem copyEntry_leaf {prefixPath : List Bytes} {frames bottom : ℕ} {entry : Bytes × SourceNode}
    (hexcluded : ¬excluded (prefixPath ++ [entry.1]) = true)
    (hleaf : ∀ readable inner, entry.2 ≠ .directory readable inner) :
    Walks (Copyable bottom) size admittedOf MAX_FILES MAX_SOURCE_BYTES
      (copyEntry prefixPath frames entry) [(prefixPath ++ [entry.1], entry.2)] := by
  refine Walks.single ?_
  intro tally hwithin after
  obtain ⟨name, node⟩ := entry
  rw [copyEntry, if_neg hexcluded]
  cases node with
  | directory readable inner => exact absurd rfl (hleaf readable inner)
  | symlink toDirectory =>
    dsimp only
    split
    next => simp [Copyable]
    next => simp [Copyable]
  | special =>
    dsimp only
    split
    next => simp [Copyable]
    next => simp [Copyable]
  | unavailable =>
    dsimp only
    split
    next => simp [Copyable]
    next => simp [Copyable]
  | file readable data =>
    simp only [Copyable, size, SourceNode.size, admittedOf, Option.toList_some]
    split
    next hmany =>
      simp only [reduceCtorEq, false_iff]
      rintro ⟨-, hentries, -⟩
      omega
    next hfew =>
      split
      next hlarge =>
        simp only [reduceCtorEq, false_iff]
        rintro ⟨⟨-, hsmall⟩, -⟩
        omega
      next hsmall =>
        cases readable with
        | false => simp
        | true =>
          rw [if_neg (by simp)]
          split
          next hbound =>
            simp only [reduceCtorEq, false_iff]
            rintro ⟨-, -, htotal, -⟩
            omega
          next hbound =>
            simp only [Except.ok.injEq, true_and]
            exact ⟨fun h => ⟨by omega, by omega, by omega, h.symm⟩, fun h => h.2.2.2.symm⟩

/-- The counting of an entry. -/
def countEntry (copied : Copied) : Except Refusal Copied :=
  if MAX_FILES < copied.entries + 1 then .error (.worker "snapshot_bound_exceeded")
  else .ok { copied with entries := copied.entries + 1 }

/-- A round for a directory that can be copied. -/
theorem copyEntry_directory {prefixPath : List Bytes} {frames bottom : ℕ} {name : Bytes}
    {node : SourceNode} (hexcluded : ¬excluded (prefixPath ++ [name]) = true)
    (hdirectory : ∃ readable inner, node = .directory readable inner)
    (hcopyable : Copyable bottom (prefixPath ++ [name], node))
    (hinner : Walks (Copyable bottom) size admittedOf MAX_FILES MAX_SOURCE_BYTES
    (copyDirectory (prefixPath ++ [name]) frames node)
      (below (prefixPath ++ [name]) node)) :
    Walks (Copyable bottom) size admittedOf MAX_FILES MAX_SOURCE_BYTES
      (copyEntry prefixPath frames (name, node))
      ((prefixPath ++ [name], node) :: below (prefixPath ++ [name]) node) := by
  obtain ⟨readable, inner, rfl⟩ := hdirectory
  have hcount : Walks (Copyable bottom) size admittedOf MAX_FILES MAX_SOURCE_BYTES
      countEntry [(prefixPath ++ [name], .directory readable inner)] := by
    refine Walks.single ?_
    intro tally hwithin after
    simp only [countEntry, size, SourceNode.size, admittedOf, Option.toList_none, List.append_nil,
      Nat.add_zero]
    split
    next hmany =>
      simp only [reduceCtorEq, false_iff]
      rintro ⟨-, hentries, -⟩
      omega
    next hfew =>
      simp only [Except.ok.injEq]
      exact ⟨fun h => ⟨hcopyable, by omega, hwithin.2, h.symm⟩, fun h => h.2.2.2.symm⟩
  have hround : copyEntry prefixPath frames (name, .directory readable inner) = fun copied =>
      countEntry copied >>=
          copyDirectory (prefixPath ++ [name]) frames (.directory readable inner) := by
    funext copied
    rw [copyEntry, if_neg hexcluded, countEntry]
    split
    next => rfl
    next => rfl
  have happend := hcount.append hinner
  rw [hround]
  exact happend

/-- A round for a directory that cannot. -/
theorem copyEntry_refuses {prefixPath : List Bytes} {frames bottom : ℕ} {name : Bytes}
    {node : SourceNode} {items : List (List Bytes × SourceNode)}
    (hexcluded : ¬excluded (prefixPath ++ [name]) = true)
    (hdirectory : ∃ readable inner, node = .directory readable inner)
    (h : ¬Copyable ((prefixPath ++ [name]).length + frames) (prefixPath ++ [name], node))
    (hnot : ¬Copyable bottom (prefixPath ++ [name], node)) :
    Walks (Copyable bottom) size admittedOf MAX_FILES MAX_SOURCE_BYTES
      (copyEntry prefixPath frames (name, node)) ((prefixPath ++ [name], node) :: items) := by
  obtain ⟨readable, inner, rfl⟩ := hdirectory
  refine Walks.refuse (fun copied => ?_) ⟨_, List.mem_cons_self, hnot⟩
  rw [copyEntry, if_neg hexcluded]
  split
  next => exact ⟨_, rfl⟩
  next => exact copyDirectory_refuses h _

mutual

/-- The copy of a directory meets what is below it, when the directory itself is copyable. -/
theorem copyDirectory_walks {bottom : ℕ} :
    ∀ (prefixPath : List Bytes) (frames : ℕ) (node : SourceNode),
    prefixPath.length + frames = bottom → (∃ readable entries, node = .directory readable entries) →
      Copyable bottom (prefixPath, node) →
      Walks (Copyable bottom) size admittedOf MAX_FILES MAX_SOURCE_BYTES
        (copyDirectory prefixPath frames node) (below prefixPath node)
  | prefixPath, frames, .directory true entries, hbottom, _, hcopyable => by
    obtain ⟨-, hencodable, hdepth⟩ := hcopyable
    have hframes : frames ≠ 0 := by
      dsimp only at hdepth
      omega
    have hall : (entries.all fun entry => encodable entry.1) = true :=
      List.all_eq_true.mpr hencodable
    have hrounds := copyEntries_walks prefixPath (frames - 1) entries (show prefixPath.length + 1 +
      (frames - 1) = bottom by omega)
    have hloop : copyDirectory prefixPath frames (.directory true entries) = fun copied =>
        (byName entries).foldlM (fun copied entry => copyEntry prefixPath (frames - 1) entry copied)
            copied := by
      funext copied
      rw [copyDirectory, if_neg hframes, if_pos hall, copyDirectory_loop]
    rw [hloop, below, belowEntries_eq]
    exact (Walks.foldlM fun entry hentry => hrounds entry ((byName_perm _).subset hentry)).perm
      ((byName_perm _).flatMap_right _)
  | _, _, .directory false _, _, _, hcopyable => absurd hcopyable.1 Bool.false_ne_true
  | _, _, .file _ _, _, hdirectory, _ => by
    obtain ⟨_, _, h⟩ := hdirectory
    cases h
  | _, _, .symlink _, _, hdirectory, _ => by
    obtain ⟨_, _, h⟩ := hdirectory
    cases h
  | _, _, .special, _, hdirectory, _ => by
    obtain ⟨_, _, h⟩ := hdirectory
    cases h
  | _, _, .unavailable, _, hdirectory, _ => by
    obtain ⟨_, _, h⟩ := hdirectory
    cases h

theorem copyEntries_walks {bottom : ℕ} :
    ∀ (prefixPath : List Bytes) (frames : ℕ) (entries : List (Bytes × SourceNode)),
    prefixPath.length + 1 + frames = bottom → ∀ entry ∈ entries,
      Walks (Copyable bottom) size admittedOf MAX_FILES MAX_SOURCE_BYTES
        (copyEntry prefixPath frames entry) (metBelow prefixPath entry)
  | _, _, [], _, entry, hentry => by cases hentry
  | prefixPath, frames, (name, node) :: entries, hbottom, entry, hentry => by
    rcases List.mem_cons.mp hentry with rfl | hentry
    · by_cases hexcluded : excluded (prefixPath ++ [name]) = true
      · have hskip : copyEntry prefixPath frames (name, node) = fun copied => .ok copied := by
          funext copied
          rw [copyEntry, if_pos hexcluded]
        rw [hskip, metBelow, if_pos hexcluded]
        exact Walks.nil
      · rw [metBelow, if_neg hexcluded]
        by_cases hdirectory : ∃ readable inner, node = .directory readable inner
        · have hlength : (prefixPath ++ [name]).length + frames = bottom := by
            rw [List.length_append, List.length_singleton]
            exact hbottom
          by_cases hcopyable : Copyable bottom (prefixPath ++ [name], node)
          · exact copyEntry_directory hexcluded hdirectory hcopyable
              (copyDirectory_walks (prefixPath ++ [name]) frames node hlength hdirectory hcopyable)
          · exact copyEntry_refuses hexcluded hdirectory (by rw [hlength]; exact hcopyable)
              hcopyable
        · have hleaf : below (prefixPath ++ [name]) node = [] := by
            cases node with
            | directory readable inner => exact absurd ⟨readable, inner, rfl⟩ hdirectory
            | file | symlink | special | unavailable => rw [below]; intro _ h; cases h
          dsimp only
          rw [hleaf]
          exact copyEntry_leaf hexcluded fun readable inner h => hdirectory ⟨readable, inner, h⟩
    · exact copyEntries_walks prefixPath frames entries hbottom entry hentry

end

end Novalton.SnapshotDigest
