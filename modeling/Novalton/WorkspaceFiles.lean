/-
The read-only workspace tools on a whole file system: `WorkspaceRoot.resolve`,
`ListFilesExecutor`, `ReadFileExecutor` and `SearchTextExecutor` of
`modules/tools/executor.py`, over every arrangement of directories, symbolic
links and special files. `Workspace` models the tree below the root for the one
executor that writes; here links have targets, may lead anywhere, and the root
itself may lie behind one by the time a tool runs.

What is returned is `Visible`: below the root, no denied component, and no link
on the way.
-/
import Mathlib.Data.List.Infix
import Mathlib.Data.List.Sort
import Novalton.Workspace

namespace Novalton.WorkspaceFiles

/-! ## The file system -/

/-- What stands at a path. `readable` is whether opening it (or listing it) is
permitted; `target` is the text of a symbolic link. -/
inductive FileNode where
  | file (readable : Bool) (data : Bytes)
  | directory (readable : Bool)
  | symlink (target : Text)
  | special
deriving DecidableEq

def FileNode.isDirectory : FileNode → Bool
  | .directory _ => true
  | _ => false

def FileNode.isSymlink : FileNode → Bool
  | .symlink _ => true
  | _ => false

/-- What a directory entry may be called. -/
def Named (name : Text) : Prop := name ≠ [] ∧ '/' ∉ name ∧ name ≠ ['.'] ∧ name ≠ ['.', '.']

instance (name : Text) : Decidable (Named name) := inferInstanceAs (Decidable (_ ∧ _))

/-- The node at a physical path, which is the list of names from `/`. -/
def nodeAt (nodes : List (List Text × FileNode)) (path : List Text) : Option FileNode :=
  if path.isEmpty then .some (.directory true) else nodes.lookup path

/-- A file system: its nodes by physical path. Every node below `/` stands in a
directory, under a name of its own. -/
structure FileSystem where
  nodes : List (List Text × FileNode)
  distinct : (nodes.map Prod.fst).Nodup
  named : ∀ entry ∈ nodes, entry.1 ≠ [] ∧ ∀ name ∈ entry.1, Named name
  parents : ∀ entry ∈ nodes, (nodeAt nodes entry.1.dropLast).any FileNode.isDirectory = true

namespace FileSystem
variable (fs : FileSystem) (links : Nat)

def lookup (path : List Text) : Option FileNode := nodeAt fs.nodes path

/-- Follows `rest` from the physical path `current`; `follow` continues behind a link.
A path lookup of the kernel takes `.` and `..` of directories only, `os.path.realpath`
drops them from the text. -/
def walkFrom (kernel : Bool) (follow : List Text → List Text → Option (List Text)) :
    List Text → List Text → Option (List Text)
  | current, [] => .some current
  | current, part :: rest =>
    if part = [] ∨ part = ['.'] ∨ part = ['.', '.'] then
      if kernel && !(fs.lookup current).any FileNode.isDirectory then .none
      else walkFrom kernel follow (if part = ['.', '.'] then current.dropLast else current) rest
    else
      match fs.lookup (current ++ [part]) with
      | .none => .none
      | .some (.symlink target) =>
        follow (if ['/'].isPrefixOf target then [] else current) (splitSlash target ++ rest)
      | .some _ => walkFrom kernel follow (current ++ [part]) rest

/-- A lookup that follows at most `links` symbolic links; past them it fails with `ELOOP`. -/
def walk (kernel : Bool) : Nat → List Text → List Text → Option (List Text)
  | 0 => fs.walkFrom kernel fun _ _ => .none
  | links + 1 => fs.walkFrom kernel (walk kernel links)

/-- `os.path.realpath(path, strict=True)`. -/
def realpath (path : List Text) : Option (List Text) := fs.walk false links [] path

/-- `os.stat`: the node a path leads to. -/
def stat (path : List Text) : Option FileNode := (fs.walk true links [] path).bind fs.lookup

/-- `os.lstat`: the last component is not followed. -/
def lstat (path : List Text) : Option FileNode :=
  match path.getLast? with
  | .none => fs.lookup []
  | .some name => (fs.walk true links [] path.dropLast).bind fun parent =>
    fs.lookup (parent ++ [name])

/-- `Path.is_symlink`. -/
def is_symlink (path : List Text) : Bool := (fs.lstat links path).any FileNode.isSymlink

/-- `Path.is_dir`. -/
def is_dir (path : List Text) : Bool := (fs.stat links path).any FileNode.isDirectory

/-- `Path.is_file`. -/
def is_file (path : List Text) : Bool :=
  match fs.stat links path with
  | .some (.file _ _) => true
  | _ => false

/-- The bytes `open(path, "rb")` reads; `none` is the `OSError`. -/
def read_bytes (path : List Text) : Option Bytes :=
  match fs.stat links path with
  | .some (.file true data) => .some data
  | _ => .none

/-- `Path.iterdir`; `none` is the `OSError`. -/
def iterdir (path : List Text) : Option (List (List Text)) :=
  (fs.walk true links [] path).bind fun directory =>
    if fs.lookup directory = .some (.directory true) then
      .some (((fs.nodes.map Prod.fst).filter fun child => child.dropLast == directory).map
          fun child =>
        path ++ child.drop directory.length)
    else .none

/-- `base.rglob("*")`: everything below the directory, each reached through
directories that can be listed. It does not descend into symbolic links. -/
def rglob (base : List Text) : List (List Text) :=
  match fs.walk true links [] base with
  | .none => []
  | .some directory =>
    ((fs.nodes.map Prod.fst).filter fun path => directory.isPrefixOf path &&
      directory.length < path.length &&
      path.dropLast.inits.all fun pre => pre.length < directory.length ||
        fs.lookup pre == .some (.directory true)).map
      fun path => base ++ path.drop directory.length

/-- Something stands at the physical path, and nothing on the way is a link. -/
def Real (path : List Text) : Prop :=
  ∀ pre, pre <+: path → (fs.lookup pre).any (!·.isSymlink) = true

end FileSystem

/-! ## The tools -/

section
variable (lib : Library) (fs : FileSystem) (links : Nat)

/-- `WorkspaceRoot`: the physical path of the approved directory, when it was approved. -/
structure WorkspaceRoot where
  path : List Text

/-- `WorkspaceRoot.approved`. -/
def WorkspaceRoot.approved (value : Text) : Py WorkspaceRoot := do
  raiseIf (!(['/'] : Text).isPrefixOf value) (.tool "workspace_root_not_absolute")
  let resolved ← orRaise (fs.realpath links (splitSlash value)) (.tool "workspace_root_unavailable")
  raiseIf (!fs.is_dir links resolved) (.tool "workspace_root_not_directory")
  return ⟨resolved⟩

/-- `WorkspaceRoot.resolve`. -/
def WorkspaceRoot.resolve (root : WorkspaceRoot) (relative : Text) (allow_directory : Bool) :
    Py (List Text) := do
  raiseIf (relative.contains '\\' || ['/'].isPrefixOf relative) (.tool "invalid_relative_path")
  let parts := pureParts relative
  raiseIf (parts.any fun part => part == ['.', '.'] || part.isEmpty) (.tool "path_traversal_denied")
  raiseIf (denied lib parts) (.tool "sensitive_path_denied")
  raiseIf (parts.inits.any fun pre => !pre.isEmpty && fs.is_symlink links (root.path ++ pre))
    (.tool "symlink_path_denied")
  let resolved ← orRaise (fs.realpath links (root.path ++ parts)) (.tool "outside_workspace_denied")
  raiseIf (!root.path.isPrefixOf resolved) (.tool "outside_workspace_denied")
  raiseIf (fs.is_symlink links resolved) (.tool "symlink_path_denied")
  if allow_directory then
    raiseIf (!fs.is_dir links resolved) (.tool "directory_required")
  else
    raiseIf (!fs.is_file links resolved) (.tool "regular_file_required")
  return resolved

/-- `path.relative_to(root.path).parts`, of a path below the root. -/
def WorkspaceRoot.relative_to (root : WorkspaceRoot) (path : List Text) : List Text :=
  path.drop root.path.length

/-- `WorkspaceRoot.relative`. -/
def WorkspaceRoot.relative (root : WorkspaceRoot) (path : List Text) : Text :=
  relativeText (root.relative_to path)

/-- `sorted(paths, key=…casefold())`. -/
def sortedByCasefold (key : List Text → Text) (paths : List (List Text)) : List (List Text) :=
  paths.insertionSort fun a b => lib.casefold (key a) ≤ lib.casefold (key b)

/-! ### workspace.list_files -/

/-- `WorkspaceListFilesInput`. -/
structure WorkspaceListFilesInput where
  path : Text
  max_depth : Nat
  max_results : Nat
  path_length : 1 ≤ path.length ∧ path.length ≤ 300
  path_accepted : relativePathAccepted path = true
  depth_bounds : max_depth ≤ 4
  results_bounds : 1 ≤ max_results ∧ max_results ≤ 200

/-- An entry of `items`. -/
inductive ListedItem where
  | directory (path : Text)
  | file (path : Text) (size_bytes : Nat)
deriving DecidableEq

def ListedItem.path : ListedItem → Text
  | .directory path => path
  | .file path _ => path

/-- What `visit` has collected so far. -/
structure Listing where
  items : List ListedItem
  truncated : Bool
deriving DecidableEq

def Listing.add (listing : Listing) (item : ListedItem) : Listing :=
  { listing with items := listing.items ++ [item] }

/-- The loop of `visit` over the children of a directory; `descend` is the
`if depth < data.max_depth: visit(child, depth + 1)` of a directory. -/
def visitChildren (root : WorkspaceRoot) (max_results : Nat)
    (descend : List Text → Listing → Py Listing) :
    List (List Text) → Listing → Py Listing
  | [], listing => .ok listing
  | child :: children, listing =>
    if denied lib (root.relative_to child) || fs.is_symlink links child then
      visitChildren root max_results descend children listing
    else if max_results ≤ listing.items.length then .ok { listing with truncated := true }
    else if fs.is_dir links child then do
      let listing ← descend child (listing.add (.directory (relativeText (root.relative_to child))))
      visitChildren root max_results descend children listing
    else
      match fs.stat links child with
      | .some (.file _ data) =>
        visitChildren root max_results descend children
          (listing.add (.file (relativeText (root.relative_to child)) data.length))
      | _ => visitChildren root max_results descend children listing

/-- `visit`, with `levels` levels left below this directory. -/
def visit (root : WorkspaceRoot) (max_results : Nat) : Nat → List Text → Listing → Py Listing
  | levels, path, listing =>
    if listing.truncated then .ok listing
    else
      match fs.iterdir links path with
      | .none => .error (.tool "workspace_read_failed")
      | .some children =>
        visitChildren lib fs links root max_results
          (match levels with
            | 0 => fun _ listing => .ok listing
            | levels + 1 => visit root max_results levels)
          (sortedByCasefold lib (fun child => child.getLastD []) children) listing

/-- What `ListFilesExecutor.execute` returns: the evidence, and the metadata. -/
structure ListFilesEvidence where
  base_path : Text
  items : List ListedItem
  truncated : Bool
deriving DecidableEq

structure ListFilesMetadata where
  base_path : Text
  result_count : Nat
  truncated : Bool
deriving DecidableEq

/-- `ListFilesExecutor.execute`. -/
def ListFilesExecutor.execute (root : WorkspaceRoot) (data : WorkspaceListFilesInput) :
    Py (ListFilesEvidence × ListFilesMetadata) := do
  let directory ← root.resolve lib fs links data.path true
  let listing ← visit lib fs links root data.max_results data.max_depth directory ⟨[], false⟩
  return (⟨root.relative directory, listing.items, listing.truncated⟩,
    ⟨root.relative directory, listing.items.length, listing.truncated⟩)

/-! ### workspace.read_file -/

/-- `WorkspaceReadFileInput`. -/
structure WorkspaceReadFileInput where
  path : Text
  max_bytes : Nat
  path_length : 1 ≤ path.length ∧ path.length ≤ 300
  path_accepted : relativePathAccepted path = true
  bytes_bounds : 1 ≤ max_bytes ∧ max_bytes ≤ 65536

structure ReadFileEvidence where
  path : Text
  text : Text
  bytes_returned : Nat
  truncated : Bool
deriving DecidableEq

structure ReadFileMetadata where
  path : Text
  bytes_returned : Nat
  content_sha256 : Text
  truncated : Bool
deriving DecidableEq

/-- `ReadFileExecutor.execute`. -/
def ReadFileExecutor.execute (root : WorkspaceRoot) (data : WorkspaceReadFileInput) :
    Py (ReadFileEvidence × ReadFileMetadata) := do
  let path ← root.resolve lib fs links data.path false
  let content ← orRaise (fs.read_bytes links path) (.tool "workspace_read_failed")
  let raw := content.take (data.max_bytes + 1)
  let truncated := decide (data.max_bytes < raw.length)
  let bounded := raw.take data.max_bytes
  raiseIf (bounded.contains 0) (.tool "binary_file_denied")
  let text ← orRaise (decode bounded) (.tool "non_utf8_file_denied")
  return (⟨root.relative path, text, bounded.length, truncated⟩,
    ⟨root.relative path, bounded.length, lib.sha256 bounded, truncated⟩)

/-! ### workspace.search_text -/

/-- `WorkspaceSearchTextInput`. -/
structure WorkspaceSearchTextInput where
  query : Text
  path : Text
  max_results : Nat
  query_length : 1 ≤ query.length ∧ query.length ≤ 128
  query_accepted : strip query ≠ [] ∧ query.all (32 ≤ ·.toNat) = true
  path_length : 1 ≤ path.length ∧ path.length ≤ 300
  path_accepted : relativePathAccepted path = true
  results_bounds : 1 ≤ max_results ∧ max_results ≤ 100

/-- An entry of `matches`. -/
structure Match where
  path : Text
  line_number : Nat
  snippet : Text
  snippet_truncated : Bool
deriving DecidableEq

/-- A line without the boundary `splitlines(keepends=True)` leaves at its end. -/
def dropBoundary (line : Text) : Text :=
  match line.reverse with
  | '\n' :: '\r' :: rest => rest.reverse
  | c :: rest => if isLineBoundary c then rest.reverse else line
  | [] => []

/-- `text.splitlines()`. -/
def splitLines (text : Text) : List Text := (splitLinesKeep text).map dropBoundary

/-- The loop over the numbered lines of one file; the flag is whether `max_results` was reached. -/
def matchLines (query path : Text) (max_results : Nat) : List (Nat × Text) → List Match →
    List Match × Bool
  | [], found => (found, false)
  | (line_number, line) :: lines, found =>
    if !occursIn query line then matchLines query path max_results lines found
    else
      let found := found ++ [⟨path, line_number, line.take 300, decide (300 < line.length)⟩]
      if max_results ≤ found.length then (found, true)
        else matchLines query path max_results lines found

/-- The text of a file that is searched: at most 65,536 bytes, none of them NUL, in UTF-8. -/
def searchedText (path : List Text) : Option Text :=
  match fs.stat links path with
  | .some (.file readable data) =>
    if 65536 < data.length then .none
    else if !readable then .none
    else if data.contains 0 then .none
    else decode data
  | _ => .none

/-- What the loop over the files has found so far. -/
structure Search where
  found : List Match
  scanned : Nat
  truncated : Bool
deriving DecidableEq

/-- The loop of `SearchTextExecutor.execute` over the sorted paths. -/
def searchFiles (root : WorkspaceRoot) (query : Text) (max_results : Nat) : List (List Text) →
    Search → Search
  | [], search => search
  | path :: paths, search =>
    let relative := root.relative_to path
    if denied lib relative || fs.is_symlink links path || !fs.is_file links path then
      searchFiles root query max_results paths search
    else
      let search := { search with scanned := search.scanned + 1 }
      if 1000 < search.scanned then { search with truncated := true }
      else
        match searchedText fs links path with
        | .none => searchFiles root query max_results paths search
        | .some text =>
          let lines := ((splitLines text).zipIdx 1).map Prod.swap
          let (found, full) :=
            matchLines query (relativeText relative) max_results lines search.found
          if full then { search with found := found, truncated := true }
          else searchFiles root query max_results paths { search with found := found }

structure SearchTextEvidence where
  base_path : Text
  found : List Match
  truncated : Bool
deriving DecidableEq

structure SearchTextMetadata where
  base_path : Text
  query_sha256 : Text
  scanned_file_count : Nat
  result_count : Nat
  truncated : Bool
deriving DecidableEq

/-- `SearchTextExecutor.execute`. -/
def SearchTextExecutor.execute (root : WorkspaceRoot) (data : WorkspaceSearchTextInput) :
    Py (SearchTextEvidence × SearchTextMetadata) := do
  let base ← root.resolve lib fs links data.path true
  let search := searchFiles lib fs links root data.query data.max_results
    (sortedByCasefold lib (fun path => '/' :: joinSlash path) (fs.rglob links base)) ⟨[], 0, false⟩
  return (⟨root.relative base, search.found, search.truncated⟩,
    ⟨root.relative base, lib.sha256 (encode data.query), min search.scanned 1000,
      search.found.length, search.truncated⟩)

end

/-! ## Real paths -/

namespace FileSystem
variable {fs : FileSystem} {links : Nat} {path pre current rest : List Text} {name : Text}

theorem Real.nil : fs.Real [] := by
  intro pre hpre
  rw [List.prefix_nil.mp hpre]
  rfl

theorem Real.of_prefix (h : fs.Real path) (hpre : pre <+: path) : fs.Real pre := fun p hp => h p
    (hp.trans hpre)

theorem Real.concat (h : fs.Real path)
    (hnode : (fs.lookup (path ++ [name])).any (!·.isSymlink) = true) :
    fs.Real (path ++ [name]) := by
  intro pre hpre
  rcases List.prefix_concat_iff.mp hpre with heq | hpre
  · rw [heq]
    exact hnode
  · exact h pre hpre

theorem Real.lookup (h : fs.Real path) : ∃ node, fs.lookup path = .some node ∧
    node.isSymlink = false := by
  have hnode := h path List.prefix_rfl
  rw [Option.any_eq_true] at hnode
  obtain ⟨node, hnode, hlink⟩ := hnode
  exact ⟨node, Option.mem_def.mp hnode, by simpa using hlink⟩

/-- What a node's path is made of are names of directory entries. -/
theorem lookup_named {node : FileNode} (h : fs.lookup path = .some node) : ∀ part ∈ path,
    Named part := by
  rw [FileSystem.lookup, nodeAt] at h
  split at h
  next hempty => simp [List.isEmpty_iff.mp hempty]
  next =>
    obtain ⟨before, after, hnodes, -⟩ := List.lookup_eq_some_iff.mp h
    have hmem : (path, node) ∈ fs.nodes := by simp [hnodes]
    exact (fs.named _ hmem).2

/-- A key of the table is a node. -/
theorem lookup_of_mem (h : path ∈ fs.nodes.map Prod.fst) : ∃ node, fs.lookup path = .some node := by
  obtain ⟨entry, hentry, rfl⟩ := List.mem_map.mp h
  have hne := (fs.named entry hentry).1
  have hsome : (fs.nodes.lookup entry.1).isSome = true :=
    List.lookup_isSome_iff.mpr ⟨entry, hentry, by simp⟩
  obtain ⟨node, hnode⟩ := Option.isSome_iff_exists.mp hsome
  exact ⟨node, by rw [lookup, nodeAt, if_neg (by simpa using hne), hnode]⟩

section
variable {kernel : Bool} {follow : List Text → List Text → Option (List Text)}

theorem walkFrom_cons_named (hname : Named name) : fs.walkFrom kernel follow current
    (name :: rest) =
    match fs.lookup (current ++ [name]) with
    | .none => .none
    | .some (.symlink target) =>
      follow (if ['/'].isPrefixOf target then [] else current) (splitSlash target ++ rest)
    | .some _ => fs.walkFrom kernel follow (current ++ [name]) rest := by
  obtain ⟨hne, -, hdot, hdots⟩ := hname
  rw [walkFrom, if_neg (by simp [hne, hdot, hdots])]

/-- Wherever the walk arrives, the path there is real. -/
theorem walkFrom_real
    (hfollow : ∀ {current rest physical}, fs.Real current → follow current rest = .some physical →
    fs.Real physical) : ∀ {rest current physical : List Text}, fs.Real current →
    fs.walkFrom kernel follow current rest = .some physical → fs.Real physical
  | [], current, physical, hcurrent, h => by
    rw [walkFrom, Option.some.injEq] at h
    rw [← h]
    exact hcurrent
  | part :: rest, current, physical, hcurrent, h => by
    rw [walkFrom] at h
    split at h
    next =>
      split at h
      next => cases h
      next =>
        refine walkFrom_real hfollow ?_ h
        split
        next => exact hcurrent.of_prefix (List.dropLast_prefix current)
        next => exact hcurrent
    next =>
      split at h
      next => cases h
      next target htarget =>
        refine hfollow ?_ h
        split
        next => exact Real.nil
        next => exact hcurrent
      next node hlink hnode =>
        refine walkFrom_real hfollow (hcurrent.concat ?_) h
        rw [hnode, Option.any_some]
        cases node with
        | symlink target => exact absurd rfl (hlink target)
        | file | directory | special => rfl

theorem walk_real : ∀ {links : Nat} {rest current physical : List Text}, fs.Real current →
    fs.walk kernel links current rest = .some physical → fs.Real physical
  | 0, _, _, _, hcurrent, h => walkFrom_real (by intro _ _ _ _ h; cases h) hcurrent h
  | _ + 1, _, _, _, hcurrent, h => walkFrom_real (fun hcurrent h => walk_real hcurrent h) hcurrent h

theorem realpath_real {physical : List Text} (h : fs.realpath links path = .some physical) :
    fs.Real physical :=
  walk_real Real.nil h

/-- A real path is walked part by part. -/
theorem walkFrom_append : ∀ {parts current : List Text}, fs.Real (current ++ parts) →
    fs.walkFrom kernel follow current (parts ++ rest) = fs.walkFrom kernel follow
      (current ++ parts) rest
  | [], current, _ => by simp
  | part :: parts, current, h => by
    have hreal : fs.Real (current ++ [part]) := h.of_prefix (by simp)
    obtain ⟨node, hnode, hlink⟩ := hreal.lookup
    have hnamed := lookup_named hnode part (by simp)
    have happend : current ++ part :: parts = current ++ [part] ++ parts := by simp
    rw [List.cons_append, walkFrom_cons_named hnamed, hnode, happend]
    rw [happend] at h
    cases node with
    | symlink target => cases hlink
    | file | directory | special => exact walkFrom_append h

theorem walk_eq (kernel : Bool) (links : Nat) :
    ∃ follow, fs.walk kernel links = fs.walkFrom kernel follow := by
  cases links with
  | zero => exact ⟨_, rfl⟩
  | succ links => exact ⟨_, rfl⟩

theorem walk_of_real (h : fs.Real path) : fs.walk kernel links [] path = .some path := by
  obtain ⟨follow, hwalk⟩ := fs.walk_eq kernel links
  have happend := @walkFrom_append fs [] kernel follow path [] h
  rw [List.append_nil, List.nil_append] at happend
  rw [hwalk, happend]
  rfl

end

theorem stat_real (h : fs.Real path) : fs.stat links path = fs.lookup path := by
  rw [stat, walk_of_real h, Option.bind_some]

theorem lstat_real (h : fs.Real path) : fs.lstat links (path ++ [name]) = fs.lookup
    (path ++ [name]) := by
  rw [lstat, List.getLast?_concat, List.dropLast_concat, walk_of_real h]
  rfl

/-- An entry of a real directory that is no link is a real path. -/
theorem real_concat (h : fs.Real path) {node : FileNode}
    (hnode : fs.lookup (path ++ [name]) = .some node)
    (hlink : fs.is_symlink links (path ++ [name]) = false) : fs.Real (path ++ [name]) := by
  rw [is_symlink, lstat_real h, hnode, Option.any_some] at hlink
  refine h.concat ?_
  rw [hnode, Option.any_some, hlink]
  rfl

end FileSystem

/-! ## What is returned -/

section
variable {lib : Library} {fs : FileSystem} {links : Nat} {root : WorkspaceRoot}

/-- A path the tools may show: below the root, with no denied component, and real,
so that no link is on the way to it. -/
def Visible (lib : Library) (fs : FileSystem) (root : WorkspaceRoot) (path : Text) : Prop :=
  denied lib (pureParts path) = false ∧ fs.Real (root.path ++ pureParts path)

/-- What stands at a path below the root, given by its text. -/
def nodeBelow (fs : FileSystem) (root : WorkspaceRoot) (path : Text) : Option FileNode :=
  fs.lookup (root.path ++ pureParts path)

/-- What a list of names is written as is read back. -/
theorem pureParts_relativeText {parts : List Text} (h : ∀ part ∈ parts, Named part) : pureParts
    (relativeText parts) = parts := by
  cases parts with
  | nil => decide
  | cons part rest =>
    have hslash : ∀ name ∈ part :: rest, '/' ∉ name := fun name hname => (h name hname).2.1
    rw [relativeText, if_neg (by simp), pureParts, splitSlash_joinSlash (by simp) hslash,
      List.filter_eq_self]
    intro name hname
    obtain ⟨hne, -, hdot, -⟩ := h name hname
    simp [hne, hdot]

theorem named_below {below : List Text} (h : fs.Real (root.path ++ below)) : ∀ part ∈ below,
    Named part := by
  obtain ⟨node, hnode, -⟩ := h.lookup
  intro part hpart
  exact FileSystem.lookup_named hnode part (List.mem_append_right _ hpart)

theorem visible_relativeText {below : List Text} (hreal : fs.Real (root.path ++ below))
    (hdenied : denied lib below = false) : Visible lib fs root (relativeText below) := by
  have hparts := pureParts_relativeText (named_below hreal)
  exact ⟨by rw [hparts]; exact hdenied, by rw [hparts]; exact hreal⟩

/-! ### Resolution -/

/-- A walk below a real directory that no link stands on is the path itself. -/
theorem walkFrom_below {follow : List Text → List Text → Option (List Text)} :
    ∀ {parts current physical : List Text}, fs.Real current →
    (∀ part ∈ parts, part ≠ [] ∧ part ≠ ['.'] ∧ part ≠ ['.', '.']) →
    (∀ pre, pre <+: parts → pre ≠ [] → fs.is_symlink links (current ++ pre) = false) →
    fs.walkFrom false follow current parts = .some physical → physical = current ++ parts
  | [], current, physical, _, _, _, h => by
    rw [FileSystem.walkFrom, Option.some.injEq] at h
    rw [← h, List.append_nil]
  | part :: parts, current, physical, hcurrent, hparts, hlinks, h => by
    obtain ⟨hne, hdot, hdots⟩ := hparts part List.mem_cons_self
    rw [FileSystem.walkFrom, if_neg (by simp [hne, hdot, hdots])] at h
    have hlink : fs.is_symlink links (current ++ [part]) = false :=
      hlinks [part] (by simp) (by simp)
    split at h
    next => cases h
    next target htarget =>
      rw [FileSystem.is_symlink, FileSystem.lstat_real hcurrent, htarget] at hlink
      cases hlink
    next node _ hnode =>
      have hreal := FileSystem.real_concat hcurrent hnode hlink
      have heq := walkFrom_below hreal (fun p hp => hparts p (List.mem_cons_of_mem part hp)) ?_ h
      · rw [heq, List.append_assoc, List.singleton_append]
      · intro pre hpre _
        have happend : current ++ [part] ++ pre = current ++ part :: pre := by simp
        rw [happend]
        exact hlinks (part :: pre) (by simpa using hpre) (by simp)

/-- What `resolve` accepts: a visible path of the kind asked for, which is the root
followed by the parts of the text. -/
theorem resolve_ok {relative : Text} {allow_directory : Bool} {path : List Text}
    (h : root.resolve lib fs links relative allow_directory = .ok path) :
    path = root.path ++ pureParts relative ∧ Visible lib fs root relative ∧
      if allow_directory then fs.is_dir links path = true else fs.is_file links path = true := by
  simp only [WorkspaceRoot.resolve, Py.bind_eq_ok, raiseIf_eq_ok, orRaise_eq_ok] at h
  obtain ⟨-, -, -, hparts, -, hdenied, -, hlinks, resolved, hresolved, -, hroot, -, -, h⟩ := h
  have hreal : fs.Real resolved := FileSystem.realpath_real hresolved
  rw [Bool.not_eq_eq_eq_not, Bool.not_false, List.isPrefixOf_iff_prefix] at hroot
  have hrootReal : fs.Real root.path := hreal.of_prefix hroot
  have heq : resolved = root.path ++ pureParts relative := by
    obtain ⟨follow, hwalk⟩ := fs.walk_eq false links
    have happend :=
      @FileSystem.walkFrom_append fs (pureParts relative) false follow root.path [] hrootReal
    rw [FileSystem.realpath, hwalk, happend, List.nil_append] at hresolved
    refine @walkFrom_below fs links _ _ _ _ hrootReal ?_ ?_ hresolved
    · intro part hpart
      have hplain := List.any_eq_false.mp hparts part hpart
      have hfilter := (List.mem_filter.mp hpart).2
      simp only [Bool.or_eq_true, beq_iff_eq, List.isEmpty_iff, not_or] at hplain
      simp only [Bool.and_eq_true, bne_iff_ne] at hfilter
      exact ⟨hplain.2, hfilter.2, hplain.1⟩
    · intro pre hpre hne
      have hpre := List.any_eq_false.mp hlinks pre ((List.mem_inits _ _).mpr hpre)
      simpa [hne] using hpre
  have hvisible : Visible lib fs root relative := ⟨hdenied, by rw [← heq]; exact hreal⟩
  cases allow_directory with
  | true =>
    simp only [if_true, Py.bind_eq_ok, raiseIf_eq_ok, pure, Except.pure, Except.ok.injEq] at h
    obtain ⟨-, hkind, rfl⟩ := h
    exact ⟨heq, hvisible, by simpa using hkind⟩
  | false =>
    simp only [Bool.false_eq_true, if_false, Py.bind_eq_ok, raiseIf_eq_ok, pure, Except.pure,
      Except.ok.injEq] at h
    obtain ⟨-, hkind, rfl⟩ := h
    exact ⟨heq, hvisible, by simpa using hkind⟩

/-- The root a tool was given, when it was approved, is a real directory. -/
theorem approved_real {value : Text} (h : WorkspaceRoot.approved fs links value = .ok root) :
    fs.Real root.path ∧ (fs.lookup root.path).any FileNode.isDirectory = true := by
  simp only [WorkspaceRoot.approved, Py.bind_eq_ok, raiseIf_eq_ok, orRaise_eq_ok, pure, Except.pure,
    Except.ok.injEq] at h
  obtain ⟨-, -, resolved, hresolved, -, hdirectory, rfl⟩ := h
  have hreal : fs.Real resolved := FileSystem.realpath_real hresolved
  refine ⟨hreal, ?_⟩
  rw [Bool.not_eq_eq_eq_not, Bool.not_false, FileSystem.is_dir,
    FileSystem.stat_real hreal] at hdirectory
  exact hdirectory

/-! ### The entries of a traversal -/

/-- An entry of a real directory below the root. -/
def Entry (fs : FileSystem) (root : WorkspaceRoot) (path : List Text) : Prop :=
  ∃ parent name, path = root.path ++ (parent ++ [name]) ∧ fs.Real (root.path ++ parent) ∧ ∃ node,
    fs.lookup path = .some node

theorem Entry.real {path : List Text} (h : Entry fs root path)
    (hlink : fs.is_symlink links path = false) : fs.Real path := by
  obtain ⟨parent, name, hpath, hreal, node, hnode⟩ := h
  rw [← List.append_assoc] at hpath
  rw [hpath] at hnode hlink ⊢
  exact FileSystem.real_concat hreal hnode hlink

theorem Entry.below {path : List Text} (h : Entry fs root path) :
    path = root.path ++ root.relative_to path := by
  obtain ⟨parent, name, hpath, -⟩ := h
  rw [WorkspaceRoot.relative_to, hpath, List.drop_left]

/-- What passes the test of the traversals is visible under the name returned for it. -/
theorem Entry.visible {path : List Text} (h : Entry fs root path)
    (htest : (denied lib (root.relative_to path) || fs.is_symlink links path) = false) :
    Visible lib fs root (relativeText (root.relative_to path)) ∧
      nodeBelow fs root (relativeText (root.relative_to path)) = fs.stat links path := by
  obtain ⟨hdenied, hlink⟩ := Bool.or_eq_false_iff.mp htest
  have hreal := h.real hlink
  have hbelow := h.below
  have hreal' : fs.Real (root.path ++ root.relative_to path) := by rw [← hbelow]; exact hreal
  refine ⟨visible_relativeText hreal' hdenied, ?_⟩
  rw [nodeBelow, pureParts_relativeText (named_below hreal'), ← hbelow, FileSystem.stat_real hreal]

/-- The children of a visible directory. -/
theorem iterdir_entry {directory below child : List Text} {children : List (List Text)}
    (hdirectory : directory = root.path ++ below) (hreal : fs.Real directory)
    (h : fs.iterdir links directory = .some children) (hchild : child ∈ children) :
    Entry fs root child := by
  rw [FileSystem.iterdir, FileSystem.walk_of_real hreal, Option.bind_some] at h
  split at h
  next =>
    rw [Option.some.injEq] at h
    rw [← h, List.mem_map] at hchild
    obtain ⟨path, hpath, rfl⟩ := hchild
    obtain ⟨hkey, hparent⟩ := List.mem_filter.mp hpath
    rw [beq_iff_eq] at hparent
    obtain ⟨entry, hentry, heq⟩ := List.mem_map.mp hkey
    have hne : path ≠ [] := by
      rw [← heq]
      exact (fs.named entry hentry).1
    have hconcat := List.dropLast_concat_getLast hne
    rw [hparent] at hconcat
    have hchild : directory ++ path.drop directory.length = path := by
      rw [← hconcat, List.drop_left]
    refine ⟨below, path.getLast hne, ?_, by rw [← hdirectory]; exact hreal, ?_⟩
    · rw [hchild, ← List.append_assoc, ← hdirectory, hconcat]
    · rw [hchild]
      exact FileSystem.lookup_of_mem hkey
  next => cases h

/-- What `rglob` finds below a visible directory. -/
theorem rglob_entry {base below path : List Text} (hbase : base = root.path ++ below)
    (hreal : fs.Real base) (h : path ∈ fs.rglob links base) : Entry fs root path := by
  rw [FileSystem.rglob, FileSystem.walk_of_real hreal, List.mem_map] at h
  obtain ⟨physical, hphysical, rfl⟩ := h
  obtain ⟨hkey, htest⟩ := List.mem_filter.mp hphysical
  simp only [Bool.and_eq_true, List.isPrefixOf_iff_prefix, decide_eq_true_eq, List.all_eq_true,
    List.mem_inits, Bool.or_eq_true, beq_iff_eq] at htest
  obtain ⟨⟨hbelow, hlength⟩, hlisted⟩ := htest
  obtain ⟨tail, htail⟩ := hbelow
  have hne : tail ≠ [] := by
    intro hnil
    rw [hnil, List.append_nil] at htail
    rw [htail] at hlength
    omega
  have hdrop : base ++ physical.drop base.length = physical := by rw [← htail, List.drop_left]
  have hconcat := List.dropLast_concat_getLast hne
  have hparent : physical.dropLast = base ++ tail.dropLast := by
    rw [← htail, List.dropLast_append_of_ne_nil hne]
  rw [hdrop]
  refine ⟨below ++ tail.dropLast, tail.getLast hne, ?_, ?_, FileSystem.lookup_of_mem hkey⟩
  · rw [List.append_assoc, hconcat, ← List.append_assoc, ← hbase, htail]
  · rw [← List.append_assoc, ← hbase, ← hparent]
    intro pre hpre
    rcases hlisted pre hpre with hshort | hnode
    · refine hreal pre
        (List.prefix_of_prefix_length_le ?_ (List.prefix_append base tail) (by omega))
      rw [htail]
      exact hpre.trans (List.dropLast_prefix physical)
    · rw [hnode]
      rfl

/-! ### list_files -/

/-- A listed entry is visible, and of the kind and size it is listed with. -/
def Listed (lib : Library) (fs : FileSystem) (root : WorkspaceRoot) : ListedItem → Prop
  | .directory path => Visible lib fs root path ∧ ∃ readable, nodeBelow fs root path = .some
    (.directory readable)
  | .file path size_bytes => Visible lib fs root path ∧
      ∃ readable data, nodeBelow fs root path = .some (.file readable data) ∧
        size_bytes = data.length

def AllListed (lib : Library) (fs : FileSystem) (root : WorkspaceRoot) (listing : Listing) : Prop :=
  ∀ item ∈ listing.items, Listed lib fs root item

theorem AllListed.add {listing : Listing} {item : ListedItem} (h : AllListed lib fs root listing)
    (hitem : Listed lib fs root item) : AllListed lib fs root (listing.add item) := by
  intro other hother
  rw [Listing.add, List.mem_append, List.mem_singleton] at hother
  rcases hother with hother | rfl
  · exact h other hother
  · exact hitem

/-- The loop over the children adds listed entries, when the visits it makes do. -/
theorem visitChildren_listed {max_results : Nat} {descend : List Text → Listing → Py Listing}
    (hdescend : ∀ {child : List Text} {listing listing' : Listing},
      child = root.path ++ root.relative_to child → fs.Real child →
      AllListed lib fs root listing → descend child listing = .ok listing' →
        AllListed lib fs root listing') :
    ∀ {children : List (List Text)} {listing listing' : Listing},
      (∀ child ∈ children, Entry fs root child) →
      AllListed lib fs root listing →
      visitChildren lib fs links root max_results descend children listing = .ok listing' →
        AllListed lib fs root listing'
  | [], listing, listing', _, hlisted, h => by
    rw [visitChildren, Except.ok.injEq] at h
    rw [← h]
    exact hlisted
  | child :: children, listing, listing', hentries, hlisted, h => by
    have hentry := hentries child List.mem_cons_self
    have hrest : ∀ other ∈ children, Entry fs root other :=
      fun other hother => hentries other (List.mem_cons_of_mem child hother)
    rw [visitChildren] at h
    split at h
    next => exact visitChildren_listed hdescend hrest hlisted h
    next htest =>
      rw [Bool.not_eq_true] at htest
      obtain ⟨hvisible, hnode⟩ := hentry.visible htest
      split at h
      next =>
        rw [Except.ok.injEq] at h
        rw [← h]
        exact hlisted
      next =>
        split at h
        next hdir =>
          obtain ⟨visited, hvisited, h⟩ := Py.bind_eq_ok.mp h
          have hreal := hentry.real (Bool.or_eq_false_iff.mp htest).2
          have hkind : ∃ readable, nodeBelow fs root (relativeText (root.relative_to child)) =
              .some (.directory readable) := by
            rw [hnode]
            rw [FileSystem.is_dir, Option.any_eq_true] at hdir
            obtain ⟨node, hstat, hdir⟩ := hdir
            cases node with
            | directory readable => exact ⟨readable, hstat⟩
            | file | symlink | special => cases hdir
          have hadded :=
            @AllListed.add lib fs root listing (.directory (relativeText (root.relative_to child)))
            hlisted ⟨hvisible, hkind⟩
          exact visitChildren_listed hdescend hrest (hdescend hentry.below hreal hadded hvisited) h
        next =>
          split at h
          next readable data hstat =>
            have hadded :=
              @AllListed.add lib fs root listing
              (.file (relativeText (root.relative_to child)) data.length) hlisted
              ⟨hvisible, readable, data, by rw [hnode, hstat], rfl⟩
            exact visitChildren_listed hdescend hrest hadded h
          next => exact visitChildren_listed hdescend hrest hlisted h

theorem visit_listed {max_results : Nat} :
    ∀ {levels : Nat} {path : List Text} {listing listing' : Listing},
    path = root.path ++ root.relative_to path → fs.Real path → AllListed lib fs root listing →
    visit lib fs links root max_results levels path listing = .ok listing' →
      AllListed lib fs root listing' := by
  intro levels
  induction levels with
  | zero =>
    intro path listing listing' hpath hreal hlisted h
    rw [visit] at h
    split at h
    next =>
      rw [Except.ok.injEq] at h
      rw [← h]
      exact hlisted
    next =>
      split at h
      next => cases h
      next children hchildren =>
        refine visitChildren_listed ?_ ?_ hlisted h
        · intro child listing listing' _ _ hlisted h
          rw [Except.ok.injEq] at h
          rw [← h]
          exact hlisted
        · intro child hchild
          exact iterdir_entry hpath hreal hchildren (List.mem_insertionSort _ |>.mp hchild)
  | succ levels ih =>
    intro path listing listing' hpath hreal hlisted h
    rw [visit] at h
    split at h
    next =>
      rw [Except.ok.injEq] at h
      rw [← h]
      exact hlisted
    next =>
      split at h
      next => cases h
      next children hchildren =>
        refine visitChildren_listed ih ?_ hlisted h
        intro child hchild
        exact iterdir_entry hpath hreal hchildren (List.mem_insertionSort _ |>.mp hchild)

/-! ### search_text -/

/-- A match is a line, by its number, of the text of a visible file. -/
def Found (lib : Library) (fs : FileSystem) (root : WorkspaceRoot) (query : Text) (found : Match) :
    Prop :=
  Visible lib fs root found.path ∧ ∃ data text line, nodeBelow fs root found.path =
    .some (.file true data) ∧
    decode data = .some text ∧ found.line_number ≠ 0 ∧
      (splitLines text)[found.line_number - 1]? = .some line ∧
    occursIn query line = true ∧ found.snippet = line.take 300

theorem matchLines_found {query path text : Text} {data : Bytes} {max_results : Nat}
    (hvisible : Visible lib fs root path) (hnode : nodeBelow fs root path = .some (.file true data))
    (htext : decode data = .some text) :
    ∀ {lines : List (Nat × Text)} {found : List Match},
      (∀ line ∈ lines, line.1 ≠ 0 ∧ (splitLines text)[line.1 - 1]? = .some line.2) →
      (∀ m ∈ found, Found lib fs root query m) →
      ∀ m ∈ (matchLines query path max_results lines found).1, Found lib fs root query m
  | [], found, _, hfound => hfound
  | (number, line) :: lines, found, hlines, hfound => by
    have hrest : ∀ other ∈ lines, other.1 ≠ 0 ∧ (splitLines text)[other.1 - 1]? = .some other.2 :=
      fun other hother => hlines other (List.mem_cons_of_mem _ hother)
    rw [matchLines]
    split
    next => exact matchLines_found hvisible hnode htext hrest hfound
    next hoccurs =>
      have hadded : ∀ m ∈ found ++ [⟨path, number, line.take 300, decide (300 < line.length)⟩],
          Found lib fs root query m := by
        intro m hm
        rcases List.mem_append.mp hm with hm | hm
        · exact hfound m hm
        · rw [List.mem_singleton] at hm
          obtain ⟨hzero, hline⟩ := hlines _ List.mem_cons_self
          rw [hm]
          exact ⟨hvisible, data, text, line, hnode, htext, hzero, hline,
            by simpa using hoccurs, rfl⟩
      dsimp only
      split
      next => exact hadded
      next => exact matchLines_found hvisible hnode htext hrest hadded

theorem searchedText_some {path : List Text} {text : Text}
    (h : searchedText fs links path = .some text) :
    ∃ data, fs.stat links path = .some (.file true data) ∧ decode data = .some text := by
  rw [searchedText] at h
  split at h
  next readable data hstat =>
    split at h
    next => cases h
    next =>
      split at h
      next => cases h
      next hreadable =>
        split at h
        next => cases h
        next =>
          rw [Bool.not_eq_true, Bool.not_eq_false'] at hreadable
          rw [hreadable] at hstat
          exact ⟨data, hstat, h⟩
  next => cases h

theorem searchFiles_found {query : Text} {max_results : Nat} :
    ∀ {paths : List (List Text)} {search : Search},
    (∀ path ∈ paths, Entry fs root path) → (∀ m ∈ search.found, Found lib fs root query m) →
    ∀ m ∈ (searchFiles lib fs links root query max_results paths search).found,
      Found lib fs root query m
  | [], _, _, hfound => hfound
  | path :: paths, search, hentries, hfound => by
    have hrest : ∀ other ∈ paths, Entry fs root other :=
      fun other hother => hentries other (List.mem_cons_of_mem path hother)
    rw [searchFiles]
    split
    next => exact searchFiles_found hrest hfound
    next htest =>
      dsimp only
      split
      next => exact hfound
      next =>
        split
        next => exact searchFiles_found hrest hfound
        next text htext =>
          rw [Bool.not_eq_true, Bool.or_eq_false_iff] at htest
          obtain ⟨hvisible, hnode⟩ := (hentries path List.mem_cons_self).visible htest.1
          obtain ⟨data, hstat, hdecode⟩ := searchedText_some htext
          rw [hstat] at hnode
          have hmatched : ∀ m ∈ (matchLines query (relativeText (root.relative_to path)) max_results
              (((splitLines text).zipIdx 1).map Prod.swap) search.found).1,
                  Found lib fs root query m := by
            refine matchLines_found hvisible hnode hdecode ?_ hfound
            intro line hline
            obtain ⟨indexed, hindexed, rfl⟩ := List.mem_map.mp hline
            obtain ⟨hpos, hline⟩ := List.mem_zipIdx_iff_le_and_getElem?_sub.mp hindexed
            exact ⟨by simp only [Prod.fst_swap]; omega, hline⟩
          split
          next => exact hmatched
          next => exact searchFiles_found hrest hmatched

/-! ## Containment -/

/-- Resolution returns only visible paths; the paths, names and contents the three tools
return are those of visible paths. -/
theorem workspace_contained (lib : Library) (fs : FileSystem) (links : Nat) (root : WorkspaceRoot) :
    (∀ relative allow_directory path, root.resolve lib fs links relative allow_directory =
      .ok path →
      path = root.path ++ pureParts relative ∧ Visible lib fs root relative) ∧
    (∀ data evidence metadata, ListFilesExecutor.execute lib fs links root data =
      .ok (evidence, metadata) →
      Visible lib fs root evidence.base_path ∧ metadata.base_path = evidence.base_path ∧
        ∀ item ∈ evidence.items, Listed lib fs root item) ∧
    (∀ data evidence metadata, ReadFileExecutor.execute lib fs links root data =
      .ok (evidence, metadata) →
      Visible lib fs root evidence.path ∧ metadata.path = evidence.path ∧
        ∃ content, nodeBelow fs root evidence.path = .some (.file true content) ∧
          decode (content.take data.max_bytes) = .some evidence.text ∧
          metadata.content_sha256 = lib.sha256 (content.take data.max_bytes)) ∧
    (∀ data evidence metadata, SearchTextExecutor.execute lib fs links root data =
      .ok (evidence, metadata) →
      Visible lib fs root evidence.base_path ∧ metadata.base_path = evidence.base_path ∧
        ∀ m ∈ evidence.found, Found lib fs root data.query m) := by
  have hrelative : ∀ {relative : Text} {allow_directory : Bool} {path : List Text},
      root.resolve lib fs links relative allow_directory = .ok path →
      root.relative_to path = pureParts relative ∧ Visible lib fs root (root.relative path) := by
    intro relative allow_directory path h
    obtain ⟨hpath, hvisible, -⟩ := resolve_ok h
    have hparts : root.relative_to path = pureParts relative := by
      rw [WorkspaceRoot.relative_to, hpath, List.drop_left]
    refine ⟨hparts, ?_⟩
    rw [WorkspaceRoot.relative, hparts]
    exact visible_relativeText hvisible.2 hvisible.1
  refine ⟨?_, ?_, ?_, ?_⟩
  · intro relative allow_directory path h
    obtain ⟨hpath, hvisible, -⟩ := resolve_ok h
    exact ⟨hpath, hvisible⟩
  · intro data evidence metadata h
    simp only [ListFilesExecutor.execute, Py.bind_eq_ok, pure, Except.pure, Except.ok.injEq,
      Prod.mk.injEq] at h
    obtain ⟨directory, hdirectory, listing, hlisting, rfl, rfl⟩ := h
    obtain ⟨hparts, hvisible⟩ := hrelative hdirectory
    obtain ⟨hpath, hbase, -⟩ := resolve_ok hdirectory
    refine ⟨hvisible, rfl, visit_listed ?_ ?_ ?_ hlisting⟩
    · rw [hparts, ← hpath]
    · rw [hpath]
      exact hbase.2
    · intro item hitem
      cases hitem
  · intro data evidence metadata h
    simp only [ReadFileExecutor.execute, Py.bind_eq_ok, raiseIf_eq_ok, orRaise_eq_ok, pure,
      Except.pure, Except.ok.injEq, Prod.mk.injEq] at h
    obtain ⟨path, hpath, content, hcontent, -, -, text, htext, rfl, rfl⟩ := h
    obtain ⟨hparts, hvisible⟩ := hrelative hpath
    obtain ⟨heq, hbase, -⟩ := resolve_ok hpath
    have htake : (content.take (data.max_bytes + 1)).take data.max_bytes =
        content.take data.max_bytes := by
      rw [List.take_take, Nat.min_eq_left (Nat.le_succ _)]
    refine ⟨hvisible, rfl, content, ?_, by rw [← htake]; exact htext, by rw [htake]⟩
    have hstat : fs.stat links path = .some (.file true content) := by
      rw [FileSystem.read_bytes] at hcontent
      split at hcontent
      next hstat =>
        rw [Option.some.injEq] at hcontent
        rw [hstat, hcontent]
      next => cases hcontent
    have hreal : fs.Real path := by
      rw [heq]
      exact hbase.2
    rw [nodeBelow, WorkspaceRoot.relative, hparts, pureParts_relativeText (named_below hbase.2),
      ← heq, ← hstat]
    exact (FileSystem.stat_real hreal).symm
  · intro data evidence metadata h
    simp only [SearchTextExecutor.execute, Py.bind_eq_ok, pure, Except.pure, Except.ok.injEq,
      Prod.mk.injEq] at h
    obtain ⟨base, hbase, rfl, rfl⟩ := h
    obtain ⟨hparts, hvisible⟩ := hrelative hbase
    obtain ⟨hpath, hreal, -⟩ := resolve_ok hbase
    refine ⟨hvisible, rfl, searchFiles_found ?_ ?_⟩
    · intro path hmem
      have hmem := (List.mem_insertionSort _).mp hmem
      exact rglob_entry hpath (by rw [hpath]; exact hreal.2) hmem
    · intro m hm
      cases hm

end

/-- Case folding of ASCII text; listing calls no other library function. -/
def lowerLibrary : Library :=
  ⟨fun _ => [], fun text => text.map Char.toLower, fun _ _ _ _ => [], fun _ => []⟩

/-- `/w` with a file, a denied file, and a link out of it. -/
def exampleFiles : FileSystem where
  nodes := [([['w']], .directory true), ([['w'], ['a']], .file true [97]),
    ([['w'], ".env".toList], .file true [98]), ([['w'], ['l']], .symlink ['/', 'e']),
      ([['e']], .directory true), ([['e'], ['a']], .file true [99])]
  distinct := by decide
  named := by decide
  parents := by decide

def exampleListing : WorkspaceListFilesInput where
  path := ['.']
  max_depth := 2
  max_results := 100
  path_length := by decide
  path_accepted := by decide
  depth_bounds := by decide
  results_bounds := by decide

theorem exampleListing_run : ListFilesExecutor.execute lowerLibrary exampleFiles 40
    ⟨[['w']]⟩ exampleListing =
    .ok (⟨['.'], [.file ['a'] 1], false⟩, ⟨['.'], 1, false⟩) := by decide +kernel

/-- Listing `/w` shows the one file. -/
theorem workspace_contained_example :
    ListFilesExecutor.execute lowerLibrary exampleFiles 40 ⟨[['w']]⟩ exampleListing =
        .ok (⟨['.'], [.file ['a'] 1], false⟩, ⟨['.'], 1, false⟩) ∧
      Listed lowerLibrary exampleFiles ⟨[['w']]⟩ (.file ['a'] 1) := by
  obtain ⟨-, hlist, -⟩ := workspace_contained lowerLibrary exampleFiles 40 ⟨[['w']]⟩
  exact ⟨exampleListing_run, (hlist _ _ _ exampleListing_run).2.2 _ List.mem_cons_self⟩

end Novalton.WorkspaceFiles
