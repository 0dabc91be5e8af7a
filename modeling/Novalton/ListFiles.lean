/-
`ListFilesExecutor` of `modules/tools/executor.py` over the orders in which an operating
system may enumerate one tree: which entries are listed, in which order, when the result
is said to be truncated, and which of the listed files `workspace.read_file` takes.

The children of a directory are sorted by their case-folded names, so names that fold
alike come in the order of the enumeration; the limit is tested before the kind of a
child. `LimitedWalk` says when neither shows.
-/
import Mathlib.Data.List.Perm.Basic
import Novalton.LimitedWalk
import Novalton.SearchText

namespace Novalton.WorkspaceFiles

open Walk (walk leads rank gather)

/-! ## The tree of visible paths -/

section
variable (lib : Library) (fs : FileSystem) (root : WorkspaceRoot)

/-- No denied component in its name, and no link. -/
def presented (path : List Text) : Bool :=
  !denied lib (root.relative_to path) && !(fs.lookup path).any FileNode.isSymlink

/-- A regular file or a directory. -/
def isEntry (path : List Text) : Bool :=
  (fs.lookup path).any fun node => node.isDirectory || node.isFile

/-- What stands in a directory that can be listed, in the order of the nodes. -/
def childPaths (directory : List Text) : List (List Text) :=
  if fs.lookup directory = .some (.directory true) then
    (fs.nodes.map Prod.fst).filter fun child => child.dropLast == directory
  else []

def visibleChildren (directory : List Text) : List (List Text) :=
  (childPaths fs directory).filter (presented lib fs root)

/-- The visible regular files and directories in a directory. -/
def entryChildren (directory : List Text) : List (List Text) :=
  (visibleChildren lib fs root directory).filter (isEntry fs)

/-- The visible children in the order in which `visit` comes to them. -/
def sortedChildren (directory : List Text) : List (List Text) :=
  (sortedByCasefold lib (fun child => child.getLastD []) (childPaths fs directory)).filter
    (presented lib fs root)

/-- What an entry is listed as. -/
def listedItem (path : List Text) : ListedItem :=
  match fs.lookup path with
  | .some (.file _ data) => .file (relativeText (root.relative_to path)) data.length
  | _ => .directory (relativeText (root.relative_to path))

/-- A directory down to the length `bottom` that cannot be listed. -/
def closed (bottom : ℕ) (path : List Text) : Bool :=
  (fs.lookup path).any FileNode.isDirectory && !decide (fs.lookup path = .some (.directory true)) &&
    decide (path.length ≤ bottom)

/-- What `visit` makes of what a walk gathers. -/
def outcome : Option (List (List Text) × Bool) → Py Listing
  | .none => .error (.tool "workspace_read_failed")
  | .some seen => .ok ⟨seen.1.map (listedItem fs root), seen.2⟩

end

section
variable {lib : Library} {fs fs' : FileSystem} {links : Nat} {root : WorkspaceRoot}
  {max_results : Nat} {directory child path x y : List Text} {found : List (List Text)}

theorem mem_childPaths (h : child ∈ childPaths fs directory) :
    fs.lookup directory = .some (.directory true) ∧ ∃ name, child = directory ++ [name] := by
  rw [childPaths] at h
  split at h
  next hdirectory =>
    obtain ⟨hkey, hparent⟩ := List.mem_filter.mp h
    obtain ⟨entry, hentry, rfl⟩ := List.mem_map.mp hkey
    rw [beq_iff_eq] at hparent
    have hne := (fs.named entry hentry).1
    exact ⟨hdirectory, entry.1.getLast hne, by rw [← hparent, List.dropLast_concat_getLast hne]⟩
  next => cases h

theorem childPaths_nodup : (childPaths fs directory).Nodup := by
  rw [childPaths]
  split
  next => exact fs.distinct.filter _
  next => exact List.nodup_nil

/-- What `iterdir` lists of a real directory. -/
theorem iterdir_eq (hreal : fs.Real directory) : fs.iterdir links directory =
    if fs.lookup directory = .some (.directory true) then .some (childPaths fs directory)
      else .none := by
  rw [FileSystem.iterdir, FileSystem.walk_of_real hreal, Option.bind_some, childPaths]
  split
  next hdirectory =>
    rw [Option.some.injEq]
    refine (List.map_congr_left fun child hchild => ?_).trans (List.map_id _)
    have hmem : child ∈ childPaths fs directory := by
      rw [childPaths, if_pos hdirectory]
      exact hchild
    obtain ⟨-, name, rfl⟩ := mem_childPaths hmem
    rw [List.drop_left]
    rfl
  next hdirectory => rfl

theorem entry_of_childPaths (hreal : fs.Real directory)
    (hbelow : directory = root.path ++ root.relative_to directory)
    (h : child ∈ childPaths fs directory) : Entry fs root child := by
  obtain ⟨hdirectory, -⟩ := mem_childPaths h
  refine @iterdir_entry fs 0 root directory _ child (childPaths fs directory) hbelow hreal ?_ h
  rw [iterdir_eq hreal, if_pos hdirectory]

theorem sortedChildren_perm : (sortedChildren lib fs root directory).Perm
    (visibleChildren lib fs root directory) :=
  (List.perm_insertionSort _ _).filter _

theorem mem_sortedChildren (h : child ∈ sortedChildren lib fs root directory) :
    child ∈ childPaths fs directory ∧ presented lib fs root child = true :=
  List.mem_filter.mp (sortedChildren_perm.subset h)

theorem sortedChildren_extends : Walk.Extends (sortedChildren lib fs root) :=
  fun _ _ hchild => (mem_childPaths (mem_sortedChildren hchild).1).2

/-- Nothing is below what is no directory that can be listed. -/
theorem sortedChildren_leaf (h : fs.lookup path ≠ .some (.directory true)) :
    sortedChildren lib fs root path = [] := by
  rw [List.eq_nil_iff_forall_not_mem]
  intro child hchild
  exact h (mem_childPaths (mem_sortedChildren hchild).1).1

theorem not_entry_leaf (h : isEntry fs path = false) : fs.lookup path ≠ .some
    (.directory true) := by
  intro hnode
  rw [isEntry, hnode] at h
  cases h

/-- What is walked below a real directory is real, is below the root, and is shown. -/
theorem walked_shown {depth : ℕ} (hreal : fs.Real directory)
    (hbelow : directory = root.path ++ root.relative_to directory)
    (h : x ∈ walk (sortedChildren lib fs root) depth directory) :
    fs.Real x ∧ Entry fs root x ∧ denied lib (root.relative_to x) = false := by
  have hall := @Walk.walk_forall Text (sortedChildren lib fs root)
    (fun path => fs.Real path ∧ path = root.path ++ root.relative_to path)
    (fun path => Entry fs root path ∧ denied lib (root.relative_to path) = false) (by
      rintro path ⟨hreal, hbelow⟩ child hchild
      obtain ⟨hmem, hpresented⟩ := mem_sortedChildren hchild
      have hentry := entry_of_childPaths hreal hbelow hmem
      rw [presented, Bool.and_eq_true, Bool.not_eq_true', Bool.not_eq_true'] at hpresented
      obtain ⟨-, name, rfl⟩ := mem_childPaths hmem
      refine ⟨⟨?_, hentry.below⟩, hentry, hpresented.1⟩
      obtain ⟨_, _, _, _, node, hnode⟩ := hentry
      refine hreal.concat ?_
      rw [hnode, Option.any_some] at hpresented ⊢
      rw [hpresented.2]
      rfl) depth directory ⟨hreal, hbelow⟩ x h
  exact ⟨hall.1.1, hall.2.1, hall.2.2⟩

/-! ## The visit -/

/-- The test of `visit`, on an entry of a real directory. -/
theorem skipped_eq (hentry : Entry fs root child) :
    (denied lib (root.relative_to child) || fs.is_symlink links child) =
    !presented lib fs root child := by
  obtain ⟨parent, name, hpath, hreal, -⟩ := hentry
  rw [← List.append_assoc] at hpath
  have hlink : fs.is_symlink links child = (fs.lookup child).any FileNode.isSymlink := by
    rw [hpath, FileSystem.is_symlink, FileSystem.lstat_real hreal]
  rw [hlink, presented, Bool.not_and, Bool.not_not, Bool.not_not]

/-- A full listing stays as it is. -/
theorem visitChildren_full {descend : List Text → Listing → Py Listing} {items : List ListedItem}
    (hfull : max_results ≤ items.length) : ∀ {children : List (List Text)},
    visitChildren lib fs links root max_results descend children ⟨items, true⟩ = .ok
      ⟨items, true⟩ := by
  intro children
  induction children with
  | nil => rfl
  | cons child children ih =>
    rw [visitChildren]
    split
    next => exact ih
    next => rfl

/-- **The loop over the children** gathers what is walked at and below them, when the
visits it makes do. -/
theorem visitChildren_eq {bottom levels : ℕ} {descend : List Text → Listing → Py Listing}
    (hdescend : ∀ {child : List Text} {found : List (List Text)}, Entry fs root child →
      fs.Real child →
      (fs.lookup child).any FileNode.isDirectory = true → child.length + levels = bottom + 1 →
      descend child ⟨found.map (listedItem fs root), false⟩ =
        if closed fs bottom child then .error (.tool "workspace_read_failed")
        else outcome fs root
          (gather (isEntry fs) (closed fs bottom) max_results
          (walk (sortedChildren lib fs root) levels child) found)) :
    ∀ {children found : List (List Text)},
      (∀ child ∈ children, Entry fs root child ∧ child.length + levels = bottom + 1) →
      visitChildren lib fs links root max_results descend children
        ⟨found.map (listedItem fs root), false⟩ =
        outcome fs root (gather (isEntry fs) (closed fs bottom) max_results
          ((children.filter (presented lib fs root)).flatMap fun child =>
            child :: walk (sortedChildren lib fs root) levels child) found) := by
  intro children
  induction children with
  | nil =>
    intro found _
    rfl
  | cons child children ih =>
    intro found hentries
    obtain ⟨hentry, hlength⟩ := hentries child List.mem_cons_self
    have hrest : ∀ other ∈ children, Entry fs root other ∧ other.length + levels = bottom + 1 :=
      fun other hother => hentries other (List.mem_cons_of_mem child hother)
    rw [visitChildren, skipped_eq hentry]
    by_cases hpresented : presented lib fs root child = true
    · rw [if_neg (by simp [hpresented]), List.filter_cons_of_pos hpresented, List.flatMap_cons,
        List.cons_append, gather]
      dsimp only
      rw [List.length_map]
      have hlink : fs.is_symlink links child = false := by
        have hskip := @skipped_eq lib fs links root child hentry
        rw [hpresented, Bool.not_true, Bool.or_eq_false_iff] at hskip
        exact hskip.2
      have hreal := hentry.real hlink
      have hstat : fs.stat links child = fs.lookup child := FileSystem.stat_real hreal
      have hisDir : fs.is_dir links child = (fs.lookup child).any FileNode.isDirectory := by
        rw [FileSystem.is_dir, hstat]
      obtain ⟨_, _, _, _, node, hnode⟩ := id hentry
      by_cases hfull : max_results ≤ found.length
      · rw [if_pos hfull, if_pos hfull]
        rfl
      · rw [if_neg hfull, if_neg hfull, hisDir]
        have hleaf : node.isDirectory = false →
            walk (sortedChildren lib fs root) levels child = [] := by
          intro hkind
          cases levels with
          | zero => rfl
          | succ levels =>
            have hnone : sortedChildren lib fs root child = [] := by
              refine sortedChildren_leaf ?_
              rw [hnode]
              intro heq
              rw [Option.some.inj heq] at hkind
              cases hkind
            rw [walk, hnone, List.flatMap_nil]
        have hopen : node.isDirectory = false → closed fs bottom child = false := by
          intro hkind
          rw [closed, hnode, Option.any_some, hkind, Bool.false_and, Bool.false_and]
        cases node with
        | directory readable =>
          have hentryKind : isEntry fs child = true := by rw [isEntry, hnode]; rfl
          have hitem : listedItem fs root child =
            .directory (relativeText (root.relative_to child)) := by rw [listedItem, hnode]
          have hadd : Listing.add ⟨found.map (listedItem fs root), false⟩
            (.directory (relativeText (root.relative_to child))) =
              ⟨(found ++ [child]).map (listedItem fs root), false⟩ := by
            rw [Listing.add, List.map_append, List.map_singleton, hitem]
          have hdirectory : (fs.lookup child).any FileNode.isDirectory = true := by rw [hnode]; rfl
          rw [if_pos hdirectory, if_pos hentryKind, hadd, hdescend hentry hreal hdirectory hlength]
          split
          next => rfl
          next =>
            rw [Walk.gather_append]
            cases hseen : gather (isEntry fs) (closed fs bottom) max_results
              (walk (sortedChildren lib fs root) levels child)
                (found ++ [child]) with
            | none => rfl
            | some seen =>
              obtain ⟨seen, more⟩ := seen
              cases more with
              | true =>
                have hlimit := Walk.gather_full hseen
                exact visitChildren_full (by rw [List.length_map]; exact hlimit)
              | false => exact ih hrest
        | file readable data =>
          have hentryKind : isEntry fs child = true := by rw [isEntry, hnode]; rfl
          have hitem : listedItem fs root child =
            .file (relativeText (root.relative_to child)) data.length := by rw [listedItem, hnode]
          have hadd : Listing.add ⟨found.map (listedItem fs root), false⟩
            (.file (relativeText (root.relative_to child)) data.length) =
              ⟨(found ++ [child]).map (listedItem fs root), false⟩ := by
            rw [Listing.add, List.map_append, List.map_singleton, hitem]
          rw [if_neg (by rw [hnode]; simp [FileNode.isDirectory]), if_pos hentryKind, hopen rfl,
            if_neg Bool.false_ne_true, hleaf rfl, List.nil_append, hstat, hnode]
          dsimp only
          rw [hadd]
          exact ih hrest
        | symlink target =>
          rw [FileSystem.is_symlink, FileSystem.lstat] at hlink
          rw [presented, hnode] at hpresented
          simp [FileNode.isSymlink] at hpresented
        | special =>
          have hentryKind : isEntry fs child = false := by rw [isEntry, hnode]; rfl
          rw [if_neg (by rw [hnode]; simp [FileNode.isDirectory]), hentryKind,
            if_neg Bool.false_ne_true, hleaf rfl, List.nil_append, hstat, hnode]
          exact ih hrest
    · rw [if_pos (by simpa using hpresented), List.filter_cons_of_neg hpresented]
      exact ih hrest

theorem sorted_entries (hreal : fs.Real directory)
    (hbelow : directory = root.path ++ root.relative_to directory) :
    ∀ child ∈ sortedByCasefold lib (fun child => child.getLastD []) (childPaths fs directory),
      Entry fs root child ∧ child.length = directory.length + 1 := by
  intro child hchild
  have hmem := (List.mem_insertionSort _).mp hchild
  have hentry := entry_of_childPaths hreal hbelow hmem
  obtain ⟨-, name, rfl⟩ := mem_childPaths hmem
  exact ⟨hentry, by rw [List.length_append, List.length_singleton]⟩

/-- **`visit`** gathers the walk below the directory. -/
theorem visit_eq {bottom : ℕ} : ∀ {levels : ℕ} {directory : List Text} {found : List (List Text)},
    fs.Real directory →
    directory = root.path ++ root.relative_to directory → directory.length + levels = bottom →
    visit lib fs links root max_results levels directory ⟨found.map (listedItem fs root), false⟩ =
      if fs.lookup directory = .some (.directory true) then
        outcome fs root
          (gather (isEntry fs) (closed fs bottom) max_results
          (walk (sortedChildren lib fs root) (levels + 1) directory) found)
      else .error (.tool "workspace_read_failed") := by
  intro levels
  induction levels with
  | zero =>
    intro directory found hreal hbelow hlength
    rw [visit, if_neg Bool.false_ne_true, iterdir_eq hreal]
    by_cases hdirectory : fs.lookup directory = .some (.directory true)
    · rw [if_pos hdirectory, if_pos hdirectory]
      refine @visitChildren_eq lib fs links root max_results bottom 0 _ ?_ _ found ?_
      · intro child found _ _ _ hchild
        have hopen : closed fs bottom child = false := by
          rw [closed, decide_eq_false (show ¬child.length ≤ bottom by omega), Bool.and_false]
        rw [hopen, if_neg Bool.false_ne_true]
        rfl
      · intro child hchild
        obtain ⟨hentry, hnext⟩ := sorted_entries hreal hbelow child hchild
        exact ⟨hentry, by omega⟩
    · rw [if_neg hdirectory, if_neg hdirectory]
  | succ levels ih =>
    intro directory found hreal hbelow hlength
    rw [visit, if_neg Bool.false_ne_true, iterdir_eq hreal]
    by_cases hdirectory : fs.lookup directory = .some (.directory true)
    · rw [if_pos hdirectory, if_pos hdirectory]
      refine @visitChildren_eq lib fs links root max_results bottom (levels + 1) _ ?_ _ found ?_
      · intro child found hentry hreal hkind hchild
        rw [ih hreal hentry.below (by omega)]
        have hclosed :
            closed fs bottom child = !decide (fs.lookup child = .some (.directory true)) := by
          rw [closed, hkind, decide_eq_true (show child.length ≤ bottom by omega), Bool.true_and,
            Bool.and_true]
        rw [hclosed]
        by_cases hlisted : fs.lookup child = .some (.directory true)
        · rw [if_pos hlisted, decide_eq_true hlisted, if_neg (by simp)]
        · rw [if_neg hlisted, decide_eq_false hlisted, if_pos (by simp)]
      · intro child hchild
        obtain ⟨hentry, hnext⟩ := sorted_entries hreal hbelow child hchild
        exact ⟨hentry, by omega⟩
    · rw [if_neg hdirectory, if_neg hdirectory]

end

/-! ## The order of the nodes -/

/-- The key of a path among its siblings. -/
def nameKey (lib : Library) (path : List Text) : Text := lib.casefold (path.getLastD [])

section
variable {lib : Library} {fs fs' : FileSystem} {links : Nat} {root : WorkspaceRoot}
  {directory path x y : List Text} {depth : ℕ}

theorem nameKey_concat (path : List Text) (name : Text) : nameKey lib
    (path ++ [name]) = lib.casefold name := by
  rw [nameKey, List.getLastD_concat]

/-- Sorted children: by their keys, and children of one key in the order of the nodes. -/
theorem sortedChildren_pairwise {Q : List Text → List Text → Prop}
    (h : (childPaths fs directory).Pairwise Q) :
    (sortedChildren lib fs root directory).Pairwise fun s t =>
      (nameKey lib s < nameKey lib t ∨ nameKey lib s = nameKey lib t ∧ Q s t) ∧ s ≠ t := by
  have hsorted :
      (sortedByCasefold lib (fun child => child.getLastD []) (childPaths fs directory)).Pairwise
      fun s t =>
      nameKey lib s < nameKey lib t ∨ nameKey lib s = nameKey lib t ∧ Q s t :=
        Walk.insertionSort_stable h
  have hnodup :
      (sortedByCasefold lib (fun child => child.getLastD []) (childPaths fs directory)).Nodup :=
    (List.perm_insertionSort _ _).nodup_iff.mpr childPaths_nodup
  exact (hsorted.and hnodup).sublist List.filter_sublist

/-- No path is walked behind one that it leads. -/
theorem walked_pairwise : (walk (sortedChildren lib fs root) depth directory).Pairwise fun a b =>
    leads lib.casefold b a = false := by
  have hR : ∀ path, (sortedChildren lib fs root path).Pairwise fun s t =>
      (nameKey lib s < nameKey lib t ∨ nameKey lib s = nameKey lib t ∧ True) ∧ s ≠ t :=
    fun path => sortedChildren_pairwise (List.pairwise_of_forall fun _ _ => trivial)
  refine (Walk.walk_pairwise sortedChildren_extends hR).imp fun {x y} h => ?_
  rcases h with ⟨habove, -⟩ | ⟨path, a, b, hx, hy, hkey, hne⟩
  · exact Walk.not_leads_above habove
  · rw [nameKey_concat, nameKey_concat] at hkey
    have hab : a ≠ b := by
      intro heq
      exact hne (by rw [heq])
    refine Walk.not_leads_of_parted hx hy hab ?_
    rcases hkey with hkey | hkey
    · exact le_of_lt hkey
    · exact le_of_eq hkey.1

theorem walked_nodup : (walk (sortedChildren lib fs root) depth directory).Nodup := by
  have hR : ∀ path, (sortedChildren lib fs root path).Pairwise (· ≠ ·) :=
    fun path => ((List.perm_insertionSort _ _).nodup_iff.mpr childPaths_nodup).sublist
      List.filter_sublist
  refine (Walk.walk_pairwise sortedChildren_extends hR).imp fun {x y} h => ?_
  rcases h with ⟨-, hne⟩ | ⟨path, a, b, hx, hy, hne⟩
  · exact hne
  · intro heq
    rw [heq] at hx
    exact hne ((List.prefix_of_prefix_length_le hx hy (by simp)).eq_of_length (by simp))

/-- In an enumeration that names the way to a path first, what is walked before it leads it. -/
theorem fronted (hfront : ∀ directory, (childPaths fs directory).Pairwise fun _ t => ¬t <+: x)
    {u v : List (List Text)} (hsplit : walk (sortedChildren lib fs root) depth directory = u ++ x ::
      v) : ∀ z ∈ u, leads lib.casefold z x = true := by
  have hwalk := @Walk.walk_pairwise Text (sortedChildren lib fs root) _ sortedChildren_extends
    (fun path => sortedChildren_pairwise (hfront path)) depth directory
  rw [hsplit] at hwalk
  intro z hz
  rcases (List.pairwise_append.mp hwalk).2.2 z hz x List.mem_cons_self with ⟨habove, hne⟩ |
    ⟨path, a, b, hpath, hpath', hkey, -⟩
  · exact Walk.above_leads habove hne
  · rw [nameKey_concat, nameKey_concat] at hkey
    rcases hkey with hkey | ⟨-, hnot⟩
    · exact Walk.leads_of_parted hpath hpath' hkey
    · exact absurd hpath' hnot

/-- In an enumeration that names the way to a path last, it leads what is walked behind it. -/
theorem trailed (hback : ∀ directory, (childPaths fs directory).Pairwise fun s _ => ¬s <+: x)
    {u v : List (List Text)} (hsplit : walk (sortedChildren lib fs root) depth directory = u ++ x ::
      v) : ∀ z ∈ v, leads lib.casefold x z = true := by
  have hwalk := @Walk.walk_pairwise Text (sortedChildren lib fs root) _ sortedChildren_extends
    (fun path => sortedChildren_pairwise (hback path)) depth directory
  rw [hsplit] at hwalk
  intro z hz
  obtain ⟨hx, -⟩ := List.pairwise_cons.mp (List.pairwise_append.mp hwalk).2.1
  rcases hx z hz with ⟨habove, hne⟩ | ⟨path, a, b, hpath, hpath', hkey, -⟩
  · exact Walk.above_leads habove hne
  · rw [nameKey_concat, nameKey_concat] at hkey
    rcases hkey with hkey | ⟨-, hnot⟩
    · exact Walk.leads_of_parted hpath hpath' hkey
    · exact absurd hpath hnot

/-! ### Two enumerations -/

/-- Of the children of one directory, at most one is on the way to a path. -/
theorem on_the_way {s t : List Text} (hs : s ∈ childPaths fs directory)
    (ht : t ∈ childPaths fs directory) (hsx : s <+: x) (htx : t <+: x) : s = t := by
  obtain ⟨-, a, rfl⟩ := mem_childPaths hs
  obtain ⟨-, b, rfl⟩ := mem_childPaths ht
  have hle : (directory ++ [a]).length ≤ (directory ++ [b]).length := by
    rw [List.length_append, List.length_append, List.length_singleton, List.length_singleton]
  exact (List.prefix_of_prefix_length_le hsx htx hle).eq_of_length (by simp)

/-- The nodes on the way to a path, and the others. -/
def onWay (x : List Text) (entry : List Text × FileNode) : Bool := entry.1.isPrefixOf x

theorem childPaths_reorder {nodes : List (List Text × FileNode)} (h : nodes.Perm fs.nodes) :
    childPaths (fs.reorder nodes h) directory =
    if fs.lookup directory = .some (.directory true) then
      (nodes.map Prod.fst).filter fun child => child.dropLast == directory
    else [] := by
  rw [childPaths, FileSystem.lookup_eq h]
  rfl

theorem childPaths_perm (h : fs'.nodes.Perm fs.nodes) : (childPaths fs' directory).Perm
    (childPaths fs directory) := by
  rw [childPaths, childPaths, FileSystem.lookup_eq h]
  split
  next => exact (h.map Prod.fst).filter _
  next => exact List.Perm.refl _

/-- There is an enumeration that names the way to a path first. -/
theorem exists_fronted (fs : FileSystem) (x : List Text) : ∃ fs' : FileSystem,
    fs'.nodes.Perm fs.nodes ∧
    ∀ directory, (childPaths fs' directory).Pairwise fun _ t => ¬t <+: x := by
  have hperm := List.filter_append_perm (onWay x) fs.nodes
  refine ⟨fs.reorder _ hperm, hperm, fun directory => ?_⟩
  have hmem : ∀ {child : List Text}, child ∈ childPaths (fs.reorder _ hperm) directory →
      child ∈ childPaths fs directory :=
    fun h => (childPaths_perm hperm).subset h
  have hnodup := @childPaths_nodup (fs.reorder _ hperm) directory
  by_cases hdirectory : fs.lookup directory = .some (.directory true)
  · rw [childPaths_reorder, if_pos hdirectory, List.map_append, List.filter_append] at hmem hnodup ⊢
    rw [List.pairwise_append]
    obtain ⟨hfirst, -, -⟩ := List.nodup_append.mp hnodup
    have hlate : ∀ t ∈ ((fs.nodes.filter fun entry => !onWay x entry).map
      Prod.fst).filter (fun child => child.dropLast == directory),
        ¬t <+: x := by
      intro t ht
      obtain ⟨entry, hentry, rfl⟩ := List.mem_map.mp (List.mem_filter.mp ht).1
      have hnot := (List.mem_filter.mp hentry).2
      rw [onWay, Bool.not_eq_true', ← Bool.not_eq_true, List.isPrefixOf_iff_prefix] at hnot
      exact hnot
    refine ⟨hfirst.imp_of_mem fun {s t} hs ht hne hway => hne ?_,
      List.Pairwise.imp_of_mem (fun _ ht _ => hlate _ ht)
      (hnodup.sublist (List.sublist_append_right _ _)), fun s _ t ht => hlate t ht⟩
    obtain ⟨entry, hentry, rfl⟩ := List.mem_map.mp (List.mem_filter.mp hs).1
    have hway' := (List.mem_filter.mp hentry).2
    rw [onWay, List.isPrefixOf_iff_prefix] at hway'
    exact on_the_way (hmem (List.mem_append_left _ hs)) (hmem (List.mem_append_left _ ht)) hway'
      hway
  · rw [childPaths_reorder, if_neg hdirectory]
    exact List.Pairwise.nil

/-- There is an enumeration that names the way to a path last. -/
theorem exists_trailed (fs : FileSystem) (x : List Text) : ∃ fs' : FileSystem,
    fs'.nodes.Perm fs.nodes ∧
    ∀ directory, (childPaths fs' directory).Pairwise fun s _ => ¬s <+: x := by
  obtain ⟨fs', hperm, hfront⟩ := exists_fronted fs x
  have hreverse : fs'.nodes.reverse.Perm fs.nodes := (List.reverse_perm _).trans hperm
  refine ⟨fs.reorder _ hreverse, hreverse, fun directory => ?_⟩
  have hchildren :
      childPaths (fs.reorder _ hreverse) directory = (childPaths fs' directory).reverse := by
    rw [childPaths_reorder, childPaths, FileSystem.lookup_eq hperm]
    split
    next => rw [List.map_reverse, List.filter_reverse]
    next => rfl
  rw [hchildren, List.pairwise_reverse]
  exact hfront directory

end

/-! ## Listed files -/

section
variable {lib : Library} {fs : FileSystem} {links : Nat} {root : WorkspaceRoot} {path : List Text}
  {parts : List Text}

theorem relativeText_slash (hne : parts ≠ []) (h : ∀ part ∈ parts, Named part) : ['/'].isPrefixOf
    (relativeText parts) = false := by
  obtain ⟨part, rest, rfl⟩ := List.exists_cons_of_ne_nil hne
  obtain ⟨hpart, hslash, -⟩ := h part List.mem_cons_self
  obtain ⟨c, tail, rfl⟩ := List.exists_cons_of_ne_nil hpart
  have hc : '/' ≠ c := by
    intro heq
    rw [← heq] at hslash
    exact hslash List.mem_cons_self
  have htext : ∃ more, relativeText ((c :: tail) :: rest) = c :: more := by
    rw [relativeText, if_neg (by simp), joinSlash]
    cases rest with
    | nil => exact ⟨tail, by simp [List.intercalate]⟩
    | cons other rest => exact ⟨tail ++ '/' :: ['/'].intercalate (other :: rest),
        by simp [List.intercalate, List.intersperse]⟩
  obtain ⟨more, htext⟩ := htext
  rw [htext, List.isPrefixOf_cons_cons, beq_eq_false_iff_ne.mpr hc, Bool.false_and]

/-- What the validator of `read_file` takes of the texts a walk lists. -/
theorem relativeText_accepted (hne : parts ≠ []) (h : ∀ part ∈ parts, Named part) :
    relativePathAccepted (relativeText parts) = true ↔
    '\\' ∉ relativeText parts ∧ hasDrivePrefix (relativeText parts) = false := by
  have hdots : parts.contains ['.', '.'] = false := by
    rw [Bool.eq_false_iff, ne_eq, List.contains_iff_mem]
    intro hmem
    exact (h _ hmem).2.2.2 rfl
  rw [relativePathAccepted, pureParts_relativeText h, relativeText_slash hne h, hdots,
    beq_self_eq_true]
  simp

/-- A visible regular file whose text holds no backslash resolves to itself. -/
theorem resolve_listed (hentry : Entry fs root path) (hreal : fs.Real path)
    (hdenied : denied lib (root.relative_to path) = false)
    (hfile : (fs.lookup path).any FileNode.isFile = true)
    (hback : '\\' ∉ relativeText (root.relative_to path)) :
    root.resolve lib fs links (relativeText (root.relative_to path)) false = .ok path := by
  have hbelow := hentry.below
  have hne : root.relative_to path ≠ [] := by
    obtain ⟨parent, name, hpath, -⟩ := hentry
    rw [WorkspaceRoot.relative_to, hpath, List.drop_left]
    simp
  have hnamed : ∀ part ∈ root.relative_to path, Named part :=
    named_below (by rw [← hbelow]; exact hreal)
  have hstart : ((relativeText (root.relative_to path)).contains '\\' ||
      ['/'].isPrefixOf (relativeText (root.relative_to path))) = false := by
    rw [relativeText_slash hne hnamed, Bool.or_false, Bool.eq_false_iff, ne_eq,
      List.contains_iff_mem]
    exact hback
  have hplain : ((root.relative_to path).any fun part => part == ['.', '.'] || part.isEmpty) =
      false := by
    rw [List.any_eq_false]
    intro part hpart
    obtain ⟨hnil, -, -, hdots⟩ := hnamed part hpart
    simp [hnil, hdots]
  have hlinks : ((root.relative_to path).inits.any fun pre => !pre.isEmpty &&
      fs.is_symlink links (root.path ++ pre)) = false := by
    rw [List.any_eq_false]
    intro pre hpre
    rw [Bool.and_eq_true, not_and, Bool.not_eq_true', Bool.not_eq_true]
    intro hpreNe
    have habove : root.path ++ pre <+: path := by
      rw [hbelow]
      exact List.prefix_append_right_inj root.path |>.mpr ((List.mem_inits _ _).mp hpre)
    have hpreNe' : pre ≠ [] := by simpa using hpreNe
    rw [← List.dropLast_concat_getLast hpreNe', ← List.append_assoc] at habove ⊢
    have hpreReal := hreal.of_prefix habove
    obtain ⟨node, hnode, hlink⟩ := hpreReal.lookup
    rw [FileSystem.is_symlink, FileSystem.lstat_real (hpreReal.of_prefix (List.prefix_append _ _)),
      hnode, Option.any_some, hlink]
  obtain ⟨node, hnode, hlink⟩ := hreal.lookup
  have hself : fs.is_symlink links path = false := by
    obtain ⟨parent, name, hpath, hparent, -⟩ := hentry
    rw [← List.append_assoc] at hpath
    rw [hpath] at hnode ⊢
    rw [FileSystem.is_symlink, FileSystem.lstat_real hparent, hnode, Option.any_some, hlink]
  have hkind : fs.is_file links path = true := by
    rw [FileSystem.is_file, FileSystem.stat_real hreal]
    rw [hnode, Option.any_some] at hfile
    rw [hnode]
    cases node with
    | file readable data => rfl
    | directory | symlink | special => cases hfile
  have hrealpath : fs.realpath links path = .some path := FileSystem.walk_of_real hreal
  have hroot : root.path.isPrefixOf path = true := by
    rw [List.isPrefixOf_iff_prefix, hbelow]
    exact List.prefix_append _ _
  simp only [WorkspaceRoot.resolve, hstart, pureParts_relativeText hnamed, hplain, hdenied, hlinks,
    ← hbelow, hrealpath, hroot, hself, hkind, raiseIf_false, orRaise_some, Bool.not_true,
      Bool.false_eq_true, if_false, Py.ok_bind]
  rfl

theorem listedItem_file {text : Text} {size_bytes : Nat}
    (h : listedItem fs root path = .file text size_bytes) :
    (fs.lookup path).any FileNode.isFile = true ∧ text = relativeText (root.relative_to path) := by
  rw [listedItem] at h
  split at h
  next readable data hnode =>
    rw [ListedItem.file.injEq] at h
    rw [hnode]
    exact ⟨rfl, h.1.symm⟩
  next => cases h

theorem listedItem_path : (listedItem fs root path).path = relativeText
    (root.relative_to path) := by
  rw [listedItem]
  split
  next => rfl
  next => rfl

end

/-! ## Exact listings -/

section
variable (lib : Library) (fs : FileSystem) (links : Nat) (root : WorkspaceRoot)
  (data : WorkspaceListFilesInput) (base : List Text)

/-- The visible paths within the depth, in the order of the nodes. -/
def visiblePaths : List (List Text) := walk (visibleChildren lib fs root) (data.max_depth + 1) base

/-- The visible regular files and directories within the depth. -/
def visibleEntries : List (List Text) := walk (entryChildren lib fs root) (data.max_depth + 1) base

/-- The visible paths in the order in which `visit` comes to them. -/
def visited : List (List Text) := walk (sortedChildren lib fs root) (data.max_depth + 1) base

/-- An exact answer: the first entries of a traversal, truncation reported when an entry was
left, and the files among them taken by the validator and the resolver of `read_file`. -/
structure ExactListing (traversal : List (List Text)) (evidence : ListFilesEvidence) : Prop where
  items : evidence.items = (traversal.take data.max_results).map (listedItem fs root)
  truncated : evidence.truncated = true ↔ data.max_results < traversal.length
  readable : ∀ path size_bytes, ListedItem.file path size_bytes ∈ evidence.items →
    path.length ≤ 300 →
    relativePathAccepted path = true ∧ ∃ resolved, root.resolve lib fs links path false =
      .ok resolved

/-- In every order of enumeration the listing succeeds, with the exact answer for one
pre-order traversal of the visible regular files and directories. -/
def ListExact : Prop :=
  ∃ arranged : List Text → List (List Text),
    (∀ directory, (arranged directory).Perm (entryChildren lib fs root directory)) ∧
    ∀ fs' : FileSystem, fs'.nodes.Perm fs.nodes →
      ∃ evidence metadata, ListFilesExecutor.execute lib fs' links root data =
        .ok (evidence, metadata) ∧
        ExactListing lib fs links root data (walk arranged (data.max_depth + 1) base) evidence

/-- Among the entries that fewer than `max_results` others lead, no two siblings fold alike,
none is a directory that is entered and cannot be listed, and no file has a text that
`read_file` refuses; and where the entries just fill the result, one of them comes behind
each special file. -/
structure Orderly : Prop where
  listable : fs.lookup base = .some (.directory true)
  untied : ∀ x ∈ visibleEntries lib fs root data base, ∀ y ∈ visibleEntries lib fs root data base,
    x ≠ y →
    x.dropLast = y.dropLast → nameKey lib x = nameKey lib y →
    data.max_results ≤ rank lib.casefold (visibleEntries lib fs root data base) x
  opened : ∀ x ∈ visibleEntries lib fs root data base, closed fs (base.length + data.max_depth) x =
    true →
    data.max_results ≤ rank lib.casefold (visibleEntries lib fs root data base) x
  room : (visibleEntries lib fs root data base).length ≠ data.max_results ∨
    ∀ s ∈ visiblePaths lib fs root data base, isEntry fs s = false →
      ∃ x ∈ visibleEntries lib fs root data base, leads lib.casefold s x = true
  named : ∀ x ∈ visibleEntries lib fs root data base, (fs.lookup x).any FileNode.isFile = true →
    rank lib.casefold (visibleEntries lib fs root data base) x < data.max_results →
    (relativeText (root.relative_to x)).length ≤ 300 →
    '\\' ∉ relativeText (root.relative_to x) ∧
      hasDrivePrefix (relativeText (root.relative_to x)) = false

end

section
variable {lib : Library} {fs fs' : FileSystem} {links : Nat} {root : WorkspaceRoot}
  {data : WorkspaceListFilesInput} {base x y : List Text} {evidence : ListFilesEvidence}
  {metadata : ListFilesMetadata}

theorem resolved_base (hbase : root.resolve lib fs links data.path true = .ok base) :
    fs.Real base ∧ base = root.path ++ root.relative_to base := by
  obtain ⟨hpath, hvisible, -⟩ := resolve_ok hbase
  refine ⟨by rw [hpath]; exact hvisible.2, ?_⟩
  rw [WorkspaceRoot.relative_to, hpath, List.drop_left]

/-! ### The tree does not depend on the order of the nodes -/

theorem isEntry_eq (h : fs'.lookup = fs.lookup) : isEntry fs' = isEntry fs := by
  funext path
  rw [isEntry, isEntry, h]

theorem presented_eq (h : fs'.lookup = fs.lookup) :
    presented lib fs' root = presented lib fs root := by
  funext path
  rw [presented, presented, h]

theorem closed_eq (h : fs'.lookup = fs.lookup) {bottom : ℕ} :
    closed fs' bottom = closed fs bottom := by
  funext path
  rw [closed, closed, h]

theorem listedItem_eq (h : fs'.lookup = fs.lookup) : listedItem fs' root = listedItem fs root := by
  funext path
  rw [listedItem, listedItem, h]

/-- The visit of an enumeration comes to the visible paths. -/
theorem visited_perm (h : fs'.nodes.Perm fs.nodes) :
    (visited lib fs' root data base).Perm (visiblePaths lib fs root data base) := by
  refine Walk.walk_perm fun directory => sortedChildren_perm.trans ?_
  rw [visibleChildren, visibleChildren, presented_eq (FileSystem.lookup_eq h)]
  exact (childPaths_perm h).filter _

theorem visiblePaths_entries : (visiblePaths lib fs root data base).filter
    (isEntry fs) = visibleEntries lib fs root data base := by
  refine Walk.walk_filter (isEntry fs) fun path hpath => ?_
  rw [visibleChildren, childPaths, if_neg (not_entry_leaf hpath), List.filter_nil]

theorem visited_entries (h : fs'.nodes.Perm fs.nodes) :
    ((visited lib fs' root data base).filter (isEntry fs)).Perm
    (visibleEntries lib fs root data base) := by
  rw [← visiblePaths_entries]
  exact (visited_perm h).filter _

theorem visited_pairwise : ((visited lib fs root data base).filter (isEntry fs')).Pairwise
    fun a b => leads lib.casefold b a = false :=
  walked_pairwise.sublist List.filter_sublist

/-- What `execute` comes to, when it returns. -/
theorem execute_eq_ok (hbase : root.resolve lib fs links data.path true = .ok base)
    (hperm : fs'.nodes.Perm fs.nodes) :
    ListFilesExecutor.execute lib fs' links root data = .ok (evidence, metadata) ↔
      fs.lookup base = .some (.directory true) ∧ ∃ listed more,
        gather (isEntry fs) (closed fs (base.length + data.max_depth)) data.max_results
          (visited lib fs' root data base) [] =
          .some (listed, more) ∧
        evidence = ⟨root.relative base, listed.map (listedItem fs root), more⟩ ∧
        metadata = ⟨root.relative base, (listed.map (listedItem fs root)).length, more⟩ := by
  have hlookup := FileSystem.lookup_eq hperm
  have hbase' : root.resolve lib fs' links data.path true = .ok base := by
    rw [resolve_eq hlookup, hbase]
  obtain ⟨hreal, hbelow⟩ := resolved_base hbase'
  have hvisit :=
    @visit_eq lib fs' links root data.max_results _ data.max_depth base [] hreal hbelow rfl
  rw [hlookup, isEntry_eq hlookup, closed_eq hlookup] at hvisit
  rw [ListFilesExecutor.execute, hbase', Py.ok_bind]
  rw [List.map_nil] at hvisit
  rw [hvisit]
  by_cases hlisted : fs.lookup base = .some (.directory true)
  · rw [if_pos hlisted]
    show (outcome fs' root
      (gather (isEntry fs) (closed fs (base.length + data.max_depth)) data.max_results
      (visited lib fs' root data base) []) >>= fun listing => _) = _ ↔ _
    cases hgather : gather (isEntry fs) (closed fs (base.length + data.max_depth)) data.max_results
        (visited lib fs' root data base) [] with
    | none => simp [outcome, bind, Except.bind]
    | some seen =>
      obtain ⟨listed, more⟩ := seen
      rw [outcome, Py.ok_bind, listedItem_eq hlookup]
      simp only [pure, Except.pure, Except.ok.injEq, Prod.mk.injEq, Option.some.injEq]
      constructor
      · rintro ⟨rfl, rfl⟩
        exact ⟨hlisted, listed, more, ⟨rfl, rfl⟩, rfl, rfl⟩
      · rintro ⟨-, listed', more', ⟨rfl, rfl⟩, rfl, rfl⟩
        exact ⟨rfl, rfl⟩
  · rw [if_neg hlisted]
    simp [hlisted, bind, Except.bind]

/-! ### Orderly trees -/

/-- The ancestors of an entry below the base are entries. -/
theorem entry_above (hx : x ∈ visited lib fs root data base) (hkind : isEntry fs x = true)
    {s : List Text} (hs : s <+: x) (hlength : base.length < s.length) :
    s ∈ visited lib fs root data base ∧ isEntry fs s = true := by
  obtain ⟨hmem, hcase⟩ := Walk.walk_above sortedChildren_extends hx hs hlength
  refine ⟨hmem, ?_⟩
  rcases hcase with rfl | hchildren
  · exact hkind
  · by_contra hnot
    exact hchildren (sortedChildren_leaf (not_entry_leaf (by simpa using hnot)))

/-- **An orderly tree is listed exactly.** -/
theorem exact_of_orderly (hbase : root.resolve lib fs links data.path true = .ok base)
    (h : Orderly lib fs root data base) :
    ListExact lib fs links root data base := by
  have hrefl := List.Perm.refl fs.nodes
  have harranged :
    walk (fun directory => (sortedChildren lib fs root directory).filter (isEntry fs))
    (data.max_depth + 1) base =
      (visited lib fs root data base).filter (isEntry fs) :=
    (Walk.walk_filter (isEntry fs) fun path hpath =>
      sortedChildren_leaf (not_entry_leaf hpath)).symm
  refine ⟨fun directory => (sortedChildren lib fs root directory).filter (isEntry fs),
    fun directory => sortedChildren_perm.filter _, ?_⟩
  intro fs' hperm
  rw [harranged]
  have hentries := @visited_entries lib fs fs' root data base hperm
  have hentries' := @visited_entries lib fs fs root data base hrefl
  have hordered := @visited_pairwise lib fs' fs root data base
  -- no directory that cannot be listed is entered
  have hsafe : ∀ u z v, visited lib fs' root data base = u ++ z :: v → isEntry fs z = true →
      closed fs (base.length + data.max_depth) z = true →
          data.max_results ≤ ([] : List (List Text)).length + (u.filter (isEntry fs)).length := by
    intro u z v hsplit hkind hclosed
    rw [hsplit, List.filter_append, List.filter_cons_of_pos hkind] at hentries hordered
    have hle := Walk.rank_le_place hordered
    rw [Walk.rank_perm hentries] at hle
    have hlimit := h.opened z (hentries.subset (by simp)) hclosed
    rw [List.length_nil, Nat.zero_add]
    exact hlimit.trans hle
  obtain ⟨more, hgather, hmore⟩ :=
    @Walk.gather_some _ (isEntry fs) (closed fs (base.length + data.max_depth)) data.max_results
    (visited lib fs' root data base) [] (Nat.zero_le _) hsafe
  rw [List.nil_append] at hgather
  have hnodup : ((visited lib fs' root data base).filter (isEntry fs)).Nodup :=
    walked_nodup.filter _
  have htake : ((visited lib fs' root data base).filter (isEntry fs)).take data.max_results =
      ((visited lib fs root data base).filter (isEntry fs)).take data.max_results := by
    refine Walk.take_eq (hentries.trans hentries'.symm) hnodup hordered visited_pairwise ?_
    intro x hx hlow y hy hne
    by_contra hnot
    rw [not_or, Bool.not_eq_true, Bool.not_eq_true] at hnot
    obtain ⟨path, a, b, hpa, hpb, hab, hkey⟩ := Walk.tied_of_not_leads hnot.1 hnot.2 (Ne.symm hne)
    obtain ⟨hxv, hxk⟩ := List.mem_filter.mp hx
    obtain ⟨hyv, hyk⟩ := List.mem_filter.mp hy
    obtain ⟨hxb, -⟩ := Walk.walk_below sortedChildren_extends x hxv
    obtain ⟨hyb, -⟩ := Walk.walk_below sortedChildren_extends y hyv
    have hlength := Walk.parted_below hxb hyb hpa hpb hab
    have hsa : path ++ [a] ∈ (visited lib fs' root data base).filter (isEntry fs) := by
      rw [← isEntry_eq (FileSystem.lookup_eq hperm)] at hxk ⊢
      exact List.mem_filter.mpr
        (entry_above hxv hxk hpa (by rw [List.length_append, List.length_singleton]; omega))
    have hsb : path ++ [b] ∈ (visited lib fs' root data base).filter (isEntry fs) := by
      rw [← isEntry_eq (FileSystem.lookup_eq hperm)] at hyk ⊢
      exact List.mem_filter.mpr
        (entry_above hyv hyk hpb (by rw [List.length_append, List.length_singleton]; omega))
    have hlimit := h.untied _ (hentries.subset hsa) _ (hentries.subset hsb)
      (by intro heq; exact hab (List.cons.inj (List.append_cancel_left heq)).1)
        (by rw [List.dropLast_concat, List.dropLast_concat])
      (by rw [nameKey_concat, nameKey_concat, hkey])
    have hmono : rank lib.casefold (visibleEntries lib fs root data base) (path ++ [a]) ≤
        rank lib.casefold (visibleEntries lib fs root data base) x := Walk.rank_mono hpa
    rw [Walk.rank_perm hentries] at hlow
    omega
  rw [htake] at hgather
  refine ⟨_, _, (execute_eq_ok hbase hperm).mpr ⟨h.listable, _, more, hgather, rfl, rfl⟩, rfl, ?_,
    ?_⟩
  · rw [hmore, (hentries'.trans hentries.symm).length_eq]
    constructor
    · rintro ⟨u, z, v, hsplit, hle⟩
      rw [List.length_nil, Nat.zero_add] at hle
      have hlength := hentries.length_eq
      rw [hsplit, List.filter_append, List.length_append] at hlength ⊢
      by_cases hkind : isEntry fs z = true
      · rw [List.filter_cons_of_pos hkind, List.length_cons]
        omega
      · rcases h.room with hroom | hbehind
        · omega
        · have hz : z ∈ visiblePaths lib fs root data base :=
            (visited_perm hperm).subset (by rw [hsplit]; simp)
          obtain ⟨x, hx, hlead⟩ := hbehind z hz (by simpa using hkind)
          have hxv : x ∈ (visited lib fs' root data base).filter (isEntry fs) :=
            hentries.symm.subset hx
          obtain ⟨hxv, hxk⟩ := List.mem_filter.mp hxv
          have hall := @walked_pairwise lib fs' root base (data.max_depth + 1)
          rw [visited] at hsplit hxv
          rw [hsplit] at hall hxv
          have hbehindZ : x ∈ v := by
            rcases List.mem_append.mp hxv with hxu | hxv
            · have hnot := (List.pairwise_append.mp hall).2.2 x hxu z List.mem_cons_self
              rw [hlead] at hnot
              cases hnot
            · rcases List.mem_cons.mp hxv with rfl | hxv
              · exact absurd hxk hkind
              · exact hxv
          have hpos := List.length_pos_of_mem (List.mem_filter.mpr ⟨hbehindZ, hxk⟩)
          rw [List.filter_cons_of_neg hkind]
          omega
    · intro hlong
      obtain ⟨u, z, v, hsplit, hle⟩ := Walk.split_of_more hlong
      exact ⟨u, z, v, hsplit, by rw [List.length_nil, Nat.zero_add]; exact hle⟩
  · intro path size_bytes hitem hshort
    dsimp only at hitem
    obtain ⟨x, hx, hfile⟩ := List.mem_map.mp hitem
    obtain ⟨hkind, rfl⟩ := listedItem_file hfile
    have hlow := Walk.rank_lt_of_mem_take visited_pairwise hx
    rw [Walk.rank_perm hentries'] at hlow
    have hmem := List.mem_of_mem_take hx
    obtain ⟨hback, hdrive⟩ := h.named x (hentries'.subset hmem) hkind hlow hshort
    obtain ⟨hreal, hbelow⟩ := resolved_base hbase
    obtain ⟨hxreal, hentry, hdenied⟩ := walked_shown hreal hbelow (List.mem_filter.mp hmem).1
    have hxbelow := hentry.below
    have hne : root.relative_to x ≠ [] := by
      obtain ⟨parent, name, hpath, -⟩ := hentry
      rw [WorkspaceRoot.relative_to, hpath, List.drop_left]
      simp
    have hnamed : ∀ part ∈ root.relative_to x, Named part :=
      named_below (by rw [← hxbelow]; exact hxreal)
    exact ⟨(relativeText_accepted hne hnamed).mpr ⟨hback, hdrive⟩, x,
      resolve_listed hentry hxreal hdenied hkind hback⟩

/-! ### Exact listings are of orderly trees -/

/-- What an exact listing comes to in each enumeration. -/
theorem exact_runs (hbase : root.resolve lib fs links data.path true = .ok base)
    (h : ListExact lib fs links root data base) :
    fs.lookup base = .some (.directory true) ∧ ∃ items : List ListedItem,
      (∀ path size_bytes, ListedItem.file path size_bytes ∈ items → path.length ≤ 300 →
        relativePathAccepted path = true) ∧
      ∀ fs' : FileSystem, fs'.nodes.Perm fs.nodes → ∃ listed more,
        gather (isEntry fs) (closed fs (base.length + data.max_depth)) data.max_results
          (visited lib fs' root data base) [] =
          .some (listed, more) ∧
        (((visited lib fs' root data base).filter (isEntry fs)).take data.max_results).map
        (listedItem fs root) = items ∧
        (data.max_results < (visibleEntries lib fs root data base).length ↔
          ∃ u z v, visited lib fs' root data base = u ++ z :: v ∧
            data.max_results ≤ (u.filter (isEntry fs)).length) := by
  obtain ⟨arranged, harranged, hruns⟩ := h
  have hlength : (walk arranged (data.max_depth + 1) base).length =
      (visibleEntries lib fs root data base).length :=
    (Walk.walk_perm harranged).length_eq
  have hrun : ∀ fs' : FileSystem, fs'.nodes.Perm fs.nodes →
    fs.lookup base = .some (.directory true) ∧
      ∃ listed more evidence,
        gather (isEntry fs) (closed fs (base.length + data.max_depth)) data.max_results
          (visited lib fs' root data base) [] =
          .some (listed, more) ∧
        evidence = ⟨root.relative base, listed.map (listedItem fs root), more⟩ ∧
        ExactListing lib fs links root data (walk arranged (data.max_depth + 1) base) evidence := by
    intro fs' hperm
    obtain ⟨evidence, metadata, hexecute, hexact⟩ := hruns fs' hperm
    obtain ⟨hlist, listed, more, hgather, hevidence, -⟩ := (execute_eq_ok hbase hperm).mp hexecute
    exact ⟨hlist, listed, more, evidence, hgather, hevidence, hexact⟩
  obtain ⟨hlist, -, -, evidence, -, -, hexact⟩ := hrun fs (List.Perm.refl fs.nodes)
  refine ⟨hlist, evidence.items, fun path size_bytes hitem hshort =>
    (hexact.readable path size_bytes hitem hshort).1, ?_⟩
  intro fs' hperm
  obtain ⟨-, listed, more, evidence', hgather, rfl, hexact'⟩ := hrun fs' hperm
  obtain ⟨hlisted, hmore⟩ := Walk.gather_ok hgather
  refine ⟨listed, more, hgather, ?_, ?_⟩
  · rw [hexact.items, ← hexact'.items, hlisted]
  · rw [← hlength, ← hexact'.truncated]
    exact hmore

/-- Some enumeration visits a path right behind the entries that lead it. -/
theorem exists_placed (hx : x ∈ visibleEntries lib fs root data base) : ∃ fs' : FileSystem,
    fs'.nodes.Perm fs.nodes ∧
    ∃ u v, visited lib fs' root data base = u ++ x :: v ∧ isEntry fs x = true ∧
      (u.filter (isEntry fs)).length = rank lib.casefold
      (visibleEntries lib fs root data base) x := by
  obtain ⟨fs', hperm, hfront⟩ := exists_fronted fs x
  have hentries := @visited_entries lib fs fs' root data base hperm
  obtain ⟨hvisited, hkind⟩ := List.mem_filter.mp (hentries.symm.subset hx)
  obtain ⟨u, v, hsplit⟩ := List.append_of_mem hvisited
  have hlead := fronted hfront hsplit
  have hordered := @visited_pairwise lib fs' fs root data base
  rw [hsplit, List.filter_append, List.filter_cons_of_pos hkind] at hentries hordered
  refine ⟨fs', hperm, u, v, hsplit, hkind, ?_⟩
  rw [← Walk.rank_perm hentries]
  exact (Walk.place_eq_rank hordered fun z hz => hlead z (List.mem_filter.mp hz).1).symm

/-- An entry that fewer than `max_results` others lead is listed behind them. -/
theorem listed_at_rank {items : List ListedItem}
    (hitems : ∀ fs' : FileSystem, fs'.nodes.Perm fs.nodes →
      (((visited lib fs' root data base).filter (isEntry fs)).take data.max_results).map
      (listedItem fs root) = items)
    (hx : x ∈ visibleEntries lib fs root data base)
    (hlow : rank lib.casefold (visibleEntries lib fs root data base) x < data.max_results) :
    items[rank lib.casefold (visibleEntries lib fs root data base) x]? = .some
      (listedItem fs root x) := by
  obtain ⟨fs', hperm, u, v, hsplit, hkind, hplace⟩ := exists_placed hx
  rw [← hitems fs' hperm, hsplit, List.filter_append, List.filter_cons_of_pos hkind,
    List.getElem?_map, List.getElem?_take_of_lt hlow, ← hplace]
  simp

theorem listedItem_inj (hbase : root.resolve lib fs links data.path true = .ok base)
    (hx : x ∈ visibleEntries lib fs root data base) (hy : y ∈ visibleEntries lib fs root data base)
    (h : listedItem fs root x = listedItem fs root y) : x = y := by
  obtain ⟨hreal, hbelow⟩ := resolved_base hbase
  have hentries := @visited_entries lib fs fs root data base (List.Perm.refl fs.nodes)
  have hparts : ∀ {p : List Text}, p ∈ visibleEntries lib fs root data base →
      pureParts (relativeText (root.relative_to p)) = root.relative_to p ∧
          p = root.path ++ root.relative_to p := by
    intro p hp
    obtain ⟨hpreal, hentry, -⟩ :=
      walked_shown hreal hbelow (List.mem_filter.mp (hentries.symm.subset hp)).1
    have hpbelow := hentry.below
    exact ⟨pureParts_relativeText (named_below (by rw [← hpbelow]; exact hpreal)), hpbelow⟩
  obtain ⟨hread, hxbelow⟩ := hparts hx
  obtain ⟨hread', hybelow⟩ := hparts hy
  have htext := congrArg ListedItem.path h
  rw [listedItem_path, listedItem_path] at htext
  rw [hxbelow, hybelow, ← hread, ← hread', htext]

/-- **An exact listing is of an orderly tree.** -/
theorem orderly_of_exact (hbase : root.resolve lib fs links data.path true = .ok base)
    (h : ListExact lib fs links root data base) :
    Orderly lib fs root data base := by
  obtain ⟨hlist, items, haccepted, hruns⟩ := exact_runs hbase h
  obtain ⟨hreal, hbelow⟩ := resolved_base hbase
  have hentries := @visited_entries lib fs fs root data base (List.Perm.refl fs.nodes)
  have hitems : ∀ fs' : FileSystem, fs'.nodes.Perm fs.nodes →
      (((visited lib fs' root data base).filter (isEntry fs)).take data.max_results).map
          (listedItem fs root) = items := by
    intro fs' hperm
    obtain ⟨-, -, -, hlisted, -⟩ := hruns fs' hperm
    exact hlisted
  refine ⟨hlist, ?_, ?_, ?_, ?_⟩
  · -- each of two tied siblings is listed at their one rank in some enumeration
    intro x hx y hy hne hparent hkey
    by_contra hlow
    rw [not_le] at hlow
    have hrank : rank lib.casefold (visibleEntries lib fs root data base) x =
        rank lib.casefold (visibleEntries lib fs root data base) y := by
      have hconcat : ∀ {p : List Text}, p ∈ visibleEntries lib fs root data base → ∃ name,
          p = p.dropLast ++ [name] := by
        intro p hp
        obtain ⟨-, hentry, -⟩ :=
          walked_shown hreal hbelow (List.mem_filter.mp (hentries.symm.subset hp)).1
        obtain ⟨parent, name, rfl, -⟩ := hentry
        rw [← List.append_assoc, List.dropLast_concat]
        exact ⟨name, rfl⟩
      obtain ⟨a, hxa⟩ := hconcat hx
      obtain ⟨b, hyb⟩ := hconcat hy
      rw [hxa, hyb, nameKey_concat, nameKey_concat] at hkey
      rw [hxa, hyb, hparent]
      exact Walk.rank_tied hkey
    have hatx := listed_at_rank hitems hx hlow
    have haty := listed_at_rank hitems hy (by rw [← hrank]; exact hlow)
    rw [← hrank, hatx, Option.some.injEq] at haty
    exact hne (listedItem_inj hbase hx hy haty)
  · -- a directory that cannot be listed ends the visit where it is entered
    intro x hx hclosed
    by_contra hlow
    obtain ⟨fs', hperm, u, v, hsplit, hkind, hplace⟩ := exists_placed hx
    obtain ⟨listed, more, hgather, -⟩ := hruns fs' hperm
    have hnone := @Walk.gather_fails _ (isEntry fs) (closed fs (base.length + data.max_depth))
      data.max_results v x hkind hclosed u []
      (by rw [List.length_nil, Nat.zero_add, hplace]; exact not_le.mp hlow)
    rw [hsplit, hnone] at hgather
    cases hgather
  · -- a special file that no entry is sure to come behind is visited last in some enumeration
    by_cases hfull : (visibleEntries lib fs root data base).length = data.max_results
    · refine .inr fun s hs hspecial => ?_
      by_contra hnone
      obtain ⟨fs', hperm, hback⟩ := exists_trailed fs s
      obtain ⟨u, v, hsplit⟩ :=
        List.append_of_mem ((@visited_perm lib fs fs' root data base hperm).symm.subset hs)
      have hlead := trailed hback hsplit
      have hlast : v.filter (isEntry fs) = [] := by
        rw [List.filter_eq_nil_iff]
        intro z hz hkind
        have hmem : z ∈ (visited lib fs' root data base).filter (isEntry fs) := by
          rw [hsplit]
          exact List.mem_filter.mpr ⟨List.mem_append_right _ (List.mem_cons_of_mem s hz), hkind⟩
        exact hnone ⟨z, (visited_entries hperm).subset hmem, hlead z hz⟩
      have hlength := (@visited_entries lib fs fs' root data base hperm).length_eq
      rw [hsplit, List.filter_append, List.filter_cons_of_neg (by simp [hspecial]), hlast,
        List.append_nil, hfull] at hlength
      obtain ⟨-, -, -, -, hmore⟩ := hruns fs' hperm
      have := hmore.mpr ⟨u, s, v, hsplit, hlength.ge⟩
      omega
    · exact .inl hfull
  · intro x hx hkind hlow hshort
    have hat := listed_at_rank hitems hx hlow
    obtain ⟨hxreal, hentry, -⟩ :=
      walked_shown hreal hbelow (List.mem_filter.mp (hentries.symm.subset hx)).1
    have hxbelow := hentry.below
    have hne : root.relative_to x ≠ [] := by
      obtain ⟨parent, name, hpath, -⟩ := hentry
      rw [WorkspaceRoot.relative_to, hpath, List.drop_left]
      simp
    have hnamed : ∀ part ∈ root.relative_to x, Named part :=
      named_below (by rw [← hxbelow]; exact hxreal)
    have hfile : ∃ size_bytes,
        listedItem fs root x = .file (relativeText (root.relative_to x)) size_bytes := by
      rw [Option.any_eq_true] at hkind
      obtain ⟨node, hnode, hkind⟩ := hkind
      cases node with
      | file readable content => exact ⟨content.length, by rw [listedItem, Option.mem_def.mp hnode]⟩
      | directory | symlink | special => cases hkind
    obtain ⟨size_bytes, hfile⟩ := hfile
    rw [hfile] at hat
    exact (relativeText_accepted hne hnamed).mp
      (haccepted _ size_bytes (List.mem_of_getElem? hat) hshort)

/-- **A listing is exact in every order of enumeration exactly when the tree is orderly.** -/
theorem list_exact_iff (hbase : root.resolve lib fs links data.path true = .ok base) :
    ListExact lib fs links root data base ↔ Orderly lib fs root data base :=
  ⟨orderly_of_exact hbase, exact_of_orderly hbase⟩

end

theorem example_entries : visibleEntries lowerLibrary exampleFiles ⟨[['w']]⟩ exampleListing
    [['w']] = [[['w'], ['a']]] := by decide

/-- `/w` with one visible file is listed exactly. -/
theorem example_list_exact : ListExact lowerLibrary exampleFiles 40 ⟨[['w']]⟩ exampleListing
    [['w']] := by
  refine (list_exact_iff example_resolved).mpr ⟨?_, ?_, ?_, .inl ?_, ?_⟩
  · decide
  · intro x hx y hy hne
    rw [example_entries, List.mem_singleton] at hx hy
    rw [hx, hy] at hne
    exact absurd rfl hne
  · intro x hx hclosed
    rw [example_entries, List.mem_singleton] at hx
    have hopen : closed exampleFiles (([['w']] : List Text).length + exampleListing.max_depth)
      [['w'], ['a']] = false := by decide
    rw [hx, hopen] at hclosed
    cases hclosed
  · rw [example_entries]
    decide
  · intro x hx _ _ _
    rw [example_entries, List.mem_singleton] at hx
    rw [hx]
    decide

/-- `/w` with a file, and a FIFO behind it. -/
def fifoFiles : FileSystem where
  nodes := [([['w']], .directory true), ([['w'], ['a']], .file true [97]),
    ([['w'], ['b']], .special)]
  distinct := by decide
  named := by decide
  parents := by decide

theorem one_result : 1 ≤ 1 ∧ 1 ≤ 200 := ⟨Nat.le_refl 1, Nat.le_of_ble_eq_true rfl⟩

def oneListing : WorkspaceListFilesInput :=
  { exampleListing with max_results := 1, results_bounds := one_result }

theorem fifo_resolved : WorkspaceRoot.resolve lowerLibrary fifoFiles 40
    ⟨[['w']]⟩ oneListing.path true = .ok [['w']] := by decide +kernel

/-- Asked for one, the listing says that there are more. -/
theorem filled_listing_inexact :
    WorkspaceRoot.resolve lowerLibrary fifoFiles 40 ⟨[['w']]⟩ oneListing.path true = .ok [['w']] ∧
      visibleEntries lowerLibrary fifoFiles ⟨[['w']]⟩ oneListing [['w']] = [[['w'], ['a']]] ∧
      ¬ListExact lowerLibrary fifoFiles 40 ⟨[['w']]⟩ oneListing [['w']] := by
  have hentries : visibleEntries lowerLibrary fifoFiles ⟨[['w']]⟩ oneListing [['w']] =
    [[['w'], ['a']]] := by decide
  refine ⟨fifo_resolved, hentries, fun h => ?_⟩
  rcases (orderly_of_exact fifo_resolved h).room with hroom | hbehind
  · rw [hentries] at hroom
    exact hroom rfl
  · obtain ⟨x, hx, hlead⟩ := hbehind [['w'], ['b']] (by decide) (by decide)
    rw [hentries, List.mem_singleton] at hx
    rw [hx] at hlead
    revert hlead
    decide

end Novalton.WorkspaceFiles
