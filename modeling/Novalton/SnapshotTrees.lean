/-
Source trees, and which of them the digest of the API and the snapshot of the worker accept
(`source_digest` of `infrastructure/verification_sandbox.py`, `stage_snapshot` of
`infra/verification/i044a-v2/worker/i044a.py`).
-/
import Mathlib.Data.List.Nodup
import Mathlib.Data.List.Sort
import Novalton.SnapshotDigest

namespace Novalton.SnapshotDigest

open BoundedTally (Tally Within)

/-! ## The order of bytes -/

theorem bytesLe_total : ∀ a b : Bytes, bytesLe a b = true ∨ bytesLe b a = true
  | [], _ => .inl rfl
  | _ :: _, [] => .inr rfl
  | a :: as, b :: bs => by
    simp only [bytesLe, Bool.or_eq_true, Bool.and_eq_true, decide_eq_true_eq, beq_iff_eq]
    rcases lt_trichotomy a.toNat b.toNat with h | h | h
    · exact .inl (.inl h)
    · have heq : a = b := UInt8.toNat_inj.mp h
      rcases bytesLe_total as bs with h | h
      · exact .inl (.inr ⟨heq, h⟩)
      · exact .inr (.inr ⟨heq.symm, h⟩)
    · exact .inr (.inl h)

theorem bytesLe_trans : ∀ {a b c : Bytes}, bytesLe a b = true → bytesLe b c = true →
    bytesLe a c = true
  | [], _, _, _, _ => rfl
  | _ :: _, [], _, h, _ => by cases h
  | _ :: _, _ :: _, [], _, h => by cases h
  | a :: as, b :: bs, c :: cs, h, h' => by
    simp only [bytesLe, Bool.or_eq_true, Bool.and_eq_true, decide_eq_true_eq, beq_iff_eq] at h h' ⊢
    rcases h with h | ⟨rfl, h⟩
    · rcases h' with h' | ⟨rfl, _⟩
      · exact .inl (UInt8.lt_trans h h')
      · exact .inl h
    · rcases h' with h' | ⟨rfl, h'⟩
      · exact .inl h'
      · exact .inr ⟨rfl, bytesLe_trans h h'⟩

theorem bytesLe_antisymm : ∀ {a b : Bytes}, bytesLe a b = true → bytesLe b a = true → a = b
  | [], [], _, _ => rfl
  | [], _ :: _, _, h => by cases h
  | _ :: _, [], h, _ => by cases h
  | a :: as, b :: bs, h, h' => by
    simp only [bytesLe, Bool.or_eq_true, Bool.and_eq_true, decide_eq_true_eq, beq_iff_eq] at h h'
    rcases h with h | ⟨rfl, h⟩
    · rcases h' with h' | ⟨rfl, _⟩
      · exact absurd h' (UInt8.lt_asymm h)
      · exact absurd h (UInt8.lt_irrefl _)
    · rcases h' with h' | ⟨-, h'⟩
      · exact absurd h' (UInt8.lt_irrefl _)
      · rw [bytesLe_antisymm h h']

/-! ## Source trees -/

/-- What a name in a directory may be. -/
def Valid (name : Bytes) : Prop := name ≠ [] ∧ 47 ∉ name ∧ 0 ∉ name

mutual

/-- In every directory the names are distinct, and names that a file system has. -/
def SourceNode.WellNamed : SourceNode → Prop
  | .directory _ entries => (entries.map Prod.fst).Nodup ∧ WellNamedEntries entries
  | _ => True

def WellNamedEntries : List (Bytes × SourceNode) → Prop
  | [] => True
  | (name, node) :: entries => Valid name ∧ node.WellNamed ∧ WellNamedEntries entries

end

structure SourceTree where
  readable : Bool
  entries : List (Bytes × SourceNode)
  wellNamed : (SourceNode.directory readable entries).WellNamed

def SourceTree.root (tree : SourceTree) : SourceNode := .directory tree.readable tree.entries

/-- What stands at a path that leads through directories which can be listed, by names that are
not excluded. -/
def SourceNode.reach (directory : List Bytes) : SourceNode → List Bytes → Option SourceNode
  | node, [] => .some node
  | .directory true entries, part :: parts =>
    if excluded (directory ++ [part]) then .none
    else (entries.lookup part).bind fun node => node.reach (directory ++ [part]) parts
  | _, _ :: _ => .none

/-- The tree has this file, and a digest of the tree covers it. -/
def SourceTree.Covers (tree : SourceTree) (file : Admitted) : Prop :=
  file.1 ≠ [] ∧ ∃ readable, tree.root.reach [] file.1 = .some (.file readable file.2)

theorem lookup_of_mem {name : Bytes} {node : SourceNode} : ∀ {entries : List (Bytes × SourceNode)},
    (entries.map Prod.fst).Nodup → (name, node) ∈ entries → entries.lookup name = .some node := by
  intro entries
  induction entries with
  | nil =>
    intro _ h
    cases h
  | cons entry entries ih =>
    intro hdistinct hmem
    obtain ⟨other, otherNode⟩ := entry
    obtain ⟨hfresh, hrest⟩ := List.nodup_cons.mp hdistinct
    rcases List.mem_cons.mp hmem with heq | hlater
    · obtain ⟨rfl, rfl⟩ := Prod.mk.injEq .. ▸ heq
      simp
    · have hne : (name == other) = false := by
        rw [beq_eq_false_iff_ne]
        rintro rfl
        exact hfresh (List.mem_map.mpr ⟨_, hlater, rfl⟩)
      rw [List.lookup_cons, hne]
      exact ih hrest hlater

theorem mem_of_lookup {name : Bytes} {node : SourceNode} : ∀ {entries : List (Bytes × SourceNode)},
    entries.lookup name = .some node → (name, node) ∈ entries := by
  intro entries
  induction entries with
  | nil =>
    intro h
    cases h
  | cons entry entries ih =>
    intro h
    obtain ⟨other, otherNode⟩ := entry
    rw [List.lookup_cons] at h
    cases heq : name == other with
    | true =>
      rw [heq] at h
      obtain rfl := Option.some.inj h
      rw [beq_iff_eq.mp heq]
      exact List.mem_cons_self
    | false =>
      rw [heq] at h
      exact List.mem_cons_of_mem _ (ih h)

theorem WellNamedEntries.of_mem {name : Bytes} {node : SourceNode} :
    ∀ {entries : List (Bytes × SourceNode)},
    WellNamedEntries entries → (name, node) ∈ entries → Valid name ∧ node.WellNamed := by
  intro entries
  induction entries with
  | nil =>
    intro _ h
    cases h
  | cons entry entries ih =>
    intro hnamed hmem
    obtain ⟨other, otherNode⟩ := entry
    obtain ⟨hname, hnode, hentries⟩ := hnamed
    rcases List.mem_cons.mp hmem with heq | hlater
    · obtain ⟨rfl, rfl⟩ := Prod.mk.injEq .. ▸ heq
      exact ⟨hname, hnode⟩
    · exact ih hentries hlater

theorem reach_valid : ∀ {parts directory : List Bytes} {node found : SourceNode}, node.WellNamed →
    node.reach directory parts = .some found → ∀ part ∈ parts, Valid part := by
  intro parts
  induction parts with
  | nil =>
    intro _ _ _ _ _ part hpart
    cases hpart
  | cons part parts ih =>
    intro directory node found hnamed h
    cases node with
    | file | symlink | special | unavailable => cases h
    | directory readable entries =>
      cases readable with
      | false => cases h
      | true =>
        rw [SourceNode.reach] at h
        split at h
        next => cases h
        next =>
          obtain ⟨inner, hinner, hreach⟩ := Option.bind_eq_some_iff.mp h
          obtain ⟨hvalid, hnode⟩ := hnamed.2.of_mem (mem_of_lookup hinner)
          intro other hother
          rcases List.mem_cons.mp hother with rfl | hother
          · exact hvalid
          · exact ih hnode hreach other hother

/-- Nothing is below what cannot be listed. -/
theorem leaf_below {directory path : List Bytes} {node found : SourceNode}
    (hbelow : below directory node = [])
    (hreach : ∀ part parts, node.reach directory (part :: parts) = .none) :
    (path, found) ∈ below directory node ↔ ∃ rest, rest ≠ [] ∧ path = directory ++ rest ∧
    node.reach directory rest = .some found := by
  rw [hbelow]
  constructor
  · intro h
    cases h
  · rintro ⟨rest, hne, -, h⟩
    cases rest with
    | nil => exact absurd rfl hne
    | cons part parts =>
      rw [hreach] at h
      cases h

mutual

/-- What both walks meet below a directory is what its paths reach. -/
theorem mem_below {path : List Bytes} {found : SourceNode} :
    ∀ (directory : List Bytes) (node : SourceNode), node.WellNamed →
    ((path, found) ∈ below directory node ↔
      ∃ rest, rest ≠ [] ∧ path = directory ++ rest ∧ node.reach directory rest = .some found)
  | directory, .directory true entries, hnamed => by
    obtain ⟨hdistinct, hentries⟩ := hnamed
    rw [below, mem_belowEntries directory entries hentries]
    constructor
    · rintro ⟨name, node, rest, hmem, hexcluded, hpath, hreach⟩
      refine ⟨name :: rest, List.cons_ne_nil _ _, hpath, ?_⟩
      rw [SourceNode.reach, if_neg hexcluded, lookup_of_mem hdistinct hmem, Option.bind_some]
      exact hreach
    · rintro ⟨rest, hne, hpath, hreach⟩
      cases rest with
      | nil => exact absurd rfl hne
      | cons name rest =>
        rw [SourceNode.reach] at hreach
        split at hreach
        next => cases hreach
        next hexcluded =>
          obtain ⟨node, hnode, hreach⟩ := Option.bind_eq_some_iff.mp hreach
          exact ⟨name, node, rest, mem_of_lookup hnode, hexcluded, hpath, hreach⟩
  | directory, .directory false entries, _ =>
    leaf_below (by simp [below]) (by simp [SourceNode.reach])
  | directory, .file readable data, _ => leaf_below (by simp [below]) (by simp [SourceNode.reach])
  | directory, .symlink toDirectory, _ => leaf_below (by simp [below]) (by simp [SourceNode.reach])
  | directory, .special, _ => leaf_below (by simp [below]) (by simp [SourceNode.reach])
  | directory, .unavailable, _ => leaf_below (by simp [below]) (by simp [SourceNode.reach])

theorem mem_belowEntries {path : List Bytes} {found : SourceNode} :
    ∀ (directory : List Bytes) (entries : List (Bytes × SourceNode)),
    WellNamedEntries entries →
    ((path, found) ∈ belowEntries directory entries ↔
      ∃ name node rest, (name, node) ∈ entries ∧ ¬excluded (directory ++ [name]) = true ∧
        path = directory ++ name :: rest ∧
        node.reach (directory ++ [name]) rest = .some found)
  | directory, [], _ => by simp [belowEntries]
  | directory, (name, node) :: entries, hnamed => by
    obtain ⟨hname, hnode, hentries⟩ := hnamed
    have hlater := @mem_belowEntries path found directory entries hentries
    have hinner := @mem_below path found (directory ++ [name]) node hnode
    rw [belowEntries]
    constructor
    · intro h
      have hmem : (path, found) ∈ belowEntries directory entries ∨
        ¬excluded (directory ++ [name]) = true ∧
          ((path, found) = (directory ++ [name], node) ∨
              (path, found) ∈ below (directory ++ [name]) node) := by
        split at h
        next => exact .inl h
        next hexcluded =>
          rcases List.mem_cons.mp h with h | h
          · exact .inr ⟨hexcluded, .inl h⟩
          · rcases List.mem_append.mp h with h | h
            · exact .inr ⟨hexcluded, .inr h⟩
            · exact .inl h
      rcases hmem with h | ⟨hexcluded, h | h⟩
      · obtain ⟨name', node', rest, hmem, hfacts⟩ := hlater.mp h
        exact ⟨name', node', rest, List.mem_cons_of_mem _ hmem, hfacts⟩
      · obtain ⟨rfl, rfl⟩ := Prod.mk.injEq .. ▸ h
        exact ⟨name, found, [], List.mem_cons_self, hexcluded, rfl, by rw [SourceNode.reach]⟩
      · obtain ⟨rest, -, hpath, hreach⟩ := hinner.mp h
        exact ⟨name, node, rest, List.mem_cons_self, hexcluded,
          by rw [hpath, List.append_assoc, List.singleton_append], hreach⟩
    · rintro ⟨name', node', rest, hmem, hexcluded, hpath, hreach⟩
      rcases List.mem_cons.mp hmem with heq | hmem
      · obtain ⟨rfl, rfl⟩ := Prod.mk.injEq .. ▸ heq
        rw [if_neg hexcluded]
        cases rest with
        | nil =>
          rw [SourceNode.reach, Option.some.injEq] at hreach
          rw [hpath, hreach]
          exact List.mem_cons_self
        | cons part rest =>
          refine List.mem_cons_of_mem _
            (List.mem_append_left _ (hinner.mpr ⟨part :: rest, List.cons_ne_nil _ _, ?_, hreach⟩))
          rw [hpath, List.append_assoc, List.singleton_append]
      · have h := hlater.mpr ⟨name', node', rest, hmem, hexcluded, hpath, hreach⟩
        split
        next => exact h
        next => exact List.mem_cons_of_mem _ (List.mem_append_right _ h)

end

/-- The files that are digested. -/
def files (tree : SourceTree) : List Admitted := (below [] tree.root).filterMap admittedOf

/-- The files in the order of their paths. -/
def ordered (tree : SourceTree) : List Admitted :=
  (files tree).insertionSort fun a b => bytesLe (posix a.1) (posix b.1) = true

/-- **The files that are digested** are those that the tree covers. -/
theorem mem_files {tree : SourceTree} {file : Admitted} : file ∈ files tree ↔ tree.Covers file := by
  rw [files, List.mem_filterMap]
  constructor
  · rintro ⟨found, hfound, hfile⟩
    obtain ⟨path, node⟩ := found
    obtain ⟨rest, hne, hpath, hreach⟩ := (mem_below [] tree.root tree.wellNamed).mp hfound
    rw [List.nil_append] at hpath
    cases node with
    | file readable data =>
      rw [admittedOf, Option.some.injEq] at hfile
      rw [← hfile, hpath]
      exact ⟨hne, readable, hreach⟩
    | directory | symlink | special | unavailable => cases hfile
  · rintro ⟨hne, readable, hreach⟩
    exact ⟨(file.1, .file readable file.2),
      (mem_below [] tree.root tree.wellNamed).mpr ⟨file.1, hne, rfl, hreach⟩, rfl⟩

theorem covers_valid {tree : SourceTree} {file : Admitted} (h : tree.Covers file) : ∀ part ∈ file.1,
    Valid part := by
  obtain ⟨-, readable, hreach⟩ := h
  exact reach_valid tree.wellNamed hreach

theorem posix_inj {p q : List Bytes} (hp : p ≠ []) (hq : q ≠ []) (hpv : ∀ part ∈ p, Valid part)
    (hqv : ∀ part ∈ q, Valid part) (h : posix p = posix q) : p = q := by
  have hsplit : splitSlashBytes (posix p) = p :=
    List.splitOn_intercalate 47 (fun part hpart => (hpv part hpart).2.1) hp
  have hsplit' : splitSlashBytes (posix q) = q :=
    List.splitOn_intercalate 47 (fun part hpart => (hqv part hpart).2.1) hq
  rw [← hsplit, ← hsplit', h]

/-- Files of one tree with one path are one file. -/
theorem files_key {tree : SourceTree} {a b : Admitted} (ha : a ∈ files tree) (hb : b ∈ files tree)
    (h : posix a.1 = posix b.1) : a = b := by
  have hcovers := mem_files.mp ha
  have hcovers' := mem_files.mp hb
  have hpath := posix_inj hcovers.1 hcovers'.1 (covers_valid hcovers) (covers_valid hcovers') h
  obtain ⟨-, readable, hreach⟩ := hcovers
  obtain ⟨-, readable', hreach'⟩ := hcovers'
  rw [hpath, hreach', Option.some.injEq, SourceNode.file.injEq] at hreach
  exact Prod.ext hpath hreach.2.symm

theorem ordered_of_perm {tree : SourceTree} {found : List Admitted} (h : found.Perm (files tree)) :
    (found.insertionSort fun a b => bytesLe (posix a.1) (posix b.1) = true) = ordered tree := by
  have htotal : Std.Total fun a b : Admitted => bytesLe (posix a.1) (posix b.1) = true :=
    ⟨fun a b => bytesLe_total _ _⟩
  have htrans : IsTrans Admitted fun a b => bytesLe (posix a.1) (posix b.1) = true :=
    ⟨fun a b c => bytesLe_trans⟩
  have hperm : (found.insertionSort fun a b => bytesLe (posix a.1) (posix b.1) = true).Perm
      (ordered tree) :=
    (List.perm_insertionSort _ _).trans (h.trans (List.perm_insertionSort _ _).symm)
  refine hperm.eq_of_pairwise (fun a b ha hb hab hba => ?_) (List.pairwise_insertionSort _ _)
    (List.pairwise_insertionSort _ _)
  have hmem : a ∈ files tree := h.subset ((List.mem_insertionSort _).mp ha)
  have hmem' : b ∈ files tree := (List.mem_insertionSort _).mp hb
  exact files_key hmem hmem' (bytesLe_antisymm hab hba)

/-! ## Accepted trees -/

/-- A file that is digested can be opened, and its path can be encoded. -/
def Readable (found : List Bytes × SourceNode) : Prop :=
  match found.2 with
  | .file readable _ => readable = true ∧ found.1.all encodable = true
  | _ => True

/-- A directory can be opened, all its names can be encoded, and it does not lie too deep. -/
def Opened (frames : ℕ) (found : List Bytes × SourceNode) : Prop :=
  ∀ readable entries, found.2 = .directory readable entries →
    readable = true ∧ (∀ entry ∈ entries, encodable entry.1 = true) ∧ found.1.length < frames

/-- The tree holds only files and directories behind the directories that can be listed, its
files can be read and named, and it keeps to the bounds. -/
structure Sound (tree : SourceTree) : Prop where
  countable : ∀ found ∈ below [] tree.root, Countable found
  readable : ∀ found ∈ below [] tree.root, Readable found
  few : (below [] tree.root).length ≤ MAX_FILES
  small : ((below [] tree.root).map size).sum ≤ MAX_SOURCE_BYTES

/-- Something is not excluded, and every directory that is not excluded can be opened and
copied, all its names encoded. -/
structure Snapshottable (frames : ℕ) (tree : SourceTree) : Prop where
  opened : ∀ found ∈ ([], tree.root) :: below [] tree.root, Opened frames found
  some : below [] tree.root ≠ []

def contentOf (found : List Bytes × SourceNode) : Admitted :=
  (found.1, match found.2 with
    | .file _ data => data
    | _ => [])

section
variable {sha256 : Bytes → Text} {frames : ℕ} {tree : SourceTree} {d : Text}

theorem within_zero {β : Type} : Within MAX_FILES MAX_SOURCE_BYTES (⟨[], 0, 0⟩ : Tally β) :=
  ⟨Nat.zero_le _, Nat.zero_le _⟩

theorem sortedFiles_ok {α : Type} {found sorted : List (List Bytes × α)} :
    sortedFiles found = .ok sorted ↔
    (∀ file ∈ found, file.1.all encodable = true) ∧ sorted = found.insertionSort fun a b => bytesLe
    (posix a.1) (posix b.1) = true := by
  rw [sortedFiles]
  split
  next hall =>
    rw [Except.ok.injEq]
    exact ⟨fun h => ⟨List.all_eq_true.mp hall, h.symm⟩, fun h => h.2.symm⟩
  next hall =>
    simp only [reduceCtorEq, false_iff]
    rintro ⟨hencodable, -⟩
    exact hall (List.all_eq_true.mpr hencodable)

theorem readFile_ok {found : List Bytes × SourceNode} {content : Admitted}
    (hkept : (keptNode found).isSome = true) (hcountable : Countable found) : readFile found =
    .ok content ↔ (∃ data, found.2 = .file true data) ∧ content = contentOf found := by
  obtain ⟨path, node⟩ := found
  cases node with
  | directory | symlink | special | unavailable => cases hkept
  | file readable data =>
    have hsmall : ¬MAX_FILE_BYTES < data.length := not_lt.mpr hcountable
    cases readable with
    | false => simp [readFile]
    | true =>
      simp only [readFile, if_neg hsmall, Except.ok.injEq, contentOf]
      exact ⟨fun h => ⟨⟨data, rfl⟩, h.symm⟩, fun h => h.2.symm⟩

theorem mapM_readFile : ∀ {found : List (List Bytes × SourceNode)} {contents : List Admitted},
    (∀ file ∈ found, (keptNode file).isSome = true ∧ Countable file) →
      (found.mapM readFile = .ok contents ↔ (∀ file ∈ found, ∃ data, file.2 = .file true data) ∧
        contents = found.map contentOf) := by
  intro found
  induction found with
  | nil =>
    intro contents _
    simp [pure, Except.pure, eq_comm]
  | cons file found ih =>
    intro contents h
    obtain ⟨hkept, hcountable⟩ := h file List.mem_cons_self
    have hrest : ∀ other ∈ found, (keptNode other).isSome = true ∧ Countable other :=
      fun other hother => h other (List.mem_cons_of_mem _ hother)
    rw [List.mapM_cons, List.forall_mem_cons, List.map_cons]
    constructor
    · intro hmap
      cases hfile : readFile file with
      | error e =>
        rw [hfile] at hmap
        cases hmap
      | ok content =>
        cases hfound : found.mapM readFile with
        | error e =>
          rw [hfile, hfound] at hmap
          cases hmap
        | ok rest =>
          rw [hfile, hfound] at hmap
          obtain ⟨hfacts, hcontent⟩ := (readFile_ok hkept hcountable).mp hfile
          obtain ⟨hfacts', hcontents⟩ := (ih hrest).mp hfound
          refine ⟨⟨hfacts, hfacts'⟩, ?_⟩
          rw [← hcontent, ← hcontents]
          exact (Except.ok.inj hmap).symm
    · rintro ⟨⟨hfacts, hfacts'⟩, rfl⟩
      rw [(readFile_ok hkept hcountable).mpr ⟨hfacts, rfl⟩, (ih hrest).mpr ⟨hfacts', rfl⟩]
      rfl

theorem map_contentOf (found : List (List Bytes × SourceNode)) :
    (found.filterMap keptNode).map contentOf = found.filterMap admittedOf := by
  rw [List.map_filterMap]
  refine List.filterMap_congr fun file _ => ?_
  obtain ⟨path, node⟩ := file
  cases node <;> rfl

/-- What the API digests of the files it has met. -/
theorem digest_kept {kept : List (List Bytes × SourceNode)}
    (hperm : kept.Perm ((below [] tree.root).filterMap keptNode))
    (hcountable : ∀ found ∈ below [] tree.root, Countable found) :
    (sortedFiles kept >>= digestFiles sha256) = .ok d ↔
      (∀ found ∈ below [] tree.root, Readable found) ∧ d = sha256 (framed (ordered tree)) := by
  have hmem : ∀ {file : List Bytes × SourceNode}, file ∈ kept ↔ file ∈ below [] tree.root ∧
      (keptNode file).isSome = true := by
    intro file
    rw [hperm.mem_iff, List.mem_filterMap]
    constructor
    · rintro ⟨found, hfound, hkept⟩
      obtain ⟨path, node⟩ := found
      cases node with
      | file readable data =>
        obtain rfl := Option.some.inj hkept
        exact ⟨hfound, rfl⟩
      | directory | symlink | special | unavailable => cases hkept
    · rintro ⟨hfound, hkept⟩
      obtain ⟨path, node⟩ := file
      cases node with
      | file readable data => exact ⟨_, hfound, rfl⟩
      | directory | symlink | special | unavailable => cases hkept
  have hsorted : ∀ {file : List Bytes × SourceNode},
      file ∈ (kept.insertionSort fun a b => bytesLe (posix a.1) (posix b.1) = true) ↔ file ∈ kept :=
    List.mem_insertionSort _
  have hcontents : (kept.insertionSort fun a b => bytesLe (posix a.1) (posix b.1) = true).map
      contentOf = ordered tree := by
    rw [List.map_insertionSort (fun a b : List Bytes × SourceNode =>
      bytesLe (posix a.1) (posix b.1) = true)
      (fun a b : Admitted => bytesLe (posix a.1) (posix b.1) = true) contentOf kept fun _ _ _ _ =>
        Iff.rfl]
    refine ordered_of_perm ?_
    have hmap := hperm.map contentOf
    rw [map_contentOf] at hmap
    exact hmap
  have hread := fun contents =>
    @mapM_readFile (kept.insertionSort fun a b => bytesLe (posix a.1) (posix b.1) = true) contents
    fun file hfile =>
      ⟨(hmem.mp (hsorted.mp hfile)).2, hcountable file (hmem.mp (hsorted.mp hfile)).1⟩
  constructor
  · intro h
    cases hfiles : sortedFiles kept with
    | error e =>
      rw [hfiles] at h
      cases h
    | ok sorted =>
      rw [hfiles] at h
      obtain ⟨hencodable, rfl⟩ := sortedFiles_ok.mp hfiles
      have h : digestFiles sha256 (kept.insertionSort fun a b => bytesLe (posix a.1) (posix b.1) =
        true) = .ok d := h
      rw [digestFiles] at h
      cases hmap : (kept.insertionSort fun a b => bytesLe (posix a.1) (posix b.1) = true).mapM
          readFile with
      | error e =>
        rw [hmap] at h
        cases h
      | ok contents =>
        rw [hmap] at h
        obtain ⟨hreadable, rfl⟩ := (hread contents).mp hmap
        refine ⟨?_, ?_⟩
        · intro found hfound
          obtain ⟨path, node⟩ := found
          cases node with
          | directory | symlink | special | unavailable => trivial
          | file readable data =>
            have hkept := hmem.mpr ⟨hfound, rfl⟩
            obtain ⟨data', hdata⟩ := hreadable _ (hsorted.mpr hkept)
            exact ⟨(SourceNode.file.inj hdata).1, hencodable _ hkept⟩
        · rw [← hcontents]
          exact (Except.ok.inj h).symm
  · rintro ⟨hreadable, rfl⟩
    have hfile : ∀ file ∈ kept, (∃ data, file.2 = .file true data) ∧
        file.1.all encodable = true := by
      intro file hfile
      obtain ⟨hfound, hkept⟩ := hmem.mp hfile
      have hfacts := hreadable file hfound
      obtain ⟨path, node⟩ := file
      cases node with
      | file readable data =>
        obtain ⟨rfl, hencodable⟩ := hfacts
        exact ⟨⟨data, rfl⟩, hencodable⟩
      | directory | symlink | special | unavailable => cases hkept
    rw [sortedFiles_ok.mpr ⟨fun file hmem => (hfile file hmem).2, rfl⟩]
    show digestFiles sha256 (kept.insertionSort fun a b => bytesLe (posix a.1) (posix b.1) = true) =
      .ok (sha256 (framed (ordered tree)))
    rw [digestFiles, (hread _).mpr ⟨fun file hmem => (hfile file (hsorted.mp hmem)).1, rfl⟩,
      hcontents]
    rfl

/-- **What `source_digest` accepts**, and its digest. -/
theorem sourceDigest_ok : sourceDigest sha256 tree.root = .ok d ↔ Sound tree ∧ d = sha256
    (framed (ordered tree)) := by
  have hwalks := osWalk_walks tree.root
  rw [sourceDigest, regularFiles]
  constructor
  · intro h
    cases hwalk : (osWalk [] tree.root).foldlM visitDirectory ⟨[], 0, 0⟩ with
    | error e =>
      rw [hwalk] at h
      cases h
    | ok tally =>
      rw [hwalk] at h
      obtain ⟨hcountable, hwithin, hentries, htotal, hkept⟩ := hwalks.sound within_zero hwalk
      obtain ⟨hreadable, hd⟩ := (digest_kept hkept hcountable).mp h
      refine ⟨⟨hcountable, hreadable, ?_, ?_⟩, hd⟩
      · rw [← Nat.zero_add (below [] tree.root).length, ← hentries]
        exact hwithin.1
      · rw [← Nat.zero_add ((below [] tree.root).map size).sum, ← htotal]
        exact hwithin.2
  · rintro ⟨hsound, rfl⟩
    obtain ⟨tally, hwalk⟩ :=
      hwalks.complete within_zero hsound.countable (by rw [Nat.zero_add]; exact hsound.few)
      (by rw [Nat.zero_add]; exact hsound.small)
    obtain ⟨-, -, -, -, hkept⟩ := hwalks.sound within_zero hwalk
    rw [hwalk]
    exact (digest_kept hkept hsound.countable).mpr ⟨hsound.readable, rfl⟩

theorem copyable_iff {found : List Bytes × SourceNode} : Copyable frames found ↔
    Countable found ∧ Opened frames found ∧ ∀ readable data, found.2 = .file readable data →
      readable = true := by
  obtain ⟨path, node⟩ := found
  cases node with
  | file readable data =>
    simp only [Copyable, Countable, Opened, reduceCtorEq, false_imp_iff, implies_true, true_and,
      SourceNode.file.injEq, and_imp]
    constructor
    · rintro ⟨hreadable, hsmall⟩
      refine ⟨hsmall, ?_⟩
      rintro _ _ rfl -
      exact hreadable
    · rintro ⟨hsmall, hreadable⟩
      exact ⟨hreadable readable data rfl rfl, hsmall⟩
  | directory readable entries =>
    simp only [Copyable, Countable, Opened, reduceCtorEq, false_imp_iff, implies_true, and_true,
      true_and, SourceNode.directory.injEq, and_imp]
    constructor
    · rintro hfacts _ _ rfl rfl
      exact hfacts
    · intro hfacts
      exact hfacts readable entries rfl rfl
  | symlink toDirectory => simp [Copyable, Countable]
  | special => simp [Copyable, Countable]
  | unavailable => simp [Copyable, Countable]

/-- **What the worker accepts**, and its digest. -/
theorem stageSnapshot_ok : stageSnapshot sha256 frames tree.root = .ok d ↔
    (Sound tree ∧ Snapshottable frames tree) ∧ d = sha256 (framed (ordered tree)) := by
  have hrootCountable : Countable ([], tree.root) := trivial
  have hrootFile : ∀ readable data, tree.root = .file readable data → readable = true := by
    intro readable data h
    cases h
  have hlength : ([] : List Bytes).length + frames = frames := Nat.zero_add frames
  rw [stageSnapshot]
  by_cases hroot : Copyable frames ([], tree.root)
  · have hwalks := copyDirectory_walks [] frames tree.root hlength ⟨_, _, rfl⟩ hroot
    constructor
    · intro h
      cases hcopy : copyDirectory [] frames tree.root ⟨[], 0, 0⟩ with
      | error e =>
        rw [hcopy] at h
        cases h
      | ok copied =>
        rw [hcopy] at h
        obtain ⟨hcopyable, hwithin, hentries, htotal, hkept⟩ := hwalks.sound within_zero hcopy
        have h : (if copied.entries = 0 then .error (.worker "snapshot_empty")
          else sortedFiles copied.kept >>= fun sorted => pure (sha256 (framed sorted)) :
            Except Refusal Text) = .ok d := h
        rw [Nat.zero_add] at hentries htotal
        rw [List.nil_append] at hkept
        split at h
        next => cases h
        next hsome =>
          cases hfiles : sortedFiles copied.kept with
          | error e =>
            rw [hfiles] at h
            cases h
          | ok sorted =>
            rw [hfiles] at h
            obtain ⟨hencodable, rfl⟩ := sortedFiles_ok.mp hfiles
            rw [ordered_of_perm hkept] at h
            refine ⟨⟨⟨?_, ?_, ?_, ?_⟩, ?_, ?_⟩, (Except.ok.inj h).symm⟩
            · exact fun found hfound => (copyable_iff.mp (hcopyable found hfound)).1
            · intro found hfound
              obtain ⟨-, -, hreadable⟩ := copyable_iff.mp (hcopyable found hfound)
              obtain ⟨path, node⟩ := found
              cases node with
              | directory | symlink | special | unavailable => trivial
              | file readable data =>
                have hkeptFile : (path, data) ∈ copied.kept :=
                  hkept.symm.subset (List.mem_filterMap.mpr ⟨_, hfound, rfl⟩)
                exact ⟨hreadable readable data rfl, hencodable _ hkeptFile⟩
            · rw [← hentries]
              exact hwithin.1
            · rw [← htotal]
              exact hwithin.2
            · intro found hfound
              rcases List.mem_cons.mp hfound with rfl | hfound
              · exact (copyable_iff.mp hroot).2.1
              · exact (copyable_iff.mp (hcopyable found hfound)).2.1
            · intro hnone
              rw [hnone] at hentries
              exact hsome hentries
    · rintro ⟨⟨hsound, hsnapshot⟩, rfl⟩
      have hcopyable : ∀ found ∈ below [] tree.root, Copyable frames found := by
        intro found hfound
        refine copyable_iff.mpr ⟨hsound.countable found hfound,
          hsnapshot.opened found (List.mem_cons_of_mem _ hfound), ?_⟩
        intro readable data hfile
        have hfacts := hsound.readable found hfound
        rw [Readable, hfile] at hfacts
        exact hfacts.1
      obtain ⟨copied, hcopy⟩ :=
        hwalks.complete within_zero hcopyable (by rw [Nat.zero_add]; exact hsound.few)
        (by rw [Nat.zero_add]; exact hsound.small)
      obtain ⟨-, -, hentries, -, hkept⟩ := hwalks.sound within_zero hcopy
      rw [Nat.zero_add] at hentries
      rw [List.nil_append] at hkept
      have hsome : copied.entries ≠ 0 := by
        rw [hentries]
        exact fun h => hsnapshot.some (List.length_eq_zero_iff.mp h)
      have hencodable : ∀ file ∈ copied.kept, file.1.all encodable = true := by
        intro file hfile
        obtain ⟨found, hfound, hadmitted⟩ := List.mem_filterMap.mp (hkept.subset hfile)
        have hfacts := hsound.readable found hfound
        obtain ⟨path, node⟩ := found
        cases node with
        | directory | symlink | special | unavailable => cases hadmitted
        | file readable data =>
          obtain rfl := Option.some.inj hadmitted
          exact hfacts.2
      rw [hcopy]
      show (if copied.entries = 0 then .error (.worker "snapshot_empty")
        else sortedFiles copied.kept >>= fun sorted => pure (sha256 (framed sorted)) :
          Except Refusal Text) = _
      rw [if_neg hsome, sortedFiles_ok.mpr ⟨hencodable, rfl⟩, ordered_of_perm hkept]
      rfl
  · obtain ⟨e, he⟩ := copyDirectory_refuses (by rw [hlength]; exact hroot) (⟨[], 0, 0⟩ : Copied)
    have hcopy : copyDirectory [] frames tree.root ⟨[], 0, 0⟩ = .error e := he
    rw [hcopy]
    constructor
    · intro h
      cases h
    · rintro ⟨⟨-, hsnapshot⟩, -⟩
      exact absurd (copyable_iff.mpr ⟨hrootCountable, hsnapshot.opened _ List.mem_cons_self,
        hrootFile⟩) hroot

end

end Novalton.SnapshotDigest
