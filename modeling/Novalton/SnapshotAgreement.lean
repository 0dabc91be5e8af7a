/-
The digest of a source tree as the API and the worker compute it: when they agree, what the
hashed bytes tell of the tree, and that the order in which directories are listed does not
matter.
-/
import Mathlib.Data.List.Perm.Basic
import Novalton.FramedRecords
import Novalton.SnapshotTrees

namespace Novalton.SnapshotDigest

/-! ## The framing -/

theorem ascii_digit {n : ℕ} {c : Char} (hc : c ∈ Nat.toDigits 10 n) : 48 ≤ c.toNat ∧
    c.toNat ≤ 57 := by
  have hdigit := Nat.isDigit_of_mem_toDigits (by decide) (by decide) hc
  rw [Char.isDigit, Bool.and_eq_true, decide_eq_true_eq, decide_eq_true_eq] at hdigit
  exact hdigit

theorem decimalBytes_separated (n : ℕ) : (0 : UInt8) ∉ decimalBytes n := by
  intro h
  obtain ⟨c, hc, hzero⟩ := List.mem_map.mp h
  obtain ⟨hlow, hhigh⟩ := ascii_digit hc
  have hnat := congrArg UInt8.toNat hzero
  simp only [UInt8.toNat_ofNat', UInt8.toNat_zero] at hnat
  omega

theorem map_digits_inj : ∀ {l l' : List Char}, (∀ c ∈ l, 48 ≤ c.toNat ∧ c.toNat ≤ 57) →
    (∀ c ∈ l', 48 ≤ c.toNat ∧ c.toNat ≤ 57) →
    (l.map fun c => UInt8.ofNat c.toNat) = (l'.map fun c => UInt8.ofNat c.toNat) → l = l'
  | [], [], _, _, _ => rfl
  | [], _ :: _, _, _, h => by cases h
  | _ :: _, [], _, _, h => by cases h
  | c :: l, c' :: l', hl, hl', h => by
    rw [List.map_cons, List.map_cons, List.cons.injEq] at h
    have hnat := congrArg UInt8.toNat h.1
    have hc := hl c List.mem_cons_self
    have hc' := hl' c' List.mem_cons_self
    simp only [UInt8.toNat_ofNat'] at hnat
    have heq : c = c' := Char.toNat_inj.mp (by omega)
    rw [heq, map_digits_inj (fun d hd => hl d (List.mem_cons_of_mem _ hd)) (fun d hd =>
      hl' d (List.mem_cons_of_mem _ hd)) h.2]

theorem decimalBytes_inj (m n : ℕ) (h : decimalBytes m = decimalBytes n) : m = n := by
  have hdigits : Nat.toDigits 10 m = Nat.toDigits 10 n :=
    map_digits_inj (fun c hc => ascii_digit hc) (fun c hc => ascii_digit hc) h
  rw [← Nat.ofDigitChars_ten_toDigits (n := m), ← Nat.ofDigitChars_ten_toDigits (n := n), hdigits]

theorem mem_posix {b : UInt8} : ∀ {parts : List Bytes}, b ∈ posix parts → b = 47 ∨ ∃ part ∈ parts,
    b ∈ part
  | [], h => by cases h
  | [part], h => .inr ⟨part, List.mem_singleton_self part, by simpa [posix, joinSlashBytes] using h⟩
  | part :: other :: parts, h => by
    rw [posix, joinSlashBytes, List.intercalate_cons_cons, List.mem_append, List.mem_append] at h
    rcases h with (h | h) | h
    · exact .inr ⟨part, List.mem_cons_self, h⟩
    · exact .inl (List.mem_singleton.mp h)
    · rcases mem_posix h with h | ⟨later, hlater, h⟩
      · exact .inl h
      · exact .inr ⟨later, List.mem_cons_of_mem _ hlater, h⟩

/-- Files whose records agree are the same files. -/
theorem eq_of_records : ∀ {found others : List Admitted},
    (∀ file ∈ found, file.1 ≠ [] ∧ ∀ part ∈ file.1, Valid part) →
    (∀ file ∈ others, file.1 ≠ [] ∧ ∀ part ∈ file.1, Valid part) →
      (found.map fun file => (posix file.1, file.2)) =
      (others.map fun file => (posix file.1, file.2)) → found = others
  | [], [], _, _, _ => rfl
  | [], _ :: _, _, _, h => by cases h
  | _ :: _, [], _, _, h => by cases h
  | file :: found, other :: others, hfound, hothers, h => by
    rw [List.map_cons, List.map_cons, List.cons.injEq, Prod.mk.injEq] at h
    obtain ⟨⟨hpath, hdata⟩, hrest⟩ := h
    obtain ⟨hne, hvalid⟩ := hfound file List.mem_cons_self
    obtain ⟨hne', hvalid'⟩ := hothers other List.mem_cons_self
    have hfile : file = other := Prod.ext (posix_inj hne hne' hvalid hvalid' hpath) hdata
    rw [hfile, eq_of_records (fun f hf => hfound f (List.mem_cons_of_mem _ hf)) (fun f hf =>
      hothers f (List.mem_cons_of_mem _ hf)) hrest]

mutual

/-- What is met has different paths. -/
theorem below_nodup : ∀ (directory : List Bytes) (node : SourceNode), node.WellNamed →
    ((below directory node).map Prod.fst).Nodup
  | directory, .directory true entries, hnamed => by
    rw [below]
    exact belowEntries_nodup directory entries hnamed.1 hnamed.2
  | _, .directory false _, _ => by simp [below]
  | _, .file _ _, _ => by simp [below]
  | _, .symlink _, _ => by simp [below]
  | _, .special, _ => by simp [below]
  | _, .unavailable, _ => by simp [below]

theorem belowEntries_nodup : ∀ (directory : List Bytes) (entries : List (Bytes × SourceNode)),
    (entries.map Prod.fst).Nodup →
    WellNamedEntries entries → ((belowEntries directory entries).map Prod.fst).Nodup
  | _, [], _, _ => by simp [belowEntries]
  | directory, (name, node) :: entries, hdistinct, hnamed => by
    obtain ⟨hname, hnode, hentries⟩ := hnamed
    obtain ⟨hfresh, hrest⟩ := List.nodup_cons.mp hdistinct
    have hlater := belowEntries_nodup directory entries hrest hentries
    rw [belowEntries]
    split
    next => exact hlater
    next =>
      -- A path of a later entry has another name behind the directory.
      have hother : ∀ found ∈ belowEntries directory entries, ∀ rest, found.1 ≠ directory ++ name ::
          rest := by
        intro found hfound rest hpath
        obtain ⟨other, otherNode, rest', hmem, -, hpath', -⟩ :=
          (mem_belowEntries directory entries hentries).mp hfound
        rw [hpath', List.append_cancel_left_eq, List.cons.injEq] at hpath
        exact hfresh (List.mem_map.mpr ⟨_, hmem, hpath.1⟩)
      have hinner : ∀ found ∈ below (directory ++ [name]) node, ∃ part rest,
          found.1 = directory ++ name :: part :: rest := by
        intro found hfound
        obtain ⟨rest, hne, hpath, -⟩ := (mem_below (directory ++ [name]) node hnode).mp hfound
        obtain ⟨part, rest, rfl⟩ := List.exists_cons_of_ne_nil hne
        exact ⟨part, rest, by rw [hpath, List.append_assoc, List.singleton_append]⟩
      rw [List.map_cons, List.map_append, List.nodup_cons, List.nodup_append]
      refine ⟨?_, below_nodup (directory ++ [name]) node hnode, hlater, ?_⟩
      · intro hmem
        rcases List.mem_append.mp hmem with hmem | hmem
        · obtain ⟨found, hfound, hpath⟩ := List.mem_map.mp hmem
          obtain ⟨part, rest, hlong⟩ := hinner found hfound
          rw [hlong, List.append_cancel_left_eq] at hpath
          cases hpath
        · obtain ⟨found, hfound, hpath⟩ := List.mem_map.mp hmem
          exact hother found hfound [] hpath
      · intro path hpath path' hpath' heq
        obtain ⟨found, hfound, rfl⟩ := List.mem_map.mp hpath
        obtain ⟨found', hfound', rfl⟩ := List.mem_map.mp hpath'
        obtain ⟨part, rest, hlong⟩ := hinner found hfound
        exact hother found' hfound' (part :: rest) (heq ▸ hlong)

end

theorem files_nodup (tree : SourceTree) : (files tree).Nodup := by
  have hpaths := below_nodup [] tree.root tree.wellNamed
  refine (List.Nodup.sublist ?_ hpaths).of_map Prod.fst
  rw [files, List.map_filterMap]
  generalize below [] tree.root = found
  induction found with
  | nil => exact .slnil
  | cons entry found ih =>
    obtain ⟨path, node⟩ := entry
    cases node with
    | file readable data => exact ih.cons_cons path
    | directory | symlink | special | unavailable => exact ih.cons path

theorem mem_ordered {tree : SourceTree} {file : Admitted} : file ∈ ordered tree ↔
    tree.Covers file :=
  (List.mem_insertionSort _).trans mem_files

/-- The records of the framing are read back, so the files are. -/
theorem framed_inj {tree other : SourceTree} (h : framed (ordered tree) = framed (ordered other)) :
    ordered tree = ordered other := by
  have hvalid : ∀ {tree : SourceTree}, ∀ file ∈ ordered tree, file.1 ≠ [] ∧ ∀ part ∈ file.1,
      Valid part := by
    intro tree file hfile
    have hcovers := mem_ordered.mp hfile
    exact ⟨hcovers.1, covers_valid hcovers⟩
  have hseparated : ∀ {tree : SourceTree},
      ∀ r ∈ (ordered tree).map fun file => (posix file.1, file.2), (0 : UInt8) ∉ r.1 := by
    intro tree r hr hzero
    obtain ⟨file, hfile, rfl⟩ := List.mem_map.mp hr
    rcases mem_posix hzero with hslash | ⟨part, hpart, hzero⟩
    · cases hslash
    · exact ((hvalid file hfile).2 part hpart).2.2 hzero
  exact eq_of_records hvalid hvalid
    (Framed.records_inj decimalBytes_separated decimalBytes_inj hseparated hseparated h)

/-- **What is hashed tells the files**: two trees are framed alike exactly when they have the
same files, with the same contents, at the same paths. -/
theorem framed_eq_iff (tree other : SourceTree) :
    framed (ordered tree) = framed (ordered other) ↔ ∀ file, tree.Covers file ↔
      other.Covers file := by
  constructor
  · intro h file
    rw [← mem_ordered, ← mem_ordered, framed_inj h]
  · intro h
    have hperm : (files tree).Perm (files other) := by
      refine (List.perm_ext_iff_of_nodup (files_nodup tree) (files_nodup other)).mpr fun file => ?_
      rw [mem_files, mem_files]
      exact h file
    have hordered : ordered tree = ordered other := ordered_of_perm hperm
    rw [hordered]

/-! ## Agreement -/

/-- **The API and the worker agree** on a tree exactly when the worker can copy it or the API
refuses it, too. The API accepts the sound trees and the worker those of them that it can
copy, each with the digest of the framed files. -/
theorem digests_agree_iff (sha256 : Bytes → Text) (frames : ℕ) (tree : SourceTree) :
    ((∀ d, sourceDigest sha256 tree.root = .ok d ↔ stageSnapshot sha256 frames tree.root = .ok d) ↔
        (Sound tree → Snapshottable frames tree)) ∧
      (∀ d, sourceDigest sha256 tree.root = .ok d ↔ Sound tree ∧
        d = sha256 (framed (ordered tree))) ∧
      ∀ d, stageSnapshot sha256 frames tree.root = .ok d ↔
        (Sound tree ∧ Snapshottable frames tree) ∧ d = sha256 (framed (ordered tree)) := by
  refine ⟨?_, fun d => sourceDigest_ok, fun d => stageSnapshot_ok⟩
  constructor
  · intro hagree hsound
    exact (stageSnapshot_ok.mp ((hagree _).mp (sourceDigest_ok.mpr ⟨hsound, rfl⟩))).1.2
  · intro h d
    rw [sourceDigest_ok, stageSnapshot_ok]
    constructor
    · rintro ⟨hsound, hd⟩
      exact ⟨⟨hsound, h hsound⟩, hd⟩
    · rintro ⟨⟨hsound, -⟩, hd⟩
      exact ⟨hsound, hd⟩

/-! ## The order of listing -/

mutual

/-- The same tree, its directories listed in another order. -/
inductive Relisted : SourceNode → SourceNode → Prop where
  | same (node : SourceNode) : Relisted node node
  | directory {readable : Bool} {entries entries' listed : List (Bytes × SourceNode)}
      (h : RelistedEntries entries entries')
    (hperm : entries'.Perm listed) :
      Relisted (.directory readable entries) (.directory readable listed)

inductive RelistedEntries : List (Bytes × SourceNode) → List (Bytes × SourceNode) → Prop where
  | nil : RelistedEntries [] []
  | cons {name : Bytes} {node node' : SourceNode} {entries entries' : List (Bytes × SourceNode)}
      (hnode : Relisted node node')
    (hentries : RelistedEntries entries entries') :
      RelistedEntries ((name, node) :: entries) ((name, node') :: entries')

end

/-- What the two walks look at in a node that they meet. -/
inductive Outline where
  | file (readable : Bool) (data : Bytes)
  | directory (readable namesEncodable : Bool)
  | refused
deriving DecidableEq

def SourceNode.outline : SourceNode → Outline
  | .file readable data => .file readable data
  | .directory readable entries => .directory readable (entries.all fun entry => encodable entry.1)
  | _ => .refused

def outlines (found : List (List Bytes × SourceNode)) : List (List Bytes × Outline) :=
  found.map fun f => (f.1, f.2.outline)

theorem RelistedEntries.names {entries entries' : List (Bytes × SourceNode)}
    (h : RelistedEntries entries entries') :
    entries.map Prod.fst = entries'.map Prod.fst := by
  induction entries generalizing entries' with
  | nil =>
    cases h
    rfl
  | cons entry entries ih =>
    cases h with
    | cons hnode hentries => rw [List.map_cons, List.map_cons, ih hentries]

theorem all_encodable_perm {entries listed : List (Bytes × SourceNode)}
    (h : (entries.map Prod.fst).Perm (listed.map Prod.fst)) :
    (entries.all fun entry => encodable entry.1) = listed.all fun entry => encodable entry.1 := by
  have hmap : ∀ l : List (Bytes × SourceNode), (l.all fun entry => encodable entry.1) =
      (l.map Prod.fst).all encodable := by
    intro l
    rw [List.all_map]
    rfl
  rw [hmap, hmap, h.all_eq]

theorem Relisted.outline {node node' : SourceNode} (h : Relisted node node') :
    node.outline = node'.outline := by
  cases h with
  | same => rfl
  | directory hentries hperm =>
    rw [SourceNode.outline, SourceNode.outline, all_encodable_perm]
    rw [hentries.names]
    exact hperm.map Prod.fst

mutual

theorem Relisted.outlines : ∀ {node node' : SourceNode} (directory : List Bytes),
    Relisted node node' →
    (outlines (below directory node)).Perm (outlines (below directory node'))
  | _, _, _, .same _ => .refl _
  | _, _, directory, @Relisted.directory readable entries entries' listed h hperm => by
    cases readable with
    | false => simp [below]
    | true =>
      rw [below, below]
      refine (h.outlines directory).trans ?_
      rw [belowEntries_eq, belowEntries_eq]
      exact (hperm.flatMap_right _).map _

theorem RelistedEntries.outlines : ∀ {entries entries' : List (Bytes × SourceNode)} (directory : List Bytes), RelistedEntries entries entries' →
    (outlines (belowEntries directory entries)).Perm (outlines (belowEntries directory entries'))
  | _, _, _, .nil => .refl _
  | _, _, directory, @RelistedEntries.cons name node node' entries entries' hnode hentries => by
    have hlater := hentries.outlines directory
    have hinner := hnode.outlines (directory ++ [name])
    rw [belowEntries, belowEntries]
    split
    next => exact hlater
    next =>
      simp only [SnapshotDigest.outlines, List.map_cons, List.map_append, hnode.outline] at hinner hlater ⊢
      exact (hinner.append hlater).cons _

end

def Outline.size : Outline → ℕ
  | .file _ data => data.length
  | _ => 0

def Outline.admitted (o : List Bytes × Outline) : Option Admitted :=
  match o.2 with
  | .file _ data => .some (o.1, data)
  | _ => .none

section
variable {path : List Bytes} {a b : SourceNode}

theorem countable_of_outline (h : a.outline = b.outline) (ha : Countable (path, a)) : Countable
    (path, b) := by
  cases a <;> cases b <;> simp_all [SourceNode.outline, Countable]

theorem readable_of_outline (h : a.outline = b.outline) (ha : Readable (path, a)) : Readable
    (path, b) := by
  cases a <;> cases b <;> simp_all [SourceNode.outline, Readable]

theorem opened_of_outline {frames : ℕ} (h : a.outline = b.outline) (ha : Opened frames (path, a)) :
    Opened frames (path, b) := by
  intro readable entries hb
  dsimp only at hb
  subst hb
  cases a with
  | file | symlink | special | unavailable => cases h
  | directory readable' entries' =>
    obtain ⟨hreadable, hencodable, hdepth⟩ := ha readable' entries' rfl
    rw [SourceNode.outline, SourceNode.outline, Outline.directory.injEq] at h
    refine ⟨h.1 ▸ hreadable, ?_, hdepth⟩
    have hall : (entries'.all fun entry => encodable entry.1) = true :=
      List.all_eq_true.mpr hencodable
    rw [h.2] at hall
    exact List.all_eq_true.mp hall

end

section
variable {tree other : SourceTree}
  (h : (outlines (below [] tree.root)).Perm (outlines (below [] other.root)))
include h

/-- What is met in the one tree has its counterpart in the other. -/
theorem counterpart : ∀ found ∈ below [] other.root, ∃ node, (found.1, node) ∈ below [] tree.root ∧
    node.outline = found.2.outline := by
  intro found hfound
  have hmem : (found.1, found.2.outline) ∈ outlines (below [] other.root) :=
    List.mem_map.mpr ⟨found, hfound, rfl⟩
  obtain ⟨original, horiginal, heq⟩ := List.mem_map.mp (h.symm.subset hmem)
  rw [Prod.mk.injEq] at heq
  exact ⟨original.2, heq.1 ▸ horiginal, heq.2⟩

theorem Sound.relisted (hsound : Sound tree) : Sound other where
  countable := by
    intro found hfound
    obtain ⟨node, hnode, houtline⟩ := counterpart h found hfound
    exact countable_of_outline houtline (hsound.countable _ hnode)
  readable := by
    intro found hfound
    obtain ⟨node, hnode, houtline⟩ := counterpart h found hfound
    exact readable_of_outline houtline (hsound.readable _ hnode)
  few := by
    have hlength := h.length_eq
    rw [outlines, outlines, List.length_map, List.length_map] at hlength
    rw [← hlength]
    exact hsound.few
  small := by
    have hsize : ∀ found : List (List Bytes × SourceNode),
        found.map size = (outlines found).map fun o => o.2.size := by
      intro found
      rw [outlines, List.map_map]
      refine List.map_congr_left fun f _ => ?_
      obtain ⟨path, node⟩ := f
      cases node <;> rfl
    rw [hsize, ← (h.map fun o => o.2.size).sum_eq, ← hsize]
    exact hsound.small

theorem Snapshottable.relisted {frames : ℕ} (hroot : tree.root.outline = other.root.outline)
    (hsnapshot : Snapshottable frames tree) :
    Snapshottable frames other where
  opened := by
    intro found hfound
    rcases List.mem_cons.mp hfound with rfl | hfound
    · exact opened_of_outline hroot (hsnapshot.opened _ List.mem_cons_self)
    · obtain ⟨node, hnode, houtline⟩ := counterpart h found hfound
      exact opened_of_outline houtline (hsnapshot.opened _ (List.mem_cons_of_mem _ hnode))
  some := by
    intro hnone
    rw [hnone, outlines, outlines, List.map_nil, List.perm_nil, List.map_eq_nil_iff] at h
    exact hsnapshot.some h

theorem ordered_relisted : ordered tree = ordered other := by
  have hadmitted : ∀ found : List (List Bytes × SourceNode), found.filterMap admittedOf =
      (outlines found).filterMap Outline.admitted := by
    intro found
    rw [outlines, List.filterMap_map]
    refine List.filterMap_congr fun f _ => ?_
    obtain ⟨path, node⟩ := f
    cases node <;> rfl
  refine ordered_of_perm ?_
  rw [files, files, hadmitted, hadmitted]
  exact h.filterMap _

end

/-- **The order of listing does not matter**: neither to what the API and the worker accept nor
to the digests. -/
theorem digests_relisted (sha256 : Bytes → Text) (frames : ℕ) {tree other : SourceTree}
    (h : Relisted tree.root other.root) (d : Text) :
    (sourceDigest sha256 tree.root = .ok d ↔ sourceDigest sha256 other.root = .ok d) ∧
      (stageSnapshot sha256 frames tree.root = .ok d ↔
        stageSnapshot sha256 frames other.root = .ok d) := by
  have houtlines := h.outlines []
  have hsound : Sound tree ↔ Sound other :=
    ⟨Sound.relisted houtlines, Sound.relisted houtlines.symm⟩
  have hsnapshot : Snapshottable frames tree ↔ Snapshottable frames other :=
    ⟨Snapshottable.relisted houtlines h.outline,
      Snapshottable.relisted houtlines.symm h.outline.symm⟩
  rw [sourceDigest_ok, sourceDigest_ok, stageSnapshot_ok, stageSnapshot_ok, hsound, hsnapshot,
    ordered_relisted houtlines]
  exact ⟨Iff.rfl, Iff.rfl⟩

/-- A file `a`, and a directory `b` of two files, `c` and `d`. -/
def nestedEntries : List (Bytes × SourceNode) :=
  [([97], .file true [120]),
    ([98], .directory true [([99], .file true [121]), ([100], .file true [])])]

/-- The same, each directory listed the other way. -/
def relistedEntries : List (Bytes × SourceNode) :=
  [([98], .directory true [([100], .file true []), ([99], .file true [121])]),
    ([97], .file true [120])]

theorem nestedEntries_wellNamed : (SourceNode.directory true nestedEntries).WellNamed := by
  refine ⟨by decide, ?_⟩
  simp [nestedEntries, WellNamedEntries, SourceNode.WellNamed, Valid]

theorem relistedEntries_wellNamed : (SourceNode.directory true relistedEntries).WellNamed := by
  refine ⟨by decide, ?_⟩
  simp [relistedEntries, WellNamedEntries, SourceNode.WellNamed, Valid]

def nestedTree : SourceTree := ⟨true, nestedEntries, nestedEntries_wellNamed⟩

def relistedTree : SourceTree := ⟨true, relistedEntries, relistedEntries_wellNamed⟩

theorem nested_relisted : Relisted nestedTree.root relistedTree.root :=
  .directory (.cons (.same _)
    (.cons (.directory (.cons (.same _) (.cons (.same _) .nil)) (List.Perm.swap _ _ [])) .nil))
    (List.Perm.swap _ _ [])

theorem below_nestedTree : below [] nestedTree.root =
    [([[97]], .file true [120]),
      ([[98]], .directory true [([99], .file true [121]), ([100], .file true [])]),
      ([[98], [99]], .file true [121]), ([[98], [100]], .file true [])] := by
  have hexcluded : excluded [[97]] = false ∧ excluded [[98]] = false ∧
    excluded [[98], [99]] = false ∧
      excluded [[98], [100]] = false := by decide
  obtain ⟨ha, hb, hc, hd⟩ := hexcluded
  simp [below, SourceTree.root, nestedTree, nestedEntries, belowEntries, ha, hb, hc, hd]

theorem encodable_ascii {b : UInt8} {c : Char} (h : [b] = encode [c]) : encodable [b] = true := by
  rw [encodable, h, decode_encode]
  rfl

theorem nested_encodable : ∀ b ∈ ([97, 98, 99, 100] : Bytes), encodable [b] = true := by
  simp only [List.forall_mem_cons]
  exact ⟨@encodable_ascii _ 'a' (by decide), @encodable_ascii _ 'b' (by decide),
    @encodable_ascii _ 'c' (by decide), @encodable_ascii _ 'd' (by decide),
      fun b hb => (by cases hb)⟩

theorem nested_sound : Sound nestedTree where
  countable := by
    rw [below_nestedTree]
    simp [Countable, MAX_FILE_BYTES]
  readable := by
    have hencodable := nested_encodable
    simp only [List.forall_mem_cons] at hencodable
    rw [below_nestedTree]
    simp [Readable, hencodable]
  few := by
    rw [below_nestedTree]
    decide
  small := by
    rw [below_nestedTree]
    simp [size, SourceNode.size, MAX_SOURCE_BYTES]

theorem nested_snapshottable : Snapshottable 1000 nestedTree where
  opened := by
    have hencodable := nested_encodable
    simp only [List.forall_mem_cons] at hencodable
    obtain ⟨ha, hb, hc, hd, -⟩ := hencodable
    rw [below_nestedTree]
    simp [Opened, SourceTree.root, nestedTree, nestedEntries]
    constructor
    · rintro name node (⟨rfl, rfl⟩ | ⟨rfl, rfl⟩)
      · exact ha
      · exact hb
    · rintro name node (⟨rfl, rfl⟩ | ⟨rfl, rfl⟩)
      · exact hc
      · exact hd
  some := by
    rw [below_nestedTree]
    simp

/-- A digest that keeps the bytes apart. -/
def letters (raw : Bytes) : Text := raw.map fun b => Char.ofNat b.toNat

theorem digests_relisted_nested : ∃ d, sourceDigest letters nestedTree.root = .ok d ∧
    sourceDigest letters relistedTree.root = .ok d ∧
      stageSnapshot letters 1000 nestedTree.root = .ok d ∧
      stageSnapshot letters 1000 relistedTree.root = .ok d := by
  have hdigest := sourceDigest_ok.mpr ⟨nested_sound, @rfl _ (letters (framed (ordered nestedTree)))⟩
  have hstaged := stageSnapshot_ok.mpr ⟨⟨nested_sound, nested_snapshottable⟩,
    @rfl _ (letters (framed (ordered nestedTree)))⟩
  obtain ⟨hsource, hsnapshot⟩ :=
    digests_relisted letters 1000 nested_relisted (letters (framed (ordered nestedTree)))
  exact ⟨_, hdigest, hsource.mp hdigest, hstaged, hsnapshot.mp hstaged⟩

end Novalton.SnapshotDigest
