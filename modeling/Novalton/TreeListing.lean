/-
What `_tree_entries` lists (`modules/git_changesets/local.py`): the files at and below a
tree by their joined and decoded paths, when every one of those paths is UTF-8 and every
directory is in the store.

Git allows no slash in the name of an entry, and no two entries of one name, so a path is
recovered from the text it is joined and decoded to.
-/
import Novalton.DryRunCommit

namespace Novalton

variable {store : ObjectStore}

/-! ## Names and keys -/

theorem decode_eq_some {raw : Bytes} {text : Text} : decode raw = .some text ↔
    raw = encode text := by
  constructor
  · intro h
    rw [decode, Option.map_eq_some_iff] at h
    obtain ⟨array, harray, htext⟩ := h
    obtain ⟨text', htext'⟩ :=
      ByteArray.isSome_utf8Decode?_iff.mp (show raw.toByteArray.utf8Decode?.isSome =
      true by rw [harray]; rfl)
    have hraw : raw.toByteArray = (encode text').toByteArray := htext'
    rw [hraw] at harray
    have hdecode : decode (encode text') = .some text := by
      rw [decode, harray, Option.map_some, htext]
    rw [decode_encode, Option.some.injEq] at hdecode
    rw [← hdecode]
    exact List.toByteArray_inj.mp hraw
  · intro h
    rw [h, decode_encode]

/-- A path of names without slashes is recovered from its key. -/
theorem pathKey_eq_iff {key : Text} {path : List Bytes} (hne : path ≠ [])
    (hslash : ∀ name ∈ path, (47 : UInt8) ∉ name) :
    pathKey key = path ↔ decode (joinSlashBytes path) = .some key := by
  rw [decode_eq_some]
  constructor
  · intro h
    rw [← h, joinSlashBytes_pathKey]
  · intro h
    rw [pathKey, ← h, splitSlashBytes, joinSlashBytes]
    exact List.splitOn_intercalate 47 hslash hne

/-! ## What is listed -/

/-- An entry that is found and no directory. -/
def fileOf : Py (Nat × Text) → Option (Nat × Text)
  | .ok value => if isDirMode value.1 then .none else .some value
  | .error _ => .none

/-- The file of a tree below `pre` that has a key. -/
def fileAt (store : ObjectStore) (pre : List Bytes) (tree : TreeEntries) (key : Text) :
    Option (Nat × Text) :=
  if pre <+: pathKey key then fileOf (treeEntry store tree ((pathKey key).drop pre.length))
    else .none

/-- The paths of a tree below `pre` can be listed with `depth` calls: the directories are in the
store and not too deep, and the files have names in UTF-8. -/
def Listable (store : ObjectStore) (depth : Nat) (pre : List Bytes) (tree : TreeEntries) : Prop :=
  ∀ path mode sha, treeEntry store tree path = .ok (mode, sha) →
    (isDirMode mode = true → path.length < depth ∧ ∃ child, store.get sha = .ok (.tree child)) ∧
      (isDirMode mode = false → (decode (joinSlashBytes (pre ++ path))).isSome = true)

/-- The body of the loop of `_tree_entries`. -/
def listEntry (store : ObjectStore) (depth : Nat) (pre : List Bytes) (acc : Dict Text (Nat × Text))
    (entry : Bytes × Nat × Text) :
    Py (Dict Text (Nat × Text)) :=
  let (name, mode, sha) := entry
  let path := pre ++ [name]
  if isDirMode mode then do
    match ← store.get sha with
    | .tree child => do
      let below ← treeEntries store depth path child
      return Dict.update acc below
    | _ => .error (.tool "git_tree_invalid")
  else do
    let key ← orRaise (decode (joinSlashBytes path)) .unicodeDecodeError
    return Dict.set acc key (mode, sha)

theorem treeEntries_succ (depth : Nat) (pre : List Bytes) (tree : TreeEntries) :
    treeEntries store (depth + 1) pre tree = tree.foldlM (listEntry store depth pre) [] := rfl

/-- What one entry contributes at a key. -/
def entryAt (store : ObjectStore) (pre : List Bytes) (tree : TreeEntries) (name : Bytes)
    (key : Text) : Option (Nat × Text) :=
  if pre ++ [name] <+: pathKey key then fileAt store pre tree key else .none

theorem isPrefix_snoc_iff {pre path : List Bytes} {name : Bytes} : pre ++ [name] <+: path ↔ ∃ rest,
    path = pre ++ name :: rest := by
  constructor
  · intro h
    obtain ⟨rest, rfl⟩ := h
    exact ⟨rest, by simp⟩
  · intro h
    obtain ⟨rest, rfl⟩ := h
    exact ⟨rest, by simp⟩

theorem fileAt_of_path {pre path : List Bytes} {tree : TreeEntries} {key : Text}
    (h : pathKey key = pre ++ path) :
    fileAt store pre tree key = fileOf (treeEntry store tree path) := by
  rw [fileAt, h, if_pos (List.prefix_append pre path), List.drop_left]

section
variable {depth : Nat} {pre : List Bytes} {tree : TreeEntries} {name : Bytes} {mode : Nat}
  {sha : Text} {key : Text}

/-- A file contributes itself, -/
theorem entryAt_file (hlookup : tree.lookup name = .some (mode, sha))
    (hfile : isDirMode mode = false) :
    entryAt store pre tree name key = if pathKey key = pre ++ [name] then .some (mode, sha)
      else .none := by
  rw [entryAt]
  by_cases hprefix : pre ++ [name] <+: pathKey key
  · obtain ⟨rest, hrest⟩ := isPrefix_snoc_iff.mp hprefix
    rw [if_pos hprefix, fileAt_of_path hrest]
    by_cases hnil : rest = []
    · rw [hnil] at hrest ⊢
      rw [if_pos hrest, treeEntry_single.mpr hlookup]
      simp only [fileOf, hfile, Bool.false_eq_true, if_false]
    · have hne : pathKey key ≠ pre ++ [name] := by
        rw [hrest]
        intro heq
        exact hnil (List.tail_eq_of_cons_eq (List.append_cancel_left heq))
      rw [if_neg hne, treeEntry_file hlookup hfile hnil]
      rfl
  · rw [if_neg hprefix, if_neg fun heq => hprefix (by rw [heq])]

/-- and a directory what its child lists. -/
theorem entryAt_directory {child : TreeEntries} (hlookup : tree.lookup name = .some (mode, sha))
    (hdir : isDirMode mode = true) (hget : store.get sha = .ok (.tree child)) :
    entryAt store pre tree name key = fileAt store (pre ++ [name]) child key := by
  rw [entryAt]
  by_cases hprefix : pre ++ [name] <+: pathKey key
  · obtain ⟨rest, hrest⟩ := isPrefix_snoc_iff.mp hprefix
    have hchild : pathKey key = pre ++ [name] ++ rest := by rw [hrest]; simp
    rw [if_pos hprefix, fileAt_of_path hrest, fileAt_of_path hchild]
    by_cases hnil : rest = []
    · rw [hnil, treeEntry_single.mpr hlookup]
      simp only [fileOf, hdir, if_true]
      cases child <;> rfl
    · rw [treeEntry_directory hlookup hdir hget hnil]
  · rw [if_neg hprefix, fileAt, if_neg hprefix]

/-- One step of the loop. -/
theorem listEntry_spec {acc acc' : Dict Text (Nat × Text)}
    (hlookup : tree.lookup name = .some (mode, sha))
    (hslash : ∀ part ∈ pre ++ [name], (47 : UInt8) ∉ part)
    (hbelow : ∀ child below, store.get sha = .ok (.tree child) →
    treeEntries store depth (pre ++ [name]) child = .ok below →
      below.keys.Nodup ∧ ∀ key, below.get? key = fileAt store (pre ++ [name]) child key)
    (hacc : acc.keys.Nodup) (h : listEntry store depth pre acc (name, mode, sha) = .ok acc') :
    acc'.keys.Nodup ∧ ∀ key, acc'.get? key = (entryAt store pre tree name key).or
      (acc.get? key) := by
  simp only [listEntry] at h
  split at h
  next hdir =>
    simp only [Py.bind_eq_ok] at h
    obtain ⟨object, hobject, h⟩ := h
    split at h
    next child =>
      simp only [Py.bind_eq_ok] at h
      obtain ⟨below, hlist, h⟩ := h
      cases h
      obtain ⟨hnodup, hget⟩ := hbelow child below hobject hlist
      obtain ⟨hnodup', hupdate⟩ := update_spec hnodup hacc
      refine ⟨hnodup', fun key => ?_⟩
      rw [hupdate, hget, entryAt_directory hlookup hdir hobject]
    next => cases h
  next hfile =>
    simp only [Py.bind_eq_ok, orRaise_eq_ok] at h
    obtain ⟨own, hown, h⟩ := h
    cases h
    have hkey : pathKey own = pre ++ [name] := (pathKey_eq_iff (by simp) hslash).mpr hown
    refine ⟨set_keys_nodup hacc _ _, fun key => ?_⟩
    rw [set_get?, entryAt_file hlookup (Bool.not_eq_true _ ▸ hfile)]
    by_cases heq : key = own
    · rw [if_pos heq, heq, if_pos hkey]
      rfl
    · rw [if_neg heq, if_neg fun hsame => heq (pathKey_inj (hsame.trans hkey.symm))]
      rfl

end

/-- **What is listed**: the files of the tree, under their keys. -/
theorem treeEntries_get? (hnamed : store.GitNamed) :
    ∀ {depth : Nat} {pre : List Bytes} {tree : TreeEntries}
    {listed : Dict Text (Nat × Text)}, GitNames tree → (∀ part ∈ pre, (47 : UInt8) ∉ part) →
      treeEntries store depth pre tree = .ok listed →
        listed.keys.Nodup ∧ ∀ key, listed.get? key = fileAt store pre tree key
  | 0, pre, tree, listed, _, _, h => by cases h
  | depth + 1, pre, tree, listed, hnames, hslash, h => by
    have hloop : ∀ (entries : TreeEntries) (acc listed : Dict Text (Nat × Text)),
      (∀ entry ∈ entries, entry ∈ tree) →
        (entries.map Prod.fst).Nodup → acc.keys.Nodup →
          entries.foldlM (listEntry store depth pre) acc = .ok listed →
          listed.keys.Nodup ∧ ∀ key, listed.get? key =
            if ∃ name ∈ entries.map Prod.fst, pre ++ [name] <+: pathKey key then
              (fileAt store pre tree key).or (acc.get? key)
            else acc.get? key := by
      intro entries
      induction entries with
      | nil =>
        intro acc listed _ _ hacc h
        cases h
        exact ⟨hacc, fun key => by simp⟩
      | cons entry entries ih =>
        intro acc listed hsub hnodup hacc h
        obtain ⟨name, mode, sha⟩ := entry
        rw [List.foldlM_cons, Py.bind_eq_ok] at h
        obtain ⟨acc', hstep, h⟩ := h
        have hmem := hsub _ List.mem_cons_self
        have hslash' : ∀ part ∈ pre ++ [name], (47 : UInt8) ∉ part := by
          intro part hpart
          rcases List.mem_append.mp hpart with hpart | hpart
          · exact hslash part hpart
          · rw [List.mem_singleton.mp hpart]
            exact hnames.2 name (List.mem_map.mpr ⟨_, hmem, rfl⟩)
        obtain ⟨hacc', hget'⟩ := listEntry_spec (lookup_of_mem hnames.1 hmem) hslash'
          (fun child below hchild hbelow =>
            treeEntries_get? hnamed (hnamed.get hchild) hslash' hbelow) hacc hstep
        obtain ⟨hfresh, hnodup⟩ := List.nodup_cons.mp hnodup
        obtain ⟨hlisted, hget⟩ :=
          ih acc' listed (fun e he => hsub e (List.mem_cons_of_mem _ he)) hnodup hacc' h
        refine ⟨hlisted, fun key => ?_⟩
        rw [hget, hget', entryAt]
        by_cases hown : pre ++ [name] <+: pathKey key
        · have hother : ¬ ∃ other ∈ entries.map Prod.fst, pre ++ [other] <+: pathKey key := by
            intro hother
            obtain ⟨other, hin, hprefix⟩ := hother
            obtain ⟨rest, hrest⟩ := isPrefix_snoc_iff.mp hown
            obtain ⟨rest', hrest'⟩ := isPrefix_snoc_iff.mp hprefix
            rw [hrest] at hrest'
            cases List.append_cancel_left hrest'
            exact hfresh hin
          rw [if_neg hother, if_pos hown, if_pos ⟨name, by simp, hown⟩]
        · have hiff : (∃ other ∈ ((name, mode, sha) :: entries).map Prod.fst,
            pre ++ [other] <+: pathKey key) ↔
              ∃ other ∈ entries.map Prod.fst, pre ++ [other] <+: pathKey key := by
            simp [hown]
          simp only [hiff, if_neg hown, Option.none_or]
    rw [treeEntries_succ] at h
    obtain ⟨hlisted, hget⟩ :=
      hloop tree [] listed (fun entry hentry => hentry) hnames.1 List.nodup_nil h
    refine ⟨hlisted, fun key => ?_⟩
    rw [hget]
    split
    next => simp [Dict.get?]
    next hnone =>
      rw [fileAt]
      split
      next hprefix =>
        obtain ⟨path, hpath⟩ := hprefix
        rw [← hpath, List.drop_left]
        cases path with
        | nil => cases tree <;> rfl
        | cons name rest =>
          have hlookup : tree.lookup name = .none := by
            rw [← Option.not_isSome_iff_eq_none, lookup_isSome_iff]
            exact fun hmem => hnone ⟨name, hmem, isPrefix_snoc_iff.mpr ⟨rest, hpath.symm⟩⟩
          cases rest with
          | nil => simp only [treeEntry, hlookup, orRaise]; rfl
          | cons next rest => simp only [treeEntry, hlookup, orRaise]; rfl
      next => rfl

/-! ## When a tree is listed -/

/-- An entry is listed when its name is UTF-8, or what it is the directory of is listed. -/
def EntryListed (store : ObjectStore) (depth : Nat) (pre : List Bytes)
    (entry : Bytes × Nat × Text) : Prop :=
  (isDirMode entry.2.1 = true →
    ∃ child, store.get entry.2.2 = .ok (.tree child) ∧
      (treeEntries store depth (pre ++ [entry.1]) child).isOk = true) ∧
  (isDirMode entry.2.1 = false → (decode (joinSlashBytes (pre ++ [entry.1]))).isSome = true)

theorem listEntry_isOk {depth : Nat} {pre : List Bytes} (acc : Dict Text (Nat × Text))
    (entry : Bytes × Nat × Text) :
    (listEntry store depth pre acc entry).isOk = true ↔ EntryListed store depth pre entry := by
  obtain ⟨name, mode, sha⟩ := entry
  rw [EntryListed, listEntry]
  by_cases hdir : isDirMode mode = true
  · simp only [hdir, if_true, Py.isOk_bind]
    constructor
    · intro h
      obtain ⟨object, hobject, h⟩ := h
      refine ⟨fun _ => ?_, fun hfile => by cases hfile⟩
      split at h
      next child =>
        obtain ⟨below, hbelow, -⟩ := Py.isOk_bind.mp h
        exact ⟨child, hobject, Py.isOk_iff.mpr ⟨below, hbelow⟩⟩
      next => cases h
    · intro h
      obtain ⟨child, hchild, hbelow⟩ := h.1 trivial
      obtain ⟨below, hbelow⟩ := Py.isOk_iff.mp hbelow
      exact ⟨_, hchild, Py.isOk_bind.mpr ⟨below, hbelow, rfl⟩⟩
  · have hfile : isDirMode mode = false := Bool.not_eq_true _ ▸ hdir
    simp only [hfile, Bool.false_eq_true, if_false, Py.isOk_bind, orRaise_eq_ok]
    constructor
    · intro h
      obtain ⟨key, hkey, -⟩ := h
      exact ⟨fun hdir => hdir.elim, fun _ => by rw [hkey]; rfl⟩
    · intro h
      obtain ⟨key, hkey⟩ := Option.isSome_iff_exists.mp (h.2 trivial)
      exact ⟨key, hkey, rfl⟩

theorem foldlM_listEntry_isOk {depth : Nat} {pre : List Bytes} :
    ∀ (entries : TreeEntries) (acc : Dict Text (Nat × Text)),
    (entries.foldlM (listEntry store depth pre) acc).isOk = true ↔ ∀ entry ∈ entries,
    EntryListed store depth pre entry
  | [], acc => iff_of_true rfl fun entry hentry => absurd hentry List.not_mem_nil
  | entry :: entries, acc => by
    rw [List.foldlM_cons, Py.isOk_bind, List.forall_mem_cons, ← listEntry_isOk acc, Py.isOk_iff]
    constructor
    · intro h
      obtain ⟨acc', hstep, h⟩ := h
      exact ⟨⟨acc', hstep⟩, (foldlM_listEntry_isOk entries acc').mp h⟩
    · intro h
      obtain ⟨⟨acc', hstep⟩, h⟩ := h
      exact ⟨acc', hstep, (foldlM_listEntry_isOk entries acc').mpr h⟩

/-- **When a tree is listed.** -/
theorem treeEntries_isOk (hnamed : store.GitNamed) :
    ∀ {depth : Nat} {pre : List Bytes} {tree : TreeEntries}, GitNames tree →
    0 < depth → ((treeEntries store depth pre tree).isOk = true ↔ Listable store depth pre tree)
  | depth + 1, pre, tree, hnames, _ => by
    have happend : ∀ (name : Bytes) (path : List Bytes), pre ++ name :: path = pre ++ [name] ++
      path := fun name path => by simp
    rw [treeEntries_succ, foldlM_listEntry_isOk]
    constructor
    · intro h path mode sha hentry
      cases path with
      | nil => cases tree <;> cases hentry
      | cons name rest =>
        by_cases hrest : rest = []
        · rw [hrest] at hentry ⊢
          have hmem := mem_of_lookup (treeEntry_single.mp hentry)
          obtain ⟨hdir, hfile⟩ := h _ hmem
          refine ⟨fun hd => ?_, hfile⟩
          obtain ⟨child, hchild, hlisted⟩ := hdir hd
          refine ⟨?_, child, hchild⟩
          cases depth with
          | zero => cases hlisted
          | succ depth =>
            rw [List.length_singleton]
            omega
        · obtain ⟨mode', sha', child, hlookup, hd, hget, hentry⟩ := (treeEntry_cons hrest).mp hentry
          obtain ⟨child', hchild', hlisted⟩ := (h _ (mem_of_lookup hlookup)).1 hd
          rw [hget] at hchild'
          cases hchild'
          have hdepth : 0 < depth := by
            cases depth with
            | zero => cases hlisted
            | succ depth => exact Nat.succ_pos depth
          obtain ⟨hdir, hfile⟩ :=
            (treeEntries_isOk hnamed (hnamed.get hget) hdepth).mp hlisted rest mode sha hentry
          rw [happend]
          refine ⟨fun hd => ?_, hfile⟩
          obtain ⟨hlength, hstored⟩ := hdir hd
          rw [List.length_cons]
          exact ⟨by omega, hstored⟩
    · intro h entry hmem
      obtain ⟨name, mode, sha⟩ := entry
      have hlookup := lookup_of_mem hnames.1 hmem
      obtain ⟨hdir, hfile⟩ := h [name] mode sha (treeEntry_single.mpr hlookup)
      refine ⟨fun hd => ?_, hfile⟩
      obtain ⟨hlength, child, hchild⟩ := hdir hd
      rw [List.length_singleton] at hlength
      refine ⟨child, hchild, (treeEntries_isOk hnamed (hnamed.get hchild) (by omega)).mpr
        fun path mode' sha' hentry => ?_⟩
      have hpath : path ≠ [] := by
        intro hnil
        rw [hnil] at hentry
        cases child <;> cases hentry
      obtain ⟨hdir', hfile'⟩ :=
        h (name :: path) mode' sha'
        ((treeEntry_cons hpath).mpr ⟨mode, sha, child, hlookup, hd, hchild, hentry⟩)
      rw [happend] at hfile'
      refine ⟨fun hd => ?_, hfile'⟩
      obtain ⟨hlength, hstored⟩ := hdir' hd
      rw [List.length_cons] at hlength
      exact ⟨by omega, hstored⟩

end Novalton
