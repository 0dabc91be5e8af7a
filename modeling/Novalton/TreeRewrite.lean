/-
The tree `_replace_tree` builds (`modules/git_changesets/local.py`), in memory and in
the store: the entries it comes to, when it comes to any, and how they read.

`rebuild` is `_replace_tree` without the store it adds to. It fails where a directory on
the way to a replaced path lacks a name that some replaced path has at that depth, for
the names to write are taken from all replaced paths and not from those below the
directory.
-/
import Novalton.GitApply
import Novalton.TextFacts

namespace Novalton

/-! ## Stores that grow -/

/-- Every object of the one store is in the other, under its id. -/
def ObjectStore.Within (store store' : ObjectStore) : Prop :=
  ∀ id object, store.lookup id = .some object → store'.lookup id = .some object

variable {store store' : ObjectStore}

theorem ObjectStore.Within.refl : store.Within store := fun _ _ h => h

theorem ObjectStore.Within.trans {store'' : ObjectStore} (h : store.Within store')
    (h' : store'.Within store'') :
    store.Within store'' := fun id object hid => h' id object (h id object hid)

theorem ObjectStore.within_add (store : ObjectStore) (id : Text) (object : GitObject) : store.Within
    (store.add id object) := by
  intro other found hfound
  rw [ObjectStore.add]
  split
  next => exact hfound
  next hnone =>
    have hne : other ≠ id := by
      intro heq
      rw [heq] at hfound
      exact hnone (by rw [hfound]; rfl)
    rw [List.lookup_cons, beq_eq_false_iff_ne.mpr hne]
    exact hfound

theorem ObjectStore.lookup_add (store : ObjectStore) (id : Text) (object : GitObject) :
    ((store.add id object).lookup id).isSome = true := by
  rw [ObjectStore.add]
  split
  next hsome => exact hsome
  next =>
    rw [List.lookup_cons, beq_self_eq_true]
    rfl

theorem ObjectStore.get_ok {id : Text} {object : GitObject} : store.get id = .ok object ↔
    store.lookup id = .some object := by
  rw [ObjectStore.get, orRaise_eq_ok]

theorem ObjectStore.Within.get (h : store.Within store') {id : Text} {object : GitObject}
    (hget : store.get id = .ok object) :
    store'.get id = .ok object :=
  ObjectStore.get_ok.mpr (h id object (ObjectStore.get_ok.mp hget))

/-- A path of several names goes on in the directory of the first. -/
theorem treeEntry_cons_cons (store : ObjectStore) (tree : TreeEntries) (part next : Bytes)
    (rest : List Bytes) :
    treeEntry store tree (part :: next :: rest) = (do
      let (mode, sha) ← orRaise (tree.lookup part) (.tool "git_head_path_missing")
      if isDirMode mode then
        match ← store.get sha with
        | .tree child => treeEntry store child (next :: rest)
        | _ => .error (.tool "git_tree_invalid")
      else .error (.tool "git_head_path_invalid")) := rfl

/-- What a path reads in a store, it reads in a larger one. -/
theorem ObjectStore.Within.treeEntry (h : store.Within store') {value : Nat × Text} :
    ∀ {parts : List Bytes} {tree : TreeEntries},
    treeEntry store tree parts = .ok value → treeEntry store' tree parts = .ok value
  | [], tree, hentry => by cases tree <;> cases hentry
  | [part], tree, hentry => hentry
  | part :: next :: rest, tree, hentry => by
    simp only [treeEntry_cons_cons, Py.bind_eq_ok] at hentry ⊢
    obtain ⟨⟨mode, sha⟩, hlookup, hentry⟩ := hentry
    refine ⟨(mode, sha), hlookup, ?_⟩
    split at hentry
    next hdir =>
      simp only [Py.bind_eq_ok] at hentry
      obtain ⟨object, hobject, hentry⟩ := hentry
      split at hentry
      next child =>
        rw [if_pos hdir]
        simp only [Py.bind_eq_ok]
        exact ⟨_, h.get hobject, h.treeEntry hentry⟩
      next => cases hentry
    next => cases hentry

/-- A path of one name is an entry of the tree, -/
theorem treeEntry_single {tree : TreeEntries} {name : Bytes} {value : Nat × Text} :
    treeEntry store tree [name] = .ok value ↔ tree.lookup name = .some value := orRaise_eq_ok

/-- and a longer one goes through a directory. -/
theorem treeEntry_cons {tree : TreeEntries} {name : Bytes} {rest : List Bytes} {value : Nat × Text}
    (hrest : rest ≠ []) :
    treeEntry store tree (name :: rest) = .ok value ↔ ∃ mode sha child, tree.lookup name = .some
      (mode, sha) ∧ isDirMode mode = true ∧
      store.get sha = .ok (.tree child) ∧ treeEntry store child rest = .ok value := by
  cases rest with
  | nil => exact absurd rfl hrest
  | cons next rest =>
    simp only [treeEntry_cons_cons, Py.bind_eq_ok, orRaise_eq_ok]
    constructor
    · intro h
      obtain ⟨⟨mode, sha⟩, hlookup, h⟩ := h
      split at h
      next hdir =>
        simp only [Py.bind_eq_ok] at h
        obtain ⟨object, hobject, h⟩ := h
        split at h
        next child => exact ⟨mode, sha, child, hlookup, hdir, hobject, h⟩
        next => cases h
      next => cases h
    · intro h
      obtain ⟨mode, sha, child, hlookup, hdir, hobject, h⟩ := h
      refine ⟨(mode, sha), hlookup, ?_⟩
      rw [if_pos hdir]
      simp only [Py.bind_eq_ok]
      exact ⟨_, hobject, h⟩

/-- Through a directory, a path reads the child. -/
theorem treeEntry_directory {tree child : TreeEntries} {name : Bytes} {rest : List Bytes}
    {mode : Nat} {sha : Text} (hlookup : tree.lookup name = .some (mode, sha))
    (hdir : isDirMode mode = true) (hget : store.get sha = .ok (.tree child)) (hrest : rest ≠ []) :
    treeEntry store tree (name :: rest) = treeEntry store child rest := by
  cases rest with
  | nil => exact absurd rfl hrest
  | cons next rest =>
    simp only [treeEntry_cons_cons, hlookup, orRaise, Py.ok_bind, hdir, if_true, hget]

/-- Nothing is below a file. -/
theorem treeEntry_file {tree : TreeEntries} {name : Bytes} {rest : List Bytes} {mode : Nat}
    {sha : Text} (hlookup : tree.lookup name = .some (mode, sha)) (hfile : isDirMode mode = false)
    (hrest : rest ≠ []) :
    treeEntry store tree (name :: rest) = .error (.tool "git_head_path_invalid") := by
  cases rest with
  | nil => exact absurd rfl hrest
  | cons next rest =>
    simp only [treeEntry_cons_cons, hlookup, orRaise, Py.ok_bind, hfile, Bool.false_eq_true,
      if_false]

/-- A path only reads the entry of its first name. -/
theorem treeEntry_congr {tree tree' : TreeEntries} {name : Bytes} {rest : List Bytes}
    (h : tree.lookup name = tree'.lookup name) :
    treeEntry store tree (name :: rest) = treeEntry store tree' (name :: rest) := by
  cases rest with
  | nil =>
    show orRaise (tree.lookup name) _ = orRaise (tree'.lookup name) _
    rw [h]
  | cons next rest => simp only [treeEntry_cons_cons, h]

/-! ## The tree that is built -/

section
variable (ids : ObjectIds) (replacements : Replacements)

/-- What the loop of `_replace_tree` writes for a name; `below` rebuilds a child. -/
def rebuiltEntry (store : ObjectStore) (below : List Bytes → TreeEntries → Py TreeEntries)
    (pre : List Bytes) (tree : TreeEntries) (name : Bytes) : Py (Bytes × Nat × Text) :=
  match replacements.get? (pre ++ [name]) with
  | .some value => .ok (name, value)
  | .none => do
    let (mode, sha) ← orRaise (tree.lookup name) (.keyError "name")
    if hasChildPaths replacements pre name then
      match ← store.get sha with
      | .tree child => do
        let entries ← below (pre ++ [name]) child
        return (name, mode, ids.treeId entries)
      | _ => .error (.tool "git_tree_invalid")
    else return (name, mode, sha)

/-- The entries of the tree `_replace_tree` makes of a tree of the store. -/
def rebuild (store : ObjectStore) : Nat → List Bytes → TreeEntries → Py TreeEntries
  | 0, _, _ => .error .recursionError
  | depth + 1, pre, tree =>
    (replacedNames replacements pre tree).mapM
      (rebuiltEntry ids replacements store (rebuild store depth) pre tree)

/-- The body of the loop, with the store. -/
def replaceStep (persist : Bool) (depth : Nat) (pre : List Bytes) (tree : TreeEntries)
    (acc : TreeEntries × ObjectStore) (name : Bytes) : Py (TreeEntries × ObjectStore) :=
  match replacements.get? (pre ++ [name]) with
  | .some (mode, sha) => return (acc.1 ++ [(name, mode, sha)], acc.2)
  | .none => do
    let (mode, sha) ← orRaise (tree.lookup name) (.keyError "name")
    if hasChildPaths replacements pre name then
      match ← acc.2.get sha with
      | .tree child => do
        let (sha, store) ← replaceTree ids persist replacements depth (pre ++ [name]) child acc.2
        return (acc.1 ++ [(name, mode, sha)], store)
      | _ => .error (.tool "git_tree_invalid")
    else return (acc.1 ++ [(name, mode, sha)], acc.2)

theorem replaceTree_succ (persist : Bool) (depth : Nat) (pre : List Bytes) (tree : TreeEntries)
    (store : ObjectStore) :
    replaceTree ids persist replacements (depth + 1) pre tree store =
      (replacedNames replacements pre tree).foldlM
      (replaceStep ids replacements persist depth pre tree) ([], store) >>=
        fun built => .ok
          (ids.treeId built.1, if persist then built.2.add (ids.treeId built.1) (.tree built.1)
          else built.2) := rfl

end

variable {ids : ObjectIds} {replacements : Replacements}

/-- A loop that leaves the store alone collects what its entries come to. -/
theorem foldlM_collect {store : ObjectStore} {f : Bytes → Py (Bytes × Nat × Text)}
    {g : TreeEntries × ObjectStore → Bytes → Py (TreeEntries × ObjectStore)}
    (h : ∀ entries name, g (entries, store) name = (f name).map fun entry =>
      (entries ++ [entry], store)) :
    ∀ (names : List Bytes) (entries : TreeEntries),
      names.foldlM g (entries, store) = (names.mapM f).map fun built => (entries ++ built, store)
  | [], entries => by
    rw [List.foldlM_nil, List.mapM_nil]
    show Except.ok (entries, store) = Except.ok (entries ++ [], store)
    rw [List.append_nil]
  | name :: names, entries => by
    rw [List.foldlM_cons, List.mapM_cons, h]
    cases f name with
    | error e => rfl
    | ok entry =>
      show names.foldlM g (entries ++ [entry], store) = _
      rw [foldlM_collect h names (entries ++ [entry])]
      show _ = Except.map _ ((names.mapM f) >>= fun built => Except.ok (entry :: built))
      cases names.mapM f with
      | error e => rfl
      | ok built =>
        show Except.ok (entries ++ [entry] ++ built, store) =
          Except.ok (entries ++ entry :: built, store)
        rw [List.append_assoc]
        rfl

/-- In memory, `_replace_tree` gives the id of the tree that is built, and leaves the store. -/
theorem replaceTree_memory (store : ObjectStore) :
    ∀ (depth : Nat) (pre : List Bytes) (tree : TreeEntries),
    replaceTree ids false replacements depth pre tree store =
      (rebuild ids replacements store depth pre tree).map fun entries => (ids.treeId entries, store)
  | 0, pre, tree => rfl
  | depth + 1, pre, tree => by
    have hstep : ∀ entries name,
      replaceStep ids replacements false depth pre tree (entries, store) name =
        (rebuiltEntry ids replacements store (rebuild ids replacements store depth) pre tree
          name).map
          fun entry => (entries ++ [entry], store) := by
      intro entries name
      rw [replaceStep, rebuiltEntry]
      cases replacements.get? (pre ++ [name]) with
      | some value => rfl
      | none =>
        simp only
        cases tree.lookup name with
        | none => rfl
        | some value =>
          show (if hasChildPaths replacements pre name then _ else _) =
            Except.map _ (if hasChildPaths replacements pre name then _ else _)
          by_cases hchild : hasChildPaths replacements pre name
          · rw [if_pos hchild, if_pos hchild]
            cases store.get value.2 with
            | error e => rfl
            | ok object =>
              cases object with
              | blob data => rfl
              | commit commit => rfl
              | tree child =>
                show (replaceTree ids false replacements depth (pre ++ [name]) child store >>= _) =
                  Except.map _ (rebuild ids replacements store depth (pre ++ [name]) child >>= _)
                rw [replaceTree_memory store depth]
                cases rebuild ids replacements store depth (pre ++ [name]) child <;> rfl
          · rw [if_neg hchild, if_neg hchild]
            rfl
    rw [replaceTree_succ, rebuild, foldlM_collect hstep]
    cases (replacedNames replacements pre tree).mapM
      (rebuiltEntry ids replacements store (rebuild ids replacements store depth) pre tree) <;> rfl

/-! ## Ids of contents -/

/-- The id Dulwich gives an object. -/
def ObjectIds.objectId (lib : Library) (ids : ObjectIds) : GitObject → Text
  | .blob data => lib.blobId data
  | .tree entries => ids.treeId entries
  | .commit commit => ids.commitId commit

/-- Every object stands under its own id. -/
def ObjectStore.Addressed (lib : Library) (ids : ObjectIds) (store : ObjectStore) : Prop :=
  ∀ id object, store.lookup id = .some object → id = ids.objectId lib object

/-- Object ids are functions of the content and tell contents apart: the id of a tree is that of
no object but a tree with the same entries, whatever their order, and no commit is its own parent.
-/
structure ObjectIds.Lawful (lib : Library) (ids : ObjectIds) : Prop where
  tree : ∀ entries object, ids.treeId entries = ids.objectId lib object →
    ∃ other, object = .tree other ∧ ∀ name, other.lookup name = entries.lookup name
  acyclic : ∀ commit : Commit, ids.commitId commit ∉ commit.parents

/-- Object ids also tell the contents of blobs and commits from all others. -/
structure ObjectIds.Faithful (lib : Library) (ids : ObjectIds) : Prop extends ids.Lawful lib where
  blob : ∀ data object, lib.blobId data = ids.objectId lib object → object = .blob data
  commit : ∀ commit object, ids.commitId commit = ids.objectId lib object → object = .commit commit

variable {lib : Library}

theorem ObjectStore.Addressed.add (h : store.Addressed lib ids) (object : GitObject) :
    (store.add (ids.objectId lib object) object).Addressed lib ids := by
  intro id found hfound
  rw [ObjectStore.add] at hfound
  split at hfound
  next => exact h id found hfound
  next =>
    rw [List.lookup_cons] at hfound
    split at hfound
    next heq =>
      cases hfound
      exact beq_iff_eq.mp heq
    next => exact h id found hfound

/-- A tree whose id the store has reads from it with its own entries. -/
theorem ObjectIds.Lawful.get_tree (hlaws : ids.Lawful lib) (h : store.Addressed lib ids)
    {entries : TreeEntries} (hsome : (store.lookup (ids.treeId entries)).isSome = true) :
    ∃ other, store.get (ids.treeId entries) = .ok (.tree other) ∧ ∀ name,
      other.lookup name = entries.lookup name := by
  obtain ⟨object, hobject⟩ := Option.isSome_iff_exists.mp hsome
  obtain ⟨other, hother, hlookup⟩ := hlaws.tree entries object (h _ _ hobject)
  rw [hother] at hobject
  exact ⟨other, ObjectStore.get_ok.mpr hobject, hlookup⟩

/-- The names of a tree are distinct and without slashes. -/
def GitNames (tree : TreeEntries) : Prop :=
  (tree.map Prod.fst).Nodup ∧ ∀ name ∈ tree.map Prod.fst, (47 : UInt8) ∉ name

/-- The trees of a store have the names git allows. -/
def ObjectStore.GitNamed (store : ObjectStore) : Prop :=
  ∀ id tree, store.lookup id = .some (.tree tree) → GitNames tree

theorem ObjectStore.GitNamed.get (h : store.GitNamed) {id : Text} {tree : TreeEntries}
    (hget : store.get id = .ok (.tree tree)) :
    GitNames tree := h id tree (ObjectStore.get_ok.mp hget)

theorem ObjectStore.GitNamed.add (h : store.GitNamed) (id : Text) {object : GitObject}
    (hobject : ∀ tree, object = .tree tree → GitNames tree) : (store.add id object).GitNamed := by
  intro other tree hlookup
  rw [ObjectStore.add] at hlookup
  split at hlookup
  next => exact h other tree hlookup
  next =>
    rw [List.lookup_cons] at hlookup
    split at hlookup
    next => exact hobject tree (Option.some.inj hlookup)
    next => exact h other tree hlookup

/-! ## The tree in the store -/

section
variable (ids) (replacements)

/-- The entry a rebuilt tree has for a name: the replacement, the entry of the old tree, or a
child the store has, for which `below` holds. -/
def RebuiltEntry (store : ObjectStore) (below : List Bytes → TreeEntries → TreeEntries → Prop)
    (pre : List Bytes) (tree : TreeEntries) (name : Bytes) (entry : Option (Nat × Text)) : Prop :=
  match replacements.get? (pre ++ [name]) with
  | .some value => entry = .some value
  | .none =>
    if hasChildPaths replacements pre name then
      ∃ mode sha child entries, tree.lookup name = .some (mode, sha) ∧
        store.get sha = .ok (.tree child) ∧
        entry = .some (mode, ids.treeId entries) ∧
          (store.lookup (ids.treeId entries)).isSome = true ∧
        below (pre ++ [name]) child entries
    else entry = tree.lookup name

/-- The entries are those of the tree below `pre` with the replacements in it. -/
def Rebuilt (store : ObjectStore) : Nat → List Bytes → TreeEntries → TreeEntries → Prop
  | 0, _, _, _ => False
  | depth + 1, pre, tree, entries =>
    ∀ name, RebuiltEntry ids replacements store (Rebuilt store depth) pre tree name
      (entries.lookup name)

end

theorem RebuiltEntry.mono {below below' : List Bytes → TreeEntries → TreeEntries → Prop}
    {pre : List Bytes} {tree : TreeEntries} {name : Bytes} {entry : Option (Nat × Text)}
    (h : RebuiltEntry ids replacements store below pre tree name entry)
    (hstore : store.Within store')
    (hbelow : ∀ pre child entries, below pre child entries → below' pre child entries) :
    RebuiltEntry ids replacements store' below' pre tree name entry := by
  rw [RebuiltEntry] at h ⊢
  split
  next value hvalue =>
    rw [hvalue] at h
    exact h
  next hnone =>
    rw [hnone] at h
    simp only at h
    by_cases hchild : hasChildPaths replacements pre name
    · rw [if_pos hchild] at h ⊢
      obtain ⟨mode, sha, child, entries, hlookup, hget, hentry, hsome, hrest⟩ := h
      obtain ⟨object, hobject⟩ := Option.isSome_iff_exists.mp hsome
      exact ⟨mode, sha, child, entries, hlookup, hstore.get hget, hentry,
        Option.isSome_iff_exists.mpr ⟨object, hstore _ _ hobject⟩, hbelow _ _ _ hrest⟩
    · rw [if_neg hchild] at h ⊢
      exact h

theorem Rebuilt.mono (hstore : store.Within store') :
    ∀ {depth : Nat} {pre : List Bytes} {tree entries : TreeEntries},
    Rebuilt ids replacements store depth pre tree entries →
      Rebuilt ids replacements store' depth pre tree entries
  | 0, _, _, _, h => h
  | _ + 1, _, _, _, h => fun name => (h name).mono hstore fun _ _ _ => Rebuilt.mono hstore

/-! ## The names that are written -/

theorem lookup_isSome_iff {β : Type} {entries : List (Bytes × β)} {name : Bytes} :
    (entries.lookup name).isSome = true ↔ name ∈ entries.map Prod.fst := by
  induction entries with
  | nil => simp
  | cons entry entries ih =>
    rw [List.lookup_cons, List.map_cons, List.mem_cons, ← ih]
    by_cases heq : name = entry.1
    · rw [heq, beq_self_eq_true]
      simp
    · rw [beq_eq_false_iff_ne.mpr heq]
      simp [heq]

theorem get?_isSome_iff {path : List Bytes} : (replacements.get? path).isSome = true ↔
    path ∈ replacements.keys := by
  rw [Dict.get?, Option.isSome_map, List.find?_isSome]
  simp [Dict.keys]

theorem hasChildPaths_iff {pre : List Bytes} {name : Bytes} :
    hasChildPaths replacements pre name = true ↔ ∃ rest, rest ≠ [] ∧
      pre ++ name :: rest ∈ replacements.keys := by
  simp only [hasChildPaths, List.any_eq_true, Bool.and_eq_true, decide_eq_true_eq, beq_iff_eq]
  constructor
  · intro h
    obtain ⟨path, hpath, hlength, htake⟩ := h
    have hsplit := List.take_append_drop (pre.length + 1) path
    rw [htake, List.append_assoc, List.singleton_append] at hsplit
    refine ⟨path.drop (pre.length + 1), ?_, by rw [hsplit]; exact hpath⟩
    intro hnil
    have hdrop := congrArg List.length hnil
    rw [List.length_drop, List.length_nil] at hdrop
    omega
  · intro h
    obtain ⟨rest, hrest, hmem⟩ := h
    refine ⟨_, hmem, ?_, ?_⟩
    · have hpos := List.length_pos_of_ne_nil hrest
      rw [List.length_append, List.length_cons]
      omega
    · have hcons : pre ++ name :: rest = (pre ++ [name]) ++ rest := by simp
      rw [hcons, List.take_left']
      simp

theorem mem_replacedNames {pre : List Bytes} {tree : TreeEntries} {name : Bytes} :
    name ∈ replacedNames replacements pre tree ↔
      (tree.lookup name).isSome = true ∨ ∃ path ∈ replacements.keys,
      path[pre.length]? = .some name := by
  rw [replacedNames, List.mem_insertionSort, List.mem_dedup, List.mem_append, lookup_isSome_iff,
    childNames, List.mem_filterMap]

theorem replacedNames_nodup (pre : List Bytes) (tree : TreeEntries) :
    (replacedNames replacements pre tree).Nodup :=
  (List.perm_insertionSort _ _).nodup_iff.mpr (List.nodup_dedup _)

/-- A name that is not written is not in the old tree, and no path has it there. -/
theorem RebuiltEntry.absent {below : List Bytes → TreeEntries → TreeEntries → Prop}
    {pre : List Bytes} {tree : TreeEntries} {name : Bytes}
    (h : name ∉ replacedNames replacements pre tree) :
    RebuiltEntry ids replacements store below pre tree name .none := by
  rw [mem_replacedNames, not_or, not_exists] at h
  obtain ⟨hlookup, hpath⟩ := h
  have hat : ∀ rest, pre ++ name :: rest ∉ replacements.keys := by
    intro rest hmem
    refine hpath _ ⟨hmem, ?_⟩
    rw [List.getElem?_append_right (Nat.le_refl _), Nat.sub_self]
    rfl
  have hdirect : replacements.get? (pre ++ [name]) = .none :=
    Option.not_isSome_iff_eq_none.mp fun hsome => hat [] (get?_isSome_iff.mp hsome)
  have hchild : ¬ hasChildPaths replacements pre name = true := by
    intro hchild
    obtain ⟨rest, -, hmem⟩ := hasChildPaths_iff.mp hchild
    exact hat rest hmem
  rw [RebuiltEntry, hdirect]
  simp only [if_neg hchild]
  exact (Option.not_isSome_iff_eq_none.mp hlookup).symm

/-- The names that are written are those git allows. -/
theorem replacedNames_named {pre : List Bytes} {tree : TreeEntries}
    (hkeys : ∀ path ∈ replacements.keys, ∀ name ∈ path, (47 : UInt8) ∉ name)
    (htree : GitNames tree) : ∀ name ∈ replacedNames replacements pre tree,
    (47 : UInt8) ∉ name := by
  intro name hname
  rcases mem_replacedNames.mp hname with hold | ⟨path, hpath, hat⟩
  · exact htree.2 name (lookup_isSome_iff.mp hold)
  · exact hkeys path hpath name (List.mem_of_getElem? hat)

/-- What is collected for a list of names reads by name. -/
theorem mapM_lookup {f : Bytes → Py (Bytes × Nat × Text)}
    (hf : ∀ name entry, f name = .ok entry → entry.1 = name) :
    ∀ {names : List Bytes} {entries : TreeEntries}, names.Nodup → names.mapM f = .ok entries →
      (∀ name ∈ names, ∃ value, f name = .ok (name, value) ∧ entries.lookup name = .some value) ∧
        ∀ name, name ∉ names → entries.lookup name = .none
  | [], entries, _, h => by
    cases h
    exact ⟨fun name hname => absurd hname List.not_mem_nil, fun _ _ => rfl⟩
  | first :: names, entries, hnodup, h => by
    simp only [List.mapM_cons, Py.bind_eq_ok] at h
    obtain ⟨⟨key, value⟩, hentry, built, hbuilt, h⟩ := h
    cases h
    have hkey : key = first := hf first _ hentry
    rw [hkey] at hentry ⊢
    obtain ⟨hfresh, hnodup⟩ := List.nodup_cons.mp hnodup
    obtain ⟨hin, hout⟩ := mapM_lookup hf hnodup hbuilt
    constructor
    · intro name hname
      rw [List.lookup_cons]
      by_cases heq : name = first
      · rw [heq, beq_self_eq_true]
        exact ⟨value, hentry, rfl⟩
      · rw [beq_eq_false_iff_ne.mpr heq]
        exact hin name ((List.mem_cons.mp hname).resolve_left heq)
    · intro name hname
      rw [List.mem_cons, not_or] at hname
      rw [List.lookup_cons, beq_eq_false_iff_ne.mpr hname.1]
      exact hout name hname.2

/-- What a name comes to in the loop. -/
theorem rebuiltEntry_ok {below : List Bytes → TreeEntries → Py TreeEntries} {pre : List Bytes}
    {tree : TreeEntries} {name : Bytes} {entry : Bytes × Nat × Text}
    (h : rebuiltEntry ids replacements store below pre tree name = .ok entry) :
    entry.1 = name ∧
      (replacements.get? (pre ++ [name]) = .some entry.2 ∨
        replacements.get? (pre ++ [name]) = .none ∧ ∃ mode sha, tree.lookup name = .some
          (mode, sha) ∧
          (hasChildPaths replacements pre name = false ∧ entry.2 = (mode, sha) ∨
            hasChildPaths replacements pre name = true ∧ ∃ child entries, store.get sha = .ok
              (.tree child) ∧
              below (pre ++ [name]) child = .ok entries ∧
                entry.2 = (mode, ids.treeId entries))) := by
  rw [rebuiltEntry] at h
  split at h
  next value hvalue =>
    cases h
    exact ⟨rfl, .inl hvalue⟩
  next hnone =>
    simp only [Py.bind_eq_ok, orRaise_eq_ok] at h
    obtain ⟨⟨mode, sha⟩, hlookup, h⟩ := h
    split at h
    next hchild =>
      simp only [Py.bind_eq_ok] at h
      obtain ⟨object, hobject, h⟩ := h
      split at h
      next child =>
        simp only [Py.bind_eq_ok] at h
        obtain ⟨entries, hentries, h⟩ := h
        cases h
        exact ⟨rfl, .inr ⟨hnone, mode, sha, hlookup,
          .inr ⟨hchild, child, entries, hobject, hentries, rfl⟩⟩⟩
      next => cases h
    next hchild =>
      cases h
      exact ⟨rfl, .inr ⟨hnone, mode, sha, hlookup, .inl ⟨Bool.not_eq_true _ ▸ hchild, rfl⟩⟩⟩

/-- A loop over names that only adds to the store, with what each name establishes. -/
theorem foldlM_grow {f : Bytes → Py (Bytes × Nat × Text)}
    {g : TreeEntries × ObjectStore → Bytes → Py (TreeEntries × ObjectStore)}
    {Inv : ObjectStore → Prop} {P : ObjectStore → Bytes → Bytes × Nat × Text → Prop}
    (hmono : ∀ st st' name entry, ObjectStore.Within st st' → P st name entry → P st' name entry)
    (hstep : ∀ entries st name entry, Inv st → f name = .ok entry →
      ∃ st', g (entries, st) name = .ok (entries ++ [entry], st') ∧ ObjectStore.Within st st' ∧
        Inv st' ∧ P st' name entry) :
    ∀ {names : List Bytes} {built : TreeEntries} (entries : TreeEntries) (st : ObjectStore),
      Inv st → names.mapM f = .ok built →
      ∃ st', names.foldlM g (entries, st) = .ok (entries ++ built, st') ∧
        ObjectStore.Within st st' ∧ Inv st' ∧
        ∀ name ∈ names, ∀ entry, f name = .ok entry → P st' name entry
  | [], built, entries, st, hinv, h => by
    cases h
    refine ⟨st, ?_, .refl, hinv, fun name hname => absurd hname List.not_mem_nil⟩
    show Except.ok (entries, st) = Except.ok (entries ++ [], st)
    rw [List.append_nil]
  | first :: names, built, entries, st, hinv, h => by
    simp only [List.mapM_cons, Py.bind_eq_ok] at h
    obtain ⟨entry, hentry, rest, hrest, h⟩ := h
    cases h
    obtain ⟨st₁, hg, hwithin, hinv, hp⟩ := hstep entries st first entry hinv hentry
    obtain ⟨st₂, hfold, hwithin', hinv, hps⟩ :=
      foldlM_grow hmono hstep (entries ++ [entry]) st₁ hinv hrest
    refine ⟨st₂, ?_, hwithin.trans hwithin', hinv, fun name hname other hother => ?_⟩
    · rw [List.foldlM_cons, hg]
      show names.foldlM g (entries ++ [entry], st₁) = _
      rw [hfold, List.append_assoc]
      rfl
    · rcases List.mem_cons.mp hname with heq | hname
      · rw [heq, hentry] at hother
        cases hother
        rw [heq]
        exact hmono _ _ _ _ hwithin' hp
      · exact hps name hname other hother

/-- The entries collected for a list of names have the names. -/
theorem mapM_names {f : Bytes → Py (Bytes × Nat × Text)}
    (hf : ∀ name entry, f name = .ok entry → entry.1 = name) {names : List Bytes}
    {entries : TreeEntries} (h : names.mapM f = .ok entries) : entries.map Prod.fst = names := by
  rw [map_of_mapM (h := fun name => name) h fun name _ entry hentry => hf name entry hentry,
    List.map_id']

/-- **In a store, `_replace_tree` gives the same id**, and the store then has the tree. -/
theorem replaceTree_stored (lib : Library)
    (hkeys : ∀ path ∈ replacements.keys, ∀ name ∈ path, (47 : UInt8) ∉ name) :
    ∀ {depth : Nat} {pre : List Bytes} {tree entries : TreeEntries} {st : ObjectStore},
    store.Within st → st.Addressed lib ids →
      rebuild ids replacements store depth pre tree = .ok entries →
      ∃ st', replaceTree ids true replacements depth pre tree st = .ok (ids.treeId entries, st') ∧
        st.Within st' ∧
        st'.Addressed lib ids ∧ (st'.lookup (ids.treeId entries)).isSome = true ∧
        Rebuilt ids replacements st' depth pre tree entries ∧
          (GitNames tree → st.GitNamed → st'.GitNamed)
  | 0, pre, tree, entries, st, _, _, h => by cases h
  | depth + 1, pre, tree, entries, st, hst, haddressed, h => by
    rw [rebuild] at h
    have hstep : ∀ built st₁ name entry,
      (store.Within st₁ ∧ st₁.Addressed lib ids ∧ (st.GitNamed → st₁.GitNamed)) →
        rebuiltEntry ids replacements store (rebuild ids replacements store depth) pre tree name =
          .ok entry →
        ∃ st₂, replaceStep ids replacements true depth pre tree (built, st₁) name =
          .ok (built ++ [entry], st₂) ∧
          ObjectStore.Within st₁ st₂ ∧
            (store.Within st₂ ∧ st₂.Addressed lib ids ∧ (st.GitNamed → st₂.GitNamed)) ∧
          RebuiltEntry ids replacements st₂ (Rebuilt ids replacements st₂ depth) pre tree name
              (.some entry.2) := by
      intro built st₁ name entry hst₁ hentry
      obtain ⟨hname, hcases⟩ := rebuiltEntry_ok hentry
      obtain ⟨key, mode', sha'⟩ := entry
      simp only at hname hcases
      rw [hname, replaceStep]
      simp only [RebuiltEntry]
      rcases hcases with hvalue | ⟨hnone, mode, sha, hlookup, hcases⟩
      · rw [hvalue]
        exact ⟨st₁, rfl, .refl, hst₁, rfl⟩
      · rw [hnone]
        simp only [hlookup]
        rcases hcases with ⟨hchild, hvalue⟩ | ⟨hchild, child, below, hget, hbelow, hvalue⟩
        · cases hvalue
          refine ⟨st₁, ?_, .refl, hst₁, ?_⟩
          · simp only [orRaise, hchild, Py.ok_bind, Bool.false_eq_true, if_false]
            rfl
          · simp [hchild]
        · cases hvalue
          obtain ⟨st₂, hreplace, hwithin, haddressed₂, hsome, hrebuilt, hnamed⟩ :=
            replaceTree_stored lib hkeys hst₁.1 hst₁.2.1 hbelow
          have hnamed₂ : st.GitNamed → st₂.GitNamed := fun h =>
            hnamed ((hst₁.2.2 h).get (hst₁.1.get hget)) (hst₁.2.2 h)
          refine ⟨st₂, ?_, hwithin, ⟨hst₁.1.trans hwithin, haddressed₂, hnamed₂⟩, ?_⟩
          · simp only [orRaise, hchild, if_true, Py.ok_bind, hst₁.1.get hget, hreplace]
            rfl
          · rw [if_pos hchild]
            exact ⟨mode', sha, child, below, rfl, hwithin.get (hst₁.1.get hget), rfl, hsome,
              hrebuilt⟩
    obtain ⟨st₁, hfold, hwithin, ⟨-, haddressed₁, hnamed₁⟩, hentries⟩ := foldlM_grow
      (P := fun st name entry => RebuiltEntry ids replacements st
        (Rebuilt ids replacements st depth) pre tree name (.some entry.2))
      (fun st st' name entry hle hp => hp.mono hle fun _ _ _ => Rebuilt.mono hle) hstep [] st ⟨hst,
        haddressed, fun h => h⟩ h
    obtain ⟨hin, hout⟩ := mapM_lookup (fun name entry hentry => (rebuiltEntry_ok hentry).1)
      (replacedNames_nodup pre tree) h
    have hadd := ObjectStore.within_add st₁ (ids.treeId entries) (.tree entries)
    refine ⟨st₁.add (ids.treeId entries) (.tree entries), ?_, hwithin.trans hadd,
      haddressed₁.add (.tree entries), ObjectStore.lookup_add _ _ _, fun name => ?_,
        fun htree hnamed => (hnamed₁ hnamed).add _ fun other hother => ?_⟩
    · rw [replaceTree_succ, hfold]
      rfl
    · by_cases hname : name ∈ replacedNames replacements pre tree
      · obtain ⟨value, hvalue, hlookup⟩ := hin name hname
        rw [hlookup]
        exact (hentries name hname _ hvalue).mono hadd fun _ _ _ => Rebuilt.mono hadd
      · rw [hout name hname]
        exact RebuiltEntry.absent hname
    · cases hother
      rw [GitNames, mapM_names (fun name entry hentry => (rebuiltEntry_ok hentry).1) h]
      exact ⟨replacedNames_nodup pre tree, replacedNames_named hkeys htree⟩

/-! ## When a tree is built -/

/-- Every replaced path below `pre` is a file of the tree there. -/
def Resolves (store : ObjectStore) (replacements : Replacements) (pre : List Bytes)
    (tree : TreeEntries) : Prop :=
  ∀ rest, rest ≠ [] → pre ++ rest ∈ replacements.keys →
    ∃ mode sha, treeEntry store tree rest = .ok (mode, sha) ∧ isDirMode mode = false

/-- Every directory on the way to one of the paths has the name that any of the paths has at
that depth. -/
def SiblingNames (store : ObjectStore) (paths : List (List Bytes)) (pre : List Bytes)
    (tree : TreeEntries) : Prop :=
  ∀ rest, pre ++ rest ∈ paths → ∀ k < rest.length, ∀ path ∈ paths, ∀ name,
    path[pre.length + k]? = .some name →
    ∃ entry, treeEntry store tree (rest.take k ++ [name]) = .ok entry

section
variable {pre : List Bytes} {tree : TreeEntries} {name : Bytes}

/-- A name with replaced paths below it is a directory, -/
theorem Resolves.child (h : Resolves store replacements pre tree)
    (hchild : hasChildPaths replacements pre name = true) :
    ∃ mode sha child, tree.lookup name = .some (mode, sha) ∧ isDirMode mode = true ∧
      store.get sha = .ok (.tree child) ∧
      Resolves store replacements (pre ++ [name]) child := by
  have hdown : ∀ rest, rest ≠ [] → pre ++ name :: rest ∈ replacements.keys →
    ∃ mode sha child entryMode entrySha,
      tree.lookup name = .some (mode, sha) ∧ isDirMode mode = true ∧
        store.get sha = .ok (.tree child) ∧
        treeEntry store child rest = .ok (entryMode, entrySha) ∧ isDirMode entryMode = false := by
    intro rest hrest hmem
    obtain ⟨entryMode, entrySha, hentry, hfile⟩ := h (name :: rest) (List.cons_ne_nil _ _) hmem
    obtain ⟨mode, sha, child, hlookup, hdir, hget, hentry⟩ := (treeEntry_cons hrest).mp hentry
    exact ⟨mode, sha, child, entryMode, entrySha, hlookup, hdir, hget, hentry, hfile⟩
  obtain ⟨rest, hrest, hmem⟩ := hasChildPaths_iff.mp hchild
  obtain ⟨mode, sha, child, -, -, hlookup, hdir, hget, -, -⟩ := hdown rest hrest hmem
  refine ⟨mode, sha, child, hlookup, hdir, hget, fun rest hrest hmem => ?_⟩
  rw [List.append_assoc, List.singleton_append] at hmem
  obtain ⟨mode', sha', child', entryMode, entrySha, hlookup', -, hget', hentry, hfile⟩ :=
    hdown rest hrest hmem
  rw [hlookup] at hlookup'
  cases hlookup'
  rw [hget] at hget'
  cases hget'
  exact ⟨entryMode, entrySha, hentry, hfile⟩

/-- and no replaced path itself. -/
theorem Resolves.exclusive (h : Resolves store replacements pre tree)
    (hchild : hasChildPaths replacements pre name = true) :
    replacements.get? (pre ++ [name]) = .none := by
  rw [← Option.not_isSome_iff_eq_none, get?_isSome_iff]
  intro hmem
  obtain ⟨mode, sha, child, hlookup, hdir, -, -⟩ := h.child hchild
  obtain ⟨mode', sha', hentry, hfile⟩ := h [name] (List.cons_ne_nil _ _) hmem
  rw [treeEntry_single, hlookup] at hentry
  cases hentry
  rw [hdir] at hfile
  cases hfile

theorem mapM_ok_iff {f : Bytes → Py (Bytes × Nat × Text)} : ∀ {names : List Bytes},
    (∃ entries, names.mapM f = .ok entries) ↔ ∀ name ∈ names, ∃ entry, f name = .ok entry
  | [] => iff_of_true ⟨[], rfl⟩ fun name hname => absurd hname List.not_mem_nil
  | first :: names => by
    rw [List.forall_mem_cons, ← mapM_ok_iff]
    simp only [List.mapM_cons, Py.bind_eq_ok]
    constructor
    · intro h
      obtain ⟨entries, entry, hentry, rest, hrest, -⟩ := h
      exact ⟨⟨entry, hentry⟩, rest, hrest⟩
    · intro h
      obtain ⟨⟨entry, hentry⟩, rest, hrest⟩ := h
      exact ⟨entry :: rest, entry, hentry, rest, hrest, rfl⟩

/-- A name comes to an entry when the tree has it and what is below it is built. -/
theorem Resolves.entry (h : Resolves store replacements pre tree)
    {below : List Bytes → TreeEntries → Py TreeEntries} {value : Nat × Text}
    (hlookup : tree.lookup name = .some value)
    (hbelow : ∀ child, hasChildPaths replacements pre name = true →
    store.get value.2 = .ok (.tree child) →
      ∃ entries, below (pre ++ [name]) child = .ok entries) :
    ∃ entry, rebuiltEntry ids replacements store below pre tree name = .ok entry := by
  rw [rebuiltEntry]
  split
  next new _ => exact ⟨_, rfl⟩
  next hnone =>
    simp only [hlookup, orRaise, Py.ok_bind]
    by_cases hchild : hasChildPaths replacements pre name = true
    · obtain ⟨mode, sha, child, hlookup', -, hget, -⟩ := h.child hchild
      rw [hlookup] at hlookup'
      cases hlookup'
      obtain ⟨entries, hentries⟩ := hbelow child hchild hget
      simp only [if_pos hchild, hget, Py.ok_bind, hentries]
      exact ⟨_, rfl⟩
    · rw [if_neg hchild]
      exact ⟨_, rfl⟩

/-- The names of a directory below. -/
theorem SiblingNames.child (h : SiblingNames store replacements.keys pre tree) {value : Nat × Text}
    {child : TreeEntries} (hlookup : tree.lookup name = .some value)
    (hget : store.get value.2 = .ok (.tree child)) :
    SiblingNames store replacements.keys (pre ++ [name]) child := by
  intro rest hmem k hk path hpath other hother
  rw [List.append_assoc, List.singleton_append] at hmem
  have hlength : pre.length + (k + 1) = (pre ++ [name]).length + k := by
    rw [List.length_append, List.length_singleton]
    omega
  obtain ⟨entry, hentry⟩ := h (name :: rest) hmem (k + 1) (by rw [List.length_cons]; omega) path
    hpath other (by rw [hlength]; exact hother)
  rw [List.take_succ_cons, List.cons_append, treeEntry_cons (by simp)] at hentry
  obtain ⟨mode, sha, child', hlookup', -, hget', hentry⟩ := hentry
  rw [hlookup] at hlookup'
  cases hlookup'
  rw [hget] at hget'
  cases hget'
  exact ⟨entry, hentry⟩

end

/-- **When a tree is built**: exactly when the directories have the names. -/
theorem rebuild_iff : ∀ {depth : Nat} {pre : List Bytes} {tree : TreeEntries},
    Resolves store replacements pre tree →
    (∀ path ∈ replacements.keys, path.length ≤ pre.length + depth) →
    (∃ rest, rest ≠ [] ∧ pre ++ rest ∈ replacements.keys) →
      ((∃ entries, rebuild ids replacements store depth pre tree = .ok entries) ↔
        SiblingNames store replacements.keys pre tree)
  | 0, pre, tree, _, hdepth, hvisited => by
    obtain ⟨rest, hrest, hmem⟩ := hvisited
    have hlength := hdepth _ hmem
    have hpos := List.length_pos_of_ne_nil hrest
    rw [List.length_append] at hlength
    omega
  | depth + 1, pre, tree, hresolves, hdepth, hvisited => by
    have hdepth' : ∀ name, ∀ path ∈ replacements.keys, path.length ≤ (pre ++ [name]).length +
        depth := by
      intro name path hpath
      have hlength := hdepth path hpath
      rw [List.length_append, List.length_singleton]
      omega
    have hbelow : ∀ name, hasChildPaths replacements pre name = true → ∃ rest, rest ≠ [] ∧
        pre ++ [name] ++ rest ∈ replacements.keys := by
      intro name hchild
      obtain ⟨rest, hrest, hmem⟩ := hasChildPaths_iff.mp hchild
      exact ⟨rest, hrest, by rw [List.append_assoc]; exact hmem⟩
    rw [rebuild, mapM_ok_iff]
    constructor
    · intro h rest hmem k hk path hpath name hname
      cases k with
      | zero =>
        obtain ⟨entry, hentry⟩ := h name (mem_replacedNames.mpr (.inr ⟨path, hpath, hname⟩))
        rw [List.take_zero, List.nil_append]
        obtain ⟨-, hdirect | ⟨-, mode, sha, hlookup, -⟩⟩ := rebuiltEntry_ok hentry
        · obtain ⟨mode, sha, hfile, -⟩ :=
            hresolves [name] (List.cons_ne_nil _ _) (get?_isSome_iff.mp (by rw [hdirect]; rfl))
          exact ⟨_, hfile⟩
        · exact ⟨_, treeEntry_single.mpr hlookup⟩
      | succ k =>
        cases rest with
        | nil => exact absurd hk (by simp)
        | cons first rest =>
          have hrest : rest ≠ [] := by
            intro hnil
            rw [hnil] at hk
            simp at hk
          have hchild : hasChildPaths replacements pre first = true :=
            hasChildPaths_iff.mpr ⟨rest, hrest, hmem⟩
          obtain ⟨mode, sha, child, hlookup, hdir, hget, hresolves'⟩ := hresolves.child hchild
          have hfirst : (pre ++ first :: rest)[pre.length]? = .some first := by
            rw [List.getElem?_append_right (Nat.le_refl _), Nat.sub_self]
            rfl
          obtain ⟨entry, hentry⟩ := h first (mem_replacedNames.mpr (.inr ⟨_, hmem, hfirst⟩))
          obtain ⟨-, hdirect | ⟨-, mode', sha', hlookup', hcases⟩⟩ := rebuiltEntry_ok hentry
          · rw [hresolves.exclusive hchild] at hdirect
            cases hdirect
          · rw [hlookup] at hlookup'
            cases hlookup'
            rcases hcases with ⟨hleaf, -⟩ | ⟨-, child', entries, hget', hentries, -⟩
            · rw [hchild] at hleaf
              cases hleaf
            · rw [hget] at hget'
              cases hget'
              have hnames := (rebuild_iff hresolves' (hdepth' first) (hbelow first hchild)).mp
                ⟨entries, hentries⟩
              have hlength : (pre ++ [first]).length + k = pre.length + (k + 1) := by
                rw [List.length_append, List.length_singleton]
                omega
              obtain ⟨found, hfound⟩ :=
                hnames rest (by rw [List.append_assoc]; exact hmem) k (by simpa using hk) path hpath
                name
                (by rw [hlength]; exact hname)
              refine ⟨found, ?_⟩
              rw [List.take_succ_cons, List.cons_append, treeEntry_cons (by simp)]
              exact ⟨mode, sha, child, hlookup, hdir, hget, hfound⟩
    · intro h name hname
      obtain ⟨value, hlookup⟩ : ∃ value, tree.lookup name = .some value := by
        rcases mem_replacedNames.mp hname with hsome | ⟨path, hpath, hat⟩
        · exact Option.isSome_iff_exists.mp hsome
        · obtain ⟨rest, hrest, hmem⟩ := hvisited
          obtain ⟨entry, hentry⟩ :=
            h rest hmem 0 (List.length_pos_of_ne_nil hrest) path hpath name hat
          rw [List.take_zero, List.nil_append, treeEntry_single] at hentry
          exact ⟨entry, hentry⟩
      refine hresolves.entry hlookup fun child hchild hget => ?_
      obtain ⟨mode, sha, child', hlookup', -, hget', hresolves'⟩ := hresolves.child hchild
      rw [hlookup] at hlookup'
      cases hlookup'
      rw [hget] at hget'
      cases hget'
      exact (rebuild_iff hresolves' (hdepth' name) (hbelow name hchild)).mpr (h.child hlookup hget)

/-! ## How it reads -/

theorem Resolves.mono {pre : List Bytes} {tree : TreeEntries}
    (h : Resolves store replacements pre tree) (hstore : store.Within store') :
    Resolves store' replacements pre tree := by
  intro rest hrest hmem
  obtain ⟨mode, sha, hentry, hfile⟩ := h rest hrest hmem
  exact ⟨mode, sha, hstore.treeEntry hentry, hfile⟩

/-- The tree `entries` has the replacements, and at every other path what `tree` has there. The
directories on the way to a replaced path are those whose entries change. -/
def ReadsReplaced (store : ObjectStore) (replacements : Replacements) (pre : List Bytes)
    (tree entries : TreeEntries) : Prop :=
  ∀ parts, parts ≠ [] → (∀ rest, rest ≠ [] → pre ++ parts ++ rest ∉ replacements.keys) →
    (∀ value, replacements.get? (pre ++ parts) = .some value →
      treeEntry store entries parts = .ok value) ∧
      (replacements.get? (pre ++ parts) = .none →
        treeEntry store entries parts = treeEntry store tree parts)

/-- **A rebuilt tree reads as the old one with the replacements.** -/
theorem Rebuilt.reads (hlaws : ids.Lawful lib) (haddressed : store.Addressed lib ids)
    (hmodes : ∀ path value, replacements.get? path = .some value → isDirMode value.1 = false) :
    ∀ {depth : Nat} {pre : List Bytes} {tree entries : TreeEntries},
      Resolves store replacements pre tree →
      Rebuilt ids replacements store depth pre tree entries →
        ReadsReplaced store replacements pre tree entries
  | 0, pre, tree, entries, _, h => h.elim
  | depth + 1, pre, tree, entries, hresolves, h => by
    intro parts hparts hbelow
    cases parts with
    | nil => exact absurd rfl hparts
    | cons name rest =>
      have hentry := h name
      rw [RebuiltEntry] at hentry
      by_cases hchild : hasChildPaths replacements pre name = true
      case pos =>
        -- a directory on the way to a replaced path
        rw [hresolves.exclusive hchild] at hentry
        simp only [if_pos hchild] at hentry
        obtain ⟨mode, sha, child, below, hlookup, hget, hnew, hsome, hrebuilt⟩ := hentry
        obtain ⟨mode', sha', child', hlookup', hdir, hget', hresolves'⟩ := hresolves.child hchild
        rw [hlookup] at hlookup'
        cases hlookup'
        rw [hget] at hget'
        cases hget'
        obtain ⟨other, hother, hsame⟩ := hlaws.get_tree haddressed hsome
        have hrest : rest ≠ [] := by
          intro hnil
          obtain ⟨more, hmore, hmem⟩ := hasChildPaths_iff.mp hchild
          refine hbelow more hmore ?_
          rw [hnil, List.append_assoc]
          exact hmem
        have hpath : pre ++ name :: rest = pre ++ [name] ++ rest := by simp
        have hreads := Rebuilt.reads hlaws haddressed hmodes hresolves' hrebuilt rest hrest
          (by rw [← hpath]; exact hbelow)
        have hcongr : treeEntry store other rest = treeEntry store below rest := by
          cases rest with
          | nil => exact absurd rfl hrest
          | cons next rest => exact treeEntry_congr (hsame next)
        rw [hpath, treeEntry_directory hnew hdir hother hrest,
          treeEntry_directory hlookup hdir hget hrest, hcongr]
        exact hreads
      case neg =>
        have hnone : rest ≠ [] → replacements.get? (pre ++ name :: rest) = .none := by
          intro hrest
          rw [← Option.not_isSome_iff_eq_none, get?_isSome_iff]
          exact fun hmem => hchild (hasChildPaths_iff.mpr ⟨rest, hrest, hmem⟩)
        cases hdirect : replacements.get? (pre ++ [name]) with
        | some value =>
          rw [hdirect] at hentry
          simp only at hentry
          by_cases hrest : rest = []
          · rw [hrest, hdirect]
            refine ⟨fun new hnew => ?_, fun hnew => by cases hnew⟩
            cases hnew
            exact treeEntry_single.mpr hentry
          · rw [hnone hrest]
            refine ⟨fun new hnew => (by cases hnew), fun _ => ?_⟩
            obtain ⟨mode, sha, hold, hfile⟩ :=
              hresolves [name] (List.cons_ne_nil _ _) (get?_isSome_iff.mp (by rw [hdirect]; rfl))
            rw [treeEntry_file hentry (hmodes _ _ hdirect) hrest,
              treeEntry_file (treeEntry_single.mp hold) hfile hrest]
        | none =>
          rw [hdirect] at hentry
          simp only [if_neg hchild] at hentry
          refine ⟨fun new hnew => ?_, fun _ => treeEntry_congr hentry⟩
          by_cases hrest : rest = []
          · rw [hrest, hdirect] at hnew
            cases hnew
          · rw [hnone hrest] at hnew
            cases hnew

end Novalton
