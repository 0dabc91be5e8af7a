/-
`apply` of `modules/git_changesets/local.py` as a whole: the refs, the index file and
the objects of a repository before and after it, when it returns, when it raises, and
when the process stops between the compare and set of the branch and the write of the
index.

`GitApply` has the parts; here they act on a repository whose HEAD is read from its
refs. What Dulwich does outside of the call's reach is a parameter: how an index is
serialised, and where setting the ref or writing the index fails.
-/
import Novalton.DryRunCommit
import Novalton.ReplaceText
import Novalton.TreeListing

namespace Novalton

/-! ## Refs -/

/-- A ref: the name of another one, or an object id. -/
inductive RefValue where
  | symbolic (target : Text)
  | direct (sha : Text)
deriving DecidableEq

abbrev Refs := Dict Text RefValue

/-- `refs.follow`, past `depth` refs a `KeyError`: the refs followed, and the id the last one has.
-/
def followRefs (refs : Refs) : Nat → Text → Option (List Text × Option Text)
  | 0, _ => .none
  | depth + 1, name =>
    match refs.lookup name with
    | .none => .some ([name], .none)
    | .some (.direct sha) => .some ([name], .some sha)
    | .some (.symbolic target) => (followRefs refs depth target).map fun followed =>
      (name :: followed.1, followed.2)

def headName : Text := "HEAD".toList

/-- `refs.set_if_equals`, of a direct ref; `none` where it finds another value and returns `False`.
-/
def setIfEquals (refs : Refs) (name old new : Text) : Option Refs :=
  if refs.lookup name = .some (.direct old) then .some (refs.set name (.direct new)) else .none

/-- A repository with its refs. -/
structure LocalState extends Repository where
  refs : Refs
  follows : follow = followRefs refs 5 headName

namespace LocalState

def withRefs (state : LocalState) (refs : Refs) : LocalState :=
  { state with refs := refs, follow := followRefs refs 5 headName, follows := rfl }

def withObjects (state : LocalState) (objects : ObjectStore) : LocalState :=
  { state with objects := objects }

def withIndex (state : LocalState) (index : IndexFile) : LocalState := { state with index := index }

variable {state : LocalState} {refs : Refs} {objects : ObjectStore} {index : IndexFile}

@[simp] theorem withRefs_refs : (state.withRefs refs).refs = refs := rfl
@[simp] theorem withRefs_index : (state.withRefs refs).index = state.index := rfl
@[simp] theorem withRefs_objects : (state.withRefs refs).objects = state.objects := rfl
@[simp] theorem withRefs_worktree : (state.withRefs refs).worktree = state.worktree := rfl
@[simp] theorem withObjects_refs : (state.withObjects objects).refs = state.refs := rfl
@[simp] theorem withObjects_index : (state.withObjects objects).index = state.index := rfl
@[simp] theorem withObjects_objects : (state.withObjects objects).objects = objects := rfl
@[simp] theorem withObjects_worktree : (state.withObjects objects).worktree = state.worktree := rfl
@[simp] theorem withIndex_refs : (state.withIndex index).refs = state.refs := rfl
@[simp] theorem withIndex_index : (state.withIndex index).index = index := rfl
@[simp] theorem withIndex_objects : (state.withIndex index).objects = state.objects := rfl
@[simp] theorem withIndex_worktree : (state.withIndex index).worktree = state.worktree := rfl

end LocalState

/-! ## The call -/

/-- How `index.write` serialises an index: a file of version 2 or 3, from which Dulwich
reads the entries back. -/
structure IndexWriter where
  serialize : GitIndex → Bytes
  long : ∀ index, 32 ≤ (serialize index).length
  signature : ∀ index, (serialize index).take 4 = encode "DIRC".toList
  version : ∀ index, [[0, 0, 0, 2], [0, 0, 0, 3]].contains (((serialize index).drop 4).take 4) =
    true

/-- The file `index.write` leaves. -/
def IndexWriter.file (writer : IndexWriter) (index : GitIndex) : IndexFile :=
  ⟨true, writer.serialize index, .some index⟩

/-- What `set_if_equals` does: its work, or nothing, for another process holds the ref or
has changed it. -/
inductive Swapping where
  | works
  | refused
  | raises (error : PyError)
deriving DecidableEq

/-- Where a call fails on what is not its own. `written` are the objects a call that
raises before its commit is complete has added by then. -/
structure ApplyFaults where
  written : ObjectStore
  swapping : Swapping
  index : Option PyError

/-- How a call ends: what it returns or raises, the repository, and whether it has set the branch.
-/
structure Applied where
  result : Py Text
  state : LocalState
  swapped : Bool

/-- `index[relative] = IndexEntry(…)` for each of the entries. -/
def GitIndex.update (index : GitIndex) (entries : List (Bytes × IndexEntry)) : GitIndex :=
  { index with entries :=
    entries.foldl (fun acc entry => Dict.set acc entry.1 entry.2) index.entries }

section
variable (lib : Library) (ids : ObjectIds) (writer : IndexWriter)

/-- `_write_index_entries`, and the `return` after it. -/
def writeIndexEntries (faults : ApplyFaults) (state : LocalState) (index : GitIndex)
    (replacements : Replacements) (sha : Text) (swapped : Bool) : Applied :=
  match indexEntries lib state.worktree replacements with
  | .error e => ⟨.error e, state, swapped⟩
  | .ok entries =>
    match faults.index with
    | .some e => ⟨.error e, state, swapped⟩
    | .none => ⟨.ok sha, state.withIndex (writer.file (index.update entries)), swapped⟩

/-- The compare and set of the branch, and what follows it. -/
def swapBranch (faults : ApplyFaults) (state : LocalState) (index : GitIndex)
    (branch head sha : Text) (replacements : Replacements) : Applied :=
  match faults.swapping with
  | .raises e => ⟨.error e, state, false⟩
  | .refused => ⟨.error (.tool "git_stale_head"), state, false⟩
  | .works =>
    match setIfEquals state.refs branch head sha with
    | .none => ⟨.error (.tool "git_stale_head"), state, false⟩
    | .some refs =>
      writeIndexEntries lib writer faults (state.withRefs refs) index replacements sha true

/-- `apply`, when nothing raises before the branch is to be set or the index written. -/
def applyFrom (faults : ApplyFaults) (state : LocalState) (data : ApplyArguments) : Py Applied := do
  let (branch, head) ← openRepo lib state.toRepository
  let applying ← applyChecked lib ids state.toRepository data
  let (index, _) ← readIndex lib state.toRepository
  match applying with
  | .recovered recovered =>
    return writeIndexEntries lib writer faults state index recovered data.expectedCommit false
  | .commit commit store replacements =>
    return swapBranch lib writer faults (state.withObjects store) index branch head
      (ids.commitId commit) replacements

/-- `apply`. -/
def LocalState.apply (faults : ApplyFaults) (state : LocalState) (data : ApplyArguments) :
    Applied :=
  match applyFrom lib ids writer faults state data with
  | .ok applied => applied
  | .error e => ⟨.error e, state.withObjects (state.objects ++ faults.written), false⟩

end

/-! ## Loops -/

/-- What a loop keeps from the items it has done to one more, it has of all when it ends. -/
theorem foldlM_inv {α β : Type} {f : β → α → Py β} (I : List α → β → Prop)
    (step : ∀ done a b b', I done b → f b a = .ok b' → I (done ++ [a]) b') :
    ∀ {items done : List α} {b r : β}, items.foldlM f b = .ok r → I done b → I (done ++ items) r
  | [], done, b, r, h, hb => by
    cases h
    rw [List.append_nil]
    exact hb
  | a :: items, done, b, r, h, hb => by
    rw [List.foldlM_cons, Py.bind_eq_ok] at h
    obtain ⟨b', hstep, hrest⟩ := h
    have hall := foldlM_inv I step hrest (step done a b b' hb hstep)
    rwa [List.append_assoc, List.singleton_append] at hall

theorem foldlM_all {α β : Type} {f : β → α → Py β} (I : List α → β → Prop)
    (step : ∀ done a b b', I done b → f b a = .ok b' → I (done ++ [a]) b') {items : List α}
    {b r : β} (h : items.foldlM f b = .ok r) (hb : I [] b) : I items r := foldlM_inv I step h hb

theorem lookup_set {α β : Type} [DecidableEq α] [BEq α] [LawfulBEq α] (d : List (α × β))
    (key other : α) (value : β) :
    List.lookup other (Dict.set d key value) = if other = key then .some value
      else d.lookup other := by
  induction d with
  | nil =>
    by_cases h : other = key
    · simp [Dict.set, h]
    · have hb : (other == key) = false := by simpa using h
      simp [Dict.set, List.lookup_cons, hb, h]
  | cons entry d ih =>
    obtain ⟨k, v⟩ := entry
    rw [Dict.set]
    by_cases hkey : k = key
    · rw [if_pos hkey, List.lookup_cons, List.lookup_cons]
      by_cases h : other = key
      · have hb : (other == k) = true := by simpa [hkey] using h
        rw [hb, if_pos h]
      · have hb : (other == k) = false := by simpa [hkey] using h
        simp [hb, h]
    · rw [if_neg hkey, List.lookup_cons, List.lookup_cons, ih]
      by_cases h : other = k
      · have hb : (other == k) = true := by simpa using h
        have hne : ¬ other = key := fun heq => hkey (h.symm.trans heq)
        simp [hb, hne]
      · have hb : (other == k) = false := by simpa using h
        simp [hb]

/-- Setting what is there changes nothing. -/
theorem set_of_lookup {α β : Type} [DecidableEq α] [BEq α] [LawfulBEq α] {d : List (α × β)}
    {key : α} {value : β} (h : d.lookup key = .some value) :
    Dict.set d key value = d := by
  induction d with
  | nil => cases h
  | cons entry d ih =>
    obtain ⟨k, v⟩ := entry
    rw [List.lookup_cons] at h
    rw [Dict.set]
    by_cases hkey : k = key
    · have hb : (key == k) = true := by simpa using hkey.symm
      rw [hb] at h
      rw [if_pos hkey, Option.some.inj h]
    · have hb : (key == k) = false := by simpa using fun heq => hkey heq.symm
      rw [hb] at h
      rw [if_neg hkey, ih h]

theorem lookup_of_nodup {α β : Type} [BEq α] [LawfulBEq α] {d : List (α × β)}
    (hnodup : (d.map Prod.fst).Nodup) {entry : α × β} (hmem : entry ∈ d) :
    d.lookup entry.1 = .some entry.2 := by
  induction d with
  | nil => cases hmem
  | cons first d ih =>
    obtain ⟨hfresh, hnodup⟩ := List.nodup_cons.mp hnodup
    rw [List.lookup_cons]
    rcases List.mem_cons.mp hmem with heq | hmem
    · rw [heq, beq_self_eq_true]
    · have hne : entry.1 ≠ first.1 := fun heq => hfresh (heq ▸ List.mem_map.mpr ⟨entry, hmem, rfl⟩)
      rw [beq_eq_false_iff_ne.mpr hne]
      exact ih hnodup hmem

/-- A dictionary that was set from entries of distinct keys has each of them, and what it had
elsewhere. -/
theorem lookup_foldl_set {α β : Type} [DecidableEq α] [BEq α] [LawfulBEq α] :
    ∀ {entries : List (α × β)} (d : List (α × β)) (key : α),
    (entries.map Prod.fst).Nodup →
    List.lookup key (entries.foldl (fun acc entry => Dict.set acc entry.1 entry.2) d) =
      (entries.lookup key).or (d.lookup key)
  | [], _, _, _ => rfl
  | entry :: entries, d, key, hnodup => by
    obtain ⟨hfresh, hnodup⟩ := List.nodup_cons.mp hnodup
    rw [List.foldl_cons, lookup_foldl_set _ key hnodup, lookup_set, List.lookup_cons]
    by_cases h : key = entry.1
    · have hnone : entries.lookup key = .none := by
        rw [List.lookup_eq_none_iff]
        intro other hother
        have hne : key ≠ other.1 :=
          fun heq => hfresh (List.mem_map.mpr ⟨other, hother, heq.symm.trans h⟩)
        simpa using hne
      have hb : (key == entry.1) = true := by simpa using h
      rw [hnone, hb, if_pos h]
      rfl
    · have hb : (key == entry.1) = false := by simpa using h
      rw [hb, if_neg h]

/-- Setting the same entries again changes nothing. -/
theorem foldl_set_again {α β : Type} [DecidableEq α] [BEq α] [LawfulBEq α] {d : List (α × β)} :
    ∀ {entries : List (α × β)},
    (∀ entry ∈ entries, d.lookup entry.1 = .some entry.2) →
    entries.foldl (fun acc entry => Dict.set acc entry.1 entry.2) d = d
  | [], _ => rfl
  | entry :: entries, h => by
    rw [List.foldl_cons, set_of_lookup (h entry List.mem_cons_self)]
    exact foldl_set_again fun other hother => h other (List.mem_cons_of_mem entry hother)

/-! ## The tree that was written -/

section
variable {lib : Library} {ids : ObjectIds} {replacements : Replacements}

/-- What the loop of `_replace_tree` has done when it has not raised. -/
theorem replaceStep_ok {depth : Nat} {pre : List Bytes} {tree entries : TreeEntries}
    {store : ObjectStore} {name : Bytes} {acc : TreeEntries × ObjectStore}
    (h : replaceStep ids replacements true depth pre tree (entries, store) name = .ok acc) :
    ∃ value store', acc = (entries ++ [(name, value)], store') ∧
      (replacements.get? (pre ++ [name]) = .some value ∧ store' = store ∨
        replacements.get? (pre ++ [name]) = .none ∧ ∃ mode sha, tree.lookup name = .some
          (mode, sha) ∧
          (hasChildPaths replacements pre name = false ∧ value = (mode, sha) ∧ store' = store ∨
            hasChildPaths replacements pre name = true ∧ ∃ child id, store.get sha = .ok
              (.tree child) ∧
              replaceTree ids true replacements depth (pre ++ [name]) child store = .ok
                (id, store') ∧ value = (mode, id))) := by
  rw [replaceStep] at h
  split at h
  next mode sha hvalue =>
    cases h
    exact ⟨(mode, sha), store, rfl, .inl ⟨hvalue, rfl⟩⟩
  next hnone =>
    simp only [Py.bind_eq_ok, orRaise_eq_ok] at h
    obtain ⟨⟨mode, sha⟩, hlookup, h⟩ := h
    split at h
    next hchild =>
      simp only [Py.bind_eq_ok] at h
      obtain ⟨object, hobject, h⟩ := h
      split at h
      next child =>
        simp only [Py.bind_eq_ok] at h
        obtain ⟨⟨id, store'⟩, hreplace, h⟩ := h
        cases h
        exact ⟨(mode, id), store', rfl,
          .inr ⟨hnone, mode, sha, hlookup, .inr ⟨hchild, child, id, hobject, hreplace, rfl⟩⟩⟩
      next => cases h
    next hchild =>
      cases h
      exact ⟨(mode, sha), store, rfl,
        .inr ⟨hnone, mode, sha, hlookup, .inl ⟨by simpa using hchild, rfl, rfl⟩⟩⟩

/-- **A tree that was written is rebuilt** from the one it replaces. -/
theorem replaceTree_rebuilt :
    ∀ {depth : Nat} {pre : List Bytes} {tree : TreeEntries} {store store' : ObjectStore} {id :
    Text},
    store.Addressed lib ids → replaceTree ids true replacements depth pre tree store = .ok
      (id, store') →
    ∃ entries, id = ids.treeId entries ∧ store.Within store' ∧ store'.Addressed lib ids ∧
      (store'.lookup id).isSome = true ∧
      Rebuilt ids replacements store' depth pre tree entries
  | 0, _, _, _, _, _, _, h => by cases h
  | depth + 1, pre, tree, store, store', id, haddressed, h => by
    rw [replaceTree_succ, Py.bind_eq_ok] at h
    obtain ⟨⟨entries, built⟩, hfold, h⟩ := h
    cases h
    have hstep : ∀ (done : List Bytes) (name : Bytes) (b b' : TreeEntries × ObjectStore),
        (store.Within b.2 ∧ b.2.Addressed lib ids ∧ b.1.map Prod.fst = done ∧ ∀ entry ∈ b.1,
          RebuiltEntry ids replacements b.2 (Rebuilt ids replacements b.2 depth) pre tree entry.1
            (.some entry.2)) →
        replaceStep ids replacements true depth pre tree b name = .ok b' →
        store.Within b'.2 ∧ b'.2.Addressed lib ids ∧ b'.1.map Prod.fst = done ++ [name] ∧
          ∀ entry ∈ b'.1,
          RebuiltEntry ids replacements b'.2 (Rebuilt ids replacements b'.2 depth) pre tree entry.1
              (.some entry.2) := by
      intro done name b b' hb h
      obtain ⟨hwithin, haddressed, hnames, hentries⟩ := hb
      obtain ⟨value, st, rfl, hcases⟩ := replaceStep_ok h
      have hnew : b.2.Within st ∧ st.Addressed lib ids ∧
          RebuiltEntry ids replacements st (Rebuilt ids replacements st depth) pre tree name
              (.some value) := by
        rw [RebuiltEntry]
        rcases hcases with ⟨hvalue, rfl⟩ |
          ⟨hnone, mode, sha, hlookup, ⟨hchild, rfl, rfl⟩ | ⟨hchild, child, id, hget, hreplace, rfl⟩⟩
        · rw [hvalue]
          exact ⟨.refl, haddressed, rfl⟩
        · rw [hnone, hchild, hlookup]
          exact ⟨.refl, haddressed, rfl⟩
        · obtain ⟨below, rfl, hgrow, haddressed, hsome, hrebuilt⟩ :=
            replaceTree_rebuilt haddressed hreplace
          rw [hnone, hchild, hlookup]
          exact ⟨hgrow, haddressed, mode, sha, child, below, rfl, hgrow.get hget, rfl, hsome,
            hrebuilt⟩
      obtain ⟨hgrow, haddressed, hvalue⟩ := hnew
      refine ⟨hwithin.trans hgrow, haddressed, by rw [List.map_append, hnames]; rfl, ?_⟩
      intro entry hentry
      rcases List.mem_append.mp hentry with hentry | hentry
      · exact (hentries entry hentry).mono hgrow fun _ _ _ => Rebuilt.mono hgrow
      · rw [List.mem_singleton.mp hentry]
        exact hvalue
    obtain ⟨hwithin, haddressed, hnames, hentries⟩ := foldlM_all (fun done b =>
      store.Within b.2 ∧ b.2.Addressed lib ids ∧ b.1.map Prod.fst = done ∧ ∀ entry ∈ b.1,
        RebuiltEntry ids replacements b.2 (Rebuilt ids replacements b.2 depth) pre tree entry.1
          (.some entry.2))
      hstep hfold ⟨.refl, haddressed, rfl, fun entry hentry => by cases hentry⟩
    have hadd := ObjectStore.within_add built (ids.treeId entries) (.tree entries)
    simp only [if_true]
    refine ⟨entries, rfl, hwithin.trans hadd, haddressed.add (.tree entries),
      ObjectStore.lookup_add _ _ _, fun name => ?_⟩
    have hnodup : (entries.map Prod.fst).Nodup := by
      rw [hnames]
      exact replacedNames_nodup pre tree
    by_cases hname : name ∈ replacedNames replacements pre tree
    · rw [← hnames] at hname
      obtain ⟨entry, hentry, rfl⟩ := List.mem_map.mp hname
      rw [lookup_of_nodup hnodup hentry]
      exact (hentries entry hentry).mono hadd fun _ _ _ => Rebuilt.mono hadd
    · have hnone : entries.lookup name = .none := by
        rw [← Option.not_isSome_iff_eq_none, lookup_isSome_iff, hnames]
        exact hname
      rw [hnone]
      exact RebuiltEntry.absent hname

end

/-! ## What the checks establish -/

section
variable {lib : Library} {ids : ObjectIds} {repo : Repository} {worktree : Node}

/-- What `prepare` gives a path: the mode of a regular file, and the id of a blob with the
candidate's hash. -/
structure PreparedPath.Given (lib : Library) (item : PreparedPath) : Prop where
  regular : item.mode ∈ regularModes
  candidate : ∃ content, lib.sha256 content = item.candidateSha256 ∧
    item.candidateBlobId = lib.blobId content

theorem given_of_prepare {candidates : List Candidate} {preparation : LocalPreparation}
    (h : GitLocal.prepare lib repo candidates = .ok preparation) : ∀ item ∈ preparation.paths,
    item.Given lib := by
  obtain ⟨tree, index, hread, -⟩ := prepare_read h
  intro item hitem
  have hfound := hread.paths item hitem
  obtain ⟨raw, -, hsha, hblob⟩ := hfound.candidate
  exact ⟨hfound.regular, raw, hsha, hblob⟩

/-- The worktree has the candidate at a path. -/
def HasCandidate (lib : Library) (worktree : Node) (item : PreparedPath) : Prop :=
  ∃ raw, readWorktree lib worktree item.path item.mode = .ok raw ∧
    lib.sha256 raw = item.candidateSha256 ∧
    item.candidateBlobId = lib.blobId raw

theorem PreparedPath.Given.hasCandidate {item : PreparedPath} (h : item.Given lib)
    (hsha : Function.Injective lib.sha256) {raw : Bytes}
    (hraw : readWorktree lib worktree item.path item.mode = .ok raw)
    (hsame : lib.sha256 raw = item.candidateSha256) :
    HasCandidate lib worktree item := by
  obtain ⟨content, hcontent, hblob⟩ := h.candidate
  have heq : content = raw := hsha (hcontent.trans hsame.symm)
  exact ⟨raw, hraw, hsame, by rw [hblob, heq]⟩

/-- A path is read with one mode, and one content. -/
theorem readWorktree_unique {path : Text} {mode mode' : Nat} {raw raw' : Bytes}
    (h : readWorktree lib worktree path mode = .ok raw)
    (h' : readWorktree lib worktree path mode' = .ok raw') : mode = mode' ∧ raw = raw' := by
  simp only [readWorktree, Py.bind_eq_ok, raiseIf_eq_ok, orRaise_eq_ok] at h h'
  obtain ⟨-, -, parts, hparts, ⟨perm, data⟩, hread, -, hmode, h⟩ := h
  obtain ⟨-, -, parts', hparts', ⟨perm', data'⟩, hread', -, hmode', h'⟩ := h'
  rw [hparts] at hparts'
  cases hparts'
  rw [hread] at hread'
  cases hread'
  cases h
  cases h'
  simp only [Bool.or_eq_false_iff, bne_eq_false_iff_eq] at hmode hmode'
  exact ⟨hmode.1.1.symm.trans hmode'.1.1, rfl⟩

theorem preparedReplacements_append (items : List PreparedPath) (item : PreparedPath) :
    preparedReplacements (items ++ [item]) = (preparedReplacements items).set (pathKey item.path)
      (item.mode, item.candidateBlobId) := by
  rw [preparedReplacements, List.foldl_append]
  rfl

theorem preparedReplacements_nodup (paths : List PreparedPath) :
    ((preparedReplacements paths).map Prod.fst).Nodup := by
  induction paths using List.reverseRecOn with
  | nil => exact List.nodup_nil
  | append_singleton paths item ih =>
    rw [preparedReplacements_append]
    exact set_keys_nodup ih _ _

/-- Where the worktree has the candidates, each path is replaced by its own. -/
theorem replacement_of_candidates {paths : List PreparedPath}
    (h : ∀ item ∈ paths, HasCandidate lib worktree item) :
    ∀ item ∈ paths, (preparedReplacements paths).get? (pathKey item.path) = .some
      (item.mode, item.candidateBlobId) := by
  intro item hitem
  have hmem : pathKey item.path ∈ (preparedReplacements paths).keys :=
    mem_preparedReplacements.mpr (List.mem_map.mpr ⟨item, hitem, rfl⟩)
  obtain ⟨value, hvalue⟩ := Option.isSome_iff_exists.mp (get?_isSome_iff.mpr hmem)
  obtain ⟨other, hother, hkey, hotherValue⟩ := preparedReplacements_item hvalue
  obtain ⟨raw, hraw, -, hblob⟩ := h item hitem
  obtain ⟨raw', hraw', -, hblob'⟩ := h other hother
  rw [pathKey_inj hkey] at hraw'
  obtain ⟨hmode, heq⟩ := readWorktree_unique hraw hraw'
  rw [hvalue, hotherValue, hblob, hblob', hmode, heq]

/-- The loop that collects the replacements. -/
theorem replacePaths_ok {index : GitIndex} {tree : TreeEntries} {items : List PreparedPath}
    {replacements : Replacements} {store : ObjectStore} (hsha : Function.Injective lib.sha256)
    (hlaws : ids.Faithful lib) (hitems : ∀ item ∈ items, item.Given lib)
    (haddressed : repo.objects.Addressed lib ids)
    (h : items.foldlM (replacePath lib repo index tree) ([], repo.objects) =
    .ok (replacements, store)) :
    replacements = preparedReplacements items ∧ repo.objects.Within store ∧
      store.Addressed lib ids ∧
      ∀ item ∈ items, HasCandidate lib repo.worktree item ∧
        treeEntry store tree (pathKey item.path) = .ok (item.mode, item.headBlobId) ∧
        ∃ raw, readWorktree lib repo.worktree item.path item.mode = .ok raw ∧
          store.get item.candidateBlobId = .ok (.blob raw) := by
  have hall := foldlM_all (fun done acc => (∀ item ∈ done, item.Given lib) →
    acc.1 = preparedReplacements done ∧ repo.objects.Within acc.2 ∧ acc.2.Addressed lib ids ∧
      ∀ item ∈ done, HasCandidate lib repo.worktree item ∧
        treeEntry acc.2 tree (pathKey item.path) = .ok (item.mode, item.headBlobId) ∧
        ∃ raw, readWorktree lib repo.worktree item.path item.mode = .ok raw ∧
          acc.2.get item.candidateBlobId = .ok (.blob raw))
    ?_ h (fun _ => ⟨rfl, .refl, haddressed, fun item hitem => by cases hitem⟩)
  · exact hall hitems
  · intro done item acc acc' hdone hstep hgiven
    obtain ⟨hreplacements, hwithin, haddressed, hitems⟩ :=
      hdone fun other hother => hgiven other (List.mem_append_left _ hother)
    simp only [replacePath, Py.bind_eq_ok, raiseIf_eq_ok] at hstep
    obtain ⟨⟨oldMode, oldBlobId⟩, hentry, -, hold, -, -, raw, hraw, -, hsame, hstep⟩ := hstep
    cases hstep
    simp only [Bool.or_eq_false_iff, bne_eq_false_iff_eq] at hold
    obtain ⟨rfl, rfl⟩ := hold
    have hitem := (hgiven item (List.mem_append_right _ List.mem_cons_self)).hasCandidate hsha hraw
      (by simpa using hsame)
    obtain ⟨raw', hraw', hsame', hblob⟩ := hitem
    obtain ⟨-, heq⟩ := readWorktree_unique hraw hraw'
    rw [← heq] at hblob hsame'
    have hadd := ObjectStore.within_add acc.2 (lib.blobId raw) (.blob raw)
    have haddressed' : (acc.2.add (lib.blobId raw) (.blob raw)).Addressed lib ids :=
      haddressed.add (.blob raw)
    have hstored : (acc.2.add (lib.blobId raw) (.blob raw)).get item.candidateBlobId =
        .ok (.blob raw) := by
      obtain ⟨object, hobject⟩ :=
        Option.isSome_iff_exists.mp (ObjectStore.lookup_add acc.2 (lib.blobId raw) (.blob raw))
      rw [hlaws.blob raw object (haddressed' _ _ hobject)] at hobject
      rw [hblob]
      exact ObjectStore.get_ok.mpr hobject
    refine ⟨?_, hwithin.trans hadd, haddressed', ?_⟩
    · show Dict.set acc.1 _ _ = _
      rw [preparedReplacements_append, hreplacements, hblob]
    · intro other hother
      rcases List.mem_append.mp hother with hother | hother
      · obtain ⟨hcandidate, hotherEntry, otherRaw, hotherRaw, hget⟩ := hitems other hother
        exact ⟨hcandidate, hadd.treeEntry hotherEntry, otherRaw, hotherRaw, hadd.get hget⟩
      · rw [List.mem_singleton.mp hother]
        exact ⟨⟨raw, hraw, hsame', hblob⟩, hadd.treeEntry hentry, raw, hraw, hstored⟩

/-- The loop of a recovery, -/
theorem recoverPaths_ok {items : List PreparedPath} {recovered : Replacements}
    (hsha : Function.Injective lib.sha256) (hitems : ∀ item ∈ items, item.Given lib)
    (h : items.foldlM (recoverPath lib repo) [] = .ok recovered) :
    recovered = preparedReplacements items ∧ ∀ item ∈ items,
      HasCandidate lib repo.worktree item := by
  have hall := foldlM_all (fun done acc => (∀ item ∈ done, item.Given lib) →
    acc = preparedReplacements done ∧ ∀ item ∈ done, HasCandidate lib repo.worktree item) ?_ h
    (fun _ => ⟨rfl, fun item hitem => by cases hitem⟩)
  · exact hall hitems
  · intro done item acc acc' hdone hstep hgiven
    obtain ⟨hrecovered, hitems⟩ :=
      hdone fun other hother => hgiven other (List.mem_append_left _ hother)
    simp only [recoverPath, Py.bind_eq_ok, raiseIf_eq_ok] at hstep
    obtain ⟨raw, hraw, -, hsame, candidate, -, -, -, hstep⟩ := hstep
    cases hstep
    refine ⟨by rw [preparedReplacements_append, hrecovered], ?_⟩
    intro other hother
    rcases List.mem_append.mp hother with hother | hother
    · exact hitems other hother
    · rw [List.mem_singleton.mp hother]
      exact (hgiven item (List.mem_append_right _ List.mem_cons_self)).hasCandidate hsha hraw
        (by simpa using hsame)

/-- and when it does not raise. -/
theorem recoverPaths_of_stored {items : List PreparedPath} : ∀ (acc : Replacements),
    (∀ item ∈ items, HasCandidate lib repo.worktree item ∧
      ∃ raw, readWorktree lib repo.worktree item.path item.mode = .ok raw ∧
        repo.objects.get item.candidateBlobId = .ok (.blob raw)) →
    items.foldlM (recoverPath lib repo) acc =
      .ok (items.foldl (fun acc item =>
        acc.set (pathKey item.path) (item.mode, item.candidateBlobId)) acc) := by
  induction items with
  | nil => exact fun _ _ => rfl
  | cons item items ih =>
    intro acc h
    obtain ⟨⟨raw, hraw, hsame, -⟩, raw', hraw', hget⟩ := h item List.mem_cons_self
    rw [hraw] at hraw'
    cases hraw'
    have hstep : recoverPath lib repo acc item =
        .ok (acc.set (pathKey item.path) (item.mode, item.candidateBlobId)) := by
      simp only [recoverPath, hraw, hsame, hget, Py.ok_bind, bne_self_eq_false, raiseIf_false]
      rfl
    rw [List.foldlM_cons, hstep]
    exact ih _ fun other hother => h other (List.mem_cons_of_mem item hother)

/-! ## The index that is written -/

/-- What `index.write` changes of an index. -/
structure IndexApplied (before after : GitIndex) (paths : List PreparedPath) : Prop where
  prepared : ∀ item ∈ paths, after.entries.lookup (encode item.path) =
    .some ⟨item.candidateBlobId, item.mode, 0⟩
  unrelated : ∀ key, (∀ item ∈ paths, key ≠ encode item.path) →
    after.entries.lookup key = before.entries.lookup key
  flags : after = { before with entries := after.entries }

/-- The entry `_write_index_entries` makes of a replacement. -/
def indexEntryOf (entry : List Bytes × Nat × Text) : Bytes × IndexEntry :=
  (joinSlashBytes entry.1, ⟨entry.2.2, entry.2.1, 0⟩)

theorem indexEntries_eq {paths : List PreparedPath}
    (h : ∀ item ∈ paths, HasCandidate lib worktree item) :
    indexEntries lib worktree (preparedReplacements paths) = .ok
      ((preparedReplacements paths).map indexEntryOf) := by
  have hread : ∀ item ∈ paths, ∃ raw, readWorktree lib worktree item.path item.mode = .ok raw := by
    intro item hitem
    obtain ⟨raw, hraw, -⟩ := h item hitem
    exact ⟨raw, hraw⟩
  obtain ⟨written, hwritten⟩ := indexEntries_ok hread
  have hmap := map_of_mapM (g := id) (h := indexEntryOf) hwritten ?_
  · rw [hwritten, ← hmap, List.map_id]
  · intro entry _ value hvalue
    simp only [Py.bind_eq_ok] at hvalue
    obtain ⟨path, -, parts, -, hvalue⟩ := hvalue
    cases hvalue
    rfl

/-- The entries to write stand at distinct paths. -/
theorem indexEntryOf_nodup (paths : List PreparedPath) :
    (((preparedReplacements paths).map indexEntryOf).map Prod.fst).Nodup := by
  have hjoin : ((preparedReplacements paths).map indexEntryOf).map Prod.fst =
      ((preparedReplacements paths).map Prod.fst).map joinSlashBytes := by
    rw [List.map_map, List.map_map]
    rfl
  rw [hjoin]
  refine (preparedReplacements_nodup paths).map_on ?_
  intro key hkey key' hkey' heq
  obtain ⟨item, -, rfl⟩ := List.mem_map.mp (mem_preparedReplacements.mp hkey)
  obtain ⟨item', -, rfl⟩ := List.mem_map.mp (mem_preparedReplacements.mp hkey')
  rw [joinSlashBytes_pathKey, joinSlashBytes_pathKey] at heq
  rw [pathKey, heq]
  rfl

theorem update_applied {paths : List PreparedPath} (index : GitIndex)
    (h : ∀ item ∈ paths, HasCandidate lib worktree item) :
    IndexApplied index (index.update ((preparedReplacements paths).map indexEntryOf)) paths := by
  have hnodup := indexEntryOf_nodup paths
  refine ⟨fun item hitem => ?_, fun key hkey => ?_, rfl⟩
  · have hget := replacement_of_candidates h item hitem
    rw [Dict.get?, Option.map_eq_some_iff] at hget
    obtain ⟨⟨key, value⟩, hfind, hvalue⟩ := hget
    have hkey : key = pathKey item.path := by simpa using List.find?_some hfind
    have hmem : indexEntryOf (key, value) ∈ (preparedReplacements paths).map indexEntryOf :=
      List.mem_map.mpr ⟨_, List.mem_of_find?_eq_some hfind, rfl⟩
    have hlookup := lookup_of_nodup hnodup hmem
    have hfirst : (indexEntryOf (key, value)).1 = encode item.path := by
      rw [indexEntryOf, hkey, joinSlashBytes_pathKey]
    have hsecond : (indexEntryOf (key, value)).2 = ⟨item.candidateBlobId, item.mode, 0⟩ := by
      simp only at hvalue
      rw [indexEntryOf, hvalue]
    rw [hfirst, hsecond] at hlookup
    rw [GitIndex.update, lookup_foldl_set _ _ hnodup, hlookup]
    rfl
  · have hnone : ((preparedReplacements paths).map indexEntryOf).lookup key = .none := by
      rw [List.lookup_eq_none_iff]
      intro entry hentry
      obtain ⟨replacement, hreplacement, rfl⟩ := List.mem_map.mp hentry
      obtain ⟨item, hitem, hitemKey⟩ :=
        List.mem_map.mp (mem_preparedReplacements.mp (List.mem_map.mpr ⟨_, hreplacement, rfl⟩))
      have hfirst : (indexEntryOf replacement).1 = encode item.path := by
        rw [indexEntryOf, ← hitemKey, joinSlashBytes_pathKey]
      rw [hfirst]
      simpa using hkey item hitem
    rw [GitIndex.update, lookup_foldl_set _ _ hnodup, hnone]
    rfl

/-- Writing the same entries again changes nothing. -/
theorem update_again (index : GitIndex) (paths : List PreparedPath) :
    (index.update ((preparedReplacements paths).map indexEntryOf)).update
    ((preparedReplacements paths).map indexEntryOf) =
      index.update ((preparedReplacements paths).map indexEntryOf) := by
  have hnodup := indexEntryOf_nodup paths
  have hthere : ∀ entry ∈ (preparedReplacements paths).map indexEntryOf,
      (index.update ((preparedReplacements paths).map indexEntryOf)).entries.lookup entry.1 =
          .some entry.2 := by
    intro entry hentry
    rw [GitIndex.update, lookup_foldl_set _ _ hnodup, lookup_of_nodup hnodup hentry]
    rfl
  rw [GitIndex.update, foldl_set_again hthere]

end

/-! ## The commit that is made -/

section
variable {lib : Library} {ids : ObjectIds} {repo : Repository} {data : ApplyArguments}

/-- The store has the expected commit, over the expected head, with the prepared paths
replaced in its tree and nothing else. -/
def HasCommit (store : ObjectStore) (data : ApplyArguments) : Prop :=
  ∃ commit base tree new, store.get data.expectedCommit = .ok (.commit commit) ∧
    commit.parents = [data.expectedHead] ∧
    store.get data.expectedHead = .ok (.commit base) ∧ store.get base.tree = .ok (.tree tree) ∧
    store.get commit.tree = .ok (.tree new) ∧ Replaced store data.paths tree new

theorem applyCommit_made {commit : Commit} {store : ObjectStore} {entries : Replacements}
    (hsha : Function.Injective lib.sha256) (hlaws : ids.Faithful lib)
    (hitems : ∀ item ∈ data.paths, item.Given lib) (haddressed : repo.objects.Addressed lib ids)
    (h : applyCommit lib ids repo data.expectedHead data = .ok (.commit commit store entries)) :
    entries = preparedReplacements data.paths ∧ ids.commitId commit = data.expectedCommit ∧
      repo.objects.Within store ∧
      HasCommit store data ∧ ∀ item ∈ data.paths, HasCandidate lib repo.worktree item ∧
        ∃ raw, readWorktree lib repo.worktree item.path item.mode = .ok raw ∧
          store.get item.candidateBlobId = .ok (.blob raw) := by
  simp only [applyCommit, Py.bind_eq_ok, raiseIf_eq_ok] at h
  obtain ⟨⟨index, fingerprint⟩, -, -, -, object, hbase, h⟩ := h
  split at h
  next base =>
    simp only [Py.bind_eq_ok] at h
    obtain ⟨object, htree, h⟩ := h
    split at h
    next tree =>
      simp only [Py.bind_eq_ok, raiseIf_eq_ok] at h
      obtain ⟨⟨replacements, blobs⟩, hfold, ⟨newTree, trees⟩, hreplace, -, hid, h⟩ := h
      cases h
      obtain ⟨hreplacements, hblobs, hblobsAddressed, hpaths⟩ :=
        replacePaths_ok hsha hlaws hitems haddressed hfold
      cases hreplacements
      obtain ⟨built, rfl, htrees, htreesAddressed, hsome, hrebuilt⟩ :=
        replaceTree_rebuilt hblobsAddressed hreplace
      have hid : ids.commitId (changesetCommit (ids.treeId built) data.expectedHead data.message
        data.identity data.timestamp) =
          data.expectedCommit := by simpa using hid
      generalize hcommit : changesetCommit (ids.treeId built) data.expectedHead data.message
        data.identity data.timestamp = commit at hid
      have hadd := ObjectStore.within_add trees (ids.commitId commit) (.commit commit)
      have haddressed' : (trees.add (ids.commitId commit) (.commit commit)).Addressed lib ids :=
        htreesAddressed.add (.commit commit)
      have hlater := htrees.trans hadd
      have hgrow := hblobs.trans hlater
      have hstored : (trees.add (ids.commitId commit) (.commit commit)).get data.expectedCommit =
          .ok (.commit commit) := by
        obtain ⟨object, hobject⟩ :=
          Option.isSome_iff_exists.mp
          (ObjectStore.lookup_add trees (ids.commitId commit) (.commit commit))
        rw [hlaws.commit commit object (haddressed' _ _ hobject)] at hobject
        rw [← hid]
        exact ObjectStore.get_ok.mpr hobject
      have hcandidates : ∀ item ∈ data.paths, HasCandidate lib repo.worktree item :=
        fun item hitem => (hpaths item hitem).1
      have hmodes : ∀ item ∈ data.paths, isDirMode item.mode = false := by
        intro item hitem
        have hregular := (hitems item hitem).regular
        rw [regularModes, List.mem_cons, List.mem_singleton] at hregular
        rcases hregular with hmode | hmode <;> rw [hmode] <;> decide
      have hresolves : Resolves (trees.add (ids.commitId commit) (.commit commit))
          (preparedReplacements data.paths) [] tree := by
        intro rest _ hmem
        obtain ⟨item, hitem, rfl⟩ := List.mem_map.mp (mem_preparedReplacements.mp hmem)
        exact ⟨item.mode, item.headBlobId, hlater.treeEntry (hpaths item hitem).2.1,
          hmodes item hitem⟩
      have hreads := Rebuilt.reads hlaws.toLawful haddressed' (fun path value hvalue => by
        obtain ⟨item, hitem, -, rfl⟩ := preparedReplacements_item hvalue
        exact hmodes item hitem) hresolves (hrebuilt.mono hadd)
      obtain ⟨new, hnew, hsame⟩ := hlaws.toLawful.get_tree htreesAddressed hsome
      have htreeId : commit.tree = ids.treeId built := by rw [← hcommit]; rfl
      refine ⟨rfl, hid, hgrow, ⟨commit, base, tree, new, hstored,
        by rw [← hcommit]; rfl, hgrow.get hbase, hgrow.get htree, ?_, ?_⟩, ?_⟩
      · rw [htreeId]
        exact hadd.get hnew
      · refine replaced_of_reads (replacement_of_candidates hcandidates) hresolves
          fun parts hparts hbelow => ?_
        cases parts with
        | nil => exact absurd rfl hparts
        | cons name rest =>
          rw [treeEntry_congr (hsame name)]
          exact hreads (name :: rest) hparts hbelow
      · intro item hitem
        obtain ⟨hcandidate, -, raw, hraw, hget⟩ := hpaths item hitem
        exact ⟨hcandidate, raw, hraw, hlater.get hget⟩
    next => cases h
  next => cases h

end

/-! ## Opening the repository -/

section
variable {lib : Library} {state : LocalState} {branch head : Text}

theorem readIndex_ok {repo : Repository} {index : GitIndex} {fingerprint : Text}
    (h : readIndex lib repo = .ok (index, fingerprint)) :
    repo.index.parsed = .some index ∧
      (index.hasConflicts || index.isSparse || index.extensions) = false := by
  simp only [readIndex, Py.bind_eq_ok, raiseIf_eq_ok, orRaise_eq_ok] at h
  obtain ⟨-, -, -, -, parsed, hparsed, -, hflags, h⟩ := h
  cases h
  exact ⟨hparsed, hflags⟩

/-- A written index is read back. -/
theorem readIndex_written (writer : IndexWriter) {repo : Repository} {index : GitIndex}
    (hfile : repo.index = writer.file index)
    (hflags : (index.hasConflicts || index.isSparse || index.extensions) = false) :
    ∃ fingerprint, readIndex lib repo = .ok (index, fingerprint) := by
  have hlong : decide ((writer.serialize index).length < 32) = false := by
    have := writer.long index
    simpa using this
  refine ⟨lib.sha256 (writer.serialize index), ?_⟩
  simp only [readIndex, hfile, IndexWriter.file, Bool.not_true, raiseIf_false, Py.ok_bind, hlong,
    writer.signature, writer.version, bne_self_eq_false, Bool.or_self, orRaise_some, hflags]
  rfl

/-- The refs HEAD is followed through: HEAD itself, and a branch with the id. -/
theorem openRepo_refs (h : openRepo lib state.toRepository = .ok (branch, head)) :
    state.refs.lookup headName = .some (.symbolic branch) ∧ state.refs.lookup branch = .some
      (.direct head) := by
  simp only [openRepo, Py.bind_eq_ok, raiseIf_eq_ok, orRaise_eq_ok] at h
  obtain ⟨-, -, ⟨chain, tip⟩, hfollow, -, hchain, found, rfl, -, -, -, -, -, -, -, -, h⟩ := h
  cases h
  simp only [Bool.or_eq_false_iff, bne_eq_false_iff_eq] at hchain
  obtain ⟨⟨⟨-, hlength⟩, -⟩, -⟩ := hchain
  rw [state.follows, followRefs] at hfollow
  split at hfollow
  next => cases hfollow
  next =>
    cases hfollow
    cases hlength
  next target htarget =>
    rw [Option.map_eq_some_iff] at hfollow
    obtain ⟨⟨rest, tip⟩, hfollow, heq⟩ := hfollow
    cases heq
    rw [followRefs] at hfollow
    split at hfollow
    next => cases hfollow
    next sha hsha =>
      cases hfollow
      exact ⟨htarget, hsha⟩
    next =>
      rw [Option.map_eq_some_iff] at hfollow
      obtain ⟨⟨more, tip⟩, hfollow, heq⟩ := hfollow
      cases heq
      cases more with
      | nil =>
        rw [followRefs] at hfollow
        split at hfollow
        next => cases hfollow
        next => cases hfollow
        next =>
          rw [Option.map_eq_some_iff] at hfollow
          obtain ⟨_, -, heq⟩ := hfollow
          cases heq
      | cons _ _ => cases hlength

/-- With the branch set to another commit, the repository opens at it. -/
theorem openRepo_swapped {sha : Text} (h : openRepo lib state.toRepository = .ok (branch, head))
    (hlength : sha.length = 40) {other : LocalState}
    (hrefs : other.refs = state.refs.set branch (.direct sha))
    (hsame : other.toRepository = { state.toRepository with follow := other.follow, objects := other.objects, index := other.index }) :
    openRepo lib other.toRepository = .ok (branch, sha) := by
  obtain ⟨hhead, hbranch⟩ := openRepo_refs h
  have hne : headName ≠ branch := by
    intro heq
    rw [heq, hbranch] at hhead
    cases hhead
  have hfollowed : other.follow = .some ([headName, branch], .some sha) := by
    rw [other.follows, hrefs, followRefs, lookup_set, if_neg hne, hhead]
    simp only [followRefs]
    rw [lookup_set, if_pos rfl]
    rfl
  have hfollow : state.follow = .some ([headName, branch], .some head) := by
    rw [state.follows, followRefs, hhead]
    simp only [followRefs]
    rw [hbranch]
    rfl
  rw [hsame, hfollowed]
  simp only [openRepo, hfollow, orRaise_some, Py.ok_bind] at h ⊢
  simp only [Py.bind_eq_ok, raiseIf_eq_ok, orRaise_eq_ok] at h ⊢
  obtain ⟨u, hdir, u', hchain, u'', hroot, config, hconfig, u₃, hsupported, u₄, hregular, -⟩ := h
  rw [Bool.or_eq_false_iff] at hroot
  refine ⟨u, hdir, u', hchain, u'', ?_, config, hconfig, u₃, hsupported, u₄, hregular, rfl⟩
  rw [Bool.or_eq_false_iff, hlength]
  exact ⟨rfl, hroot.2⟩

end

/-! ## Whole calls -/

section
variable {lib : Library} {ids : ObjectIds} {writer : IndexWriter} {state : LocalState}
  {data : ApplyArguments} {faults : ApplyFaults}

theorem applyChecked_recovers {repo : Repository} {recovered : Replacements}
    (h : applyChecked lib ids repo data = .ok (.recovered recovered)) :
    data.paths.foldlM (recoverPath lib repo) [] = .ok recovered := by
  simp only [applyChecked, Py.bind_eq_ok, raiseIf_eq_ok] at h
  obtain ⟨⟨branch, head⟩, -, -, -, h⟩ := h
  split at h
  next =>
    simp only [Py.bind_eq_ok] at h
    obtain ⟨-, -, entries, hentries, h⟩ := h
    cases h
    exact hentries
  next =>
    simp only [Py.bind_eq_ok, raiseIf_eq_ok, applyCommit] at h
    obtain ⟨-, -, ⟨index, fingerprint⟩, -, -, -, object, -, h⟩ := h
    split at h
    next =>
      simp only [Py.bind_eq_ok] at h
      obtain ⟨object, -, h⟩ := h
      split at h
      next => simp [Py.bind_eq_ok, pure, Except.pure] at h
      next => cases h
    next => cases h

theorem applyChecked_commits {repo : Repository} {commit : Commit} {store : ObjectStore}
    {entries : Replacements}
    (h : applyChecked lib ids repo data = .ok (.commit commit store entries)) :
    applyCommit lib ids repo data.expectedHead data = .ok (.commit commit store entries) := by
  simp only [applyChecked, Py.bind_eq_ok, raiseIf_eq_ok] at h
  obtain ⟨⟨branch, head⟩, -, -, -, h⟩ := h
  split at h
  next => simp [Py.bind_eq_ok, pure, Except.pure] at h
  next =>
    simp only [Py.bind_eq_ok, raiseIf_eq_ok] at h
    obtain ⟨-, hhead, h⟩ := h
    have hhead' : head = data.expectedHead := by simpa using hhead
    rwa [hhead'] at h

/-- A call that gets to the branch or the index: it recovers, or has a commit to set. -/
theorem applyFrom_cases {applied : Applied}
    (h : applyFrom lib ids writer faults state data = .ok applied) :
    ∃ index fingerprint, readIndex lib state.toRepository = .ok (index, fingerprint) ∧
      ((∃ recovered, openRepo lib state.toRepository = .ok (data.branchRef, data.expectedCommit) ∧
          data.paths.foldlM (recoverPath lib state.toRepository) [] = .ok recovered ∧
          applied = writeIndexEntries lib writer faults state index recovered data.expectedCommit
            false) ∨
        ∃ commit store replacements, openRepo lib state.toRepository = .ok
          (data.branchRef, data.expectedHead) ∧
          applyChecked lib ids state.toRepository data = .ok (.commit commit store replacements) ∧
          applied = swapBranch lib writer faults
            (state.withObjects store) index data.branchRef data.expectedHead
            (ids.commitId commit) replacements) := by
  simp only [applyFrom, Py.bind_eq_ok] at h
  obtain ⟨⟨branch, head⟩, hopen, applying, hchecked, ⟨index, fingerprint⟩, hindex, h⟩ := h
  refine ⟨index, fingerprint, hindex, ?_⟩
  cases applying with
  | recovered recovered =>
    have hopened := applyChecked_recovered hchecked
    cases h
    exact .inl ⟨recovered, hopened, applyChecked_recovers hchecked, rfl⟩
  | commit commit store replacements =>
    obtain ⟨hopened, -⟩ := applyChecked_commit hchecked
    rw [hopen] at hopened
    cases hopened
    cases h
    exact .inr ⟨commit, store, replacements, hopen, hchecked, rfl⟩

/-- Where the candidates are, the index entries are written or the write of the file raises. -/
theorem writeIndexEntries_eq {index : GitIndex} {sha : Text} {swapped : Bool}
    (h : ∀ item ∈ data.paths, HasCandidate lib state.worktree item) :
    writeIndexEntries lib writer faults state index (preparedReplacements data.paths) sha swapped =
      match faults.index with
      | .some e => ⟨.error e, state, swapped⟩
      | .none => ⟨.ok sha,
          state.withIndex
          (writer.file (index.update ((preparedReplacements data.paths).map indexEntryOf))),
          swapped⟩ := by
  rw [writeIndexEntries, indexEntries_eq h]

/-- Nothing but objects was added. -/
structure Untouched (state final : LocalState) : Prop where
  refs : final.refs = state.refs
  rest : final.toRepository = { state.toRepository with objects := final.objects }
  objects : state.objects.Within final.objects

/-- The state a call that returns leaves: the branch at the expected commit, the index with the
prepared entries, every other ref and entry as it was; and a commit the call made itself changes
the prepared paths of HEAD's tree only. -/
structure AppliedTo (state : LocalState) (data : ApplyArguments) (final : LocalState) : Prop where
  branch : final.refs.lookup data.branchRef = .some (.direct data.expectedCommit)
  refs : ∀ name, name ≠ data.branchRef → final.refs.lookup name = state.refs.lookup name
  rest : final.toRepository =
    { state.toRepository with follow := final.follow, index := final.index, objects :=
      final.objects }
  index : ∃ before after, state.index.parsed = .some before ∧ final.index.parsed = .some after ∧
    IndexApplied before after data.paths
  objects : state.objects.Within final.objects
  commit : state.refs.lookup data.branchRef ≠ .some (.direct data.expectedCommit) →
    HasCommit final.objects data

/-- The state with the branch set to the commit, before the index is written. -/
def swappedState (state : LocalState) (store : ObjectStore) (data : ApplyArguments) : LocalState :=
  (state.withObjects store).withRefs
    (Dict.set state.refs data.branchRef (.direct data.expectedCommit))

/-- How a call ends, by what it gets to. -/
theorem apply_cases (writer : IndexWriter) (faults : ApplyFaults)
    (hsha : Function.Injective lib.sha256) (hlaws : ids.Faithful lib)
    (hitems : ∀ item ∈ data.paths, item.Given lib) (haddressed : state.objects.Addressed lib ids) :
    (∃ e, (LocalState.apply lib ids writer faults state data).result = .error e ∧
      (LocalState.apply lib ids writer faults state data).swapped = false ∧
      Untouched state (LocalState.apply lib ids writer faults state data).state) ∨
    ∃ index fingerprint, readIndex lib state.toRepository = .ok (index, fingerprint) ∧
      (∀ item ∈ data.paths, HasCandidate lib state.worktree item) ∧
      ((openRepo lib state.toRepository = .ok (data.branchRef, data.expectedCommit) ∧
          LocalState.apply lib ids writer faults state data =
            writeIndexEntries lib writer faults state index
            (preparedReplacements data.paths) data.expectedCommit false) ∨
        ∃ store, openRepo lib state.toRepository = .ok (data.branchRef, data.expectedHead) ∧
          state.objects.Within store ∧
          HasCommit store data ∧
          (∀ item ∈ data.paths, ∃ raw, readWorktree lib state.worktree item.path item.mode =
            .ok raw ∧
            store.get item.candidateBlobId = .ok (.blob raw)) ∧
          ∀ index', LocalState.apply lib ids writer { faults with index := index' } state data =
            writeIndexEntries lib writer { faults with index :=
              index' } (swappedState state store data) index
              (preparedReplacements data.paths) data.expectedCommit true) := by
  cases happly : applyFrom lib ids writer faults state data with
  | error e =>
    refine .inl ⟨e, by rw [LocalState.apply, happly], by rw [LocalState.apply, happly], ?_⟩
    rw [LocalState.apply, happly]
    refine ⟨rfl, rfl, fun id object hobject => ?_⟩
    rw [LocalState.withObjects_objects, List.lookup_append, hobject]
    rfl
  | ok applied =>
    obtain ⟨index, fingerprint, hindex, ⟨recovered, hopen, hfold, heq⟩ |
        ⟨commit, store, replacements, hopen, hchecked, heq⟩⟩ :=
      applyFrom_cases happly
    · obtain ⟨hrecovered, hcandidates⟩ := recoverPaths_ok hsha hitems hfold
      refine .inr ⟨index, fingerprint, hindex, hcandidates, .inl ⟨hopen, ?_⟩⟩
      rw [LocalState.apply, happly, ← hrecovered]
      exact heq
    · obtain ⟨hreplacements, hid, hwithin, hmade, hpaths⟩ :=
        applyCommit_made hsha hlaws hitems haddressed
        (applyChecked_commits hchecked)
      have hset : setIfEquals state.refs data.branchRef data.expectedHead data.expectedCommit =
          .some (Dict.set state.refs data.branchRef (.direct data.expectedCommit)) := by
        rw [setIfEquals, if_pos (openRepo_refs hopen).2]
      rw [hid, hreplacements, swapBranch] at heq
      cases hswap : faults.swapping with
      | raises e =>
        rw [hswap] at heq
        refine .inl ⟨e,
          by rw [LocalState.apply, happly, heq], by rw [LocalState.apply, happly, heq], ?_⟩
        rw [LocalState.apply, happly, heq]
        exact ⟨rfl, rfl, hwithin⟩
      | refused =>
        rw [hswap] at heq
        refine .inl ⟨.tool "git_stale_head",
          by rw [LocalState.apply, happly, heq], by rw [LocalState.apply, happly, heq], ?_⟩
        rw [LocalState.apply, happly, heq]
        exact ⟨rfl, rfl, hwithin⟩
      | works =>
        refine .inr ⟨index, fingerprint, hindex, fun item hitem => (hpaths item hitem).1,
          .inr ⟨store, hopen, hwithin, hmade, fun item hitem => (hpaths item hitem).2, fun index' =>
            ?_⟩⟩
        have hfrom : applyFrom lib ids writer { faults with index := index' } state data =
            .ok (swapBranch lib writer { faults with index := index' } (state.withObjects store)
              index data.branchRef
              data.expectedHead (ids.commitId commit) replacements) := by
          simp only [applyFrom, hopen, hchecked, hindex, Py.ok_bind]
          rfl
        rw [hid, hreplacements, swapBranch] at hfrom
        simp only [hswap, LocalState.withObjects_refs, hset] at hfrom
        rw [LocalState.apply, hfrom]
        rfl

end

/-! ## Atomic, framed and replayable -/

section
variable {lib : Library} {ids : ObjectIds} {writer : IndexWriter} {state : LocalState}
  {data : ApplyArguments} {faults : ApplyFaults}

/-- On a branch at the expected commit, with the candidates in the worktree and the store, the
call ends with the index written. -/
theorem apply_recovers (ids : ObjectIds) (writer : IndexWriter) {index : GitIndex}
    {fingerprint : Text}
    (hopen : openRepo lib state.toRepository = .ok (data.branchRef, data.expectedCommit))
    (hindex : readIndex lib state.toRepository = .ok (index, fingerprint))
    (hfaults : faults.index = .none)
    (hpaths : ∀ item ∈ data.paths, HasCandidate lib state.worktree item ∧
      ∃ raw, readWorktree lib state.worktree item.path item.mode = .ok raw ∧
        state.objects.get item.candidateBlobId = .ok (.blob raw)) :
    LocalState.apply lib ids writer faults state data =
      ⟨.ok data.expectedCommit,
        state.withIndex
        (writer.file (index.update ((preparedReplacements data.paths).map indexEntryOf))),
        false⟩ := by
  have hfold := recoverPaths_of_stored [] hpaths
  have hchecked : applyChecked lib ids state.toRepository data =
      .ok (.recovered (preparedReplacements data.paths)) := by
    simp only [applyChecked, hopen, Py.ok_bind, bne_self_eq_false, raiseIf_false, if_true, hindex,
      hfold]
    rfl
  have hfrom : applyFrom lib ids writer faults state data =
    .ok (writeIndexEntries lib writer faults state index
      (preparedReplacements data.paths) data.expectedCommit false) := by
    simp only [applyFrom, hopen, hchecked, hindex, Py.ok_bind]
    rfl
  rw [LocalState.apply, hfrom]
  simp only
  rw [writeIndexEntries_eq fun item hitem => (hpaths item hitem).1, hfaults]

/-- A state whose index is the updated one, and nothing else but refs and objects changed. -/
theorem appliedTo_written (writer : IndexWriter) {index : GitIndex} {fingerprint : Text}
    {between : LocalState} (hindex : readIndex lib state.toRepository = .ok (index, fingerprint))
    (hcandidates : ∀ item ∈ data.paths, HasCandidate lib state.worktree item)
    (hbranch : between.refs.lookup data.branchRef = .some (.direct data.expectedCommit))
    (hrefs : ∀ name, name ≠ data.branchRef → between.refs.lookup name = state.refs.lookup name)
    (hrest : between.toRepository = { state.toRepository with follow := between.follow, objects :=
      between.objects })
    (hobjects : state.objects.Within between.objects)
    (hcommit : state.refs.lookup data.branchRef ≠ .some (.direct data.expectedCommit) →
      HasCommit between.objects data) :
    AppliedTo state data
      (between.withIndex
          (writer.file (index.update ((preparedReplacements data.paths).map indexEntryOf)))) where
  branch := hbranch
  refs := hrefs
  rest := congrArg (fun repo : Repository =>
    { repo with index :=
      writer.file (index.update ((preparedReplacements data.paths).map indexEntryOf)) }) hrest
  index := ⟨index, _, (readIndex_ok hindex).1, rfl, update_applied index hcandidates⟩
  objects := hobjects
  commit := hcommit

end

/-- **Local git apply is atomic, framed and replayable**, for a prepared action on any
repository. A call that raises without having set the branch leaves HEAD, every ref and the
index. One that returns leaves the branch at the expected commit and the prepared entries in
the index, and changes nothing else of either. After a call that set the branch, however it
went on (`index` is where the write of the index raises, or the process stops before it), the
same call ends in the state a call that is not disturbed leaves. -/
theorem local_apply (lib : Library) (ids : ObjectIds) (writer : IndexWriter) (prepared : Repository)
    (candidates : List Candidate) (preparation : LocalPreparation)
    (message identity expected : Text) (timestamp : Int) (state : LocalState) (faults : ApplyFaults)
    (hprepare : GitLocal.prepare lib prepared candidates = .ok preparation)
    (hlaws : ids.Faithful lib) (haddressed : state.objects.Addressed lib ids)
    (hsha : Function.Injective lib.sha256) (hlength : expected.length = 40) :
    (∀ e, (state.apply lib ids writer faults
      (preparation.arguments message identity timestamp expected)).result = .error e →
      (state.apply lib ids writer faults
        (preparation.arguments message identity timestamp expected)).swapped = false →
      Untouched state
        (state.apply lib ids writer faults
        (preparation.arguments message identity timestamp expected)).state) ∧
    (∀ sha, (state.apply lib ids writer faults
      (preparation.arguments message identity timestamp expected)).result = .ok sha →
      sha = expected ∧ AppliedTo state (preparation.arguments message identity timestamp expected)
        (state.apply lib ids writer faults
          (preparation.arguments message identity timestamp expected)).state) ∧
    ((state.apply lib ids writer faults
      (preparation.arguments message identity timestamp expected)).swapped = true →
      ∃ final, state.apply lib ids writer { faults with index := .none }
          (preparation.arguments message identity timestamp expected) =
            ⟨.ok expected, final, true⟩ ∧
        AppliedTo state (preparation.arguments message identity timestamp expected) final ∧
        ∀ again : ApplyFaults, again.index = .none →
          (state.apply lib ids writer faults
            (preparation.arguments message identity timestamp expected)).state.apply
            lib ids writer again (preparation.arguments message identity timestamp expected) =
                ⟨.ok expected, final, false⟩) := by
  have hitems : ∀ item ∈ (preparation.arguments message identity timestamp expected).paths,
    item.Given lib := given_of_prepare hprepare
  have hexpected :
    (preparation.arguments message identity timestamp expected).expectedCommit = expected := rfl
  generalize preparation.arguments message identity timestamp expected = data at hitems hexpected ⊢
  subst hexpected
  rcases apply_cases writer faults hsha hlaws hitems haddressed with
    ⟨e, hresult, hswapped, huntouched⟩ | ⟨index, fingerprint, hindex, hcandidates,
      ⟨hopen, happly⟩ | ⟨store, hopen, hwithin, hmade, hpaths, happly⟩⟩
  · refine ⟨fun _ _ _ => huntouched, fun sha hsha => ?_, fun hswap => ?_⟩
    · rw [hresult] at hsha
      cases hsha
    · rw [hswapped] at hswap
      cases hswap
  · rw [writeIndexEntries_eq hcandidates] at happly
    cases hfault : faults.index with
    | some e =>
      rw [hfault] at happly
      rw [happly]
      exact ⟨fun _ _ _ => ⟨rfl, rfl, .refl⟩, fun sha h => (by cases h), fun h => (by cases h)⟩
    | none =>
      rw [hfault] at happly
      rw [happly]
      refine ⟨fun e h => (by cases h), fun sha h => ?_, fun h => (by cases h)⟩
      cases h
      have hbranch := (openRepo_refs hopen).2
      exact ⟨rfl, appliedTo_written writer hindex hcandidates hbranch (fun _ _ => rfl) rfl .refl
        fun hne => absurd hbranch hne⟩
  · have hbranch : (swappedState state store data).refs.lookup data.branchRef =
        .some (.direct data.expectedCommit) := by
      rw [swappedState, LocalState.withRefs_refs, lookup_set, if_pos rfl]
    have hrefs : ∀ name, name ≠ data.branchRef →
        (swappedState state store data).refs.lookup name = state.refs.lookup name := by
      intro name hname
      rw [swappedState, LocalState.withRefs_refs, lookup_set, if_neg hname]
    have hfinal := appliedTo_written writer hindex hcandidates hbranch hrefs rfl hwithin fun _ =>
      hmade
    have hstored : ∀ item ∈ data.paths, HasCandidate lib state.worktree item ∧
        ∃ raw, readWorktree lib state.worktree item.path item.mode = .ok raw ∧
            store.get item.candidateBlobId = .ok (.blob raw) :=
      fun item hitem => ⟨hcandidates item hitem, hpaths item hitem⟩
    have hbetween : ∀ item ∈ data.paths,
      HasCandidate lib (swappedState state store data).worktree item := hcandidates
    have hwrite : ∀ index', LocalState.apply lib ids writer { faults with index :=
        index' } state data = match index' with
        | .some e => ⟨.error e, swappedState state store data, true⟩
        | .none => ⟨.ok data.expectedCommit, (swappedState state store data).withIndex
            (writer.file (index.update ((preparedReplacements data.paths).map indexEntryOf))),
                true⟩ := by
      intro index'
      rw [happly index', writeIndexEntries_eq hbetween]
    have hself : LocalState.apply lib ids writer faults state data = match faults.index with
        | .some e => ⟨.error e, swappedState state store data, true⟩
        | .none => ⟨.ok data.expectedCommit, (swappedState state store data).withIndex
            (writer.file (index.update ((preparedReplacements data.paths).map indexEntryOf))),
              true⟩ := hwrite faults.index
    cases hfault : faults.index with
    | some e =>
      rw [hfault] at hself
      rw [hself]
      refine ⟨fun _ _ h => (by cases h), fun sha h => (by cases h),
        fun _ => ⟨_, hwrite .none, hfinal, fun again hnone => ?_⟩⟩
      have hreopen : openRepo lib (swappedState state store data).toRepository = .ok (data.branchRef, data.expectedCommit) :=
        openRepo_swapped hopen hlength rfl rfl
      exact apply_recovers ids writer hreopen hindex hnone hstored
    | none =>
      rw [hfault] at hself
      rw [hself]
      refine ⟨fun _ h => (by cases h), fun sha h => ⟨(Except.ok.inj h).symm, hfinal⟩,
        fun _ => ⟨_, hwrite .none, hfinal,
        fun again hnone => ?_⟩⟩
      have hreopen :
        openRepo lib ((swappedState state store data).withIndex (writer.file (index.update
          ((preparedReplacements data.paths).map indexEntryOf)))).toRepository = .ok (data.branchRef, data.expectedCommit) :=
        openRepo_swapped hopen hlength rfl rfl
      obtain ⟨written, hreread⟩ : ∃ fingerprint,
        readIndex lib ((swappedState state store data).withIndex (writer.file (index.update
          ((preparedReplacements data.paths).map indexEntryOf)))).toRepository =
            .ok (index.update ((preparedReplacements data.paths).map indexEntryOf), fingerprint) :=
        readIndex_written writer rfl (readIndex_ok hindex).2
      have hrecovered := apply_recovers ids writer hreopen hreread hnone hstored
      rw [update_again] at hrecovered
      exact hrecovered

/-! ## One of two files

`a/x` of the two-file repository is changed to `b`. Hashes and ids are the real ones; the
fields of the index entries that come from `stat` are zero. -/

/-- The digests of what the example meets. -/
def twoDigest (raw : Bytes) : Text :=
  if raw = twoIndexRaw then
    hexText 64 0xf09e8d8a3c45ddebba9ecfeaf61e8a535140a1dcf4fa8799cdfe7cf398d0c7ac
  else if raw = encode "/w".toList then
    hexText 64 0xd1bb8ca354673cd575d31d952490058c9943aef39d5a9553fb4a21ab7a59a19d
  else digest raw

theorem digest_ne {text : Text} (hx : text.head? ≠ .some 'x') (ha : exampleShaA ≠ text)
    (hb : exampleShaB ≠ text)
    (hf : hexText 64 0xa3ebab26429c41d86c052b4938878dc2ed92ff1e77d2fcfbde7547e4f8c6de8d ≠ text)
    (raw : Bytes) : digest raw ≠ text := by
  rw [digest]
  split
  next => exact ha
  next =>
    split
    next => exact hb
    next =>
      split
      next => exact hf
      next =>
        intro heq
        rw [← heq] at hx
        exact hx rfl

theorem twoDigest_injective : Function.Injective twoDigest := by
  refine injective_override (injective_override digest_injective _ ?_) _ fun raw => ?_
  · exact digest_ne (by decide) (by decide) (by decide) (by decide)
  · split
    next => decide
    next => exact digest_ne (by decide) (by decide) (by decide) (by decide) raw

def twoDigestLibrary : Library := { twoLibrary with sha256 := twoDigest }

def twoRefs : Refs :=
  [(headName, .symbolic "refs/heads/main".toList), ("refs/heads/main".toList, .direct twoBase)]

def twoState : LocalState := { twoRepository ['b'] with refs := twoRefs, follows := by decide }

/-- The index file with `b` in `a/x`. -/
def twoNextRaw : Bytes :=
  twoIndexRaw.take 52 ++ [99, 216, 219, 212, 12, 35, 84, 46, 116, 6, 89, 167, 22, 138, 12, 227, 19,
    142, 167, 72] ++
    (twoIndexRaw.drop 72).take 84 ++
    [51, 222, 244, 106, 13, 244, 226, 157, 14, 156, 157, 235, 140, 26, 124, 24, 252, 192, 150, 203]

set_option maxRecDepth 2000 in
def twoWriter : IndexWriter where
  serialize index :=
    if index.entries = [(encode "a/x".toList, ⟨exampleBlobB, 0o100644, 0⟩),
      (encode "b/y".toList, ⟨exampleBlobA, 0o100644, 0⟩)] then
      twoNextRaw
    else [68, 73, 82, 67, 0, 0, 0, 2] ++ List.replicate 24 0
  long := by
    intro index
    split <;> decide
  signature := by
    intro index
    split <;> decide
  version := by
    intro index
    split <;> decide

def twoArguments : ApplyArguments :=
  (twoPreparation [preparedX] diffX).arguments ['n'] exampleIdentity 2000000 twoCommit

def noFaults : ApplyFaults := ⟨[], .works, .none⟩

theorem twoState_runs : GitLocal.prepare twoDigestLibrary (twoRepository ['b']) [candidateX] = .ok
    (twoPreparation [preparedX] diffX) ∧
    (twoState.apply twoDigestLibrary twoIds twoWriter noFaults twoArguments).result =
    .ok twoCommit := by decide +kernel

theorem twoDigest_addressed : twoState.objects.Addressed twoDigestLibrary twoIds := by
  intro id object h
  have haddressed := twoObjects_addressed id object h
  cases object with
  | blob data => exact haddressed
  | tree entries => exact haddressed
  | commit commit => exact haddressed

theorem twoDigest_faithful : twoIds.Faithful twoDigestLibrary := by
  refine @givenIds_faithful _ [(encode ['a'], exampleBlobA), (encode ['b'], exampleBlobB)] _
    _ rfl ?_ ?_ ?_
  · decide
  · decide
  · decide

/-- The branch ends at the commit, and the entry of `b/y` is as it was. -/
theorem local_apply_example :
    AppliedTo twoState twoArguments
      (twoState.apply twoDigestLibrary twoIds twoWriter noFaults twoArguments).state := by
  obtain ⟨-, hreturns, -⟩ :=
    local_apply twoDigestLibrary twoIds twoWriter (twoRepository ['b']) [candidateX]
    (twoPreparation [preparedX] diffX) ['n'] exampleIdentity twoCommit 2000000 twoState noFaults
      twoState_runs.1 twoDigest_faithful
    twoDigest_addressed twoDigest_injective (by decide)
  exact (hreturns _ twoState_runs.2).2

end Novalton
