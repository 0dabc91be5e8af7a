/-
The commit id `prepare` expects and the commit `apply` makes (`expected_commit_sha` and
`apply` of `modules/git_changesets/local.py`), on a repository that does not change in
between: both build the tree of HEAD with the candidate blobs in it, the one in memory and
the other in the object store, where one can be built.
-/
import Mathlib.Logic.Equiv.List
import Novalton.Dict
import Novalton.TreeRewrite

namespace Novalton

variable {lib : Library} {ids : ObjectIds} {repo : Repository}

/-! ## What was prepared -/

/-- What `prepare` has found out about a path. -/
structure PreparedPath.Found (lib : Library) (repo : Repository) (tree : TreeEntries)
    (index : GitIndex) (item : PreparedPath) :
    Prop where
  entry : treeEntry repo.objects tree (pathKey item.path) = .ok (item.mode, item.headBlobId)
  regular : item.mode ∈ regularModes
  clean : index.entries.lookup (encode item.path) = .some ⟨item.headBlobId, item.mode, 0⟩
  head : ∃ old, repo.objects.get item.headBlobId = .ok (.blob old) ∧
    lib.sha256 old = item.headSha256
  candidate : ∃ raw, readWorktree lib repo.worktree item.path item.mode = .ok raw ∧
    lib.sha256 raw = item.candidateSha256 ∧
    item.candidateBlobId = lib.blobId raw

theorem preparePath_found {tree : TreeEntries} {index : GitIndex} {candidate : Candidate}
    {item : PreparedPath} {diff : Text}
    (h : preparePath lib repo tree index candidate = .ok (item, diff)) :
    item.path = candidate.path ∧ item.Found lib repo tree index := by
  simp only [preparePath, Py.bind_eq_ok, raiseIf_eq_ok] at h
  obtain ⟨⟨mode, blobId⟩, hentry, -, hregular, -, hclean, object, hobject, h⟩ := h
  split at h
  next old =>
    simp only [Py.bind_eq_ok, raiseIf_eq_ok, orRaise_eq_ok] at h
    obtain ⟨-, hold, raw, hraw, -, hsha, oldText, -, text, -, h⟩ := h
    cases h
    exact ⟨rfl, hentry,
      by simpa using hregular, by simpa using hclean, ⟨old, hobject,
        by simpa using hold⟩, raw, hraw, by simpa using hsha, rfl⟩
  next => cases h

/-- What a preparation has read of the repository. -/
structure LocalPreparation.Read (lib : Library) (repo : Repository) (preparation : LocalPreparation)
    (tree : TreeEntries) (index : GitIndex) : Prop where
  opened : openRepo lib repo = .ok (preparation.branchRef, preparation.headSha)
  staged : readIndex lib repo = .ok (index, preparation.indexFingerprint)
  head : headTree repo.objects preparation.headSha = .ok (preparation.treeId, tree)
  nonempty : preparation.paths ≠ []
  paths : ∀ item ∈ preparation.paths, item.Found lib repo tree index

theorem prepare_read {candidates : List Candidate} {preparation : LocalPreparation}
    (h : GitLocal.prepare lib repo candidates = .ok preparation) :
    ∃ tree index, preparation.Read lib repo tree index ∧ ∀ item ∈ preparation.paths,
      ∃ candidate ∈ candidates, item.path = candidate.path := by
  simp only [GitLocal.prepare, Py.bind_eq_ok, raiseIf_eq_ok, Bool.or_eq_false_iff] at h
  obtain ⟨⟨branch, head⟩, hopen, ⟨index, fingerprint⟩, hindex, ⟨treeId, tree⟩, hhead, prepared,
    hprepared, -, ⟨hnonempty, -⟩, h⟩ := h
  cases h
  have hitems : ∀ item ∈ prepared.map Prod.fst, ∃ candidate ∈ candidates,
      item.path = candidate.path ∧ item.Found lib repo tree index := by
    intro item hitem
    obtain ⟨⟨found, diff⟩, hmem, rfl⟩ := List.mem_map.mp hitem
    obtain ⟨candidate, hcandidate, hfound⟩ := mem_of_mapM hprepared _ hmem
    obtain ⟨hpath, hread⟩ := preparePath_found hfound
    exact ⟨candidate, (List.mem_insertionSort _).mp hcandidate, hpath, hread⟩
  refine ⟨tree, index, ⟨hopen, hindex, hhead, ?_, fun item hitem => ?_⟩, fun item hitem => ?_⟩
  · intro hnil
    rw [List.map_eq_nil_iff.mp hnil] at hnonempty
    cases hnonempty
  · obtain ⟨-, -, -, hfound⟩ := hitems item hitem
    exact hfound
  · obtain ⟨candidate, hcandidate, hpath, -⟩ := hitems item hitem
    exact ⟨candidate, hcandidate, hpath⟩

/-! ## The replacements -/

/-- The replacement at a path is that of the last item with the path. -/
theorem foldl_set_get? (paths : List PreparedPath) (acc : Replacements) (key : List Bytes) :
    (paths.foldl (fun acc item => acc.set (pathKey item.path) (item.mode, item.candidateBlobId))
      acc).get? key =
      ((paths.reverse.find? fun item => pathKey item.path = key).map fun item =>
        (item.mode, item.candidateBlobId)).or
        (acc.get? key) := by
  induction paths generalizing acc with
  | nil => rfl
  | cons item paths ih =>
    rw [List.foldl_cons, ih, set_get?, List.reverse_cons, List.find?_append]
    cases paths.reverse.find? fun item => pathKey item.path = key with
    | some found => rfl
    | none =>
      by_cases h : key = pathKey item.path
      · simp [h]
      · simp [h, Ne.symm h]

theorem preparedReplacements_item {paths : List PreparedPath} {key : List Bytes}
    {value : Nat × Text} (h : (preparedReplacements paths).get? key = .some value) :
    ∃ item ∈ paths, pathKey item.path = key ∧ value = (item.mode, item.candidateBlobId) := by
  rw [preparedReplacements, foldl_set_get?] at h
  cases hfind : paths.reverse.find? fun item => pathKey item.path = key with
  | none =>
    rw [hfind] at h
    cases h
  | some item =>
    rw [hfind] at h
    cases h
    exact ⟨item, List.mem_reverse.mp (List.mem_of_find?_eq_some hfind),
      by simpa using List.find?_some hfind, rfl⟩

theorem mem_preparedReplacements {paths : List PreparedPath} {key : List Bytes} :
    key ∈ (preparedReplacements paths).keys ↔ key ∈ paths.map fun item => pathKey item.path := by
  rw [← get?_isSome_iff, preparedReplacements, foldl_set_get?, List.mem_map]
  constructor
  · intro h
    obtain ⟨value, hvalue⟩ := Option.isSome_iff_exists.mp h
    rw [← foldl_set_get?] at hvalue
    obtain ⟨item, hitem, hkey, -⟩ := preparedReplacements_item hvalue
    exact ⟨item, hitem, hkey⟩
  · intro h
    obtain ⟨item, hitem, hkey⟩ := h
    have hfind : (paths.reverse.find? fun item => pathKey item.path = key).isSome = true := by
      rw [List.find?_isSome]
      exact ⟨item, List.mem_reverse.mpr hitem, decide_eq_true hkey⟩
    obtain ⟨found, hfound⟩ := Option.isSome_iff_exists.mp hfind
    rw [hfound]
    rfl

/-- `b"/".join` undoes `split`. -/
theorem joinSlashBytes_pathKey (path : Text) : joinSlashBytes (pathKey path) = encode path := by
  rw [pathKey, joinSlashBytes, splitSlashBytes, List.intercalate_splitOn]

theorem pathKey_inj {path path' : Text} (h : pathKey path = pathKey path') : path = path' := by
  have hencode : encode path = encode path' := by
    rw [← joinSlashBytes_pathKey, ← joinSlashBytes_pathKey, h]
  have hdecode := congrArg decode hencode
  rw [decode_encode, decode_encode] at hdecode
  exact Option.some.inj hdecode

theorem pathKey_ne_nil (path : Text) : pathKey path ≠ [] := List.splitOn_ne_nil 47 (encode path)

theorem or_ne_slash (x : UInt8) {mask : UInt8} (h : 48 ≤ mask.toNat) :
    (47 : UInt8) ≠ x ||| mask := by
  intro heq
  have hnat := congrArg UInt8.toNat heq
  rw [UInt8.toNat_or] at hnat
  have hle := Nat.right_le_or (n := x.toNat) (m := mask.toNat)
  have hslash : UInt8.toNat 47 = 47 := rfl
  omega

/-- Only the slash itself is encoded with the byte of a slash. -/
theorem count_slash_char (c : Char) : (String.utf8EncodeChar c).count 47 ≤ 1 := by
  have hmask : 48 ≤ UInt8.toNat 0x80 ∧ 48 ≤ UInt8.toNat 0xc0 ∧ 48 ≤ UInt8.toNat 0xe0 ∧
    48 ≤ UInt8.toNat 0xf0 := by decide
  have hpos := c.utf8Size_pos
  have hfour := c.utf8Size_le_four
  obtain h | h | h | h : c.utf8Size = 1 ∨ c.utf8Size = 2 ∨ c.utf8Size = 3 ∨ c.utf8Size = 4 := by
    omega
  · rw [String.utf8EncodeChar_eq_singleton h]
    exact List.count_le_length
  · rw [String.utf8EncodeChar_eq_cons_cons h, List.count_eq_zero_of_not_mem]
    · exact Nat.zero_le 1
    · simp [or_ne_slash _ hmask.1, or_ne_slash _ hmask.2.1]
  · rw [String.utf8EncodeChar_eq_cons_cons_cons h, List.count_eq_zero_of_not_mem]
    · exact Nat.zero_le 1
    · simp [or_ne_slash _ hmask.1, or_ne_slash _ hmask.2.2.1]
  · rw [String.utf8EncodeChar_eq_cons_cons_cons_cons h, List.count_eq_zero_of_not_mem]
    · exact Nat.zero_le 1
    · simp [or_ne_slash _ hmask.1, or_ne_slash _ hmask.2.2.2]

theorem length_splitOn (b : UInt8) (raw : Bytes) : (raw.splitOn b).length = raw.count b + 1 := by
  induction raw with
  | nil => rfl
  | cons c raw ih =>
    rw [List.splitOn] at ih ⊢
    rw [List.splitOnP_cons_eq_if_modifyHead, List.count_cons]
    split
    · rw [List.length_cons, ih]
    · rw [List.length_modifyHead, ih]

theorem pathKey_length (path : Text) : (pathKey path).length ≤ path.length + 1 := by
  rw [pathKey, splitSlashBytes, length_splitOn, encode]
  induction path with
  | nil => exact Nat.le_refl 1
  | cons c path ih =>
    rw [List.flatMap_cons, List.count_append, List.length_cons]
    have hc := count_slash_char c
    omega

section
variable {preparation : LocalPreparation} {tree : TreeEntries} {index : GitIndex}

/-- The replacement of a prepared path is its candidate blob. -/
theorem LocalPreparation.Read.replacement (h : preparation.Read lib repo tree index)
    {item : PreparedPath} (hitem : item ∈ preparation.paths) :
    (preparedReplacements preparation.paths).get? (pathKey item.path) = .some
    (item.mode, item.candidateBlobId) := by
  have hmem : pathKey item.path ∈ (preparedReplacements preparation.paths).keys :=
    mem_preparedReplacements.mpr (List.mem_map.mpr ⟨item, hitem, rfl⟩)
  obtain ⟨value, hvalue⟩ := Option.isSome_iff_exists.mp (get?_isSome_iff.mpr hmem)
  obtain ⟨other, hother, hkey, hotherValue⟩ := preparedReplacements_item hvalue
  have hpath : other.path = item.path := pathKey_inj hkey
  have hentry := (h.paths item hitem).entry
  have hotherEntry := (h.paths other hother).entry
  rw [hpath, hentry] at hotherEntry
  simp only [Except.ok.injEq, Prod.mk.injEq] at hotherEntry
  obtain ⟨hmode, -⟩ := hotherEntry
  obtain ⟨raw, hraw, -, hblob⟩ := (h.paths item hitem).candidate
  obtain ⟨raw', hraw', -, hblob'⟩ := (h.paths other hother).candidate
  rw [hpath, ← hmode, hraw] at hraw'
  cases hraw'
  rw [hvalue, hotherValue, ← hmode, hblob, hblob']

/-- The prepared paths are files of the tree. -/
theorem LocalPreparation.Read.resolves (h : preparation.Read lib repo tree index) :
    Resolves repo.objects (preparedReplacements preparation.paths) [] tree := by
  intro rest _ hmem
  obtain ⟨item, hitem, hkey⟩ := List.mem_map.mp (mem_preparedReplacements.mp hmem)
  have hfound := h.paths item hitem
  refine ⟨item.mode, item.headBlobId, ?_, ?_⟩
  · rw [List.nil_append] at hkey
    rw [← hkey]
    exact hfound.entry
  · have hregular := hfound.regular
    rw [regularModes, List.mem_cons, List.mem_singleton] at hregular
    rcases hregular with hmode | hmode <;> rw [hmode] <;> decide

theorem LocalPreparation.Read.modes (h : preparation.Read lib repo tree index) {path : List Bytes}
    {value : Nat × Text}
    (hvalue : (preparedReplacements preparation.paths).get? path = .some value) :
    isDirMode value.1 = false := by
  obtain ⟨item, hitem, -, rfl⟩ := preparedReplacements_item hvalue
  have hregular := (h.paths item hitem).regular
  rw [regularModes, List.mem_cons, List.mem_singleton] at hregular
  show isDirMode item.mode = false
  rcases hregular with hmode | hmode <;> rw [hmode] <;> decide

/-- On the repository that was prepared, `apply` collects the replacements of the preparation. -/
theorem replacePaths {items : List PreparedPath} : ∀ (acc : Replacements) (st : ObjectStore),
    (∀ item ∈ items, item.Found lib repo tree index) → repo.objects.Within st →
    st.Addressed lib ids →
      ∃ st', items.foldlM (replacePath lib repo index tree) (acc, st) =
          .ok (items.foldl (fun acc item =>
            acc.set (pathKey item.path) (item.mode, item.candidateBlobId)) acc, st') ∧
        st.Within st' ∧ st'.Addressed lib ids ∧
          (∀ item ∈ items, (st'.lookup item.candidateBlobId).isSome = true) ∧
        (st.GitNamed → st'.GitNamed) := by
  induction items with
  | nil => exact fun acc st _ _ haddressed =>
    ⟨st, rfl, .refl, haddressed, fun item hitem => absurd hitem List.not_mem_nil, fun h => h⟩
  | cons item items ih =>
    intro acc st hitems hst haddressed
    obtain ⟨hfound, hrest⟩ := List.forall_mem_cons.mp hitems
    obtain ⟨raw, hraw, hsha, hblob⟩ := hfound.candidate
    have hstep : replacePath lib repo index tree (acc, st) item =
        .ok (acc.set (pathKey item.path) (item.mode, item.candidateBlobId),
            st.add (lib.blobId raw) (.blob raw)) := by
      simp only [replacePath, hst.treeEntry hfound.entry, hfound.clean, hraw, hsha, hblob,
        Py.ok_bind, bne_self_eq_false, Bool.or_self, raiseIf_false]
      rfl
    have hadd := ObjectStore.within_add st (lib.blobId raw) (.blob raw)
    obtain ⟨st', hfold, hst', haddressed', hblobs, hnamed⟩ :=
      ih (acc.set (pathKey item.path) (item.mode, item.candidateBlobId))
      (st.add (lib.blobId raw) (.blob raw)) hrest (hst.trans hadd) (haddressed.add (.blob raw))
    refine ⟨st', ?_, hadd.trans hst', haddressed', List.forall_mem_cons.mpr ⟨?_, hblobs⟩,
      fun h => hnamed (h.add _ fun other hother => by cases hother)⟩
    · rw [List.foldlM_cons, hstep]
      exact hfold
    · rw [hblob]
      obtain ⟨object, hobject⟩ :=
        Option.isSome_iff_exists.mp (ObjectStore.lookup_add st (lib.blobId raw) (.blob raw))
      exact Option.isSome_iff_exists.mpr ⟨object, hst' _ _ hobject⟩

end

/-- The index entries of the replacements can be written where the files can be read. -/
theorem indexEntries_ok {worktree : Node} {paths : List PreparedPath}
    (h : ∀ item ∈ paths, ∃ raw, readWorktree lib worktree item.path item.mode = .ok raw) :
    ∃ written, indexEntries lib worktree (preparedReplacements paths) = .ok written := by
  rw [← Py.isOk_iff, indexEntries, mapM_isOk]
  intro entry hentry
  obtain ⟨key, value⟩ := entry
  have hmem : key ∈ (preparedReplacements paths).keys := List.mem_map.mpr ⟨_, hentry, rfl⟩
  obtain ⟨item, hitem, hkey⟩ := List.mem_map.mp (mem_preparedReplacements.mp hmem)
  obtain ⟨raw, hraw⟩ := h item hitem
  simp only [readWorktree, Py.bind_eq_ok] at hraw
  obtain ⟨-, -, parts, hresolve, -⟩ := hraw
  have hpath : decode (joinSlashBytes key) = .some item.path := by
    rw [← hkey, joinSlashBytes_pathKey, decode_encode]
  simp only [hpath, orRaise, Py.ok_bind, hresolve]
  rfl

theorem LocalPreparation.Read.indexEntries {preparation : LocalPreparation} {tree : TreeEntries}
    {index : GitIndex} (h : preparation.Read lib repo tree index) :
    ∃ written, indexEntries lib repo.worktree (preparedReplacements preparation.paths) =
      .ok written := by
  refine indexEntries_ok fun item hitem => ?_
  obtain ⟨raw, hraw, -⟩ := (h.paths item hitem).candidate
  exact ⟨raw, hraw⟩

/-! ## The two commits -/

/-- The arguments `apply` gets for a preparation. -/
def LocalPreparation.arguments (preparation : LocalPreparation) (message identity : Text)
    (timestamp : Int) (expected : Text) :
    ApplyArguments where
  paths := preparation.paths
  expectedHead := preparation.headSha
  expectedIndex := preparation.indexFingerprint
  branchRef := preparation.branchRef
  message := message
  identity := identity
  timestamp := timestamp
  expectedCommit := expected

/-- The entries of HEAD's tree. -/
def headEntries (repo : Repository) (preparation : LocalPreparation) : TreeEntries :=
  match headTree repo.objects preparation.headSha with
  | .ok (_, tree) => tree
  | .error _ => []

/-- A tree has the candidate blobs at the prepared paths, and what the old tree has at every path
that no prepared path is at or below. -/
structure Replaced (store : ObjectStore) (paths : List PreparedPath) (tree new : TreeEntries) :
    Prop where
  prepared : ∀ item ∈ paths, treeEntry store new (pathKey item.path) =
    .ok (item.mode, item.candidateBlobId)
  unchanged : ∀ parts, parts ≠ [] → (∀ item ∈ paths, ¬ parts <+: pathKey item.path) →
    treeEntry store new parts = treeEntry store tree parts

/-- The dry run gives an id, `apply` on the same repository makes the commit with it, and the
commit's tree is HEAD's with the prepared paths replaced. -/
def DryRunIsCommit (lib : Library) (ids : ObjectIds) (repo : Repository)
    (preparation : LocalPreparation) (message identity : Text) (timestamp : Int) : Prop :=
  ∃ sha commit store entries new written,
    expectedCommitSha lib ids repo preparation message identity timestamp = .ok sha ∧
    applyChecked lib ids repo (preparation.arguments message identity timestamp sha) =
      .ok (.commit commit store entries) ∧
    ids.commitId commit = sha ∧ indexEntries lib repo.worktree entries = .ok written ∧
    store.get commit.tree = .ok (.tree new) ∧
      Replaced store preparation.paths (headEntries repo preparation) new

theorem treeEntry_below_file {store : ObjectStore} {mode : Nat} {sha : Text}
    (hfile : isDirMode mode = false) :
    ∀ {parts : List Bytes} {tree : TreeEntries} {rest : List Bytes} {value : Nat × Text},
      rest ≠ [] →
      treeEntry store tree parts = .ok (mode, sha) → treeEntry store tree
        (parts ++ rest) ≠ .ok value
  | [], tree, rest, value, _, h => by cases tree <;> cases h
  | [part], tree, rest, value, hrest, h => by
    rw [List.singleton_append, treeEntry_file (treeEntry_single.mp h) hfile hrest]
    intro heq
    cases heq
  | part :: next :: parts, tree, rest, value, hrest, h => by
    obtain ⟨mode', sha', child, hlookup, hdir, hget, h⟩ :=
      (treeEntry_cons (List.cons_ne_nil next parts)).mp h
    rw [List.cons_append, treeEntry_directory hlookup hdir hget (by simp)]
    exact treeEntry_below_file hfile hrest h

section
variable {preparation : LocalPreparation} {tree : TreeEntries} {index : GitIndex}

/-- A tree that reads with the replacements in it is the old one with the prepared paths replaced.
-/
theorem replaced_of_reads {store store' : ObjectStore} {paths : List PreparedPath}
    {tree new : TreeEntries}
    (hreplacement : ∀ item ∈ paths, (preparedReplacements paths).get? (pathKey item.path) =
    .some (item.mode, item.candidateBlobId))
    (hresolves : Resolves store' (preparedReplacements paths) [] tree)
    (hreads : ReadsReplaced store (preparedReplacements paths) [] tree new) :
    Replaced store paths tree new where
  prepared := by
    intro item hitem
    refine (hreads (pathKey item.path) (pathKey_ne_nil _) fun rest hrest hmem => ?_).1 _
      (hreplacement item hitem)
    obtain ⟨mode, sha, hbelow, -⟩ := hresolves (pathKey item.path ++ rest) (by simp [hrest]) hmem
    have hkey : pathKey item.path ∈ (preparedReplacements paths).keys :=
      mem_preparedReplacements.mpr (List.mem_map.mpr ⟨item, hitem, rfl⟩)
    obtain ⟨mode', sha', hentry, hfile⟩ := hresolves (pathKey item.path) (pathKey_ne_nil _) hkey
    exact treeEntry_below_file hfile hrest hentry hbelow
  unchanged := by
    intro parts hparts hnone
    have hkeys : ∀ rest, parts ++ rest ∉ (preparedReplacements paths).keys := by
      intro rest hmem
      obtain ⟨item, hitem, hkey⟩ := List.mem_map.mp (mem_preparedReplacements.mp hmem)
      exact hnone item hitem ⟨rest, hkey.symm⟩
    refine (hreads parts hparts fun rest _ => hkeys rest).2 ?_
    rw [← Option.not_isSome_iff_eq_none, List.nil_append, get?_isSome_iff]
    have hself := hkeys []
    rwa [List.append_nil] at hself

/-- A rebuilt tree is the old one with the prepared paths replaced. -/
theorem LocalPreparation.Read.replaced (h : preparation.Read lib repo tree index)
    {store : ObjectStore} {new : TreeEntries}
    (hreads : ReadsReplaced store (preparedReplacements preparation.paths) [] tree new) :
    Replaced store preparation.paths tree new :=
  replaced_of_reads (fun _ hitem => h.replacement hitem) h.resolves hreads

theorem headTree_ok {store : ObjectStore} {head treeId : Text} {tree : TreeEntries}
    (h : headTree store head = .ok (treeId, tree)) :
    ∃ base : Commit, store.get head = .ok (.commit base) ∧ store.get base.tree = .ok (.tree tree) ∧
      base.tree = treeId := by
  rw [headTree] at h
  split at h
  next base hbase =>
    split at h
    next entries htree =>
      simp only [Except.ok.injEq, Prod.mk.injEq] at h
      obtain ⟨hid, rfl⟩ := h
      exact ⟨base, ObjectStore.get_ok.mpr hbase, ObjectStore.get_ok.mpr htree, hid⟩
    next => cases h
  next => cases h

/-- The dry run fails or succeeds with the tree it builds in memory. -/
theorem LocalPreparation.Read.expectedCommitSha_ok (h : preparation.Read lib repo tree index)
    {message identity sha : Text} {timestamp : Int} :
    expectedCommitSha lib ids repo preparation message identity timestamp = .ok sha ↔
      ∃ entries, rebuild ids (preparedReplacements preparation.paths) repo.objects recursionLimit
        [] tree = .ok entries ∧
        sha = ids.commitId
          (changesetCommit (ids.treeId entries) preparation.headSha message identity
          timestamp) := by
  obtain ⟨base, hbase, htree, -⟩ := headTree_ok h.head
  simp only [expectedCommitSha, h.opened, Py.ok_bind, hbase, htree, replaceTree_memory]
  cases rebuild ids (preparedReplacements preparation.paths) repo.objects recursionLimit []
      tree with
  | error e =>
    refine iff_of_false (fun h => by cases h) ?_
    intro h
    obtain ⟨entries, h, -⟩ := h
    cases h
  | ok entries =>
    constructor
    · intro h
      cases h
      exact ⟨entries, rfl, rfl⟩
    · intro h
      obtain ⟨entries, h, rfl⟩ := h
      cases h
      rfl

/-- The store `apply` leaves behind: it has the objects it had, the candidate blobs and the commit.
-/
structure AppliedStore (lib : Library) (ids : ObjectIds) (repo : Repository)
    (preparation : LocalPreparation) (sha : Text) (store : ObjectStore) : Prop where
  within : repo.objects.Within store
  addressed : store.Addressed lib ids
  commit : (store.lookup sha).isSome = true
  blobs : ∀ item ∈ preparation.paths, (store.lookup item.candidateBlobId).isSome = true
  named : repo.objects.GitNamed → store.GitNamed

/-- `apply` makes the commit over the tree it builds in the store. -/
theorem LocalPreparation.Read.applyChecked_ok (h : preparation.Read lib repo tree index)
    (hlaws : ids.Lawful lib) (haddressed : repo.objects.Addressed lib ids) {message identity : Text}
    {timestamp : Int} {entries : TreeEntries}
    (hbuilt : rebuild ids (preparedReplacements preparation.paths) repo.objects recursionLimit []
    tree = .ok entries) :
    ∃ store new,
      let commit := changesetCommit
        (ids.treeId entries) preparation.headSha message identity timestamp
      applyChecked lib ids repo
        (preparation.arguments message identity timestamp (ids.commitId commit)) =
          .ok (.commit commit store (preparedReplacements preparation.paths)) ∧
        store.get (ids.treeId entries) = .ok (.tree new) ∧
          Replaced store preparation.paths tree new ∧
        AppliedStore lib ids repo preparation (ids.commitId commit) store := by
  obtain ⟨base, hbase, htree, -⟩ := headTree_ok h.head
  obtain ⟨st, hfold, hst, hstAddressed, hblobs, hnamed⟩ :=
    replacePaths [] repo.objects h.paths .refl haddressed
  rw [← preparedReplacements] at hfold
  have hkeys : ∀ path ∈ (preparedReplacements preparation.paths).keys, ∀ name ∈ path,
      (47 : UInt8) ∉ name := by
    intro path hpath name hname
    obtain ⟨item, -, rfl⟩ := List.mem_map.mp (mem_preparedReplacements.mp hpath)
    exact not_mem_of_mem_splitOn hname
  obtain ⟨st', hreplace, hst', haddressed', hsome, hrebuilt, hnamed'⟩ :=
    replaceTree_stored lib hkeys hst hstAddressed hbuilt
  obtain ⟨new, hnew, hsame⟩ := hlaws.get_tree haddressed' hsome
  generalize hcommit : changesetCommit (ids.treeId entries) preparation.headSha message identity
    timestamp = commit
  have hparents : preparation.headSha ≠ ids.commitId commit := by
    intro heq
    have hacyclic := hlaws.acyclic commit
    rw [← heq, ← hcommit] at hacyclic
    exact hacyclic List.mem_cons_self
  have hadd := ObjectStore.within_add st' (ids.commitId commit) (.commit commit)
  have hwithin := (hst.trans hst').trans hadd
  refine ⟨st'.add (ids.commitId commit) (.commit commit), new, ?_, hadd.get hnew, ?_,
    hwithin, haddressed'.add (.commit commit), ObjectStore.lookup_add _ _ _, fun item hitem => ?_,
      fun h' => ?_⟩
  · simp only [applyChecked, LocalPreparation.arguments, h.opened, Py.ok_bind, bne_self_eq_false,
      raiseIf_false, if_neg hparents, applyCommit, h.staged, hbase, htree, hfold]
    simp only [hreplace, Py.ok_bind, hcommit, bne_self_eq_false, raiseIf_false]
    rfl
  · have hreads := Rebuilt.reads hlaws (haddressed'.add (.commit commit)) (fun _ _ => h.modes)
      (h.resolves.mono hwithin) (hrebuilt.mono hadd)
    refine h.replaced fun parts hparts hbelow => ?_
    cases parts with
    | nil => exact absurd rfl hparts
    | cons name rest =>
      rw [treeEntry_congr (hsame name)]
      exact hreads (name :: rest) hparts hbelow
  · obtain ⟨object, hobject⟩ := Option.isSome_iff_exists.mp (hblobs item hitem)
    exact Option.isSome_iff_exists.mpr ⟨object, (hst'.trans hadd) _ _ hobject⟩
  · exact (hnamed' (h'.get htree) (hnamed h')).add _ fun other hother => by cases hother

end

/-- **When the dry run is the commit**: exactly when every directory on the way to a prepared path
has the names that the prepared paths have at that depth. -/
theorem dry_run_commit_iff (lib : Library) (ids : ObjectIds) (repo : Repository)
    (candidates : List Candidate) (preparation : LocalPreparation) (message identity : Text)
    (timestamp : Int) (hlaws : ids.Lawful lib) (haddressed : repo.objects.Addressed lib ids)
    (hpaths : ∀ candidate ∈ candidates, candidate.path.length ≤ 300)
    (hprepared : GitLocal.prepare lib repo candidates = .ok preparation) :
    DryRunIsCommit lib ids repo preparation message identity timestamp ↔
      SiblingNames repo.objects (preparation.paths.map fun item => pathKey item.path) []
        (headEntries repo preparation) := by
  obtain ⟨tree, index, hread, hcandidates⟩ := prepare_read hprepared
  have hentries : headEntries repo preparation = tree := by rw [headEntries, hread.head]
  have hkeys : ∀ path, path ∈ (preparedReplacements preparation.paths).keys ↔
      path ∈ preparation.paths.map fun item => pathKey item.path :=
        fun path => mem_preparedReplacements
  have hdepth : ∀ path ∈ (preparedReplacements preparation.paths).keys,
      path.length ≤ ([] : List Bytes).length + recursionLimit := by
    intro path hpath
    obtain ⟨item, hitem, rfl⟩ := List.mem_map.mp ((hkeys path).mp hpath)
    obtain ⟨candidate, hcandidate, hsame⟩ := hcandidates item hitem
    have hlength := hpaths candidate hcandidate
    have hslashes := pathKey_length item.path
    rw [hsame] at hslashes ⊢
    have hlimit : recursionLimit = 1000 := rfl
    rw [List.length_nil]
    omega
  have hvisited : ∃ rest, rest ≠ [] ∧
      [] ++ rest ∈ (preparedReplacements preparation.paths).keys := by
    obtain ⟨item, hitem⟩ := List.exists_mem_of_ne_nil _ hread.nonempty
    exact ⟨pathKey item.path, pathKey_ne_nil _, (hkeys _).mpr (List.mem_map.mpr ⟨item, hitem, rfl⟩)⟩
  have hbuilt := @rebuild_iff _ ids _ _ _ _ hread.resolves hdepth hvisited
  have hnames : SiblingNames repo.objects (preparedReplacements preparation.paths).keys [] tree ↔
      SiblingNames repo.objects (preparation.paths.map fun item => pathKey item.path) [] tree := by
    simp only [SiblingNames, hkeys]
  rw [hentries, ← hnames, ← hbuilt]
  constructor
  · intro h
    obtain ⟨sha, commit, store, entries, new, written, hsha, -⟩ := h
    obtain ⟨built, hbuilt, -⟩ := hread.expectedCommitSha_ok.mp hsha
    exact ⟨built, hbuilt⟩
  · intro h
    obtain ⟨built, hbuilt⟩ := h
    obtain ⟨store, new, happly, hnew, hreplaced, -⟩ := hread.applyChecked_ok hlaws haddressed hbuilt
    obtain ⟨written, hwritten⟩ := hread.indexEntries
    refine ⟨_, _, store, _, new, written, hread.expectedCommitSha_ok.mpr ⟨built, hbuilt, rfl⟩,
      happly, rfl, hwritten, hnew, ?_⟩
    rw [hentries]
    exact hreplaced

/-! ## Two files in two directories

`a/x` and `b/y`, both holding `a`, committed on `main`. Ids and hashes are the real ones. -/

/-- Ids that are given for some contents and made up for the others: longer ones, one for each
number. -/
def givenId {α : Type} [DecidableEq α] (given : List (α × Text)) (letter : Char) (number : α → ℕ)
    (content : α) : Text :=
  (given.lookup content).getD (List.replicate (41 + number content) letter)

section
variable {α β : Type} [DecidableEq α] [DecidableEq β] {given : List (α × Text)}
  {given' : List (β × Text)} {letter letter' : Char} {number : α → ℕ} {number' : β → ℕ}

theorem givenId_cases (given : List (α × Text)) (letter : Char) (number : α → ℕ) (content : α) :
    (content, givenId given letter number content) ∈ given ∨
      givenId given letter number content = List.replicate (41 + number content) letter := by
  cases h : given.lookup content with
  | some id => exact .inl (mem_of_lookup (by rw [h, givenId, h]; rfl))
  | none => exact .inr (by rw [givenId, h]; rfl)

theorem givenId_inj (hlength : ∀ id ∈ given.map Prod.snd, id.length = 40)
    (hdistinct : (given.map Prod.snd).Nodup) (hnumber : Function.Injective number)
    {content content' : α}
    (h : givenId given letter number content = givenId given letter number content') :
    content = content' := by
  have hcases := givenId_cases given letter number content
  have hcases' := givenId_cases given letter number content'
  rw [← h] at hcases'
  generalize givenId given letter number content = id at hcases hcases'
  rcases hcases with hmem | hlong <;> rcases hcases' with hmem' | hlong'
  · exact congrArg Prod.fst (List.inj_on_of_nodup_map hdistinct hmem hmem' rfl)
  · have hshort := hlength id (List.mem_map.mpr ⟨_, hmem, rfl⟩)
    rw [hlong', List.length_replicate] at hshort
    omega
  · have hshort := hlength id (List.mem_map.mpr ⟨_, hmem', rfl⟩)
    rw [hlong, List.length_replicate] at hshort
    omega
  · have hsame := congrArg List.length (hlong.symm.trans hlong')
    rw [List.length_replicate, List.length_replicate] at hsame
    exact hnumber (by omega)

theorem givenId_ne (hlength : ∀ id ∈ given.map Prod.snd ++ given'.map Prod.snd, id.length = 40)
    (hdisjoint : ∀ id ∈ given.map Prod.snd, id ∉ given'.map Prod.snd) (hletter : letter ≠ letter')
    (content : α) (content' : β) :
    givenId given letter number content ≠ givenId given' letter' number' content' := by
  intro h
  have hcases := givenId_cases given letter number content
  have hcases' := givenId_cases given' letter' number' content'
  rw [← h] at hcases'
  generalize givenId given letter number content = id at hcases hcases'
  rcases hcases with hmem | hlong <;> rcases hcases' with hmem' | hlong'
  · exact hdisjoint id (List.mem_map.mpr ⟨_, hmem, rfl⟩) (List.mem_map.mpr ⟨_, hmem', rfl⟩)
  · have hshort := hlength id (List.mem_append_left _ (List.mem_map.mpr ⟨_, hmem, rfl⟩))
    rw [hlong', List.length_replicate] at hshort
    omega
  · have hshort := hlength id (List.mem_append_right _ (List.mem_map.mpr ⟨_, hmem', rfl⟩))
    rw [hlong, List.length_replicate] at hshort
    omega
  · have hmem : letter ∈ List.replicate (41 + number' content') letter' := by
      rw [← hlong', hlong]
      exact List.mem_replicate.mpr ⟨by omega, rfl⟩
    exact hletter (List.eq_of_mem_replicate hmem)

end

def blobNumber (data : Bytes) : ℕ := Encodable.encode (data.map UInt8.toNat)

def treeNumber (entries : TreeEntries) : ℕ :=
  Encodable.encode (entries.map fun entry =>
    (blobNumber entry.1, entry.2.1, entry.2.2.map Char.toNat))

/-- Larger than any of the parents is long. -/
def commitNumber (commit : Commit) : ℕ :=
  Nat.pair commit.parents.flatten.length
    (Encodable.encode (commit.tree.map Char.toNat, commit.parents.map (List.map Char.toNat),
    blobNumber commit.author, blobNumber commit.committer, blobNumber commit.message,
      commit.authorTime, commit.commitTime,
    commit.authorTimezone, commit.commitTimezone))

theorem textNumbers_injective : Function.Injective (List.map Char.toNat) :=
  List.map_injective_iff.mpr fun _ _ heq => Char.toNat_inj.mp heq

theorem blobNumber_injective : Function.Injective blobNumber := by
  intro data data' h
  exact List.map_injective_iff.mpr (fun _ _ heq => UInt8.toNat_inj.mp heq)
    (Encodable.encode_injective h)

theorem treeNumber_injective : Function.Injective treeNumber := by
  intro entries entries' h
  refine List.map_injective_iff.mpr ?_ (Encodable.encode_injective h)
  intro entry entry' heq
  simp only [Prod.mk.injEq] at heq
  exact Prod.ext (blobNumber_injective heq.1) (Prod.ext heq.2.1 (textNumbers_injective heq.2.2))

theorem commitNumber_injective : Function.Injective commitNumber := by
  intro commit commit' h
  have htuple := Encodable.encode_injective (Nat.pair_eq_pair.mp h).2
  simp only [Prod.mk.injEq] at htuple
  obtain ⟨htree, hparents, hauthor, hcommitter, hmessage, htime, htime', hzone, hzone'⟩ := htuple
  cases commit
  cases commit'
  rw [Commit.mk.injEq]
  exact ⟨textNumbers_injective htree, List.map_injective_iff.mpr textNumbers_injective hparents,
    blobNumber_injective hauthor, blobNumber_injective hcommitter, blobNumber_injective hmessage,
      htime, htime', hzone, hzone'⟩

def givenIds (trees : List (TreeEntries × Text)) (commits : List (Commit × Text)) : ObjectIds where
  treeId := givenId trees 't' treeNumber
  commitId := givenId commits 'c' commitNumber

theorem givenIds_faithful {blobs : List (Bytes × Text)} {trees : List (TreeEntries × Text)}
    {commits : List (Commit × Text)} (hblobs : lib.blobId = givenId blobs 'b' blobNumber)
    (hlength : ∀ id ∈ blobs.map Prod.snd ++ (trees.map Prod.snd ++ commits.map Prod.snd),
      id.length = 40)
    (hnodup : (blobs.map Prod.snd ++ (trees.map Prod.snd ++ commits.map Prod.snd)).Nodup)
    (hparents : ∀ commit ∈ commits, commit.2 ∉ commit.1.parents) :
    (givenIds trees commits).Faithful lib := by
  obtain ⟨hblobsNodup, hrest, hblobsFresh⟩ := List.nodup_append.mp hnodup
  obtain ⟨htreesNodup, hcommitsNodup, htreesFresh⟩ := List.nodup_append.mp hrest
  simp only [List.mem_append] at hlength hblobsFresh
  have hblobTree : ∀ data entries, givenId blobs 'b' blobNumber data ≠
      givenId trees 't' treeNumber entries :=
    givenId_ne (fun id hid => hlength id (by rw [List.mem_append] at hid; tauto))
      (fun id hid hid' => hblobsFresh id hid id (.inl hid') rfl) (by decide)
  have hblobCommit : ∀ data commit, givenId blobs 'b' blobNumber data ≠
      givenId commits 'c' commitNumber commit :=
    givenId_ne (fun id hid => hlength id (by rw [List.mem_append] at hid; tauto))
      (fun id hid hid' => hblobsFresh id hid id (.inr hid') rfl) (by decide)
  have htreeCommit : ∀ entries commit, givenId trees 't' treeNumber entries ≠
      givenId commits 'c' commitNumber commit :=
    givenId_ne (fun id hid => hlength id (by rw [List.mem_append] at hid; tauto))
      (fun id hid hid' => htreesFresh id hid id hid' rfl) (by decide)
  refine { tree := ?_, acyclic := ?_, blob := ?_, commit := ?_ }
  · intro entries object h
    cases object with
    | blob data => exact absurd (h.trans (congrFun hblobs data)).symm (hblobTree data entries)
    | tree other =>
      have hsame :=
        givenId_inj (fun id hid => hlength id (.inr (.inl hid))) htreesNodup treeNumber_injective h
      exact ⟨other, rfl, fun name => by rw [hsame]⟩
    | commit commit => exact absurd h (htreeCommit entries commit)
  · intro commit hmem
    rcases givenId_cases commits 'c' commitNumber commit with hgiven | hlong
    · exact hparents _ hgiven hmem
    · have hle := List.Sublist.length_le (List.sublist_flatten_of_mem hmem)
      have hid : (givenIds trees commits).commitId commit =
        givenId commits 'c' commitNumber commit := rfl
      have hpair :=
        Nat.left_le_pair commit.parents.flatten.length
        (Encodable.encode (commit.tree.map Char.toNat,
        commit.parents.map (List.map Char.toNat), blobNumber commit.author,
          blobNumber commit.committer, blobNumber commit.message,
        commit.authorTime, commit.commitTime, commit.authorTimezone, commit.commitTimezone))
      rw [hid, hlong, List.length_replicate, commitNumber] at hle
      omega
  · intro data object h
    rw [hblobs] at h
    cases object with
    | blob other =>
      have hsame :=
        givenId_inj (fun id hid => hlength id (.inl hid)) hblobsNodup blobNumber_injective
        (h.trans (congrFun hblobs other))
      rw [hsame]
    | tree entries => exact absurd h (hblobTree data entries)
    | commit commit => exact absurd h (hblobCommit data commit)
  · intro commit object h
    cases object with
    | blob data => exact absurd (h.trans (congrFun hblobs data)).symm (hblobCommit data commit)
    | tree entries => exact absurd h.symm (htreeCommit entries commit)
    | commit other =>
      have hsame := givenId_inj (fun id hid => hlength id (.inr (.inr hid))) hcommitsNodup
        commitNumber_injective h
      rw [hsame]

def twoRoot : Text := hexText 40 0xc2d3be04edc6e021240ba390689e56bda931705f

def twoA : Text := hexText 40 0x8e194e7bf4cb9cd5c0b725aa87b0ecfd19d7ccc9

def twoB : Text := hexText 40 0x6f8b9f4ed0b37e7746166fb7eabc6d0deb79885e

def twoBase : Text := hexText 40 0x2a87f80af708e088ea3cee24f5ee25d4d4fef48a

/-- The ids with `b` in `a/x`. -/
def twoNewA : Text := hexText 40 0x28f9b9bc8c0d9b147f8a593af2d91912a7ae572f

def twoNewRoot : Text := hexText 40 0xfeb3ac9c41987afc4bc83425b6479110281ab476

def twoCommit : Text := hexText 40 0x811c6a71c87edbd6b5b88c50a8a101a0f3126e7f

/-- The id of the commit that changes nothing. -/
def twoSameCommit : Text := hexText 40 0xecb8f42f67bcd4712650ce09d50aad519a88a867

def twoFiles (x y : Text) : TreeEntries × TreeEntries :=
  ([(encode ['x'], 0o100644, x)], [(encode ['y'], 0o100644, y)])

def twoDirectories (a b : Text) : TreeEntries :=
  [(encode ['a'], 0o040000, a), (encode ['b'], 0o040000, b)]

def twoBaseCommit : Commit :=
  ⟨twoRoot, [], encode exampleIdentity, encode exampleIdentity, encode ['m'], 1, 1, 0, 0⟩

def twoIds : ObjectIds :=
  givenIds [((twoFiles exampleBlobA exampleBlobA).1, twoA),
    ((twoFiles exampleBlobA exampleBlobA).2, twoB),
      (twoDirectories twoA twoB, twoRoot), ((twoFiles exampleBlobB exampleBlobA).1, twoNewA),
      (twoDirectories twoNewA twoB, twoNewRoot)]
    [(twoBaseCommit, twoBase),
      (changesetCommit twoNewRoot twoBase ['n'] exampleIdentity 2000000, twoCommit),
        (changesetCommit twoRoot twoBase ['n'] exampleIdentity 2000000, twoSameCommit)]

def twoIndexRaw : Bytes :=
  [68, 73, 82, 67, 0, 0, 0, 2, 0, 0, 0, 2] ++ List.replicate 26 0 ++ [129, 164] ++
    List.replicate 12 0 ++
    [46, 101, 239, 226, 161, 69, 221, 167, 238, 81, 209, 116, 18, 153, 248, 72, 229, 191, 117, 46,
      0, 3, 97, 47, 120] ++
    List.replicate 33 0 ++ [129, 164] ++ List.replicate 12 0 ++
    [46, 101, 239, 226, 161, 69, 221, 167, 238, 81, 209, 116, 18, 153, 248, 72, 229, 191, 117, 46,
      0, 3, 98, 47, 121] ++
    List.replicate 7 0 ++
    [87, 166, 215, 57, 48, 241, 201, 51, 31, 50, 245, 108, 76, 128, 85, 21, 249, 100, 167, 136]

def twoLibrary : Library :=
  { exampleLibrary with
    sha256 raw :=
      if raw = twoIndexRaw then
        hexText 64 0xf09e8d8a3c45ddebba9ecfeaf61e8a535140a1dcf4fa8799cdfe7cf398d0c7ac
      else exampleLibrary.sha256 raw
    blobId := givenId [(encode ['a'], exampleBlobA), (encode ['b'], exampleBlobB)] 'b' blobNumber }

def twoObjects : ObjectStore :=
  [(exampleBlobA, .blob (encode ['a'])), (twoA, .tree (twoFiles exampleBlobA exampleBlobA).1),
    (twoB, .tree (twoFiles exampleBlobA exampleBlobA).2),
      (twoRoot, .tree (twoDirectories twoA twoB)),
    (twoBase, .commit twoBaseCommit)]

/-- The repository with this text in the worktree's two files. -/
def twoRepository (text : Text) : Repository :=
  { exampleRepository (encode text) with
    worktree := .directory [("a".toList, .directory [("x".toList, .file 0o644 (encode text))]),
      ("b".toList, .directory [("y".toList, .file 0o644 (encode text))])]
    follow := .some (["HEAD".toList, "refs/heads/main".toList], .some twoBase)
    index := ⟨true, twoIndexRaw, .some ⟨[(encode "a/x".toList, ⟨exampleBlobA, 0o100644, 0⟩),
      (encode "b/y".toList, ⟨exampleBlobA, 0o100644, 0⟩)], false, false, false⟩⟩
    objects := twoObjects }

theorem twoIds_faithful : twoIds.Faithful twoLibrary := by
  refine @givenIds_faithful _ [(encode ['a'], exampleBlobA), (encode ['b'], exampleBlobB)] _
    _ rfl ?_ ?_ ?_
  · decide
  · decide
  · decide

def candidateX : Candidate := ⟨"a/x".toList, exampleShaA, exampleShaB⟩

def candidateY : Candidate := ⟨"b/y".toList, exampleShaA, exampleShaB⟩

def preparedX : PreparedPath :=
  ⟨"a/x".toList, exampleShaA, exampleShaB, 0o100644, exampleBlobA, exampleBlobB⟩

def preparedY : PreparedPath :=
  ⟨"b/y".toList, exampleShaA, exampleShaB, 0o100644, exampleBlobA, exampleBlobB⟩

def twoPreparation (paths : List PreparedPath) (diff : Text) : LocalPreparation where
  repositoryKey := hexText 64 0xd1bb8ca354673cd575d31d952490058c9943aef39d5a9553fb4a21ab7a59a19d
  branchRef := "refs/heads/main".toList
  headSha := twoBase
  indexFingerprint := hexText 64 0xf09e8d8a3c45ddebba9ecfeaf61e8a535140a1dcf4fa8799cdfe7cf398d0c7ac
  paths := paths
  previewDiff := diff
  treeId := twoRoot

def diffX : Text := "--- a/a/x\n+++ b/a/x\n@@ -1 +1 @@\n-a+b".toList

def diffY : Text := "--- a/b/y\n+++ b/b/y\n@@ -1 +1 @@\n-a+b".toList

/-- What preparing the two changes, and one of them, comes to, and their dry run. -/
theorem two_runs :
    (twoObjects.all fun entry => entry.1 = twoIds.objectId twoLibrary entry.2) = true ∧
    GitLocal.prepare twoLibrary (twoRepository ['b']) [candidateX, candidateY] =
      .ok (twoPreparation [preparedX, preparedY] (diffX ++ diffY)) ∧
    expectedCommitSha twoLibrary twoIds (twoRepository ['b'])
      (twoPreparation [preparedX, preparedY] (diffX ++ diffY)) ['n']
      exampleIdentity 2000000 = .error (.keyError "name") ∧
    GitLocal.prepare twoLibrary (twoRepository ['b']) [candidateX] = .ok
      (twoPreparation [preparedX] diffX) := by
  decide +kernel

theorem twoObjects_addressed : twoObjects.Addressed twoLibrary twoIds := by
  intro id object h
  have hall := two_runs.1
  exact of_decide_eq_true (List.all_eq_true.mp hall _ (mem_of_lookup h))

/-- Changes in two directories end the dry run in a `KeyError`. -/
theorem dry_run_key_error :
    ¬ ∀ (lib : Library) (ids : ObjectIds) (repo : Repository) (candidates : List Candidate)
    (preparation : LocalPreparation) (message identity : Text) (timestamp : Int), ids.Lawful lib →
      repo.objects.Addressed lib ids → (∀ candidate ∈ candidates, candidate.path.length ≤ 300) →
        GitLocal.prepare lib repo candidates = .ok preparation →
          DryRunIsCommit lib ids repo preparation message identity timestamp := by
  intro hall
  obtain ⟨sha, commit, store, entries, new, written, hsha, -⟩ :=
    hall twoLibrary twoIds (twoRepository ['b']) [candidateX, candidateY]
    (twoPreparation [preparedX, preparedY] (diffX ++ diffY)) ['n'] exampleIdentity 2000000
      twoIds_faithful.toLawful twoObjects_addressed
    (by decide) two_runs.2.1
  rw [two_runs.2.2.1] at hsha
  cases hsha

/-- A change in one directory is committed as it was run. -/
theorem dry_run_commit_one :
    DryRunIsCommit twoLibrary twoIds (twoRepository ['b']) (twoPreparation [preparedX] diffX)
      ['n'] exampleIdentity 2000000 :=
  (dry_run_commit_iff twoLibrary twoIds (twoRepository ['b']) [candidateX]
    (twoPreparation [preparedX] diffX) ['n'] exampleIdentity 2000000
    twoIds_faithful.toLawful twoObjects_addressed (by decide) two_runs.2.2.2).mpr (by
      have hkey : pathKey "a/x".toList = [encode ['a'], encode ['x']] := by decide
      intro rest hmem k hk path hpath name hname
      have hrest : rest = [encode ['a'], encode ['x']] := (List.mem_singleton.mp hmem).trans hkey
      have hpath' : path = [encode ['a'], encode ['x']] := (List.mem_singleton.mp hpath).trans hkey
      rw [hrest] at hk ⊢
      rw [hpath', List.length_nil, Nat.zero_add] at hname
      have htwo : k = 0 ∨ k = 1 := by
        have hlength : k < 2 := hk
        omega
      rcases htwo with rfl | rfl
      · cases hname
        exact ⟨(0o040000, twoA), by decide⟩
      · cases hname
        exact ⟨(0o100644, exampleBlobA), by decide⟩)

end Novalton
