/-
Proving the commit that `apply` made (`revalidate_committed_object` of
`modules/git_changesets/local.py`) on the repository as `apply` leaves it.

The proof compares the listings of two whole trees. It finds the prepared paths there
exactly when each of them got another blob, and it gets the listings exactly when all of
HEAD's tree can be listed, most of which `prepare` and `apply` never look at.
-/
import Novalton.Publication
import Novalton.TreeListing

namespace Novalton

variable {lib : Library} {ids : ObjectIds} {repo : Repository} {store : ObjectStore}

/-! ## Two trees that differ in the prepared paths -/

/-- On the way to an entry there are directories. -/
theorem treeEntry_prefix {value : Nat × Text} : ∀ {parts rest : List Bytes} {tree : TreeEntries},
    parts ≠ [] → rest ≠ [] →
    treeEntry store tree (parts ++ rest) = .ok value →
      ∃ mode sha child, treeEntry store tree parts = .ok (mode, sha) ∧ isDirMode mode = true ∧
        store.get sha = .ok (.tree child)
  | [], rest, tree, hparts, _, _ => absurd rfl hparts
  | [name], rest, tree, _, hrest, h => by
    obtain ⟨mode, sha, child, hlookup, hdir, hget, -⟩ := (treeEntry_cons hrest).mp h
    exact ⟨mode, sha, child, treeEntry_single.mpr hlookup, hdir, hget⟩
  | name :: next :: parts, rest, tree, _, hrest, h => by
    obtain ⟨mode, sha, child, hlookup, hdir, hget, h⟩ := (treeEntry_cons (by simp)).mp h
    rw [treeEntry_directory hlookup hdir hget (List.cons_ne_nil next parts)]
    exact treeEntry_prefix (List.cons_ne_nil next parts) hrest h

section
variable {paths : List PreparedPath} {tree tree' : TreeEntries}

/-- A path is prepared, on the way to a prepared one, or neither. -/
theorem path_cases (paths : List PreparedPath) (parts : List Bytes) :
    (∃ item ∈ paths, pathKey item.path = parts) ∨
    (∃ item ∈ paths, ∃ rest, rest ≠ [] ∧ pathKey item.path = parts ++ rest) ∨
      ∀ item ∈ paths, ¬ parts <+: pathKey item.path := by
  by_cases hprefix : ∃ item ∈ paths, parts <+: pathKey item.path
  · obtain ⟨item, hitem, rest, hrest⟩ := hprefix
    by_cases hnil : rest = []
    · rw [hnil, List.append_nil] at hrest
      exact .inl ⟨item, hitem, hrest.symm⟩
    · exact .inr (.inl ⟨item, hitem, rest, hnil, hrest.symm⟩)
  · push Not at hprefix
    exact .inr (.inr hprefix)

/-- A tree that has files at the prepared paths and agrees with a listed one elsewhere is listed. -/
theorem Listable.of_agree {depth : Nat} (h : Listable store depth [] tree)
    (hdepth : ∀ item ∈ paths, (pathKey item.path).length ≤ depth)
    (hfiles : ∀ item ∈ paths, ∃ value, treeEntry store tree' (pathKey item.path) = .ok value ∧
    isDirMode value.1 = false)
    (hagree : ∀ parts, parts ≠ [] → (∀ item ∈ paths, ¬ parts <+: pathKey item.path) →
      treeEntry store tree' parts = treeEntry store tree parts) :
      Listable store depth [] tree' := by
  intro parts mode sha hentry
  have hparts : parts ≠ [] := by
    intro hnil
    rw [hnil] at hentry
    cases tree' <;> cases hentry
  rcases path_cases paths parts with ⟨item, hitem, hkey⟩ | ⟨item, hitem, rest, hrest, hkey⟩ | hnone
  · obtain ⟨value, hvalue, hfile⟩ := hfiles item hitem
    rw [hkey, hentry] at hvalue
    cases hvalue
    refine ⟨fun hdir => ?_, fun _ => ?_⟩
    · rw [hdir] at hfile
      cases hfile
    · rw [List.nil_append, ← hkey, joinSlashBytes_pathKey, decode_encode]
      rfl
  · obtain ⟨value, hvalue, -⟩ := hfiles item hitem
    rw [hkey] at hvalue
    obtain ⟨mode', sha', child, hentry', hdir, hget⟩ := treeEntry_prefix hparts hrest hvalue
    rw [hentry] at hentry'
    cases hentry'
    have hlength := hdepth item hitem
    have hpos := List.length_pos_of_ne_nil hrest
    rw [hkey, List.length_append] at hlength
    refine ⟨fun _ => ⟨by omega, child, hget⟩, fun hfile => ?_⟩
    rw [hdir] at hfile
    cases hfile
  · rw [hagree parts hparts hnone] at hentry
    exact h parts mode sha hentry

end

theorem fileAt_nil {tree : TreeEntries} {key : Text} : fileAt store [] tree key = fileOf
    (treeEntry store tree (pathKey key)) :=
  fileAt_of_path (List.nil_append _).symm

section
variable {preparation : LocalPreparation} {tree new : TreeEntries} {index : GitIndex}

/-- What HEAD's tree has at a prepared path. -/
theorem LocalPreparation.Read.old_entry (h : preparation.Read lib repo tree index)
    (hstore : repo.objects.Within store) {item : PreparedPath} (hitem : item ∈ preparation.paths) :
    treeEntry store tree (pathKey item.path) = .ok (item.mode, item.headBlobId) ∧
      isDirMode item.mode = false := by
  refine ⟨hstore.treeEntry (h.paths item hitem).entry, ?_⟩
  exact h.modes (h.replacement hitem)

/-- **Where the listings differ**: at the prepared paths that got another blob. -/
theorem Replaced.fileAt_ne_iff (h : preparation.Read lib repo tree index)
    (hstore : repo.objects.Within store) (hreplaced : Replaced store preparation.paths tree new)
    (key : Text) :
    fileAt store [] tree key ≠ fileAt store [] new key ↔
      ∃ item ∈ preparation.paths, item.path = key ∧ item.candidateBlobId ≠ item.headBlobId := by
  have hitem : ∀ item ∈ preparation.paths, fileAt store [] tree item.path =
    .some (item.mode, item.headBlobId) ∧
      fileAt store [] new item.path = .some (item.mode, item.candidateBlobId) := by
    intro item hitem
    obtain ⟨hold, hfile⟩ := h.old_entry hstore hitem
    rw [fileAt_nil, fileAt_nil, hold, hreplaced.prepared item hitem]
    simp only [fileOf, hfile, Bool.false_eq_true, if_false, and_self]
  constructor
  · intro hne
    rcases path_cases preparation.paths (pathKey key) with ⟨item, hmem, hkey⟩ |
      ⟨item, hmem, rest, hrest, hkey⟩ | hnone
    · have hpath := pathKey_inj hkey
      refine ⟨item, hmem, hpath, fun heq => hne ?_⟩
      obtain ⟨hold, hnew⟩ := hitem item hmem
      rw [← hpath, hold, hnew, heq]
    · refine absurd ?_ hne
      have hold := (h.old_entry hstore hmem).1
      have hnew := hreplaced.prepared item hmem
      rw [hkey] at hold hnew
      obtain ⟨mode, sha, -, hentry, hdir, -⟩ := treeEntry_prefix (pathKey_ne_nil key) hrest hold
      obtain ⟨mode', sha', -, hentry', hdir', -⟩ := treeEntry_prefix (pathKey_ne_nil key) hrest hnew
      rw [fileAt_nil, fileAt_nil, hentry, hentry', fileOf, fileOf, if_pos hdir, if_pos hdir']
    · refine absurd ?_ hne
      rw [fileAt_nil, fileAt_nil, hreplaced.unchanged _ (pathKey_ne_nil key) hnone]
  · intro hdiffer
    obtain ⟨item, hmem, rfl, hblob⟩ := hdiffer
    obtain ⟨hold, hnew⟩ := hitem item hmem
    rw [hold, hnew]
    intro heq
    rw [Option.some.injEq, Prod.mk.injEq] at heq
    exact hblob heq.2.symm

end

/-- A path is changed where two listings differ. -/
theorem mem_changedPaths {old new : Dict Text (Nat × Text)} {key : Text} :
    key ∈ changedPaths old new ↔ old.get? key ≠ new.get? key := by
  rw [changedPaths, List.mem_filter, bne_iff_ne]
  refine ⟨fun h => h.2, fun hne => ⟨?_, hne⟩⟩
  have hmem : ∀ {d : Dict Text (Nat × Text)} {value : Nat × Text}, d.get? key = .some value →
      key ∈ d.keys := by
    intro d value hvalue
    rw [Dict.get?, Option.map_eq_some_iff] at hvalue
    obtain ⟨entry, hentry, -⟩ := hvalue
    exact List.mem_map.mpr ⟨entry, List.mem_of_find?_eq_some hentry,
      by simpa using List.find?_some hentry⟩
  cases hold : old.get? key with
  | some value => exact List.mem_append_left _ (hmem hold)
  | none =>
    cases hnew : new.get? key with
    | some value => exact List.mem_append_right _ (hmem hnew)
    | none => exact absurd (hold.trans hnew.symm) hne

theorem sameSet_iff {left right : List Text} : sameSet left right = true ↔ ∀ text, text ∈ left ↔
    text ∈ right := by
  simp only [sameSet, Bool.and_eq_true, List.all_eq_true, List.contains_iff_mem]
  constructor
  · intro h text
    exact ⟨h.1 text, h.2 text⟩
  · intro h
    exact ⟨fun text hmem => (h text).mp hmem, fun text hmem => (h text).mpr hmem⟩

/-! ## Proving the commit -/

/-- The repository with HEAD's branch at a commit and these objects. -/
def Repository.committed (repo : Repository) (sha : Text) (store : ObjectStore) : Repository :=
  { repo with follow := repo.follow.map fun head => (head.1, .some sha), objects := store }

/-- The arguments of `revalidate_committed_object` for the action of a preparation. -/
def LocalPreparation.readArguments (preparation : LocalPreparation) (message identity : Text)
    (timestamp : Int) (sha : Text) :
    ReadArguments where
  expectedCommit := sha
  expectedParent := preparation.headSha
  branchRef := preparation.branchRef
  message := message
  author := identity
  committer := identity
  timestamp := timestamp
  paths := preparation.paths.map PreparedPath.toJson
  expectedTree := .none

theorem openRepo_committed {branch head sha : Text} (h : openRepo lib repo = .ok (branch, head))
    (hsha : sha.length = 40) :
    openRepo lib (repo.committed sha store) = .ok (branch, sha) := by
  simp only [openRepo, Py.bind_eq_ok, orRaise_eq_ok, raiseIf_eq_ok] at h ⊢
  obtain ⟨u₁, hdir, ⟨chain, tip⟩, hfollow, u₂, hchain, head', htip, u₃, hlength, config, hconfig,
    u₄, hsupported, u₅, hdirect, h⟩ := h
  cases h
  refine ⟨u₁, hdir, (chain, .some sha), ?_, u₂, hchain, sha, rfl, u₃, ?_, config, hconfig, u₄,
    hsupported, u₅, hdirect, rfl⟩
  · rw [Repository.committed, hfollow]
    rfl
  · rw [Bool.or_eq_false_iff] at hlength
    rw [hsha]
    exact hlength.2

section
variable {preparation : LocalPreparation} {tree new : TreeEntries} {index : GitIndex}
  {message identity sha : Text} {timestamp : Int}

/-- The commit of the changeset passes the checks on its own fields. -/
theorem committedTrees_applied (h : preparation.Read lib repo tree index) (hids : ids.Faithful lib)
    {entries : TreeEntries}
    (hsha : sha = ids.commitId
    (changesetCommit (ids.treeId entries) preparation.headSha message identity timestamp))
    (hstore : AppliedStore lib ids repo preparation sha store)
    (hnew : store.get (ids.treeId entries) = .ok (.tree new)) :
    committedTrees store (preparation.readArguments message identity timestamp sha) = .ok
      (ids.treeId entries, new, tree) := by
  obtain ⟨base, hbase, htree, -⟩ := headTree_ok h.head
  obtain ⟨object, hobject⟩ := Option.isSome_iff_exists.mp hstore.commit
  have hcommit :
      object = .commit
      (changesetCommit (ids.treeId entries) preparation.headSha message identity timestamp) :=
    hids.commit _ _ (hsha.symm.trans (hstore.addressed _ _ hobject))
  rw [hcommit] at hobject
  simp only [committedTrees, LocalPreparation.readArguments, hobject, changesetCommit,
    bne_self_eq_false, raiseIf_false, Py.ok_bind, Option.any_none, decode_encode, orRaise,
      Bool.or_self, ObjectStore.getTree, hnew, hstore.within.get hbase,
    hstore.within.get htree]
  rfl

/-- A prepared path is proved from the two trees. -/
theorem proofItem_prepared (h : preparation.Read lib repo tree index) (hids : ids.Faithful lib)
    (hstore : AppliedStore lib ids repo preparation sha store)
    (hreplaced : Replaced store preparation.paths tree new) {item : PreparedPath}
    (hitem : item ∈ preparation.paths) :
    (proofItem lib store new tree item.toJson).isOk = true := by
  obtain ⟨raw, hraw, hcandidate, hblob⟩ := (h.paths item hitem).candidate
  obtain ⟨old, hold, hhead⟩ := (h.paths item hitem).head
  obtain ⟨object, hobject⟩ := Option.isSome_iff_exists.mp (hstore.blobs item hitem)
  have hobject' : object = .blob raw :=
    hids.blob raw object (hblob.symm.trans (hstore.addressed _ _ hobject))
  rw [hobject'] at hobject
  have hentry : treeEntry store new (splitSlashBytes (encode item.path)) =
      .ok (item.mode, item.candidateBlobId) :=
    hreplaced.prepared item hitem
  have hentry' : treeEntry store tree (splitSlashBytes (encode item.path)) =
      .ok (item.mode, item.headBlobId) :=
    (h.old_entry hstore.within hitem).1
  have hpath : pathOf item.toJson = .ok item.path := rfl
  have hmode : item.toJson.item "mode" = .ok (.int item.mode) := rfl
  have hfields : item.toJson.item "candidate_blob_id" = .ok (.str item.candidateBlobId) ∧
      item.toJson.item "head_blob_id" = .ok (.str item.headBlobId) ∧
      item.toJson.item "preimage_sha256" = .ok (.str item.headSha256) ∧
      item.toJson.item "candidate_sha256" = .ok (.str item.candidateSha256) := ⟨rfl, rfl, rfl, rfl⟩
  obtain ⟨hcandidateField, hheadField, hpreimageField, hshaField⟩ := hfields
  simp only [proofItem, hpath, hmode, hcandidateField, hheadField, hpreimageField, hshaField,
    hentry, hentry', Py.ok_bind, ObjectStore.get_ok.mpr hobject, hstore.within.get hold, Json.toInt,
      Except.map, Json.toText, hhead, hcandidate,
    bne_self_eq_false, raiseIf_false]
  rfl

end

theorem mapM_pathOf_toJson : ∀ paths : List PreparedPath,
    (paths.map PreparedPath.toJson).mapM pathOf = .ok (paths.map PreparedPath.path)
  | [] => rfl
  | item :: paths => by
    have hpath : pathOf item.toJson = .ok item.path := rfl
    rw [List.map_cons, List.mapM_cons, hpath, Py.ok_bind, mapM_pathOf_toJson paths]
    rfl

/-- A proof whose commit checks pass comes to the listings, their difference and the items. -/
theorem revalidate_isOk {current : Repository} {arguments : ReadArguments} {head treeSha : Text}
    {tree parentTree : TreeEntries} {expected : List Text}
    (hopen : openRepo lib current = .ok (arguments.branchRef, head))
    (htrees : committedTrees current.objects arguments = .ok (treeSha, tree, parentTree))
    (hexpected : arguments.paths.mapM pathOf = .ok expected) :
    (revalidateCommittedObject lib current arguments).isOk = true ↔ ∃ resulting old,
      treeEntries current.objects recursionLimit [] tree = .ok resulting ∧
      treeEntries current.objects recursionLimit [] parentTree = .ok old ∧ sameSet
        (changedPaths old resulting) expected = true ∧
      ∀ item ∈ arguments.paths, (proofItem lib current.objects tree parentTree item).isOk =
        true := by
  simp only [revalidateCommittedObject, hopen, htrees, hexpected, Py.ok_bind, bne_self_eq_false,
    raiseIf_false, Py.isOk_bind, raiseIf_eq_ok, Bool.not_eq_false', ← mapM_isOk]
  constructor
  · intro h
    obtain ⟨resulting, hresulting, old, hold, -, hsame, changes, hchanges, -⟩ := h
    exact ⟨resulting, old, hresulting, hold, hsame, Py.isOk_iff.mpr ⟨changes, hchanges⟩⟩
  · intro h
    obtain ⟨resulting, old, hresulting, hold, hsame, hchanges⟩ := h
    obtain ⟨changes, hchanges⟩ := Py.isOk_iff.mp hchanges
    exact ⟨resulting, hresulting, old, hold, (), hsame, changes, hchanges, rfl⟩

/-- **When an applied commit is publishable**: exactly when every prepared path got another blob
and all of HEAD's tree can be listed. -/
theorem applied_commit_publishable_iff (lib : Library) (ids : ObjectIds) (repo : Repository)
    (candidates : List Candidate) (preparation : LocalPreparation) (message identity sha : Text)
    (timestamp : Int) (commit : Commit) (store : ObjectStore) (entries : Replacements)
    (hids : ids.Faithful lib) (haddressed : repo.objects.Addressed lib ids)
    (hnamed : repo.objects.GitNamed) (hlength : sha.length = 40)
    (hpaths : ∀ candidate ∈ candidates, candidate.path.length ≤ 300)
    (hprepared : GitLocal.prepare lib repo candidates = .ok preparation)
    (hexpected : expectedCommitSha lib ids repo preparation message identity timestamp = .ok sha)
    (happlied : applyChecked lib ids repo (preparation.arguments message identity timestamp sha) =
    .ok (.commit commit store entries)) :
    (∃ proof, revalidateCommittedObject lib (repo.committed sha store)
        (preparation.readArguments message identity timestamp sha) = .ok proof) ↔
      (∀ item ∈ preparation.paths, item.candidateBlobId ≠ item.headBlobId) ∧
        Listable store recursionLimit [] (headEntries repo preparation) := by
  obtain ⟨tree, index, hread, hcandidates⟩ := prepare_read hprepared
  have hentries : headEntries repo preparation = tree := by rw [headEntries, hread.head]
  obtain ⟨built, hbuilt, hsha⟩ := hread.expectedCommitSha_ok.mp hexpected
  obtain ⟨store', new, happly, hnew, hreplaced, hstore⟩ :=
    @LocalPreparation.Read.applyChecked_ok _ _ _ _ _ _ hread hids.toLawful haddressed message
      identity timestamp _ hbuilt
  rw [← hsha] at happly hstore
  rw [happly] at happlied
  cases happlied
  have htrees := committedTrees_applied hread hids hsha hstore hnew
  obtain ⟨base, -, htree, -⟩ := headTree_ok hread.head
  have htreeNames : GitNames tree := hnamed.get htree
  have hnewNames : GitNames new := (hstore.named hnamed).get hnew
  have hdepth : ∀ item ∈ preparation.paths, (pathKey item.path).length ≤ recursionLimit := by
    intro item hitem
    obtain ⟨candidate, hcandidate, hsame⟩ := hcandidates item hitem
    have hlong := hpaths candidate hcandidate
    have hslashes := pathKey_length item.path
    rw [hsame] at hslashes ⊢
    have hlimit : recursionLimit = 1000 := rfl
    omega
  have hlistable : Listable store recursionLimit [] new ↔
      Listable store recursionLimit [] tree := by
    constructor
    · intro h
      exact h.of_agree hdepth (fun item hitem => ⟨_, hread.old_entry hstore.within hitem⟩)
        fun parts hparts hnone => (hreplaced.unchanged parts hparts hnone).symm
    · intro h
      exact h.of_agree hdepth (fun item hitem =>
        ⟨_, hreplaced.prepared item hitem, (hread.old_entry hstore.within hitem).2⟩)
        hreplaced.unchanged
  have hopen := @openRepo_committed _ _ store _ _ _ hread.opened hlength
  have hdiffer := hreplaced.fileAt_ne_iff hread hstore.within
  rw [hentries, ← Py.isOk_iff, revalidate_isOk hopen htrees (mapM_pathOf_toJson preparation.paths)]
  constructor
  · intro h
    obtain ⟨resulting, old, hresulting, hold, hsame, -⟩ := h
    refine ⟨fun item hitem => ?_, (treeEntries_isOk (hstore.named hnamed) htreeNames (by decide)).mp
      (Py.isOk_iff.mpr ⟨old, hold⟩)⟩
    obtain ⟨-, hgetOld⟩ :=
      treeEntries_get? (hstore.named hnamed) htreeNames (fun _ hpart =>
      absurd hpart List.not_mem_nil) hold
    obtain ⟨-, hgetNew⟩ :=
      treeEntries_get? (hstore.named hnamed) hnewNames (fun _ hpart =>
      absurd hpart List.not_mem_nil) hresulting
    have hchanged := (sameSet_iff.mp hsame item.path).mpr (List.mem_map.mpr ⟨item, hitem, rfl⟩)
    rw [mem_changedPaths, hgetOld, hgetNew, hdiffer] at hchanged
    obtain ⟨other, hother, hpath, hblob⟩ := hchanged
    have hreplacement := hread.replacement hother
    rw [hpath, hread.replacement hitem, Option.some.injEq, Prod.mk.injEq] at hreplacement
    have hentry := (hread.paths other hother).entry
    rw [hpath, (hread.paths item hitem).entry, Except.ok.injEq, Prod.mk.injEq] at hentry
    rw [hreplacement.2, hentry.2]
    exact hblob
  · intro h
    obtain ⟨hblobs, hlist⟩ := h
    obtain ⟨old, hold⟩ :=
      Py.isOk_iff.mp ((treeEntries_isOk (hstore.named hnamed) htreeNames (by decide)).mpr hlist)
    obtain ⟨resulting, hresulting⟩ :=
      Py.isOk_iff.mp
        ((treeEntries_isOk (hstore.named hnamed) hnewNames (by decide)).mpr (hlistable.mpr hlist))
    obtain ⟨-, hgetOld⟩ :=
      treeEntries_get? (hstore.named hnamed) htreeNames (fun _ hpart =>
      absurd hpart List.not_mem_nil) hold
    obtain ⟨-, hgetNew⟩ :=
      treeEntries_get? (hstore.named hnamed) hnewNames (fun _ hpart =>
      absurd hpart List.not_mem_nil) hresulting
    refine ⟨resulting, old, hresulting, hold, sameSet_iff.mpr fun text => ?_, fun item hitem => ?_⟩
    · rw [mem_changedPaths, hgetOld, hgetNew, hdiffer, List.mem_map]
      constructor
      · intro h
        obtain ⟨item, hitem, hpath, -⟩ := h
        exact ⟨item, hitem, hpath⟩
      · intro h
        obtain ⟨item, hitem, hpath⟩ := h
        exact ⟨item, hitem, hpath, hblobs item hitem⟩
    · obtain ⟨prepared, hmem, rfl⟩ := List.mem_map.mp hitem
      exact proofItem_prepared hread hids hstore hreplaced hmem

/-! ## Two files in two directories -/

instance (tree : TreeEntries) : Decidable (GitNames tree) := inferInstanceAs (Decidable (_ ∧ _))

/-- Whether an object of the store is a tree with the names git allows, or no tree. -/
def namedObject : GitObject → Bool
  | .tree entries => decide (GitNames entries)
  | _ => true

theorem gitNamed_of_all (h : (store.all fun entry => namedObject entry.2) = true) :
    store.GitNamed := by
  intro id tree hlookup
  have hnamed : namedObject (.tree tree) = true := List.all_eq_true.mp h _ (mem_of_lookup hlookup)
  exact of_decide_eq_true hnamed

/-- The store with the commit of `b` in `a/x`. -/
def twoStore : ObjectStore :=
  [(twoCommit, .commit (changesetCommit twoNewRoot twoBase ['n'] exampleIdentity 2000000)),
    (twoNewRoot, .tree (twoDirectories twoNewA twoB)),
      (twoNewA, .tree (twoFiles exampleBlobB exampleBlobA).1),
    (exampleBlobB, .blob (encode ['b']))] ++ twoObjects

/-- The prepared path whose candidate is what HEAD has. -/
def preparedSame : PreparedPath :=
  ⟨"a/x".toList, exampleShaA, exampleShaA, 0o100644, exampleBlobA, exampleBlobA⟩

def twoSameStore : ObjectStore :=
  (twoSameCommit, .commit (changesetCommit twoRoot twoBase ['n'] exampleIdentity 2000000)) ::
    twoObjects

/-- What committing `b` in `a/x` comes to, and what committing `a` there again does. -/
theorem applied_runs :
    ((twoStore.all fun entry => namedObject entry.2) = true ∧ GitNames (twoDirectories twoA twoB) ∧
      (treeEntries twoStore recursionLimit [] (twoDirectories twoA twoB)).isOk = true) ∧
    (twoObjects.all fun entry => namedObject entry.2) = true ∧
    (twoCommit.length = 40 ∧
      expectedCommitSha twoLibrary twoIds (twoRepository ['b']) (twoPreparation [preparedX] diffX)
        ['n'] exampleIdentity 2000000 =
        .ok twoCommit ∧
      applyChecked twoLibrary twoIds (twoRepository ['b'])
          ((twoPreparation [preparedX] diffX).arguments ['n'] exampleIdentity 2000000 twoCommit) =
        .ok (.commit (changesetCommit twoNewRoot twoBase ['n'] exampleIdentity 2000000) twoStore
          [(pathKey "a/x".toList, (0o100644, exampleBlobB))]) ∧
      ∀ item ∈ (twoPreparation [preparedX] diffX).paths, item.candidateBlobId ≠ item.headBlobId) ∧
    twoSameCommit.length = 40 ∧
      GitLocal.prepare twoLibrary (twoRepository ['a']) [⟨"a/x".toList, exampleShaA, exampleShaA⟩] =
        .ok (twoPreparation [preparedSame] []) ∧
      expectedCommitSha twoLibrary twoIds (twoRepository ['a']) (twoPreparation [preparedSame] [])
        ['n'] exampleIdentity 2000000 =
        .ok twoSameCommit ∧
      applyChecked twoLibrary twoIds (twoRepository ['a'])
          ((twoPreparation [preparedSame] []).arguments ['n'] exampleIdentity 2000000
            twoSameCommit) =
        .ok (.commit (changesetCommit twoRoot twoBase ['n'] exampleIdentity 2000000) twoSameStore
          [(pathKey "a/x".toList, (0o100644, exampleBlobA))]) ∧
      revalidateCommittedObject twoLibrary
        ((twoRepository ['a']).committed twoSameCommit twoSameStore)
          ((twoPreparation [preparedSame] []).readArguments ['n'] exampleIdentity 2000000
            twoSameCommit) =
        .error (.tool "git_publication_changeset_mismatch") := by
  decide +kernel

theorem applied_commit_publishable_one :
    ∃ proof, revalidateCommittedObject twoLibrary
      ((twoRepository ['b']).committed twoCommit twoStore)
      ((twoPreparation [preparedX] diffX).readArguments ['n'] exampleIdentity 2000000 twoCommit) =
      .ok proof := by
  obtain ⟨⟨hnames, hroot, hlists⟩, hobjects, ⟨hlength, hexpected, happlied, hchanged⟩, -⟩ :=
    applied_runs
  have hnamed : twoStore.GitNamed := gitNamed_of_all hnames
  have hlisted : Listable twoStore recursionLimit [] (twoDirectories twoA twoB) :=
    (treeEntries_isOk hnamed hroot (by decide)).mp hlists
  exact (applied_commit_publishable_iff twoLibrary twoIds (twoRepository ['b']) [candidateX]
    (twoPreparation [preparedX] diffX) ['n']
    exampleIdentity twoCommit 2000000
      (changesetCommit twoNewRoot twoBase ['n'] exampleIdentity 2000000) twoStore
    [(pathKey "a/x".toList, (0o100644, exampleBlobB))] twoIds_faithful twoObjects_addressed
    (gitNamed_of_all hobjects) hlength (by decide) two_runs.2.2.2 hexpected happlied).mpr ⟨hchanged,
      hlisted⟩

/-- A candidate that equals its preimage is committed, and the commit is not proved. -/
theorem applied_commit_unpublishable :
    ¬ ∀ (lib : Library) (ids : ObjectIds) (repo : Repository) (candidates : List Candidate)
    (preparation : LocalPreparation) (message identity sha : Text) (timestamp : Int)
    (commit : Commit) (store : ObjectStore) (entries : Replacements), ids.Faithful lib →
    repo.objects.Addressed lib ids → repo.objects.GitNamed → sha.length = 40 →
      (∀ candidate ∈ candidates, candidate.path.length ≤ 300) →
      GitLocal.prepare lib repo candidates = .ok preparation →
        expectedCommitSha lib ids repo preparation message identity timestamp = .ok sha →
          applyChecked lib ids repo (preparation.arguments message identity timestamp sha) = .ok
            (.commit commit store entries) →
            ∃ proof, revalidateCommittedObject lib (repo.committed sha store)
              (preparation.readArguments message identity timestamp sha) = .ok proof := by
  intro hall
  obtain ⟨-, hobjects, -, hlength, hprepared, hexpected, happlied, hfails⟩ := applied_runs
  obtain ⟨proof, hproof⟩ :=
    hall twoLibrary twoIds (twoRepository ['a']) [⟨"a/x".toList, exampleShaA, exampleShaA⟩]
    (twoPreparation [preparedSame] []) ['n'] exampleIdentity twoSameCommit 2000000
    (changesetCommit twoRoot twoBase ['n'] exampleIdentity 2000000) twoSameStore
      [(pathKey "a/x".toList, (0o100644, exampleBlobA))]
    twoIds_faithful twoObjects_addressed (gitNamed_of_all hobjects) hlength (by decide) hprepared
      hexpected happlied
  rw [hfails] at hproof
  cases hproof

end Novalton
