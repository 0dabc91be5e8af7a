/-
Publishing an applied commit: the object-store proof of it
(`revalidate_committed_object` and `read_publication_objects` of
`modules/git_changesets/local.py`) and the two reads that use it in
`modules/github_publications/service.py`.

`prepare` reads with the commit action's `prepared_paths` and stores the proof it
gets as `changeset_proof`; `publish` reads again with the paths of that stored proof.
The proof's items carry neither `head_blob_id` nor `preimage_sha256`, which the read
looks up in every item it is given, so the second read fails on the shape of the
proof, whatever the repository holds.

JSON objects keep what was stored in them; only strings and integers occur here.
-/
import Novalton.GitLocal

namespace Novalton

/-! ## Rows -/

/-- A `GitCommitAction` row, the columns publication reads. Times are microseconds
since the epoch. -/
structure GitCommitAction where
  branchRef : Text
  preparedHeadSha : Text
  preparedPaths : List JsonObject
  commitMessage : Text
  authorIdentity : Text
  committerIdentity : Text
  commitTimestamp : Int
  expectedCommitSha : Text
  status : Text
  resultingCommitSha : Option Text
deriving DecidableEq

/-- The item of `prepared_paths` for a prepared path. -/
def PreparedPath.toJson (item : PreparedPath) : JsonObject :=
  [("path", .str item.path), ("preimage_sha256", .str item.headSha256),
    ("candidate_sha256", .str item.candidateSha256), ("mode", .int item.mode),
      ("head_blob_id", .str item.headBlobId), ("candidate_blob_id", .str item.candidateBlobId)]

/-- `_IDENTITY`. -/
def gitIdentity : Text := "Novalton OS <novalton@local.invalid>".toList

/-- The row `prepare` of the commit service adds for a preparation. -/
def GitCommitAction.ofPreparation (preparation : LocalPreparation) (message : Text)
    (timestamp : Int) (expected : Text) : GitCommitAction where
  branchRef := preparation.branchRef
  preparedHeadSha := preparation.headSha
  preparedPaths := preparation.paths.map PreparedPath.toJson
  commitMessage := message
  authorIdentity := gitIdentity
  committerIdentity := gitIdentity
  commitTimestamp := timestamp
  expectedCommitSha := expected
  status := "PENDING_APPROVAL".toList
  resultingCommitSha := .none

/-- The row after `approve_and_apply` applied it to the commit `sha`. -/
def GitCommitAction.applied (action : GitCommitAction) (sha : Text) : GitCommitAction :=
  { action with status := "APPLIED".toList, resultingCommitSha := .some sha }

/-- The proof `revalidate_committed_object` returns, stored as `changeset_proof`. -/
structure ChangesetProof where
  parentSha : Text
  treeSha : Text
  commitSha : Text
  message : Text
  author : Text
  committer : Text
  timestamp : Int
  changes : List JsonObject
deriving DecidableEq

/-- A `GitHubPublicationAction` row, as far as `publish` reads local objects with it. -/
structure PublicationAction where
  localParentSha : Text
  localTreeSha : Text
  localCommitSha : Text
  changesetProof : ChangesetProof
deriving DecidableEq

/-! ## Reading the objects of a commit -/

/-- The keyword arguments of `read_publication_objects`. -/
structure ReadArguments where
  expectedCommit : Text
  expectedParent : Text
  branchRef : Text
  message : Text
  author : Text
  committer : Text
  timestamp : Int
  paths : List JsonObject
  expectedTree : Option Text

/-- `int(timestamp.timestamp())`. -/
def epochSeconds (timestamp : Int) : Int := timestamp.tdiv 1000000

/-- `datetime.fromtimestamp(float(seconds), UTC)`. -/
def fromTimestamp (seconds : Int) : Int := seconds * 1000000

@[simp] theorem epochSeconds_fromTimestamp (s : Int) : epochSeconds (fromTimestamp s) = s :=
  Int.mul_tdiv_cancel s (by decide)

/-- The tree of a commit and its id, or the exception for an object that is none. -/
def ObjectStore.getTree (store : ObjectStore) (sha : Text) (error : PyError) : Py TreeEntries := do
  match ← store.get sha with
  | .tree entries => return entries
  | _ => .error error

/-- The checks on the commit itself, to its tree and its parent's. -/
def committedTrees (store : ObjectStore) (arguments : ReadArguments) :
    Py (Text × TreeEntries × TreeEntries) := do
  match store.lookup arguments.expectedCommit with
  | .none => .error (.tool "git_publication_commit_missing")
  | .some (.commit commit) => do
    raiseIf (commit.parents != [arguments.expectedParent])
      (.tool "git_publication_commit_proof_invalid")
    -- an empty expected tree is falsy
    raiseIf (arguments.expectedTree.any fun tree => !tree.isEmpty && commit.tree != tree)
      (.tool "git_publication_tree_mismatch")
    let message ← orRaise (decode commit.message) .unicodeDecodeError
    raiseIf (message != arguments.message) (.tool "git_publication_metadata_mismatch")
    let author ← orRaise (decode commit.author) .unicodeDecodeError
    raiseIf (author != arguments.author) (.tool "git_publication_metadata_mismatch")
    let committer ← orRaise (decode commit.committer) .unicodeDecodeError
    raiseIf (committer != arguments.committer) (.tool "git_publication_metadata_mismatch")
    raiseIf (commit.authorTime != epochSeconds arguments.timestamp ||
      commit.commitTime != epochSeconds arguments.timestamp || commit.authorTimezone != 0 ||
        commit.commitTimezone != 0)
      (.tool "git_publication_timestamp_mismatch")
    let tree ← store.getTree commit.tree (.tool "git_publication_tree_invalid")
    match ← store.get arguments.expectedParent with
    | .commit parent => do
      let parentTree ← store.getTree parent.tree (.tool "git_publication_parent_invalid")
      return (commit.tree, tree, parentTree)
    | _ => .error (.tool "git_publication_parent_invalid")
  | .some _ => .error (.tool "git_publication_commit_proof_invalid")

/-- The paths at which two flattened trees differ. -/
def changedPaths (old new : Dict Text (Nat × Text)) : List Text :=
  (old.keys ++ new.keys).filter fun path => old.get? path != new.get? path

/-- Two lists hold the same elements (`!=` on the sets of them). -/
def sameSet (left right : List Text) : Bool := left.all right.contains && right.all left.contains

/-- `str(item["path"])`. -/
def pathOf (item : JsonObject) : Py Text := (item.item "path").map Json.toText

/-- The body of the proof loop: the item of the proof for a path. -/
def proofItem (lib : Library) (store : ObjectStore) (tree parentTree : TreeEntries)
    (item : JsonObject) :
    Py JsonObject := do
  let path ← pathOf item
  let (mode, blobId) ← treeEntry store tree (splitSlashBytes (encode path))
  let (oldMode, oldBlobId) ← treeEntry store parentTree (splitSlashBytes (encode path))
  let blob ← store.get blobId
  let oldBlob ← store.get oldBlobId
  match blob, oldBlob with
  | .blob data, .blob oldData => do
    let expectedMode ← (← item.item "mode").toInt
    raiseIf ((mode : Int) != expectedMode) (.tool "git_publication_changeset_mismatch")
    let candidateBlobId ← (item.item "candidate_blob_id").map Json.toText
    raiseIf (blobId != candidateBlobId) (.tool "git_publication_changeset_mismatch")
    raiseIf ((oldMode : Int) != expectedMode) (.tool "git_publication_changeset_mismatch")
    let headBlobId ← (item.item "head_blob_id").map Json.toText
    raiseIf (oldBlobId != headBlobId) (.tool "git_publication_changeset_mismatch")
    let preimageSha ← (item.item "preimage_sha256").map Json.toText
    raiseIf (lib.sha256 oldData != preimageSha) (.tool "git_publication_blob_mismatch")
    let candidateSha ← (item.item "candidate_sha256").map Json.toText
    raiseIf (lib.sha256 data != candidateSha) (.tool "git_publication_blob_mismatch")
    return [("path", .str path), ("mode", .int mode), ("blob_sha", .str blobId),
      ("blob_sha256", .str (lib.sha256 data)), ("candidate_blob_id", .str blobId),
      ("candidate_sha256", .str (lib.sha256 data))]
  | _, _ => .error (.tool "git_publication_changeset_mismatch")

/-- `revalidate_committed_object`. -/
def revalidateCommittedObject (lib : Library) (repo : Repository) (arguments : ReadArguments) :
    Py ChangesetProof := do
  let (branch, _) ← openRepo lib repo
  raiseIf (branch != arguments.branchRef) (.tool "git_publication_branch_mismatch")
  let (treeSha, tree, parentTree) ← committedTrees repo.objects arguments
  let resultingEntries ← treeEntries repo.objects recursionLimit [] tree
  let parentEntries ← treeEntries repo.objects recursionLimit [] parentTree
  let expectedPaths ← arguments.paths.mapM pathOf
  raiseIf (!sameSet (changedPaths parentEntries resultingEntries) expectedPaths)
    (.tool "git_publication_changeset_mismatch")
  let changes ← arguments.paths.mapM (proofItem lib repo.objects tree parentTree)
  return {
    parentSha := arguments.expectedParent
    treeSha
    commitSha := arguments.expectedCommit
    message := arguments.message
    author := arguments.author
    committer := arguments.committer
    timestamp := epochSeconds arguments.timestamp
    changes }

/-- The blob of a path in a commit's tree, as the remote replay needs it. -/
structure PublicationObject where
  path : Text
  mode : Nat
  content : Bytes
  sha : Text
deriving DecidableEq

/-- The body of the second loop: the blob at an item's path. -/
def publicationObject (store : ObjectStore) (tree : TreeEntries) (item : JsonObject) :
    Py PublicationObject := do
  let path ← pathOf item
  let (mode, blobId) ← treeEntry store tree (splitSlashBytes (encode path))
  match ← store.get blobId with
  | .blob data => return ⟨path, mode, data, blobId⟩
  | _ => .error .assertionError

/-- `read_publication_objects`. -/
def readPublicationObjects (lib : Library) (repo : Repository) (arguments : ReadArguments) :
    Py (ChangesetProof × List PublicationObject) := do
  let proof ← revalidateCommittedObject lib repo arguments
  let _ ← openRepo lib repo
  match ← repo.objects.get arguments.expectedCommit with
  | .commit commit => do
    let tree ← repo.objects.getTree commit.tree .assertionError
    let objects ← arguments.paths.mapM (publicationObject repo.objects tree)
    return (proof, objects)
  | _ => .error .assertionError

/-! ## The two reads of a publication -/

/-- The read of `prepare`, with the arguments it takes from the commit action. -/
def preparationRead (lib : Library) (repo : Repository) (commit : GitCommitAction) :
    Py (ChangesetProof × List PublicationObject) :=
  match commit.resultingCommitSha with
  | .none => .error (.tool "git_commit_not_approved")
  | .some resulting => do
    raiseIf (commit.status != "APPLIED".toList || resulting.isEmpty)
      (.tool "git_commit_not_approved")
    readPublicationObjects lib repo {
      expectedCommit := resulting
      expectedParent := commit.preparedHeadSha
      branchRef := commit.branchRef
      message := commit.commitMessage
      author := commit.authorIdentity
      committer := commit.committerIdentity
      timestamp := commit.commitTimestamp
      paths := commit.preparedPaths
      expectedTree := .none }

/-- The publication row `prepare` stores for a proof. -/
def PublicationAction.ofProof (commit : GitCommitAction) (proof : ChangesetProof) :
    PublicationAction where
  localParentSha := commit.preparedHeadSha
  localTreeSha := proof.treeSha
  localCommitSha := commit.resultingCommitSha.getD []
  changesetProof := proof

/-- The read of `publish`, on the base branch of the trusted binding. -/
def publishRead (lib : Library) (repo : Repository) (baseBranch : Text)
    (action : PublicationAction) :
    Py (ChangesetProof × List PublicationObject) :=
  readPublicationObjects lib repo {
    expectedCommit := action.localCommitSha
    expectedParent := action.localParentSha
    branchRef := "refs/heads/".toList ++ baseBranch
    message := action.changesetProof.message
    author := action.changesetProof.author
    committer := action.changesetProof.committer
    timestamp := fromTimestamp action.changesetProof.timestamp
    paths := action.changesetProof.changes
    expectedTree := .some action.localTreeSha }

/-! ## The shape of the stored proof -/

section
variable {lib : Library} {store : ObjectStore} {tree parentTree : TreeEntries}

theorem item_of_lookup_none {object : JsonObject} (key : String) (h : object.lookup key = .none) :
    object.item key = .error (.keyError key) := by
  rw [JsonObject.item, h]
  rfl

/-- What `proofItem` accepts, and the item it makes. -/
theorem proofItem_ok {item change : JsonObject}
    (h : proofItem lib store tree parentTree item = .ok change) :
    ∃ path mode blobId oldBlobId data oldData, pathOf item = .ok path ∧
      treeEntry store tree (splitSlashBytes (encode path)) = .ok (mode, blobId) ∧
      treeEntry store parentTree (splitSlashBytes (encode path)) = .ok (mode, oldBlobId) ∧
      store.get blobId = .ok (.blob data) ∧ store.get oldBlobId = .ok (.blob oldData) ∧
      (∃ headBlobId, item.item "head_blob_id" = .ok headBlobId) ∧
      change = [("path", .str path), ("mode", .int mode), ("blob_sha", .str blobId),
        ("blob_sha256", .str (lib.sha256 data)), ("candidate_blob_id", .str blobId),
        ("candidate_sha256", .str (lib.sha256 data))] := by
  simp only [proofItem, Py.bind_eq_ok] at h
  obtain ⟨path, hpath, ⟨mode, blobId⟩, hentry, ⟨oldMode, oldBlobId⟩, hold, blob, hblob, oldBlob,
    holdBlob, h⟩ := h
  split at h
  next data oldData =>
    simp only [Py.bind_eq_ok, raiseIf_eq_ok, bne_eq_false_iff_eq] at h
    obtain ⟨modeItem, -, expectedMode, -, -, hmode, -, -, -, -, -, hmode', headBlobId, hhead, -, -,
      -, -, -, -, -, -, -, -, h⟩ := h
    cases h
    have hmodes : oldMode = mode := by omega
    subst hmodes
    have hitem : ∃ value, item.item "head_blob_id" = .ok value := by
      cases hv : item.item "head_blob_id" with
      | ok value => exact ⟨value, rfl⟩
      | error e => rw [hv] at hhead; cases hhead
    exact ⟨path, oldMode, blobId, oldBlobId, data, oldData, hpath, hentry, hold, hblob, holdBlob,
      hitem, rfl⟩
  next => cases h

/-- The proof's items have the paths they were made from, and no `head_blob_id`. -/
theorem proofItem_shape {item change : JsonObject}
    (h : proofItem lib store tree parentTree item = .ok change) :
    change.lookup "head_blob_id" = .none ∧ pathOf change = pathOf item := by
  obtain ⟨path, mode, blobId, oldBlobId, data, oldData, hpath, -, -, -, -, -, rfl⟩ := proofItem_ok h
  exact ⟨rfl, by rw [hpath]; rfl⟩

/-- An item without `head_blob_id` is never proved. -/
theorem proofItem_without_head {item change : JsonObject}
    (hnone : item.lookup "head_blob_id" = .none) :
    proofItem lib store tree parentTree item ≠ .ok change := by
  intro h
  obtain ⟨-, -, -, -, -, -, -, -, -, -, -, ⟨headBlobId, hhead⟩, -⟩ := proofItem_ok h
  rw [item_of_lookup_none "head_blob_id" hnone] at hhead
  cases hhead

/-- Reading an item of the proof against the trees it was made from gets as far as the
missing key. -/
theorem proofItem_reread {item change : JsonObject}
    (h : proofItem lib store tree parentTree item = .ok change) :
    proofItem lib store tree parentTree change = .error (.keyError "head_blob_id") := by
  obtain ⟨path, mode, blobId, oldBlobId, data, oldData, -, hentry, hold, hblob, holdBlob, -, rfl⟩ :=
    proofItem_ok h
  have hpath : ∀ rest, pathOf (("path", .str path) :: rest) = .ok path := fun _ => rfl
  have hmode : ∀ rest, JsonObject.item (("path", .str path) :: ("mode", .int mode) :: rest) "mode" =
      .ok (.int mode) := fun _ => rfl
  simp only [proofItem, hpath, hmode, hentry, hold, hblob, holdBlob, Py.ok_bind, Json.toInt,
    bne_self_eq_false, raiseIf_false]
  rw [item_of_lookup_none "head_blob_id" rfl]
  simp [JsonObject.item, List.lookup_cons, orRaise, Except.map, Json.toText]

theorem mapM_proofItem_shape : ∀ {items changes : List JsonObject},
    items.mapM (proofItem lib store tree parentTree) = .ok changes →
      (∀ change ∈ changes, change.lookup "head_blob_id" = .none) ∧
      changes.mapM pathOf = items.mapM pathOf
  | [], changes, h => by
    simp only [List.mapM_nil, pure, Except.pure, Except.ok.injEq] at h
    subst h
    simp
  | item :: items, changes, h => by
    simp only [List.mapM_cons, Py.bind_eq_ok] at h
    obtain ⟨change, hchange, rest, hrest, h⟩ := h
    cases h
    obtain ⟨hnone, hpath⟩ := proofItem_shape hchange
    obtain ⟨hall, hpaths⟩ := mapM_proofItem_shape hrest
    refine ⟨?_, by rw [List.mapM_cons, List.mapM_cons, hpath, hpaths]⟩
    intro c hc
    rcases List.mem_cons.mp hc with rfl | hc
    · exact hnone
    · exact hall c hc

/-- The commit's checks depend on the arguments only through what a proof of it keeps,
and then pass again, whichever tree id is expected beside the proved one. -/
theorem committedTrees_reread {arguments again : ReadArguments} {treeSha : Text}
    (h : committedTrees store arguments = .ok (treeSha, tree, parentTree))
    (hcommit : again.expectedCommit = arguments.expectedCommit)
    (hparent : again.expectedParent = arguments.expectedParent)
    (hmessage : again.message = arguments.message) (hauthor : again.author = arguments.author)
    (hcommitter : again.committer = arguments.committer)
    (htime : epochSeconds again.timestamp = epochSeconds arguments.timestamp)
    (htree : again.expectedTree = .some treeSha) :
    committedTrees store again = .ok (treeSha, tree, parentTree) := by
  simp only [committedTrees, hcommit, hparent, hmessage, hauthor, hcommitter, htime] at h ⊢
  split at h
  next => cases h
  next commit _ =>
    simp only [Py.bind_eq_ok, raiseIf_eq_ok] at h ⊢
    obtain ⟨u₁, hp, u₂, -, message, hm, u₃, hm', author, ha, u₄, ha', committer, hc, u₅, hc', u₆,
      ht, entries, htree', object, hobject, h⟩ := h
    have hsha : treeSha = commit.tree := by
      split at h
      next =>
        simp only [Py.bind_eq_ok] at h
        obtain ⟨pt, -, h⟩ := h
        cases h
        rfl
      next => cases h
    have hexpected :
        (again.expectedTree.any fun tree => !tree.isEmpty && commit.tree != tree) = false := by
      simp [htree, hsha]
    exact ⟨u₁, hp, u₂, hexpected, message, hm, u₃, hm', author, ha, u₄, ha', committer, hc, u₅, hc',
      u₆, ht, entries, htree', object, hobject, h⟩
  next => cases h

end

section
variable {lib : Library} {repo : Repository} {arguments : ReadArguments} {proof : ChangesetProof}

/-- What a successful proof of a commit consists of. -/
theorem revalidateCommittedObject_ok
    (h : revalidateCommittedObject lib repo arguments = .ok proof) :
    ∃ treeSha tree parentTree resulting old expected changes head,
      openRepo lib repo = .ok (arguments.branchRef, head) ∧
      committedTrees repo.objects arguments = .ok (treeSha, tree, parentTree) ∧
      treeEntries repo.objects recursionLimit [] tree = .ok resulting ∧
      treeEntries repo.objects recursionLimit [] parentTree = .ok old ∧
      arguments.paths.mapM pathOf = .ok expected ∧ sameSet
        (changedPaths old resulting) expected = true ∧
      arguments.paths.mapM (proofItem lib repo.objects tree parentTree) = .ok changes ∧
      proof = ⟨arguments.expectedParent, treeSha, arguments.expectedCommit, arguments.message,
        arguments.author, arguments.committer, epochSeconds arguments.timestamp, changes⟩ := by
  simp only [revalidateCommittedObject, Py.bind_eq_ok, raiseIf_eq_ok, bne_eq_false_iff_eq,
    Bool.not_eq_false'] at h
  obtain ⟨⟨branch, head⟩, hopen, -, hbranch, ⟨treeSha, tree, parentTree⟩, htrees, resulting, hres,
    old, hold, expected, hexpected, -, hsame, changes, hchanges, h⟩ := h
  cases h
  cases hbranch
  exact ⟨treeSha, tree, parentTree, resulting, old, expected, changes, head, hopen, htrees, hres,
    hold, hexpected, hsame, hchanges, rfl⟩

/-- No commit is proved for paths whose first item lacks `head_blob_id`. -/
theorem revalidate_without_head {first : JsonObject} {rest : List JsonObject}
    (hpaths : arguments.paths = first :: rest) (hnone : first.lookup "head_blob_id" = .none) :
    revalidateCommittedObject lib repo arguments ≠ .ok proof := by
  intro h
  obtain ⟨_, _, _, _, _, _, _, _, -, -, -, -, -, -, hchanges, -⟩ := revalidateCommittedObject_ok h
  rw [hpaths, List.mapM_cons, Py.bind_eq_ok] at hchanges
  obtain ⟨change, hchange, -⟩ := hchanges
  exact proofItem_without_head hnone hchange

/-- A proof made for at least one path has a first change, and none of its changes has
`head_blob_id`. -/
theorem revalidate_changes (h : revalidateCommittedObject lib repo arguments = .ok proof)
    (hne : arguments.paths ≠ []) :
    ∃ first rest, proof.changes = first :: rest ∧ first.lookup "head_blob_id" = .none := by
  obtain ⟨_, _, _, _, _, _, changes, _, -, -, -, -, -, -, hchanges, rfl⟩ :=
    revalidateCommittedObject_ok h
  have hlen : changes.length = arguments.paths.length := mapM_ok_length hchanges
  cases changes with
  | nil =>
    have hzero : arguments.paths.length = 0 := hlen.symm
    exact absurd (List.length_eq_zero_iff.mp hzero) hne
  | cons first rest =>
    exact ⟨first, rest, rfl, (mapM_proofItem_shape hchanges).1 first List.mem_cons_self⟩

/-- Proving the commit again from a proof of it, against the same objects on the same
branch, passes every check before the items and stops at the first one's missing key. -/
theorem revalidate_reread {again : ReadArguments} {later : Repository} {head : Text}
    (h : revalidateCommittedObject lib repo arguments = .ok proof) (hne : arguments.paths ≠ [])
    (hobjects : later.objects = repo.objects)
    (hopen : openRepo lib later = .ok (arguments.branchRef, head))
    (hbranch : again.branchRef = arguments.branchRef)
    (hcommit : again.expectedCommit = arguments.expectedCommit)
    (hparent : again.expectedParent = arguments.expectedParent)
    (hmessage : again.message = proof.message) (hauthor : again.author = proof.author)
    (hcommitter : again.committer = proof.committer)
    (htime : epochSeconds again.timestamp = proof.timestamp) (hpaths : again.paths = proof.changes)
    (htree : again.expectedTree = .some proof.treeSha) :
    revalidateCommittedObject lib later again = .error (.keyError "head_blob_id") := by
  obtain ⟨treeSha, tree, parentTree, resulting, old, expected, changes, -, -, htrees, hres, hold,
    hexpected, hsame, hchanges, rfl⟩ := revalidateCommittedObject_ok h
  have htrees' :=
    committedTrees_reread htrees hcommit hparent hmessage hauthor hcommitter htime htree
  obtain ⟨-, hpathsOf⟩ := mapM_proofItem_shape hchanges
  have hlen : changes.length = arguments.paths.length := mapM_ok_length hchanges
  have hfirst : changes.mapM (proofItem lib repo.objects tree parentTree) =
      .error (.keyError "head_blob_id") := by
    cases hp : arguments.paths with
    | nil => exact absurd hp hne
    | cons item items =>
      rw [hp, List.mapM_cons, Py.bind_eq_ok] at hchanges
      obtain ⟨change, hchange, hrest⟩ := hchanges
      rw [Py.bind_eq_ok] at hrest
      obtain ⟨rest, -, hpure⟩ := hrest
      cases hpure
      rw [List.mapM_cons, proofItem_reread hchange]
      rfl
  simp only [revalidateCommittedObject, hobjects, hopen, hbranch, htrees', hres, hold, hpaths,
    hpathsOf, hexpected, hsame, hfirst, bne_self_eq_false, raiseIf_false, Bool.not_true, Py.ok_bind,
      Py.error_bind]

/-- A preparation the git adapter accepts has a path. -/
theorem prepared_paths_ne {prepared : Repository} {candidates : List Candidate}
    {preparation : LocalPreparation}
    (h : GitLocal.prepare lib prepared candidates = .ok preparation) :
    preparation.paths.map PreparedPath.toJson ≠ [] := by
  simp only [GitLocal.prepare, Py.bind_eq_ok, raiseIf_eq_ok, Bool.or_eq_false_iff] at h
  obtain ⟨_, -, _, -, _, -, paths, -, -, ⟨hempty, -⟩, h⟩ := h
  cases h
  simpa using hempty

/-- The proof a read of `prepare` comes to is that of the commit. -/
theorem preparationRead_proof {current : Repository} {commit : GitCommitAction}
    {objects : List PublicationObject}
    (h : preparationRead lib current commit = .ok (proof, objects)) :
    ∃ sha, commit.resultingCommitSha = .some sha ∧ revalidateCommittedObject lib current {
      expectedCommit := sha
      expectedParent := commit.preparedHeadSha
      branchRef := commit.branchRef
      message := commit.commitMessage
      author := commit.authorIdentity
      committer := commit.committerIdentity
      timestamp := commit.commitTimestamp
      paths := commit.preparedPaths
      expectedTree := .none } = .ok proof := by
  unfold preparationRead at h
  split at h
  next => cases h
  next sha hsha =>
    simp only [readPublicationObjects, Py.bind_eq_ok] at h
    obtain ⟨-, -, proof', hproof, -, -, object, -, h⟩ := h
    have hsame : proof' = proof := by
      split at h
      next =>
        simp only [Py.bind_eq_ok] at h
        obtain ⟨_, -, _, -, h⟩ := h
        cases h
        rfl
      next => cases h
    exact ⟨sha, hsha, hsame ▸ hproof⟩

/-- What `publish` reads with the proof of at least one path, it never gets. -/
theorem publishRead_fails {current : Repository} {commit : GitCommitAction}
    {objects : List PublicationObject} (hne : commit.preparedPaths ≠ [])
    (h : preparationRead lib current commit = .ok (proof, objects)) (later : Repository)
    (baseBranch : Text) (result : ChangesetProof × List PublicationObject) :
    publishRead lib later baseBranch (PublicationAction.ofProof commit proof) ≠ .ok result := by
  obtain ⟨sha, -, hproof⟩ := preparationRead_proof h
  obtain ⟨first, rest, hchanges, hnone⟩ := revalidate_changes hproof hne
  intro hread
  simp only [publishRead, readPublicationObjects, Py.bind_eq_ok] at hread
  obtain ⟨again, hagain, -⟩ := hread
  exact revalidate_without_head hchanges hnone hagain

/-- **`publish` never gets the objects back.** For every preparation the git adapter
accepted, every state of its row after it was applied and every read publication's
`prepare` did with it, the read `publish` does with the stored proof fails, on every
repository; on one with the same objects and branch it fails on the stored proof's
shape, for want of `head_blob_id`. -/
theorem publish_read_fails {prepared current : Repository} {candidates : List Candidate}
    {preparation : LocalPreparation} {message : Text} {timestamp : Int} {expected sha : Text}
    {objects : List PublicationObject}
    (hprepare : GitLocal.prepare lib prepared candidates = .ok preparation)
    (hread : preparationRead lib current
      ((GitCommitAction.ofPreparation preparation message timestamp expected).applied sha) = .ok
      (proof, objects)) :
    let commit := (GitCommitAction.ofPreparation preparation message timestamp expected).applied sha
    let action := PublicationAction.ofProof commit proof
    (∀ later baseBranch result, publishRead lib later baseBranch action ≠ .ok result) ∧
      ∀ later baseBranch head, later.objects = current.objects →
        "refs/heads/".toList ++ baseBranch = commit.branchRef →
        openRepo lib later = .ok (commit.branchRef, head) →
        publishRead lib later baseBranch action = .error (.keyError "head_blob_id") := by
  intro commit action
  have hne : commit.preparedPaths ≠ [] := prepared_paths_ne hprepare
  refine ⟨publishRead_fails hne hread, ?_⟩
  intro later baseBranch head hobjects hbranch hopen
  obtain ⟨resulting, hresulting, hproof⟩ := preparationRead_proof hread
  have hsha : resulting = sha := (Option.some.inj hresulting).symm
  subst hsha
  have hagain : revalidateCommittedObject lib later {
      expectedCommit := action.localCommitSha
      expectedParent := action.localParentSha
      branchRef := "refs/heads/".toList ++ baseBranch
      message := proof.message
      author := proof.author
      committer := proof.committer
      timestamp := fromTimestamp proof.timestamp
      paths := proof.changes
      expectedTree := .some proof.treeSha } = .error (.keyError "head_blob_id") :=
    revalidate_reread hproof hne hobjects hopen
      hbranch rfl rfl rfl rfl rfl (epochSeconds_fromTimestamp _) rfl rfl
  exact Py.error_bind_of_eq hagain

end

/-! ## The one-file repository -/

/-- The applied action of the commit that makes `a.txt` hold `b`. -/
def exampleAction : GitCommitAction :=
  (GitCommitAction.ofPreparation examplePreparation ['n'] 2000000 exampleCommit).applied
    exampleCommit

def exampleProof : ChangesetProof where
  parentSha := exampleBase
  treeSha := exampleTreeB
  commitSha := exampleCommit
  message := ['n']
  author := exampleIdentity
  committer := exampleIdentity
  timestamp := 2
  changes := [[("path", .str "a.txt".toList), ("mode", .int 0o100644),
    ("blob_sha", .str exampleBlobB), ("blob_sha256", .str exampleShaB),
      ("candidate_blob_id", .str exampleBlobB), ("candidate_sha256", .str exampleShaB)]]

/-- What the two reads of the commit come to, and what the repository shows. -/
theorem example_reads :
    preparationRead exampleLibrary exampleNext exampleAction =
        .ok (exampleProof, [⟨"a.txt".toList, 0o100644, encode ['b'], exampleBlobB⟩]) ∧
      publishRead exampleLibrary exampleNext "main".toList
        (PublicationAction.ofProof exampleAction exampleProof) =
        .error (.keyError "head_blob_id") ∧
      openRepo exampleLibrary exampleNext = .ok (exampleAction.branchRef, exampleCommit) := by
  decide +kernel

/-- Publication's `prepare` proves the commit; on the same repository `publish` then
fails on the proof it stored. -/
theorem published_proof_not_reread :
    preparationRead exampleLibrary exampleNext exampleAction =
        .ok (exampleProof, [⟨"a.txt".toList, 0o100644, encode ['b'], exampleBlobB⟩]) ∧
      publishRead exampleLibrary exampleNext "main".toList
        (PublicationAction.ofProof exampleAction exampleProof) =
        .error (.keyError "head_blob_id") :=
  ⟨example_reads.1, example_reads.2.1⟩

theorem publish_read_fails_main :
    publishRead exampleLibrary exampleNext "main".toList
      (PublicationAction.ofProof exampleAction exampleProof) =
      .error (.keyError "head_blob_id") :=
  (publish_read_fails examplePrepare example_reads.1).2 exampleNext "main".toList
    exampleCommit rfl (by decide)
    example_reads.2.2

end Novalton
