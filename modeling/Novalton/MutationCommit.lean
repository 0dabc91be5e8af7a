/-
An approved `workspace.replace_text` as the input of the git changeset: what
`ReplaceTextExecutor.apply` leaves in the workspace, handed to the git adapter's
`prepare`.

The two halves disagree about the file's mode. `apply` renames a `mkstemp` file
(0600) over the target and never restores the permission bits; `_read_worktree`
wants the worktree mode to be exactly the tree entry's, 100644 or 100755. So the
pipeline works only where `apply` writes nothing, which is where the candidate
has the hash of the file it would replace.
-/
import Novalton.GitLocal

namespace Novalton

/-- A clean tracked regular file: committed, staged and checked out with the same
content and mode, in a repository the adapter reads. `perm` are its permission bits,
`text` is its content. -/
structure CleanFile (lib : Library) (repo : Repository) (path : Text) (perm : Nat) (content : Bytes)
    (text : Text) :
    Prop where
  root : ∃ entries, repo.worktree = .directory entries
  tracked : ∃ branch head index fingerprint treeId tree blobId,
    openRepo lib repo = .ok (branch, head) ∧ readIndex lib repo = .ok (index, fingerprint) ∧
    headTree repo.objects head = .ok (treeId, tree) ∧
    treeEntry repo.objects tree (splitSlashBytes (encode path)) = .ok (sIfreg + perm, blobId) ∧
    index.entries.lookup (encode path) = .some ⟨blobId, sIfreg + perm, 0⟩ ∧
    repo.objects.get blobId = .ok (.blob content)
  regular : sIfreg + perm ∈ regularModes
  worktree : repo.worktree.lookup (pureParts path) = .some (.file perm content)
  size : content.length ≤ 65536
  noNul : (0 : UInt8) ∉ content
  utf8 : decode content = .some text

/-- What the executor's mutation must come to in the workspace `after` it: the file
keeps its permission bits, and the git adapter prepares it as the one candidate, or
refuses only for the size of the diff. -/
def FeedsGit (lib : Library) (repo : Repository) (prepared : PreparedMutation) (path : Text)
    (perm : Nat) (after : Node) : Prop :=
  (∃ data, after.lookup (pureParts path) = .some (.file perm data)) ∧
    ((∃ preparation, GitLocal.prepare lib { repo with worktree := after }
        [⟨prepared.path, prepared.preimageSha256, prepared.candidateSha256⟩] = .ok preparation) ∨
      GitLocal.prepare lib { repo with worktree := after }
        [⟨prepared.path, prepared.preimageSha256, prepared.candidateSha256⟩] =
        .error (.tool "git_diff_preview_too_large"))

theorem regular_ne_mkstemp {perm : Nat} (h : sIfreg + perm ∈ regularModes) :
    perm ≠ mkstempPerm := by
  simp only [sIfreg, regularModes, List.mem_cons, List.not_mem_nil, or_false] at h
  simp only [mkstempPerm]
  omega

/-- The parts of a path below a directory root are none or the whole split of the path
they join to. -/
theorem splitSlash_relativeText {path : Text} (hne : pureParts path ≠ [])
    (hpath : relativeText (pureParts path) = path) : splitSlash path = pureParts path := by
  have hslash : ∀ part ∈ pureParts path, '/' ∉ part := fun part hp =>
    not_mem_of_mem_splitOn (List.mem_of_mem_filter hp)
  have hjoin : relativeText (pureParts path) = joinSlash (pureParts path) := by
    simp [relativeText, hne]
  rw [hjoin] at hpath
  calc splitSlash path = splitSlash (joinSlash (pureParts path)) := by rw [hpath]
    _ = pureParts path := splitSlash_joinSlash hne hslash

/-- An accepted input's path is the one `root.relative` returns for it. -/
theorem WorkspaceReplaceTextInput.relativeText_path (data : WorkspaceReplaceTextInput) :
    relativeText (pureParts data.path) = data.path := by
  have h := data.path_accepted
  simp only [relativePathAccepted, Bool.and_eq_true, beq_iff_eq] at h
  exact h.2

section
variable {lib : Library} {repo : Repository} {data : WorkspaceReplaceTextInput} {perm : Nat}
  {content : Bytes} {text : Text}

theorem CleanFile.parts_ne_nil {path : Text} (h : CleanFile lib repo path perm content text) :
    pureParts path ≠ [] := by
  intro hnil
  obtain ⟨entries, hroot⟩ := h.root
  have hfile := h.worktree
  rw [hnil, hroot] at hfile
  simp [Node.lookup] at hfile

theorem CleanFile.readFile {path : Text} (h : CleanFile lib repo path perm content text) :
    readFile repo.worktree (pureParts path) = .some (perm, content) := by
  rw [Novalton.readFile, h.worktree]

/-- An untouched clean file is read back by the git adapter. -/
theorem CleanFile.readWorktree (h : CleanFile lib repo data.path perm content text)
    (hres : resolve lib repo.worktree data.path false = .ok (pureParts data.path)) :
    readWorktree lib repo.worktree data.path (sIfreg + perm) = .ok content := by
  obtain ⟨-, hdenied, -⟩ := resolve_file lib hres
  have hsplit : splitSlash data.path = pureParts data.path :=
    splitSlash_relativeText h.parts_ne_nil data.relativeText_path
  have hsize : decide (65536 < content.length) = false := by simpa using h.size
  have hnul : content.contains 0 = false := by simpa using h.noNul
  simp only [Novalton.readWorktree, hsplit, hdenied, hres, h.readFile, bne_self_eq_false, hsize,
    hnul, raiseIf_false, orRaise_some, Py.ok_bind, Bool.or_self, pure, Except.pure]

/-- The adapter accepts an untouched clean file whose recorded hashes are both that of
its content, up to the size of the diff preview. -/
theorem CleanFile.gitPrepare (h : CleanFile lib repo data.path perm content text)
    (hres : resolve lib repo.worktree data.path false = .ok (pureParts data.path)) :
    (∃ preparation,
      GitLocal.prepare lib repo [⟨data.path, lib.sha256 content, lib.sha256 content⟩] =
      .ok preparation) ∨
      GitLocal.prepare lib repo [⟨data.path, lib.sha256 content, lib.sha256 content⟩] =
        .error (.tool "git_diff_preview_too_large") := by
  obtain ⟨branch, head, index, fingerprint, treeId, tree, blobId, hopen, hindex, htree, hentry,
    hstage, hblob⟩ := h.tracked
  have hmode : (!regularModes.contains (sIfreg + perm)) = false := by simpa using h.regular
  have hpath : preparePath lib repo tree index ⟨data.path, lib.sha256 content, lib.sha256 content⟩ =
      .ok (⟨data.path, lib.sha256 content, lib.sha256 content, sIfreg + perm, blobId,
        lib.blobId content⟩,
          lib.unifiedDiff (splitLinesKeep text) (splitLinesKeep text) ("a/".toList ++ data.path)
          ("b/".toList ++ data.path)) := by
    simp only [preparePath, hentry, hmode, hstage, hblob, h.readWorktree hres, h.utf8,
      bne_self_eq_false, raiseIf_false, orRaise_some, Py.ok_bind]
    rfl
  simp only [GitLocal.prepare, hopen, hindex, htree, Py.ok_bind, List.insertionSort_cons,
    List.insertionSort_nil, List.orderedInsert_nil, List.mapM_cons, List.mapM_nil, hpath, pure,
      Except.pure, raiseIf]
  split
  · exact .inr rfl
  · exact .inl ⟨_, rfl⟩

/-- **An applied replacement feeds the git pipeline exactly where it changes nothing.**
For a clean tracked file and a mutation that `prepare` and `apply` both accept, the file
keeps its permission bits and is a git candidate if and only if the candidate text has
the hash of the content it replaces. -/
theorem replaced_file_feeds_git_iff {prepared : PreparedMutation} {diskFails already : Bool}
    {after : Node} (hclean : CleanFile lib repo data.path perm content text)
    (hprepare : ReplaceTextExecutor.prepare lib repo.worktree data = .ok prepared)
    (happly : ReplaceTextExecutor.apply lib repo.worktree data prepared diskFails =
      .ok (already, after)) :
    FeedsGit lib repo prepared data.path perm after ↔
      lib.sha256 (encode (replace data.search data.replacement text)) = lib.sha256 content := by
  obtain ⟨parts, perm₁, before, text', hres, hread, htext, hpath, hpre, hcand⟩ :=
    ReplaceTextExecutor.prepare_ok lib hprepare
  obtain ⟨hparts, -, -⟩ := resolve_file lib hres
  subst hparts
  rw [hclean.readFile] at hread
  obtain ⟨rfl, rfl⟩ : _ ∧ _ := by simpa using hread
  have htexts : text' = text := by simpa [hclean.utf8] using htext.symm
  subst htexts
  rw [data.relativeText_path] at hpath
  obtain ⟨parts', perm₂, current, hres', hread', hcases⟩ := ReplaceTextExecutor.apply_ok lib happly
  have hparts' : parts' = pureParts data.path := by simpa [hres] using hres'.symm
  subst hparts'
  rw [hclean.readFile] at hread'
  obtain ⟨rfl, rfl⟩ : _ ∧ _ := by simpa using hread'
  rw [← hcand]
  rcases hcases with ⟨hsame, -, rfl⟩ | ⟨hdiff, -, -, candidate, -, rfl⟩
  · -- nothing was written: both recorded hashes are that of the content
    refine ⟨fun _ => hsame.symm, fun _ => ⟨⟨content, hclean.worktree⟩, ?_⟩⟩
    rw [hpath, hpre, ← hsame]
    exact hclean.gitPrepare hres
  · refine ⟨fun hfeeds => ?_, fun heq => absurd heq.symm hdiff⟩
    obtain ⟨⟨written, hwritten⟩, -⟩ := hfeeds
    rw [Node.lookup_replaceAt hclean.worktree] at hwritten
    simp only [Option.some.injEq, Node.file.injEq] at hwritten
    exact absurd hwritten.1.symm (regular_ne_mkstemp hclean.regular)

end

/-! ## The one-file repository -/

/-- Replace the one `a` of `a.txt`. -/
def exampleReplace (replacement : Text) (h : replacement.length ≤ 16384)
    (ht : textAccepted replacement = true) :
    WorkspaceReplaceTextInput where
  path := "a.txt".toList
  search := ['a']
  replacement
  expectedMatches := 1
  path_length := by decide
  path_accepted := by decide
  search_length := by decide
  replacement_length := h
  texts_accepted := ⟨by decide, ht⟩
  matches_bounds := by decide

theorem exampleClean : CleanFile exampleLibrary
    (exampleRepository (encode ['a'])) "a.txt".toList 0o644 (encode ['a']) ['a'] where
  root := ⟨_, rfl⟩
  tracked := ⟨"refs/heads/main".toList, exampleBase,
    ⟨[(encode "a.txt".toList, ⟨exampleBlobA, 0o100644, 0⟩)], false, false, false⟩,
      hexText 64 0xf3e62c8fb6b5a568ec8bba6ef41a9ce2642c45815b62cb8d41830892ff53b41b, exampleTreeA,
    [(encode "a.txt".toList, 0o100644, exampleBlobA)], exampleBlobA, by decide +kernel⟩
  regular := by decide
  worktree := by rfl
  size := by decide
  noNul := by decide
  utf8 := by decide

/-- The metadata of replacing the content `a` by a text with this hash. -/
def examplePrepared (replacement candidateSha fingerprint diff : Text) : PreparedMutation where
  path := "a.txt".toList
  preimageSha256 := exampleShaA
  candidateSha256 := candidateSha
  mutationFingerprint := fingerprint
  beforeBytes := 1
  afterBytes := 1
  beforeLines := 1
  afterLines := 1
  diffPreview := diff
  diffTruncated := false
  search := ['a']
  replacement
  expectedMatches := 1

/-- The metadata of replacing `a` by itself. -/
def exampleUnchanged : PreparedMutation :=
  examplePrepared ['a'] exampleShaA
    (hexText 64 0x8c8bfbb9e54c21fcfa35a56648026177aedada9096880528ad65e558cc581bd5) []

/-- What the executor and the git adapter prepare. -/
theorem example_prepares :
    ReplaceTextExecutor.prepare exampleLibrary (exampleRepository (encode ['a'])).worktree
      (exampleReplace ['b'] (by decide) (by decide)) =
      .ok (examplePrepared ['b'] exampleShaB
        (hexText 64 0xa3ebab26429c41d86c052b4938878dc2ed92ff1e77d2fcfbde7547e4f8c6de8d)
        "--- a.txt\n+++ a.txt\n@@ -1 +1 @@\n-a+b".toList) ∧
    GitLocal.prepare exampleLibrary { exampleRepository (encode ['a']) with
        worktree := .directory [("a.txt".toList, .file 0o600 (encode ['b']))] }
        [⟨"a.txt".toList, exampleShaA, exampleShaB⟩] = .error (.tool "git_worktree_unsupported") ∧
    ReplaceTextExecutor.prepare exampleLibrary (exampleRepository (encode ['a'])).worktree
      (exampleReplace ['a'] (by decide) (by decide)) =
      .ok exampleUnchanged := by
  decide +kernel

/-- Replacing `a` by `b` in a clean 0644 file: both calls succeed, and the file is left
with mode 0600, which the git adapter refuses. -/
theorem replaced_file_not_git_candidate :
    let repo := exampleRepository (encode ['a'])
    let data := exampleReplace ['b'] (by decide) (by decide)
    CleanFile exampleLibrary repo data.path 0o644 (encode ['a']) ['a'] ∧
      ∃ prepared after, ReplaceTextExecutor.prepare exampleLibrary repo.worktree data =
        .ok prepared ∧
        ReplaceTextExecutor.apply exampleLibrary repo.worktree data prepared false =
          .ok (false, after) ∧
        after.lookup (pureParts data.path) = .some (.file 0o600 (encode ['b'])) ∧
        GitLocal.prepare exampleLibrary { repo with worktree := after }
          [⟨prepared.path, prepared.preimageSha256, prepared.candidateSha256⟩] =
          .error (.tool "git_worktree_unsupported") ∧
        ¬ FeedsGit exampleLibrary repo prepared data.path 0o644 after := by
  refine ⟨exampleClean, examplePrepared ['b'] exampleShaB
    (hexText 64 0xa3ebab26429c41d86c052b4938878dc2ed92ff1e77d2fcfbde7547e4f8c6de8d)
    "--- a.txt\n+++ a.txt\n@@ -1 +1 @@\n-a+b".toList,
    .directory [("a.txt".toList, .file 0o600 (encode ['b']))], example_prepares.1, by
      rfl, by rfl, example_prepares.2.1, ?_⟩
  rintro ⟨⟨data, hdata⟩, -⟩
  rw [show Node.lookup _ _ = .some (.file 0o600 (encode ['b'])) from rfl] at hdata
  simp at hdata

/-- Replacing `a` by itself writes nothing, and the file is a git candidate. -/
theorem unchanged_file_feeds_git :
    FeedsGit exampleLibrary (exampleRepository (encode ['a'])) exampleUnchanged "a.txt".toList 0o644
      (exampleRepository (encode ['a'])).worktree := by
  have happly : ReplaceTextExecutor.apply exampleLibrary (exampleRepository (encode ['a'])).worktree
      (exampleReplace ['a'] (by decide) (by decide)) exampleUnchanged false =
      .ok (true, (exampleRepository (encode ['a'])).worktree) := by rfl
  exact (replaced_file_feeds_git_iff exampleClean example_prepares.2.2 happly).mpr (by rfl)

end Novalton
