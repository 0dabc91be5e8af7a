/-
The approved workspace and the one executor that writes to it: path resolution
(`WorkspaceRoot.resolve`) and `ReplaceTextExecutor`, from `modules/tools/executor.py`.

The workspace is the directory tree below the approved root. Hashes, Unicode
case folding and `difflib` are parameters (`Library`): no result here depends
on which functions they are, only the concrete runs fix them. Writing goes
through `mkstemp` (mode 0600) and `os.replace`, which keeps that mode, so the
file an `apply` writes has the mode of the temporary file and not the one it
replaced; `apply` is translated with that.
-/
import Novalton.Python

namespace Novalton

/-- The library functions the workspace and the git adapter call: `hashlib`'s
SHA-256 as a hex digest, `str.casefold`, `difflib.unified_diff` (joined), and
Dulwich's id of a blob. -/
structure Library where
  sha256 : Bytes → Text
  casefold : Text → Text
  unifiedDiff : List Text → List Text → Text → Text → Text
  blobId : Bytes → Text

/-! ## The directory tree -/

/-- A file, directory, symbolic link or anything else the root holds. `perm` is
`stat.S_IMODE` of a regular file. -/
inductive Node where
  | file (perm : Nat) (data : Bytes)
  | directory (entries : List (Text × Node))
  | symlink
  | other

/-- What stands at a path, without following links. -/
def Node.lookup : Node → List Text → Option Node
  | node, [] => .some node
  | .directory entries, part :: parts => (entries.lookup part).bind (·.lookup parts)
  | _, _ :: _ => .none

/-- The entries with the first one called `name` replaced. -/
def replaceEntry (name : Text) (new : Node) : List (Text × Node) → List (Text × Node)
  | [] => []
  | (key, node) :: rest => if key = name then (key, new) :: rest
      else (key, node) :: replaceEntry name new rest

/-- `os.replace` onto an existing path: the node there is exchanged, the rest stays. -/
def Node.replaceAt : Node → List Text → Node → Node
  | _, [], new => new
  | .directory entries, part :: parts, new =>
    match entries.lookup part with
    | .some child => .directory (replaceEntry part (child.replaceAt parts new) entries)
    | .none => .directory entries
  | node, _ :: _, _ => node

theorem lookup_replaceEntry_self {name : Text} {new old : Node} : ∀ {entries : List (Text × Node)},
    entries.lookup name = .some old → (replaceEntry name new entries).lookup name = .some new
  | [], h => by simp at h
  | (key, node) :: rest, h => by
    by_cases hk : key = name
    · subst hk; simp [replaceEntry]
    · have hb : (name == key) = false := by simpa using fun h => hk h.symm
      simp only [List.lookup_cons, hb] at h
      simp only [replaceEntry, hk, if_false, List.lookup_cons, hb]
      exact lookup_replaceEntry_self h

theorem lookup_replaceEntry_ne {name other : Text} {new : Node} (hne : other ≠ name) :
    ∀ {entries : List (Text × Node)}, (replaceEntry name new entries).lookup other =
      entries.lookup other
  | [] => rfl
  | (key, node) :: rest => by
    by_cases hk : key = name
    · subst hk
      have hb : (other == key) = false := by simpa using hne
      simp [replaceEntry, List.lookup_cons, hb]
    · simp only [replaceEntry, hk, if_false, List.lookup_cons, lookup_replaceEntry_ne hne]

/-- After a replace the new node stands at the path. -/
theorem Node.lookup_replaceAt {new : Node} : ∀ {parts : List Text} {root old : Node},
    root.lookup parts = .some old → (root.replaceAt parts new).lookup parts = .some new
  | [], _, _, _ => by simp [replaceAt, lookup]
  | part :: parts, root, old, h => by
    cases root with
    | directory entries =>
      simp only [lookup, Option.bind_eq_some_iff] at h
      obtain ⟨child, hchild, h⟩ := h
      simp only [replaceAt, hchild, lookup, lookup_replaceEntry_self hchild, Option.bind_some]
      exact lookup_replaceAt h
    | file | symlink | other => simp [lookup] at h

/-! ## Path resolution -/

/-- `PurePosixPath(relative).parts` of a relative path: empty and `.` parts vanish. -/
def pureParts (relative : Text) : List Text :=
  (splitSlash relative).filter fun part => !part.isEmpty && part != ['.']

def deniedNames : List Text :=
  [".git", ".ssh", ".aws", ".gnupg", "credentials", "credentials.json", "id_rsa", "id_ed25519"].map
    String.toList

def deniedSuffixes : List Text := [".key", ".pem", ".p12", ".pfx"].map String.toList

section
variable (lib : Library)

/-- `_denied`. -/
def denied (parts : List Text) : Bool :=
  parts.any fun part =>
    let lowered := lib.casefold part
    deniedNames.contains lowered || ".env".toList.isPrefixOf lowered ||
      deniedSuffixes.any (·.isSuffixOf lowered) || occursIn "secret".toList lowered

/-- Whether a prefix of the path is a symbolic link (`current.is_symlink()` in the loop). -/
def crossesSymlink (root : Node) (parts : List Text) : Bool :=
  parts.inits.any fun pre => !pre.isEmpty &&
    match root.lookup pre with
    | .some .symlink => true
    | _ => false

/-- `WorkspaceRoot.resolve`, to the parts below the root. With no link on the way
and no `..`, `Path.resolve(strict=True)` is the path itself where something is. -/
def resolve (root : Node) (relative : Text) (allowDirectory : Bool) : Py (List Text) := do
  raiseIf (relative.contains '\\' || ['/'].isPrefixOf relative) (.tool "invalid_relative_path")
  let parts := pureParts relative
  raiseIf (parts.any fun part => part == ['.', '.'] || part.isEmpty) (.tool "path_traversal_denied")
  raiseIf (denied lib parts) (.tool "sensitive_path_denied")
  raiseIf (crossesSymlink root parts) (.tool "symlink_path_denied")
  match root.lookup parts with
  | .none => .error (.tool "outside_workspace_denied")
  | .some (.directory _) => do
    raiseIf (!allowDirectory) (.tool "regular_file_required")
    return parts
  | .some (.file _ _) => do
    raiseIf allowDirectory (.tool "directory_required")
    return parts
  | .some _ => .error (.tool (if allowDirectory then "directory_required" else "regular_file_required"))

/-- `WorkspaceRoot.relative`. -/
def relativeText (parts : List Text) : Text := if parts.isEmpty then ['.'] else joinSlash parts

/-- What `resolve` accepted for a file: the parts are those of the path, none is
denied, and a regular file stands there. -/
theorem resolve_file {root : Node} {relative : Text} {parts : List Text}
    (h : resolve lib root relative false = .ok parts) :
    parts = pureParts relative ∧ denied lib parts = false ∧
      ∃ perm data, root.lookup parts = .some (.file perm data) := by
  simp only [resolve, Py.bind_eq_ok, raiseIf_eq_ok] at h
  obtain ⟨-, -, -, -, -, hdenied, -, -, h⟩ := h
  split at h
  next => cases h
  next => simp at h
  next perm data hlookup =>
    simp only [raiseIf_false, Py.ok_bind, pure, Except.pure, Except.ok.injEq] at h
    subst h
    exact ⟨rfl, hdenied, perm, data, hlookup⟩
  next => cases h

/-- `path.stat()` and `path.read_bytes()` of a resolved regular file. -/
def readFile (root : Node) (parts : List Text) : Option (Nat × Bytes) :=
  match root.lookup parts with
  | .some (.file perm data) => .some (perm, data)
  | _ => .none

end

/-! ## workspace.replace_text -/

/-- The first characters `^[A-Za-z]:` matches. -/
def hasDrivePrefix : Text → Bool
  | c :: ':' :: _ => c.isAlpha
  | _ => false

/-- `_relative_path` accepts the value (and returns it unchanged). -/
def relativePathAccepted (value : Text) : Bool :=
  !(value.contains '\\' || ['/'].isPrefixOf value || hasDrivePrefix value) &&
    !(pureParts value).contains ['.', '.'] && relativeText (pureParts value) == value

/-- `validate_text`: no control characters but newline, tab and carriage return. -/
def textAccepted (value : Text) : Bool :=
  !value.any fun c => decide (c.toNat < 32) && !(['\n', '\t', '\r'].contains c)

/-- `WorkspaceReplaceTextInput`: what passed its field bounds and validators. -/
structure WorkspaceReplaceTextInput where
  path : Text
  search : Text
  replacement : Text
  expectedMatches : Nat
  path_length : 1 ≤ path.length ∧ path.length ≤ 300
  path_accepted : relativePathAccepted path = true
  search_length : 1 ≤ search.length ∧ search.length ≤ 16384
  replacement_length : replacement.length ≤ 16384
  texts_accepted : textAccepted search = true ∧ textAccepted replacement = true
  matches_bounds : 1 ≤ expectedMatches ∧ expectedMatches ≤ 8

/-- The metadata `prepare` returns; `ToolCall.prepared_mutation` keeps it. -/
structure PreparedMutation where
  path : Text
  preimageSha256 : Text
  candidateSha256 : Text
  mutationFingerprint : Text
  beforeBytes : Nat
  afterBytes : Nat
  beforeLines : Nat
  afterLines : Nat
  diffPreview : Text
  diffTruncated : Bool
  search : Text
  replacement : Text
  expectedMatches : Nat
deriving DecidableEq

def maxMutationFileBytes : Nat := 65536

def maxDiffBytes : Nat := 16384

section
variable (lib : Library)

/-- `sha256(relative + "\0" + before_sha + "\0" + candidate_sha)`. -/
def mutationSha (parts : List Text) (beforeSha candidateSha : Text) : Text :=
  lib.sha256 (encode (relativeText parts ++ '\x00' :: beforeSha ++ '\x00' :: candidateSha))

def lineCount (text : Text) : Nat := count ['\n'] text + if text.isEmpty then 0 else 1

/-- `ReplaceTextExecutor.prepare`, its durable metadata. -/
def ReplaceTextExecutor.prepare (root : Node) (data : WorkspaceReplaceTextInput) :
    Py PreparedMutation := do
  let parts ← resolve lib root data.path false
  let (_, before) ← orRaise (readFile root parts) (.tool "workspace_read_failed")
  raiseIf (decide (maxMutationFileBytes < before.length)) (.tool "oversized_file_denied")
  raiseIf (before.contains 0) (.tool "binary_file_denied")
  let text ← orRaise (decode before) (.tool "non_utf8_file_denied")
  raiseIf (count data.search text != data.expectedMatches) (.tool "replace_match_count_mismatch")
  let candidate := replace data.search data.replacement text
  let candidateBytes := encode candidate
  raiseIf (decide (maxMutationFileBytes < candidateBytes.length))
    (.tool "oversized_candidate_denied")
  let beforeSha := lib.sha256 before
  let candidateSha := lib.sha256 candidateBytes
  let diff := lib.unifiedDiff (splitLinesKeep text) (splitLinesKeep candidate) (relativeText parts)
    (relativeText parts)
  raiseIf (decide (maxDiffBytes < (encode diff).length)) (.tool "diff_preview_too_large")
  return {
    path := relativeText parts
    preimageSha256 := beforeSha
    candidateSha256 := candidateSha
    mutationFingerprint := mutationSha lib parts beforeSha candidateSha
    beforeBytes := before.length
    afterBytes := candidateBytes.length
    beforeLines := lineCount text
    afterLines := lineCount candidate
    -- not truncated, so the preview is the whole diff
    diffPreview := diff
    diffTruncated := false
    search := data.search
    replacement := data.replacement
    expectedMatches := data.expectedMatches }

/-- The permission bits `tempfile.mkstemp` gives the file it creates (0600). -/
def mkstempPerm : Nat := 0o600

/-- `ReplaceTextExecutor.apply`: whether the candidate was already there, and the
workspace afterwards. `diskFails` is an `OSError` of the temporary file's creation,
write or rename, which the `finally` leaves without a trace. -/
def ReplaceTextExecutor.apply (root : Node) (data : WorkspaceReplaceTextInput)
    (prepared : PreparedMutation) (diskFails : Bool) : Py (Bool × Node) := do
  let parts ← resolve lib root data.path false
  let (_, current) ← orRaise (readFile root parts) (.tool "workspace_read_failed")
  let currentSha := lib.sha256 current
  if currentSha = prepared.candidateSha256 then
    return (true, root)
  raiseIf (currentSha != prepared.preimageSha256) (.tool "stale_preimage")
  let currentText ← orRaise (decode current) (.tool "prepared_mutation_invalid")
  raiseIf (count prepared.search currentText != prepared.expectedMatches) (.tool "stale_preimage")
  let candidate := encode (replace prepared.search prepared.replacement currentText)
  let candidateSha := lib.sha256 candidate
  raiseIf (candidateSha != prepared.candidateSha256 ||
    mutationSha lib parts currentSha candidateSha != prepared.mutationFingerprint)
    (.tool "mutation_fingerprint_mismatch")
  raiseIf diskFails .osError
  return (false, root.replaceAt parts (.file mkstempPerm candidate))

/-- A mutation `prepare` accepts reads the file at its path and records the hashes of
that content and of its replacement. -/
theorem ReplaceTextExecutor.prepare_ok {root : Node} {data : WorkspaceReplaceTextInput}
    {prepared : PreparedMutation} (h : ReplaceTextExecutor.prepare lib root data = .ok prepared) :
    ∃ parts perm before text, resolve lib root data.path false = .ok parts ∧
      readFile root parts = .some (perm, before) ∧ decode before = .some text ∧
      prepared.path = relativeText parts ∧ prepared.preimageSha256 = lib.sha256 before ∧
      prepared.candidateSha256 = lib.sha256
        (encode (replace data.search data.replacement text)) := by
  simp only [ReplaceTextExecutor.prepare, Py.bind_eq_ok, raiseIf_eq_ok, orRaise_eq_ok] at h
  obtain ⟨parts, hparts, ⟨perm, before⟩, hread, -, -, -, -, text, htext, -, -, -, -, -, -, h⟩ := h
  cases h
  exact ⟨parts, perm, before, text, hparts, hread, htext, rfl, rfl, rfl⟩

/-- What a successful `apply` does: nothing where the content already has the
candidate's hash, else a file of `mkstemp`'s mode takes the path. -/
theorem ReplaceTextExecutor.apply_ok {root after : Node} {data : WorkspaceReplaceTextInput}
    {prepared : PreparedMutation} {diskFails already : Bool}
    (h : ReplaceTextExecutor.apply lib root data prepared diskFails = .ok (already, after)) :
    ∃ parts perm current, resolve lib root data.path false = .ok parts ∧
      readFile root parts = .some (perm, current) ∧
      ((lib.sha256 current = prepared.candidateSha256 ∧ already = true ∧ after = root) ∨
        (lib.sha256 current ≠ prepared.candidateSha256 ∧
          lib.sha256 current = prepared.preimageSha256 ∧
          already = false ∧ ∃ candidate, lib.sha256 candidate = prepared.candidateSha256 ∧
            after = root.replaceAt parts (.file mkstempPerm candidate))) := by
  simp only [ReplaceTextExecutor.apply, Py.bind_eq_ok, orRaise_eq_ok] at h
  obtain ⟨parts, hparts, ⟨perm, current⟩, hread, h⟩ := h
  refine ⟨parts, perm, current, hparts, hread, ?_⟩
  split at h
  next hsame =>
    cases h
    exact .inl ⟨hsame, rfl, rfl⟩
  next hdiff =>
    simp only [Py.bind_eq_ok, raiseIf_eq_ok, orRaise_eq_ok, bne_eq_false_iff_eq,
      Bool.or_eq_false_iff] at h
    obtain ⟨-, hpre, text, -, -, -, -, ⟨hcand, -⟩, -, -, h⟩ := h
    cases h
    exact .inr ⟨hdiff, hpre, rfl, _, hcand, rfl⟩

end

end Novalton
