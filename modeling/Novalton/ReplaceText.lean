/-
`ReplaceTextExecutor` over a history of edits (`modules/tools/executor.py`): a mutation is
prepared once and applied any number of times, with any change of the workspace between.

`apply` writes through a temporary file beside the target. Its steps are taken here one
by one, with the failures of each. The gateway takes them at once, as `ReplaceTextExecutor.apply`;
`applySteps_eq` is there for it, and says that what one run of the steps returns and leaves is
what `apply` does.
-/
import Mathlib.Data.List.Infix
import Novalton.MutationCommit
import Novalton.Transition

namespace Novalton

/-! ## Occurrences -/

/-- `out` is `text` with its occurrences of `sub`, taken from the left and without overlap,
replaced by `new`; there are `n` of them. -/
inductive Substituted (sub new : Text) : ℕ → Text → Text → Prop where
  | done {text : Text} : occursIn sub text = false → Substituted sub new 0 text text
  | next {n : ℕ} {before rest out : Text} : occursIn sub (before ++ sub.dropLast) = false →
      Substituted sub new n rest out →
      Substituted sub new (n + 1) (before ++ sub ++ rest) (before ++ new ++ out)

section
variable {sub new : Text}

theorem countFrom_skip : ∀ (inside rest : Text), countFrom sub inside.length
    (inside ++ rest) = countFrom sub 0 rest
  | [], _ => rfl
  | _ :: inside, rest => countFrom_skip inside rest

theorem replaceFrom_skip : ∀ (inside rest : Text), replaceFrom sub new inside.length
    (inside ++ rest) = replaceFrom sub new 0 rest
  | [], _ => rfl
  | _ :: inside, rest => replaceFrom_skip inside rest

theorem occursIn_cons (c : Char) (text : Text) : occursIn sub
    (c :: text) = (sub.isPrefixOf (c :: text) || occursIn sub text) := by
  rw [occursIn, occursIn, List.tails_cons, List.any_cons]

/-- A text shorter than `sub` has no occurrence of it. -/
theorem occursIn_short {text : Text} (h : text.length < sub.length) :
    occursIn sub text = false := by
  induction text with
  | nil =>
    cases sub with
    | nil => simp at h
    | cons c sub => rfl
  | cons c text ih =>
    rw [List.length_cons] at h
    have hhead : sub.isPrefixOf (c :: text) = false := by
      rw [Bool.eq_false_iff]
      intro hhead
      have hlength := (List.isPrefixOf_iff_prefix.mp hhead).length_le
      rw [List.length_cons] at hlength
      omega
    rw [occursIn_cons, hhead, ih (by omega)]
    rfl

/-- One more character in front of a text that does not begin with `sub`. -/
theorem Substituted.cons {n : ℕ} {text out : Text} {c : Char} (h : Substituted sub new n text out)
    (hhead : sub.isPrefixOf (c :: text) = false) : Substituted sub new n (c :: text)
    (c :: out) := by
  cases h with
  | done hnone =>
    refine .done ?_
    rw [occursIn_cons, hhead, hnone]
    rfl
  | @next n before rest out hfirst hrest =>
    refine @Substituted.next _ _ _ (c :: before) _ _ ?_ hrest
    rw [List.cons_append, occursIn_cons, hfirst, Bool.or_false, Bool.eq_false_iff]
    intro hearly
    rw [Bool.eq_false_iff] at hhead
    refine hhead (List.isPrefixOf_iff_prefix.mpr ((List.isPrefixOf_iff_prefix.mp hearly).trans ?_))
    have hlast : sub.dropLast <+: sub := List.dropLast_prefix sub
    rw [List.append_assoc]
    exact List.prefix_cons_inj c |>.mpr ((List.prefix_append_right_inj before).mpr
      (hlast.trans (List.prefix_append sub rest)))

theorem substituted_from (hsub : sub ≠ []) : ∀ (n : ℕ) (text : Text), text.length ≤ n →
    Substituted sub new (countFrom sub 0 text) text (replaceFrom sub new 0 text)
  | _, [], _ => by
    refine .done (occursIn_short ?_)
    exact List.length_pos_of_ne_nil hsub
  | 0, c :: text, h => by simp at h
  | n + 1, c :: text, h => by
    rw [List.length_cons] at h
    by_cases hhead : sub.isPrefixOf (c :: text) = true
    · obtain ⟨rest, hrest⟩ := List.isPrefixOf_iff_prefix.mp hhead
      have htext : text = sub.tail ++ rest := by
        rw [← List.tail_append_of_ne_nil hsub, hrest, List.tail_cons]
      have hlength : sub.length - 1 = sub.tail.length := List.length_tail.symm
      have hpos : 0 < sub.length := List.length_pos_of_ne_nil hsub
      rw [countFrom, if_pos hhead, replaceFrom, if_pos hhead, ← hrest, htext, hlength,
        countFrom_skip, replaceFrom_skip, Nat.add_comm]
      have hshort : rest.length ≤ n := by
        rw [htext, List.length_append] at h
        omega
      have hnext : Substituted sub new _ ([] ++ sub ++ rest) _ :=
        .next (occursIn_short (by rw [List.nil_append, List.length_dropLast]; omega))
          (substituted_from hsub n rest hshort)
      exact hnext
    · rw [Bool.not_eq_true] at hhead
      rw [countFrom, if_neg (by simp [hhead]), replaceFrom, if_neg (by simp [hhead])]
      exact (substituted_from hsub n text (by omega)).cons hhead

/-- **`text.count` and `text.replace` agree**: the occurrences counted are those replaced. -/
theorem substituted (hsub : sub ≠ []) (text : Text) : Substituted sub new (count sub text) text
    (replace sub new text) := by
  have hempty : sub.isEmpty = false := by
    rw [List.isEmpty_eq_false_iff]
    exact hsub
  rw [count, hempty, replace, hempty]
  exact substituted_from hsub text.length text (Nat.le_refl _)

end

/-! ## Directories -/

/-- The entries of the directory at a path, changed by `f`. -/
def Node.modify (f : List (Text × Node) → List (Text × Node)) : Node → List Text → Node
  | .directory entries, [] => .directory (f entries)
  | .directory entries, part :: parts =>
    match entries.lookup part with
    | .some child => .directory (replaceEntry part (child.modify f parts) entries)
    | .none => .directory entries
  | node, _ => node

/-- `os.unlink`: the entry called `name` is gone. -/
def removeEntry (name : Text) : List (Text × Node) → List (Text × Node)
  | [] => []
  | (key, node) :: rest => if key = name then rest else (key, node) :: removeEntry name rest

theorem replaceEntry_self {name : Text} {node : Node} : ∀ {entries : List (Text × Node)},
    entries.lookup name = .some node →
    replaceEntry name node entries = entries
  | [], _ => rfl
  | (key, old) :: rest, h => by
    by_cases hkey : key = name
    · subst hkey
      rw [List.lookup_cons_self] at h
      cases h
      rw [replaceEntry, if_pos rfl]
    · have hb : (name == key) = false := by simpa using fun h => hkey h.symm
      rw [List.lookup_cons, hb] at h
      rw [replaceEntry, if_neg hkey, replaceEntry_self h]

theorem replaceEntry_absent {name : Text} {new : Node} : ∀ {entries : List (Text × Node)},
    entries.lookup name = .none →
    replaceEntry name new entries = entries
  | [], _ => rfl
  | (key, old) :: rest, h => by
    by_cases hkey : key = name
    · subst hkey
      simp at h
    · have hb : (name == key) = false := by simpa using fun h => hkey h.symm
      rw [List.lookup_cons, hb] at h
      rw [replaceEntry, if_neg hkey, replaceEntry_absent h]

theorem Node.modify_id : ∀ (root : Node) (parts : List Text), root.modify
    (fun entries => entries) parts = root
  | .directory entries, [] => rfl
  | .directory entries, part :: parts => by
    rw [modify]
    cases hchild : entries.lookup part with
    | none => rfl
    | some child =>
      simp only []
      rw [Node.modify_id child parts, replaceEntry_self hchild]
  | .file _ _, parts | .symlink, parts | .other, parts => by cases parts <;> rfl

/-- A change that the entries of the directory cannot tell from another. -/
theorem Node.modify_congr {f g : List (Text × Node) → List (Text × Node)} :
    ∀ {root : Node} {parts : List Text},
    (∀ entries, root.lookup parts = .some (.directory entries) → f entries = g entries) →
    root.modify f parts = root.modify g parts
  | .directory entries, [], h => by
    rw [modify, modify, h entries rfl]
  | .directory entries, part :: parts, h => by
    rw [modify, modify]
    cases hchild : entries.lookup part with
    | none => rfl
    | some child =>
      simp only []
      rw [@Node.modify_congr _ _ child parts fun inner hinner =>
        h inner (by simp [lookup, hchild, hinner])]
  | .file _ _, parts, _ | .symlink, parts, _ | .other, parts, _ => by cases parts <;> rfl

/-- `os.replace` as a change of the directory. -/
theorem Node.replaceAt_eq_modify {name : Text} {new : Node} : ∀ (root : Node) (parts : List Text),
    root.replaceAt (parts ++ [name]) new = root.modify (replaceEntry name new) parts
  | .directory entries, [] => by
    rw [List.nil_append, replaceAt, modify]
    cases hchild : entries.lookup name with
    | none => rw [replaceEntry_absent hchild]
    | some child => simp [replaceAt]
  | .directory entries, part :: parts => by
    rw [List.cons_append, replaceAt, modify]
    cases hchild : entries.lookup part with
    | none => rfl
    | some child =>
      simp only []
      rw [Node.replaceAt_eq_modify child parts]
  | .file _ _, parts | .symlink, parts | .other, parts => by cases parts <;> rfl

/-- What stands at a path stands in the directory above it. -/
theorem Node.lookup_concat {name : Text} {node : Node} : ∀ {root : Node} {parts : List Text},
    root.lookup (parts ++ [name]) = .some node ↔
      ∃ entries, root.lookup parts = .some (.directory entries) ∧ entries.lookup name = .some node
  | .directory entries, [] => by
    rw [List.nil_append, lookup, lookup]
    cases hchild : entries.lookup name with
    | none => simp [hchild]
    | some child => simp [lookup, hchild]
  | .directory entries, part :: parts => by
    rw [List.cons_append, lookup, lookup]
    cases hchild : entries.lookup part with
    | none => simp
    | some child => exact @Node.lookup_concat _ _ child parts
  | .file _ _, parts | .symlink, parts | .other, parts => by
    cases parts <;> simp [lookup]

/-- Above the path of a replaced node there are directories. -/
theorem Node.lookup_replaceAt_above (new : Node) {old : Node} :
    ∀ {root : Node} {above : List Text} {name : Text} {below : List Text},
    root.lookup (above ++ name :: below) = .some old →
      ∃ entries, (root.replaceAt (above ++ name :: below) new).lookup above = .some
        (.directory entries)
  | .directory entries, [], name, below, h => by
    rw [List.nil_append, replaceAt]
    cases hchild : entries.lookup name with
    | none => exact ⟨entries, rfl⟩
    | some child => exact ⟨replaceEntry name (child.replaceAt below new) entries, rfl⟩
  | .directory entries, part :: above, name, below, h => by
    rw [List.cons_append, lookup, Option.bind_eq_some_iff] at h
    obtain ⟨child, hchild, h⟩ := h
    obtain ⟨inner, hinner⟩ := Node.lookup_replaceAt_above new h
    rw [List.cons_append, replaceAt, hchild]
    refine ⟨inner, ?_⟩
    simp only []
    rw [lookup, lookup_replaceEntry_self hchild, Option.bind_some, hinner]
  | .file _ _, above, name, below, h | .symlink, above, name, below, h | .other, above, name, below,
      h => by
    cases above <;> simp [lookup] at h

/-! ## The write through a temporary file -/

/-- Where the write fails, if it does: in `mkstemp`, in the write or the flush with some bytes
written, in `fsync`, or in `os.replace`. -/
inductive DiskFault where
  | none
  | create
  | write (written : ℕ)
  | sync
  | rename
deriving DecidableEq

/-- The `try`, on the entries of the directory with the new temporary file. -/
def writeTemporary (temporary name : Text) (candidate : Bytes) (fault : DiskFault)
    (entries : List (Text × Node)) :
    Py Unit × List (Text × Node) :=
  match fault with
  | .write written =>
    (.error .osError, replaceEntry temporary (.file mkstempPerm (candidate.take written)) entries)
  | .sync | .rename =>
    (.error .osError, replaceEntry temporary (.file mkstempPerm candidate) entries)
  | .none | .create =>
    (.ok (), replaceEntry name (.file mkstempPerm candidate)
      (removeEntry temporary (replaceEntry temporary (.file mkstempPerm candidate) entries)))

/-- The `finally`. -/
def unlinkTemporary (temporary : Text) (entries : List (Text × Node)) : List (Text × Node) :=
  if (entries.lookup temporary).isSome then removeEntry temporary entries else entries

/-- `mkstemp`, the `try` and its `finally`. -/
def writeEntries (temporary name : Text) (candidate : Bytes) (fault : DiskFault)
    (entries : List (Text × Node)) :
    Py Unit × List (Text × Node) :=
  if fault = .create then (.error .osError, entries)
  else
    let written :=
      writeTemporary temporary name candidate fault ((temporary, .file mkstempPerm []) :: entries)
    (written.1, unlinkTemporary temporary written.2)

/-- However the write ends, the temporary file is gone; where it does not fail, the candidate has
taken the name. -/
theorem writeEntries_eq {temporary name : Text} (candidate : Bytes) (fault : DiskFault)
    {entries : List (Text × Node)} (hfresh : entries.lookup temporary = .none)
    (hne : temporary ≠ name) :
    writeEntries temporary name candidate fault entries =
      if fault = .none then (.ok (), replaceEntry name (.file mkstempPerm candidate) entries)
        else (.error .osError, entries) := by
  have hremoved : ∀ node : Node, unlinkTemporary temporary ((temporary, node) :: entries) =
      entries := by
    intro node
    simp [unlinkTemporary, removeEntry]
  have hkept : unlinkTemporary temporary (replaceEntry name (.file mkstempPerm candidate) entries) =
      replaceEntry name (.file mkstempPerm candidate) entries := by
    rw [unlinkTemporary, lookup_replaceEntry_ne hne, hfresh]
    rfl
  cases fault with
  | none => simp [writeEntries, writeTemporary, replaceEntry, removeEntry, hkept]
  | create => simp [writeEntries]
  | write written => simp [writeEntries, writeTemporary, replaceEntry, hremoved]
  | sync | rename => simp [writeEntries, writeTemporary, replaceEntry, hremoved]

/-- The write beside the file at a path. -/
def writeFile (root : Node) (parts : List Text) (temporary : Text) (candidate : Bytes)
    (fault : DiskFault) : Py Unit × Node :=
  match root.lookup parts.dropLast with
  | .some (.directory entries) =>
    let written := writeEntries temporary (parts.getLastD []) candidate fault entries
    (written.1, root.modify (fun _ => written.2) parts.dropLast)
  | _ => (.error .osError, root)

/-- Nothing stands under the name of the temporary file, beside a path. -/
def FreshBeside (root : Node) (parts : List Text) (temporary : Text) : Prop :=
  root.lookup (parts.dropLast ++ [temporary]) = .none

instance (root : Node) (parts : List Text) (temporary : Text) : Decidable
    (FreshBeside root parts temporary) :=
  decidable_of_iff ((root.lookup (parts.dropLast ++ [temporary])).isNone = true)
    Option.isNone_iff_eq_none

theorem writeFile_eq {root old : Node} {parts : List Text} {temporary : Text} (candidate : Bytes)
    (fault : DiskFault) (hparts : parts ≠ []) (hold : root.lookup parts = .some old)
    (hfresh : FreshBeside root parts temporary) :
    writeFile root parts temporary candidate fault =
      if fault = .none then (.ok (), root.replaceAt parts (.file mkstempPerm candidate))
        else (.error .osError, root) := by
  have hsplit : parts.dropLast ++ [parts.getLastD []] = parts := by
    rw [List.getLastD_eq_getLast?, List.getLast?_eq_some_getLast hparts]
    exact List.dropLast_append_getLast hparts
  rw [← hsplit] at hold
  obtain ⟨entries, hdirectory, hname⟩ := Node.lookup_concat.mp hold
  have habsent : entries.lookup temporary = .none := by
    rw [Option.eq_none_iff_forall_ne_some]
    intro node hnode
    have hsome := Node.lookup_concat.mpr ⟨entries, hdirectory, hnode⟩
    rw [hfresh] at hsome
    cases hsome
  have hne : temporary ≠ parts.getLastD [] := by
    intro heq
    rw [heq, hname] at habsent
    cases habsent
  have hwritten := writeEntries_eq candidate fault habsent hne
  rw [writeFile, hdirectory]
  simp only [hwritten]
  by_cases hfault : fault = .none
  · rw [if_pos hfault, if_pos hfault]
    refine congrArg (Prod.mk _) ?_
    conv_rhs => rw [← hsplit, Node.replaceAt_eq_modify]
    refine Node.modify_congr fun inner hinner => ?_
    rw [hdirectory] at hinner
    cases hinner
    rfl
  · rw [if_neg hfault, if_neg hfault]
    refine congrArg (Prod.mk _) ?_
    conv_rhs => rw [← Node.modify_id root parts.dropLast]
    refine Node.modify_congr fun inner hinner => ?_
    rw [hdirectory] at hinner
    cases hinner
    rfl

/-! ## `apply`, step by step -/

section
variable (lib : Library)

/-- The checks of `apply`: the candidate that is left to write, if there is one. -/
def ReplaceTextExecutor.check (root : Node) (data : WorkspaceReplaceTextInput)
    (prepared : PreparedMutation) :
    Py (List Text × Option Bytes) := do
  let parts ← resolve lib root data.path false
  let (_, current) ← orRaise (readFile root parts) (.tool "workspace_read_failed")
  let currentSha := lib.sha256 current
  if currentSha = prepared.candidateSha256 then
    return (parts, .none)
  raiseIf (currentSha != prepared.preimageSha256) (.tool "stale_preimage")
  let currentText ← orRaise (decode current) (.tool "prepared_mutation_invalid")
  raiseIf (count prepared.search currentText != prepared.expectedMatches) (.tool "stale_preimage")
  let candidate := encode (replace prepared.search prepared.replacement currentText)
  let candidateSha := lib.sha256 candidate
  raiseIf (candidateSha != prepared.candidateSha256 ||
    mutationSha lib parts currentSha candidateSha != prepared.mutationFingerprint)
    (.tool "mutation_fingerprint_mismatch")
  return (parts, .some candidate)

/-- `apply`, with the name `mkstemp` chooses: what it returns or raises, and the workspace. -/
def ReplaceTextExecutor.applySteps (root : Node) (data : WorkspaceReplaceTextInput)
    (prepared : PreparedMutation) (temporary : Text) (fault : DiskFault) : Py Bool × Node :=
  match ReplaceTextExecutor.check lib root data prepared with
  | .error e => (.error e, root)
  | .ok (_, .none) => (.ok true, root)
  | .ok (parts, .some candidate) =>
    match writeFile root parts temporary candidate fault with
    | (.ok (), after) => (.ok false, after)
    | (.error e, after) => (.error e, after)

variable {lib} {root : Node} {data : WorkspaceReplaceTextInput} {prepared : PreparedMutation}
  {temporary : Text} {fault : DiskFault}

/-- What the checks have found where they pass. -/
theorem ReplaceTextExecutor.check_ok {parts : List Text} {candidate : Option Bytes}
    (h : ReplaceTextExecutor.check lib root data prepared = .ok (parts, candidate)) :
    resolve lib root data.path false = .ok parts ∧ ∃ perm current, readFile root parts = .some
      (perm, current) ∧
      (candidate = .none ∧ lib.sha256 current = prepared.candidateSha256 ∨
        ∃ text, lib.sha256 current ≠ prepared.candidateSha256 ∧
          lib.sha256 current = prepared.preimageSha256 ∧ decode current = .some text ∧
          candidate = .some (encode (replace prepared.search prepared.replacement text))) := by
  simp only [ReplaceTextExecutor.check, Py.bind_eq_ok, orRaise_eq_ok] at h
  obtain ⟨parts', hparts, ⟨perm, current⟩, hread, h⟩ := h
  split at h
  next hsame =>
    cases h
    exact ⟨hparts, perm, current, hread, .inl ⟨rfl, hsame⟩⟩
  next hdiff =>
    simp only [Py.bind_eq_ok, raiseIf_eq_ok, orRaise_eq_ok, bne_eq_false_iff_eq] at h
    obtain ⟨-, hpre, text, htext, -, -, -, -, h⟩ := h
    cases h
    exact ⟨hparts, perm, current, hread, .inr ⟨text, hdiff, hpre, htext, rfl⟩⟩

/-- The name `mkstemp` chooses is new in the directory of the target. -/
def FreshName (root : Node) (data : WorkspaceReplaceTextInput) (temporary : Text) : Prop :=
  FreshBeside root (pureParts data.path) temporary

instance (root : Node) (data : WorkspaceReplaceTextInput) (temporary : Text) : Decidable
    (FreshName root data temporary) :=
  inferInstanceAs (Decidable (FreshBeside root (pureParts data.path) temporary))

/-- A path that resolves to a file is not that of the root. -/
theorem path_ne_nil {root : Node} {perm : ℕ} {bytes : Bytes} {parts : List Text}
    (hroot : ∃ entries, root = .directory entries)
    (hread : readFile root parts = .some (perm, bytes)) : parts ≠ [] := by
  intro hnil
  obtain ⟨entries, rfl⟩ := hroot
  rw [hnil] at hread
  cases hread

theorem readFile_eq_some {root : Node} {perm : ℕ} {bytes : Bytes} {parts : List Text} :
    readFile root parts = .some (perm, bytes) ↔ root.lookup parts = .some (.file perm bytes) := by
  rw [readFile]
  split
  next perm' bytes' h => simp [h]
  next h => simpa using h perm bytes

/-- **The steps are those of `apply`**: their outcome is the one it gives, and an error leaves the
workspace as it was. -/
theorem ReplaceTextExecutor.applySteps_eq (hroot : ∃ entries, root = .directory entries)
    (hfresh : FreshName root data temporary) :
    ReplaceTextExecutor.applySteps lib root data prepared temporary fault =
      match ReplaceTextExecutor.apply lib root data prepared (decide (fault ≠ .none)) with
      | .ok (already, after) => (.ok already, after)
      | .error e => (.error e, root) := by
  have happly : ReplaceTextExecutor.apply lib root data prepared (decide (fault ≠ .none)) = (do
      let (parts, candidate) ← ReplaceTextExecutor.check lib root data prepared
      match candidate with
      | .none => return (true, root)
      | .some candidate => do
        raiseIf (decide (fault ≠ .none)) .osError
        return (false, root.replaceAt parts (.file mkstempPerm candidate))) := by
    rw [ReplaceTextExecutor.apply, ReplaceTextExecutor.check, bind_assoc]
    refine bind_congr fun parts => ?_
    rw [bind_assoc]
    refine bind_congr fun found => ?_
    obtain ⟨perm, current⟩ := found
    by_cases hsame : lib.sha256 current = prepared.candidateSha256
    · simp only [hsame, if_true, pure_bind]
    · simp only [hsame, if_false, bind_assoc, pure_bind]
  rw [happly, ReplaceTextExecutor.applySteps]
  cases hcheck : ReplaceTextExecutor.check lib root data prepared with
  | error e => rfl
  | ok found =>
    obtain ⟨parts, candidate⟩ := found
    cases candidate with
    | none => rfl
    | some candidate =>
      obtain ⟨hresolve, perm, current, hread, -⟩ := ReplaceTextExecutor.check_ok hcheck
      have hparts := (resolve_file lib hresolve).1
      have hne : parts ≠ [] := path_ne_nil hroot hread
      rw [hparts] at hread hne
      have hwritten := writeFile_eq candidate fault hne (readFile_eq_some.mp hread) hfresh
      rw [← hparts] at hwritten
      simp only [hwritten]
      by_cases hfault : fault = .none <;> simp [hfault]

/-- A replaced file is found where it was. -/
theorem resolve_replaceAt {relative : Text} {parts : List Text} {perm perm' : ℕ}
    {bytes bytes' : Bytes} (h : resolve lib root relative false = .ok parts)
    (hold : root.lookup parts = .some (.file perm bytes)) :
    resolve lib (root.replaceAt parts (.file perm' bytes')) relative false = .ok parts := by
  have hparts := (resolve_file lib h).1
  have hlinks : crossesSymlink (root.replaceAt parts (.file perm' bytes')) parts = false := by
    rw [crossesSymlink, List.any_eq_false]
    intro above habove
    obtain ⟨below, hbelow⟩ := (List.mem_inits above parts).mp habove
    cases below with
    | nil =>
      rw [List.append_nil] at hbelow
      rw [hbelow, Node.lookup_replaceAt hold]
      simp
    | cons name below =>
      rw [← hbelow] at hold ⊢
      obtain ⟨entries, hentries⟩ := Node.lookup_replaceAt_above (.file perm' bytes') hold
      rw [hentries]
      simp
  simp only [resolve, Py.bind_eq_ok, raiseIf_eq_ok] at h ⊢
  obtain ⟨u, hshape, v, hdots, x, hdenied, y, -, h⟩ := h
  rw [← hparts] at hdots hdenied ⊢
  refine ⟨u, hshape, v, hdots, x, hdenied, y, hlinks, ?_⟩
  rw [Node.lookup_replaceAt hold]
  rfl

/-! ## Exactness -/

/-- What `prepare` has read and recorded. -/
structure Preimage (lib : Library) (root : Node) (data : WorkspaceReplaceTextInput)
    (prepared : PreparedMutation) (before : Bytes) (text : Text) : Prop where
  reads : ∃ perm, root.lookup (pureParts data.path) = .some (.file perm before)
  decodes : decode before = .some text
  counts : count data.search text = data.expectedMatches
  preimage : prepared.preimageSha256 = lib.sha256 before
  candidate : prepared.candidateSha256 =
    lib.sha256 (encode (replace data.search data.replacement text))
  fingerprint : prepared.mutationFingerprint =
    mutationSha lib (pureParts data.path) prepared.preimageSha256 prepared.candidateSha256
  search : prepared.search = data.search
  replacement : prepared.replacement = data.replacement
  expectedMatches : prepared.expectedMatches = data.expectedMatches

theorem ReplaceTextExecutor.prepare_preimage
    (h : ReplaceTextExecutor.prepare lib root data = .ok prepared) :
    ∃ before text, Preimage lib root data prepared before text := by
  simp only [ReplaceTextExecutor.prepare, Py.bind_eq_ok, raiseIf_eq_ok, orRaise_eq_ok,
    bne_eq_false_iff_eq] at h
  obtain ⟨parts, hparts, ⟨perm, before⟩, hread, -, -, -, -, text, htext, -, hcount, -, -, -, -,
    h⟩ := h
  cases h
  have hpath := (resolve_file lib hparts).1
  rw [hpath] at hread
  exact ⟨before, text, ⟨perm, readFile_eq_some.mp hread⟩, htext, hcount, rfl, rfl,
    by rw [hpath], rfl, rfl, rfl⟩

/-- What one `apply` may do to the workspace, where `before` was prepared to become `after`. -/
structure ExactApply (lib : Library) (data : WorkspaceReplaceTextInput) (before after : Bytes)
    (temporary : Text) (fault : DiskFault) (root : Node) (result : Py Bool × Node) : Prop where
  /-- The only change is from the preimage to the candidate, at the path. -/
  changes : result.2 ≠ root →
    result = (.ok false, root.replaceAt (pureParts data.path) (.file mkstempPerm after)) ∧
    ∃ perm, root.lookup (pureParts data.path) = .some (.file perm before)
  /-- On the preimage it makes that change, unless the disk fails. -/
  writes : ∀ perm, resolve lib root data.path false = .ok (pureParts data.path) →
    root.lookup (pureParts data.path) = .some (.file perm before) → before ≠ after → fault = .none →
      result = (.ok false, root.replaceAt (pureParts data.path) (.file mkstempPerm after))
  /-- On the candidate it succeeds and changes nothing. -/
  applied : ∀ perm, resolve lib root data.path false = .ok (pureParts data.path) →
    root.lookup (pureParts data.path) = .some (.file perm after) → result = (.ok true, root)
  /-- On any other content, and where there is no file, it raises and changes nothing. -/
  refuses : (∀ perm, root.lookup (pureParts data.path) ≠ .some (.file perm before) ∧
    root.lookup (pureParts data.path) ≠ .some (.file perm after)) → ∃ e, result = (.error e, root)
  /-- An error changes nothing. -/
  raises : ∀ e, result.1 = .error e → result.2 = root
  /-- No temporary file remains. -/
  noTemporary : FreshName result.2 data temporary
  /-- After a success the path holds the candidate. -/
  succeeded : ∀ already, result.1 = .ok already →
    resolve lib result.2 data.path false = .ok (pureParts data.path) ∧
    ∃ perm, result.2.lookup (pureParts data.path) = .some (.file perm after)

theorem Node.lookup_modify {f : List (Text × Node) → List (Text × Node)}
    {entries : List (Text × Node)} :
    ∀ {root : Node} {parts : List Text}, root.lookup parts = .some (.directory entries) →
      (root.modify f parts).lookup parts = .some (.directory (f entries))
  | .directory inner, [], h => by
    cases h
    rfl
  | .directory inner, part :: parts, h => by
    rw [lookup, Option.bind_eq_some_iff] at h
    obtain ⟨child, hchild, h⟩ := h
    rw [modify, hchild]
    simp only []
    rw [lookup, lookup_replaceEntry_self hchild, Option.bind_some, Node.lookup_modify h]
  | .file _ _, parts, h | .symlink, parts, h | .other, parts, h => by
    cases parts <;> simp [lookup] at h

/-- A name that is new beside a file is still new when the file was replaced. -/
theorem FreshName.replaceAt {perm : ℕ} {bytes : Bytes} {new : Node} (hne : pureParts data.path ≠ [])
    (hfresh : FreshName root data temporary)
    (hold : root.lookup (pureParts data.path) = .some (.file perm bytes)) :
    FreshName (root.replaceAt (pureParts data.path) new) data temporary := by
  have hsplit : (pureParts data.path).dropLast ++ [(pureParts data.path).getLastD []] =
      pureParts data.path := by
    rw [List.getLastD_eq_getLast?, List.getLast?_eq_some_getLast hne]
    exact List.dropLast_append_getLast hne
  rw [← hsplit] at hold
  obtain ⟨entries, hdirectory, hname⟩ := Node.lookup_concat.mp hold
  rw [FreshName, FreshBeside, Option.eq_none_iff_forall_ne_some] at hfresh ⊢
  intro node hnode
  conv at hnode => lhs; rw [← hsplit, Node.replaceAt_eq_modify, List.dropLast_concat]
  obtain ⟨inner, hinner, htemporary⟩ := Node.lookup_concat.mp hnode
  rw [Node.lookup_modify hdirectory] at hinner
  cases hinner
  by_cases hsame : temporary = (pureParts data.path).getLastD []
  · rw [hsame] at hfresh
    exact hfresh _ (Node.lookup_concat.mpr ⟨entries, hdirectory, hname⟩)
  · rw [lookup_replaceEntry_ne hsame] at htemporary
    exact hfresh _ (Node.lookup_concat.mpr ⟨entries, hdirectory, htemporary⟩)

section
variable {before : Bytes} {text : Text} {start : Node} {perm : ℕ}

/-- On the candidate nothing is left to write. -/
theorem ReplaceTextExecutor.check_candidate (hpre : Preimage lib start data prepared before text)
    (hresolve : resolve lib root data.path false = .ok (pureParts data.path))
    (hcontent : root.lookup (pureParts data.path) =
      .some (.file perm (encode (replace data.search data.replacement text)))) :
    ReplaceTextExecutor.check lib root data prepared = .ok (pureParts data.path, .none) := by
  rw [ReplaceTextExecutor.check, hresolve, Py.ok_bind, readFile_eq_some.mpr hcontent, orRaise_some,
    Py.ok_bind]
  simp only [hpre.candidate, if_true]
  rfl

/-- On the preimage the candidate is. -/
theorem ReplaceTextExecutor.check_preimage (hsha : Function.Injective lib.sha256)
    (hpre : Preimage lib start data prepared before text)
    (hresolve : resolve lib root data.path false = .ok (pureParts data.path))
    (hcontent : root.lookup (pureParts data.path) = .some (.file perm before))
    (hchange : before ≠ encode (replace data.search data.replacement text)) :
    ReplaceTextExecutor.check lib root data prepared =
      .ok (pureParts data.path, .some (encode (replace data.search data.replacement text))) := by
  have hdiff : lib.sha256 before ≠
    lib.sha256 (encode (replace data.search data.replacement text)) := fun h => hchange (hsha h)
  have hprint := hpre.fingerprint
  rw [hpre.preimage, hpre.candidate] at hprint
  rw [ReplaceTextExecutor.check, hresolve, Py.ok_bind, readFile_eq_some.mpr hcontent, orRaise_some,
    Py.ok_bind]
  simp only [hpre.preimage, bne_self_eq_false, raiseIf_false, Py.ok_bind, hpre.decodes,
    orRaise_some, hpre.search, hpre.replacement, hpre.expectedMatches, hpre.counts, hpre.candidate,
      hprint, Bool.or_self]
  exact if_neg hdiff

/-- **One `apply`**, on any workspace, with any failure of the disk. -/
theorem ReplaceTextExecutor.applySteps_exact (fault : DiskFault)
    (hsha : Function.Injective lib.sha256) (hpre : Preimage lib start data prepared before text)
    (hroot : ∃ entries, root = .directory entries) (hfresh : FreshName root data temporary) :
    ExactApply lib data before
      (encode (replace data.search data.replacement text)) temporary fault root
      (ReplaceTextExecutor.applySteps lib root data prepared temporary fault) := by
  cases hcheck : ReplaceTextExecutor.check lib root data prepared with
  | error e =>
    have hrun : ReplaceTextExecutor.applySteps lib root data prepared temporary fault =
        (.error e, root) := by
      rw [ReplaceTextExecutor.applySteps, hcheck]
    rw [hrun]
    refine ⟨fun h => absurd rfl h, fun perm hresolve hcontent hchange hfault => ?_,
      fun perm hresolve hcontent => ?_, fun _ => ⟨e, rfl⟩, fun _ _ => rfl, hfresh,
        fun already h => by cases h⟩
    · rw [ReplaceTextExecutor.check_preimage hsha hpre hresolve hcontent hchange] at hcheck
      cases hcheck
    · rw [ReplaceTextExecutor.check_candidate hpre hresolve hcontent] at hcheck
      cases hcheck
  | ok found =>
    obtain ⟨parts, candidate⟩ := found
    obtain ⟨hresolve, perm, current, hread, hcase⟩ := ReplaceTextExecutor.check_ok hcheck
    have hparts := (resolve_file lib hresolve).1
    subst hparts
    have hne := path_ne_nil hroot hread
    rw [readFile_eq_some] at hread
    rcases hcase with ⟨rfl, hsame⟩ | ⟨text', hdiff, hcurrent, hdecode, rfl⟩
    · have hcurrent : current = encode (replace data.search data.replacement text) :=
        hsha (hsame.trans hpre.candidate)
      rw [hcurrent] at hread
      have hrun : ReplaceTextExecutor.applySteps lib root data prepared temporary fault =
          (.ok true, root) := by
        rw [ReplaceTextExecutor.applySteps, hcheck]
      rw [hrun]
      refine ⟨fun h => absurd rfl h, fun perm' _ hcontent hchange _ => ?_, fun _ _ _ => rfl,
        fun h => absurd hread (h perm).2, fun e h => (by cases h), hfresh,
          fun _ _ => ⟨hresolve, perm, hread⟩⟩
      rw [hread] at hcontent
      cases hcontent
      exact absurd rfl hchange
    · have hbefore : current = before := hsha (hcurrent.trans hpre.preimage)
      rw [hbefore] at hread hdecode hdiff
      rw [hpre.decodes] at hdecode
      cases hdecode
      have hchange : before ≠ encode (replace data.search data.replacement text) := by
        intro heq
        rw [hpre.candidate, ← heq] at hdiff
        exact hdiff rfl
      have hwritten :=
        writeFile_eq (encode (replace data.search data.replacement text)) fault hne hread hfresh
      rw [hpre.search, hpre.replacement] at hcheck
      by_cases hfault : fault = .none
      · have hrun : ReplaceTextExecutor.applySteps lib root data prepared temporary fault =
            (.ok false, root.replaceAt (pureParts data.path)
                (.file mkstempPerm (encode (replace data.search data.replacement text)))) := by
          rw [ReplaceTextExecutor.applySteps, hcheck]
          simp only [hwritten, if_pos hfault]
        rw [hrun]
        refine ⟨fun _ => ⟨rfl, perm, hread⟩, fun _ _ _ _ _ => rfl, fun perm' _ hcontent => ?_,
          fun h => absurd hread (h perm).1, fun e h => (by cases h), hfresh.replaceAt hne hread,
            fun _ _ => ⟨resolve_replaceAt hresolve hread, mkstempPerm, ?_⟩⟩
        · rw [hread] at hcontent
          cases hcontent
          exact absurd rfl hchange
        · exact Node.lookup_replaceAt hread
      · have hrun : ReplaceTextExecutor.applySteps lib root data prepared temporary fault =
            (.error .osError, root) := by
          rw [ReplaceTextExecutor.applySteps, hcheck]
          simp only [hwritten, if_neg hfault]
        rw [hrun]
        refine ⟨fun h => absurd rfl h, fun _ _ _ _ h => absurd h hfault, fun perm' _ hcontent => ?_,
          fun h => absurd hread (h perm).1, fun _ _ => rfl, hfresh, fun already h => by cases h⟩
        rw [hread] at hcontent
        cases hcontent
        exact absurd rfl hchange

end

end

/-! ## Histories -/

/-- An edit from outside, which may leave any workspace, or an application. -/
inductive WorkspaceEdit where
  | edit (entries : List (Text × Node))
  | apply (temporary : Text) (fault : DiskFault)

/-- The workspace after a step: `mkstemp` takes no name that is in use. -/
def ReplaceTextExecutor.step (lib : Library) (data : WorkspaceReplaceTextInput)
    (prepared : PreparedMutation) (root : Node) :
    WorkspaceEdit → Option Node
  | .edit entries => .some (.directory entries)
  | .apply temporary fault =>
    if FreshName root data temporary then
      .some (ReplaceTextExecutor.applySteps lib root data prepared temporary fault).2 else .none

/-- The histories of a workspace from `start`. -/
def ReplaceTextExecutor.system (lib : Library) (data : WorkspaceReplaceTextInput)
    (prepared : PreparedMutation) (start : List (Text × Node)) : System Node WorkspaceEdit where
  Init root := root = .directory start
  step := ReplaceTextExecutor.step lib data prepared

/-- The steps that are applications. -/
def applies (_ : Node) : WorkspaceEdit → Prop
  | .edit _ => False
  | .apply _ _ => True

section
variable {lib : Library} {data : WorkspaceReplaceTextInput} {prepared : PreparedMutation}
  {start : List (Text × Node)} {root : Node} {before : Bytes} {text : Text}

/-- The workspace is a directory throughout. -/
theorem ReplaceTextExecutor.reachable_directory (hsha : Function.Injective lib.sha256)
    (hpre : Preimage lib (.directory start) data prepared before text)
    (h : (ReplaceTextExecutor.system lib data prepared start).Reachable root) :
    ∃ entries, root = .directory entries := by
  refine h.invariant (I := fun root => ∃ entries, root = .directory entries) (fun s hs =>
    ⟨start, hs⟩) ?_
  intro s edit t hs hstep
  cases edit with
  | edit entries =>
    cases hstep
    exact ⟨entries, rfl⟩
  | apply temporary fault =>
    change (if FreshName s data temporary then _ else _) = _ at hstep
    split at hstep
    next hfresh =>
      cases hstep
      have hexact := ReplaceTextExecutor.applySteps_exact fault hsha hpre hs hfresh
      by_cases hsame : (ReplaceTextExecutor.applySteps lib s data prepared temporary fault).2 = s
      · rw [hsame]
        exact hs
      · obtain ⟨hresult, perm, hread⟩ := hexact.changes hsame
        obtain ⟨entries, rfl⟩ := hs
        rw [hresult]
        cases hparts : pureParts data.path with
        | nil =>
          rw [hparts] at hread
          cases hread
        | cons part parts =>
          simp only [Node.replaceAt]
          split
          next => exact ⟨_, rfl⟩
          next => exact ⟨_, rfl⟩
    next => cases hstep

/-- Once the path holds the candidate, applications change nothing. -/
theorem ReplaceTextExecutor.applies_keep (hsha : Function.Injective lib.sha256)
    (hpre : Preimage lib (.directory start) data prepared before text)
    {root' : Node} (hroot : ∃ entries, root = .directory entries)
    (hresolve : resolve lib root data.path false = .ok (pureParts data.path)) {perm : ℕ}
    (hcontent : root.lookup (pureParts data.path) =
    .some (.file perm (encode (replace data.search data.replacement text))))
    (hrun : (ReplaceTextExecutor.system lib data prepared start).Run applies root root') :
    root' = root := by
  refine hrun.invariant (I := fun s => s = root) ?_ rfl
  intro s edit t hs happly hstep
  cases edit with
  | edit entries => exact happly.elim
  | apply temporary fault =>
    rw [hs] at hstep
    change (if FreshName root data temporary then _ else _) = _ at hstep
    split at hstep
    next hfresh =>
      cases hstep
      have hexact := ReplaceTextExecutor.applySteps_exact fault hsha hpre hroot hfresh
      rw [hexact.applied perm hresolve hcontent]
    next => cases hstep

end

/-- **A prepared replacement is exact and idempotent**: in every history of the workspace each
application changes the file from the preimage to the candidate and nothing else, and after
one that succeeds any further applications change nothing. -/
theorem replace_text_exact (lib : Library) (hsha : Function.Injective lib.sha256)
    (start : List (Text × Node)) (data : WorkspaceReplaceTextInput) (prepared : PreparedMutation)
    (hprepare : ReplaceTextExecutor.prepare lib (.directory start) data = .ok prepared) :
    ∃ before text,
      (∃ perm, (Node.directory start).lookup (pureParts data.path) = .some (.file perm before)) ∧
      decode before = .some text ∧
      Substituted data.search data.replacement data.expectedMatches text
        (replace data.search data.replacement text) ∧
      ∀ root, (ReplaceTextExecutor.system lib data prepared start).Reachable root →
        ∀ temporary fault, FreshName root data temporary →
        ExactApply lib data before
          (encode (replace data.search data.replacement text)) temporary fault root
          (ReplaceTextExecutor.applySteps lib root data prepared temporary fault) ∧
        ∀ already, (ReplaceTextExecutor.applySteps lib root data prepared temporary fault).1 =
          .ok already → ∀ later,
          (ReplaceTextExecutor.system lib data prepared start).Run applies
            (ReplaceTextExecutor.applySteps lib root data prepared temporary fault).2 later →
              later = (ReplaceTextExecutor.applySteps lib root data prepared temporary
                fault).2 := by
  obtain ⟨before, text, hpre⟩ := ReplaceTextExecutor.prepare_preimage hprepare
  have hsearch : data.search ≠ [] :=
    List.ne_nil_of_length_pos (by have := data.search_length; omega)
  refine ⟨before, text, hpre.reads, hpre.decodes, ?_, fun root hreachable temporary fault hfresh =>
    ?_⟩
  · rw [← hpre.counts]
    exact substituted hsearch text
  · have hroot := ReplaceTextExecutor.reachable_directory hsha hpre hreachable
    have hexact := ReplaceTextExecutor.applySteps_exact fault hsha hpre hroot hfresh
    refine ⟨hexact, fun already hsuccess later hrun => ?_⟩
    obtain ⟨hresolve, perm, hcontent⟩ := hexact.succeeded already hsuccess
    have hafter : (ReplaceTextExecutor.system lib data prepared start).Reachable
        (ReplaceTextExecutor.applySteps lib root data prepared temporary fault).2 :=
      hreachable.step (a := .apply temporary fault) (if_pos hfresh)
    exact ReplaceTextExecutor.applies_keep hsha hpre
      (ReplaceTextExecutor.reachable_directory hsha hpre hafter) hresolve hcontent hrun

/-! ## A history -/

/-- The digests of the contents the example meets; of any other content a text that begins with `x`.
-/
def digest (raw : Bytes) : Text :=
  if raw = encode ['a'] then exampleShaA
  else if raw = encode ['b'] then exampleShaB
  else if raw = encode ("a.txt".toList ++ '\x00' :: exampleShaA ++ '\x00' :: exampleShaB) then
    hexText 64 0xa3ebab26429c41d86c052b4938878dc2ed92ff1e77d2fcfbde7547e4f8c6de8d
  else 'x' :: raw.map Char.ofUInt8

theorem ofUInt8_injective : Function.Injective Char.ofUInt8 := by
  intro a b h
  have hval := congrArg Char.val h
  exact UInt8.toUInt32_inj.mp hval

/-- A function that gives one more argument a value it does not take elsewhere. -/
theorem injective_override {α β : Type} [DecidableEq α] {f : α → β} (hf : Function.Injective f)
    (a : α) {b : β} (hb : ∀ x, f x ≠ b) :
    Function.Injective fun x => if x = a then b else f x := by
  intro x y h
  by_cases hx : x = a
  · by_cases hy : y = a
    · rw [hx, hy]
    · simp only [hx, hy, if_true, if_false] at h
      exact absurd h.symm (hb y)
  · by_cases hy : y = a
    · simp only [hx, hy, if_true, if_false] at h
      exact absurd h (hb x)
    · simp only [hx, hy, if_false] at h
      exact hf h

theorem digest_injective : Function.Injective digest := by
  have hdistinct : exampleShaB ≠ exampleShaA ∧
      hexText 64 0xa3ebab26429c41d86c052b4938878dc2ed92ff1e77d2fcfbde7547e4f8c6de8d ≠ exampleShaA ∧
      hexText 64 0xa3ebab26429c41d86c052b4938878dc2ed92ff1e77d2fcfbde7547e4f8c6de8d ≠ exampleShaB ∧
      exampleShaA.head? ≠ .some 'x' ∧ exampleShaB.head? ≠ .some 'x' ∧
      (hexText 64 0xa3ebab26429c41d86c052b4938878dc2ed92ff1e77d2fcfbde7547e4f8c6de8d).head? ≠
        .some 'x' := by decide
  obtain ⟨hba, hfa, hfb, ha, hb, hf⟩ := hdistinct
  have hhead : ∀ {text : Text}, text.head? ≠ .some 'x' → ∀ raw : Bytes,
      'x' :: raw.map Char.ofUInt8 ≠ text := by
    intro text htext raw heq
    rw [← heq] at htext
    exact htext rfl
  have htext : Function.Injective fun raw : Bytes => 'x' :: raw.map Char.ofUInt8 := by
    intro x y h
    exact List.map_injective_iff.mpr ofUInt8_injective (List.cons.inj h).2
  refine injective_override (injective_override (injective_override htext _ (hhead hf)) _ fun raw =>
    ?_) _ fun raw => ?_
  · split
    next => exact hfb
    next => exact hhead hb raw
  · split
    next => exact hba
    next =>
      split
      next => exact hfa
      next => exact hhead ha raw

def digestLibrary : Library := { exampleLibrary with sha256 := digest }

def exampleMutation : PreparedMutation :=
  examplePrepared ['b'] exampleShaB
    (hexText 64 0xa3ebab26429c41d86c052b4938878dc2ed92ff1e77d2fcfbde7547e4f8c6de8d)
    "--- a.txt\n+++ a.txt\n@@ -1 +1 @@\n-a+b".toList

/-- Replace the one `a` of a file by `b`: the application of it writes `b`. -/
theorem replace_text_exact_example :
    (ReplaceTextExecutor.applySteps digestLibrary
      (.directory [("a.txt".toList, .file 0o644 (encode ['a']))])
      (exampleReplace ['b'] (by decide) (by decide)) exampleMutation ".novalton-i041-x".toList
      .none).1 = .ok false := by
  have hprepare : ReplaceTextExecutor.prepare digestLibrary
    (.directory [("a.txt".toList, .file 0o644 (encode ['a']))])
      (exampleReplace ['b'] (by decide) (by decide)) = .ok exampleMutation := by decide +kernel
  obtain ⟨before, text, hread, hdecode, -, hall⟩ :=
    replace_text_exact digestLibrary digest_injective _ _ _ hprepare
  have hexact := (hall _ ⟨_, rfl, .refl⟩ ".novalton-i041-x".toList .none rfl).1
  obtain ⟨perm, hread⟩ := hread
  cases hread
  have htext : decode (encode ['a']) = .some ['a'] := decode_encode _
  rw [htext] at hdecode
  cases hdecode
  rw [hexact.writes 0o644 (by decide) rfl (by decide) rfl]

end Novalton
