/-
The sanitisers of runtime-event payloads and of audit metadata: `_validate_json_value` and
`safe_payload` of `modules/runtime_events/service.py`, `_validate_metadata_value` and
`safe_metadata` of `modules/audit/service.py`.

Both walk a value with one counter, write it as JSON, and return what the text is read as. What
they return is the value with its keys sorted. Beside their own rules both refuse what JSON
cannot be written of: lone surrogates, and integers of more digits than are printed.
-/
import Mathlib.Algebra.Order.BigOperators.Group.List
import Mathlib.Algebra.Order.Ring.Nat
import Novalton.JsonValues
import Novalton.PolicyAudit
import Novalton.WorkflowPlans

namespace Novalton.PayloadSafety

open Audit (TextLibrary SECRET_VALUE urlsplit queryKeys normalizedKey)
open Contracts (WordClass)
open WorkflowPlans (ApplicationError)
open PyValue (Within Throughout)

/-- What ends a call: a refusal, or an exception that no handler is around. -/
inductive SafetyError where
  | refused (error : ApplicationError)
  | valueError
deriving DecidableEq, Repr

/-! ## Strings -/

/-- A string as the text functions see it. A lone surrogate is no letter, digit, blank or
separator, and stands as another such character. -/
def shown (value : PyStr) : Text := value.map fun c =>
  match c with
  | .char c => c
  | .surrogate _ => '\uffff'

section
variable (lib : TextLibrary) (markers : List Text)

/-- `_forbidden_key`. -/
def forbiddenKey (value : Text) : Bool :=
  markers.any fun marker => occursIn marker (normalizedKey lib value)

/-- `_credential_bearing_url`. -/
def credentialBearingUrl (value : Text) : Bool :=
  match urlsplit lib value with
  | .none => false
  | .some parsed =>
    ["http".toList, "https".toList].contains parsed.scheme &&
      (parsed.netloc.contains '@' || (queryKeys lib parsed.query).any (forbiddenKey lib markers))

end

/-! ## Rules -/

/-- The limits of a sanitiser, the keys and strings it forbids, and what its refusals say. -/
structure SafetyRules where
  maxDepth : ℕ
  maxItems : ℕ
  maxStringLength : ℕ
  maxBytes : ℕ
  forbidden : Text → Bool
  credential : Text → Bool
  invalid : String → ApplicationError
  subject : String
  credentialMessage : String
  bytesMessage : String

def SafetyRules.refuse (rules : SafetyRules) (message : String) : SafetyError :=
  .refused (rules.invalid (rules.subject ++ message))

/-- `_FORBIDDEN_KEYS` of runtime events. -/
def PAYLOAD_FORBIDDEN_KEYS : List Text :=
  ["accesstoken", "apikey", "authorization", "authorizationheader", "bearertoken", "clientsecret",
    "cookie", "credential", "idtoken", "password", "passwd", "refreshtoken", "secret", "setcookie",
      "token"].map String.toList

def MAX_PAYLOAD_BYTES : ℕ := 8 * 1024

def payloadRules (lib : TextLibrary) : SafetyRules where
  maxDepth := 8
  maxItems := 256
  maxStringLength := 2048
  maxBytes := MAX_PAYLOAD_BYTES
  forbidden := forbiddenKey lib PAYLOAD_FORBIDDEN_KEYS
  credential := credentialBearingUrl lib PAYLOAD_FORBIDDEN_KEYS
  invalid := fun message => ⟨"invalid_runtime_event", message, 422⟩
  subject := "Runtime event payload"
  credentialMessage := " contains a credential-bearing URL"
  bytesMessage := " exceeds 8192 bytes"

def metadataRules (lib : TextLibrary) (w : WordClass) : SafetyRules where
  maxDepth := Audit.MAX_METADATA_DEPTH
  maxItems := Audit.MAX_METADATA_ITEMS
  maxStringLength := Audit.MAX_STRING_LENGTH
  maxBytes := Audit.MAX_METADATA_BYTES
  forbidden := forbiddenKey lib Audit.FORBIDDEN_KEYS
  credential := fun value => credentialBearingUrl lib Audit.FORBIDDEN_KEYS value ||
    (SECRET_VALUE w).search value
  invalid := fun message => ⟨"invalid_audit_record", message, 422⟩
  subject := "Audit metadata"
  credentialMessage := " contains credential material"
  bytesMessage := " exceeds 4096 bytes"

/-! ## Sanitisers -/

section
variable {φ : Type} (floats : FloatText φ) (rules : SafetyRules)

/-- The checks of a value of any kind: its depth, and that it is within the count. -/
def counted (depth count : ℕ) : Except SafetyError ℕ :=
  if rules.maxDepth < depth then .error (rules.refuse " is too deeply nested")
  else if rules.maxItems < count + 1 then .error (rules.refuse " contains too many values")
  else .ok (count + 1)

def checkedFloat (value : φ) (count : ℕ) : Except SafetyError ℕ :=
  if floats.isfinite value then .ok count else .error (rules.refuse " contains a non-finite number")

def checkedString (value : PyStr) (count : ℕ) : Except SafetyError ℕ :=
  if rules.maxStringLength < value.length then .error (rules.refuse " contains an oversized string")
  else if rules.credential (shown value) then .error (rules.refuse rules.credentialMessage)
  else .ok count

def checkedKey : PyKey → Except SafetyError Unit
  | .other _ => .error (rules.refuse " keys must be strings")
  | .str key => if rules.forbidden (shown key) then
      .error (rules.refuse " contains a forbidden field") else .ok ()

mutual

/-- `_validate_json_value` and `_validate_metadata_value`, from the count before a value to the
count after it. -/
def validateValue (depth count : ℕ) : PyValue φ → Except SafetyError ℕ
  | .none => counted rules depth count
  | .bool _ => counted rules depth count
  | .int _ => counted rules depth count
  | .float value => counted rules depth count >>= checkedFloat floats rules value
  | .str value => counted rules depth count >>= checkedString rules value
  | .list items => counted rules depth count >>= fun count => validateItems (depth + 1) count items
  | .dict entries => counted rules depth count >>= fun count =>
    validateEntries (depth + 1) count entries

def validateItems (depth count : ℕ) : List (PyValue φ) → Except SafetyError ℕ
  | [] => .ok count
  | item :: items => validateValue depth count item >>= fun count => validateItems depth count items

def validateEntries (depth count : ℕ) : List (PyKey × PyValue φ) → Except SafetyError ℕ
  | [] => .ok count
  | (key, value) :: entries =>
    checkedKey rules key >>= fun _ => validateValue depth count value >>=
      fun count => validateEntries depth count entries

end

/-- The checks of a value that is not `None`, and what its JSON is read as. -/
def sanitized (value : PyValue φ) : Except SafetyError (PyValue φ) := do
  let _ ← validateValue floats rules 0 0 value
  match value.dumped floats with
  | .none => .error (rules.refuse " is not JSON serializable")
  | .some encoded =>
    if rules.maxBytes < encoded.length then .error (rules.refuse rules.bytesMessage)
    else
      match PyValue.loaded floats encoded with
      | .some loaded => .ok loaded
      | .none => .error .valueError

def safe : PyValue φ → Except SafetyError (PyValue φ)
  | .none => .ok .none
  | value => sanitized floats rules value

end

/-- `safe_payload`. -/
def safePayload {φ : Type} (floats : FloatText φ) (lib : TextLibrary) (payload : PyValue φ) :
    Except SafetyError (PyValue φ) :=
  safe floats (payloadRules lib) payload

/-- `safe_metadata`. -/
def safeMetadata {φ : Type} (floats : FloatText φ) (lib : TextLibrary) (w : WordClass)
    (metadata : PyValue φ) :
    Except SafetyError (PyValue φ) :=
  safe floats (metadataRules lib w) metadata

/-! ## What is accepted -/

section
variable {φ : Type} (floats : FloatText φ) (rules : SafetyRules)

/-- The rules of a value by itself. -/
structure Sound (v : PyValue φ) : Prop where
  keys : ∀ entries, v = .dict entries → ∀ entry ∈ entries, ∃ key, entry.1 = .str key ∧
    rules.forbidden (shown key) = false
  string : ∀ value, v = .str value → value.length ≤ rules.maxStringLength ∧
    rules.credential (shown value) = false
  finite : ∀ value, v = .float value → floats.isfinite value = true

/-- The limit of the encoded bytes. -/
def BytesWithin (v : PyValue φ) : Prop :=
  ∃ tree, v.document floats = .some tree ∧ (encode tree.dumps).length ≤ rules.maxBytes

/-- The rules at every depth, and the limits of a value. -/
structure Acceptable (v : PyValue φ) : Prop where
  nested : ∀ d w, Within d v w → d ≤ rules.maxDepth ∧ Sound floats rules w
  total : v.total ≤ rules.maxItems
  bytes : BytesWithin floats rules v

/-- The rules of a value that stands `d` levels below one at a depth. -/
def Proper (depth d : ℕ) (w : PyValue φ) : Prop := depth + d ≤ rules.maxDepth ∧ Sound floats rules w

variable {floats : FloatText φ} {rules : SafetyRules} {depth count n : ℕ}

theorem proper_succ : (fun d (w : PyValue φ) => Proper floats rules depth (d + 1) w) =
    Proper floats rules (depth + 1) := by
  funext d w
  rw [Proper, Proper, Nat.add_right_comm, Nat.add_assoc]

theorem bind_eq_ok {ε α β : Type} {x : Except ε α} {f : α → Except ε β} {b : β} :
    (x >>= f) = .ok b ↔ ∃ a, x = .ok a ∧ f a = .ok b := by
  cases x with
  | error e => simp [bind, Except.bind]
  | ok a => simp [bind, Except.bind]

theorem counted_iff : counted rules depth count = .ok n ↔ depth ≤ rules.maxDepth ∧
    count + 1 ≤ rules.maxItems ∧ n = count + 1 := by
  rw [counted]
  split
  next h => exact iff_of_false (by simp) fun hall => by omega
  next h =>
    split
    next h' => exact iff_of_false (by simp) fun hall => by omega
    next h' =>
      rw [Except.ok.injEq]
      exact ⟨fun heq => ⟨by omega, by omega, heq.symm⟩, fun hall => hall.2.2.symm⟩

theorem checkedFloat_iff {value : φ} : checkedFloat floats rules value count = .ok n ↔
    floats.isfinite value = true ∧ n = count := by
  rw [checkedFloat]
  split
  next h => simp [h, eq_comm]
  next h => simp [h]

theorem checkedString_iff {value : PyStr} : checkedString rules value count = .ok n ↔
    (value.length ≤ rules.maxStringLength ∧ rules.credential (shown value) = false) ∧
    n = count := by
  rw [checkedString]
  split
  next h => exact iff_of_false (by simp) fun hall => absurd hall.1.1 (Nat.not_le.mpr h)
  next h =>
    split
    next h' => simp [h']
    next h' => simp [h', Nat.not_lt.mp h, eq_comm]

theorem checkedKey_iff {key : PyKey} : checkedKey rules key = .ok () ↔ ∃ text, key = .str text ∧
    rules.forbidden (shown text) = false := by
  cases key with
  | other n => simp [checkedKey]
  | str text =>
    rw [checkedKey]
    split
    next h => simp [h]
    next h => simp [h]

/-- A value without values in it is sound if its own rule holds. -/
theorem sound_atom {v : PyValue φ} (hdict : ∀ entries, v ≠ .dict entries)
    (hstr : ∀ value, v ≠ .str value) (hfloat : ∀ value, v ≠ .float value) :
    Sound floats rules v :=
  ⟨fun entries heq => absurd heq (hdict entries), fun value heq => absurd heq (hstr value),
    fun value heq => absurd heq (hfloat value)⟩

theorem sound_str {value : PyStr} : Sound floats rules (.str value) ↔
    value.length ≤ rules.maxStringLength ∧ rules.credential (shown value) = false := by
  refine ⟨fun h => h.string value rfl,
    fun h => ⟨fun _ heq => (by cases heq), fun other heq => ?_, fun _ heq => (by cases heq)⟩⟩
  cases heq
  exact h

theorem sound_float {value : φ} : Sound floats rules (.float value) ↔
    floats.isfinite value = true := by
  refine ⟨fun h => h.finite value rfl,
    fun h => ⟨fun _ heq => (by cases heq), fun _ heq => (by cases heq), fun other heq => ?_⟩⟩
  cases heq
  exact h

theorem sound_dict {entries : List (PyKey × PyValue φ)} : Sound floats rules (.dict entries) ↔
    ∀ entry ∈ entries, ∃ key, entry.1 = .str key ∧ rules.forbidden (shown key) = false := by
  refine ⟨fun h => h.keys entries rfl,
    fun h => ⟨fun others heq => ?_, fun _ heq => (by cases heq), fun _ heq => (by cases heq)⟩⟩
  cases heq
  exact h

/-- The walk of a value without values in it, whose own check is `check`. -/
theorem atom_iff {v : PyValue φ} (hlist : ∀ items, v ≠ .list items)
    (hdict : ∀ entries, v ≠ .dict entries) (htotal : v.total = 1) {check : ℕ → Except SafetyError ℕ}
    (hcheck : ∀ count n, check count = .ok n ↔ Sound floats rules v ∧ n = count) :
    (counted rules depth count >>= check) = .ok n ↔
      v.Throughout (Proper floats rules depth) ∧ count + v.total ≤ rules.maxItems ∧
        n = count + v.total := by
  rw [bind_eq_ok, PyValue.throughout_atom hlist hdict, htotal, Proper]
  constructor
  · rintro ⟨middle, hcounted, hchecked⟩
    obtain ⟨hdepth, hitems, rfl⟩ := counted_iff.mp hcounted
    obtain ⟨hsound, rfl⟩ := (hcheck _ _).mp hchecked
    exact ⟨⟨hdepth, hsound⟩, hitems, rfl⟩
  · rintro ⟨⟨hdepth, hsound⟩, hitems, rfl⟩
    exact ⟨count + 1, counted_iff.mpr ⟨hdepth, hitems, rfl⟩, (hcheck _ _).mpr ⟨hsound, rfl⟩⟩

theorem plain_iff {v : PyValue φ} (hlist : ∀ items, v ≠ .list items)
    (hdict : ∀ entries, v ≠ .dict entries) (hstr : ∀ value, v ≠ .str value)
    (hfloat : ∀ value, v ≠ .float value) (htotal : v.total = 1) :
    counted rules depth count = .ok n ↔
      v.Throughout (Proper floats rules depth) ∧ count + v.total ≤ rules.maxItems ∧
        n = count + v.total := by
  rw [counted_iff, PyValue.throughout_atom hlist hdict, htotal, Proper]
  exact ⟨fun h => ⟨⟨h.1, sound_atom hdict hstr hfloat⟩, h.2⟩, fun h => ⟨h.1.1, h.2⟩⟩

mutual

/-- **The walk**: it accepts a value if every value within it is sound at its depth and the count
goes as far, and it counts them all. -/
theorem validateValue_iff : ∀ (v : PyValue φ) {depth count n : ℕ},
    validateValue floats rules depth count v = .ok n ↔
    v.Throughout (Proper floats rules depth) ∧ count + v.total ≤ rules.maxItems ∧
      n = count + v.total
  | .none, _, _, _ => plain_iff (fun _ => by simp) (fun _ => by simp) (fun _ => by simp)
    (fun _ => by simp) rfl
  | .bool _, _, _, _ =>
    plain_iff (fun _ => by simp) (fun _ => by simp) (fun _ => by simp) (fun _ => by simp) rfl
  | .int _, _, _, _ =>
    plain_iff (fun _ => by simp) (fun _ => by simp) (fun _ => by simp) (fun _ => by simp) rfl
  | .float _, _, _, _ => atom_iff (fun _ => by simp) (fun _ => by simp) rfl fun _ _ => by
    rw [checkedFloat_iff, sound_float]
  | .str _, _, _, _ => atom_iff (fun _ => by simp) (fun _ => by simp) rfl fun _ _ => by
    rw [checkedString_iff, sound_str]
  | .list items, depth, count, n => by
    rw [validateValue, bind_eq_ok, PyValue.throughout_list, proper_succ, PyValue.total]
    constructor
    · rintro ⟨middle, hcounted, hwalk⟩
      obtain ⟨hdepth, hitems, rfl⟩ := counted_iff.mp hcounted
      obtain ⟨hall, hcount, rfl⟩ := (validateItems_iff items hitems).mp hwalk
      exact ⟨⟨⟨hdepth, sound_atom (fun _ => by simp) (fun _ => by simp) fun _ => by simp⟩, hall⟩,
        by omega, by omega⟩
    · rintro ⟨⟨⟨hdepth, -⟩, hall⟩, hcount, rfl⟩
      have hitems : count + 1 ≤ rules.maxItems := by omega
      exact ⟨count + 1, counted_iff.mpr ⟨hdepth, hitems, rfl⟩,
        (validateItems_iff items hitems).mpr ⟨hall, by omega, by omega⟩⟩
  | .dict entries, depth, count, n => by
    rw [validateValue, bind_eq_ok, PyValue.throughout_dict, proper_succ, PyValue.total]
    constructor
    · rintro ⟨middle, hcounted, hwalk⟩
      obtain ⟨hdepth, hitems, rfl⟩ := counted_iff.mp hcounted
      obtain ⟨hkeys, hall, hcount, rfl⟩ := (validateEntries_iff entries hitems).mp hwalk
      exact ⟨⟨⟨hdepth, sound_dict.mpr hkeys⟩, hall⟩, by omega, by omega⟩
    · rintro ⟨⟨⟨hdepth, hsound⟩, hall⟩, hcount, rfl⟩
      have hitems : count + 1 ≤ rules.maxItems := by omega
      exact ⟨count + 1, counted_iff.mpr ⟨hdepth, hitems, rfl⟩,
        (validateEntries_iff entries hitems).mpr ⟨sound_dict.mp hsound, hall, by omega, by omega⟩⟩

theorem validateItems_iff : ∀ (items : List (PyValue φ)) {depth count n : ℕ},
    count ≤ rules.maxItems →
    (validateItems floats rules depth count items = .ok n ↔
      (∀ item ∈ items, item.Throughout (Proper floats rules depth)) ∧
      count + PyValue.totalItems items ≤ rules.maxItems ∧ n = count + PyValue.totalItems items)
  | [], depth, count, n, hcount => by
    rw [validateItems, Except.ok.injEq, PyValue.totalItems]
    exact ⟨fun heq => ⟨fun _ h => (by cases h), hcount, heq.symm⟩, fun h => h.2.2.symm⟩
  | item :: items, depth, count, n, hcount => by
    rw [validateItems, bind_eq_ok, PyValue.totalItems, List.forall_mem_cons]
    constructor
    · rintro ⟨middle, hitem, hwalk⟩
      obtain ⟨hfirst, hmiddle, rfl⟩ := (validateValue_iff item).mp hitem
      obtain ⟨hall, hlast, rfl⟩ := (validateItems_iff items hmiddle).mp hwalk
      exact ⟨⟨hfirst, hall⟩, by omega, by omega⟩
    · rintro ⟨⟨hfirst, hall⟩, hlast, rfl⟩
      have hmiddle : count + item.total ≤ rules.maxItems := by omega
      exact ⟨_, (validateValue_iff item).mpr ⟨hfirst, hmiddle, rfl⟩,
        (validateItems_iff items hmiddle).mpr ⟨hall, by omega, by omega⟩⟩

theorem validateEntries_iff : ∀ (entries : List (PyKey × PyValue φ)) {depth count n : ℕ},
    count ≤ rules.maxItems →
    (validateEntries floats rules depth count entries = .ok n ↔
      (∀ entry ∈ entries, ∃ key, entry.1 = .str key ∧ rules.forbidden (shown key) = false) ∧
      (∀ entry ∈ entries, entry.2.Throughout (Proper floats rules depth)) ∧
      count + PyValue.totalEntries entries ≤ rules.maxItems ∧
        n = count + PyValue.totalEntries entries)
  | [], depth, count, n, hcount => by
    rw [validateEntries, Except.ok.injEq, PyValue.totalEntries]
    exact ⟨fun heq => ⟨fun _ h => (by cases h), fun _ h => (by cases h), hcount, heq.symm⟩,
      fun h => h.2.2.2.symm⟩
  | (key, value) :: entries, depth, count, n, hcount => by
    rw [validateEntries, bind_eq_ok, PyValue.totalEntries, List.forall_mem_cons,
      List.forall_mem_cons]
    constructor
    · rintro ⟨_, hkey, hwalk⟩
      obtain ⟨middle, hvalue, hwalk⟩ := bind_eq_ok.mp hwalk
      obtain ⟨hfirst, hmiddle, rfl⟩ := (validateValue_iff value).mp hvalue
      obtain ⟨hkeys, hall, hlast, rfl⟩ := (validateEntries_iff entries hmiddle).mp hwalk
      exact ⟨⟨checkedKey_iff.mp hkey, hkeys⟩, ⟨hfirst, hall⟩, by omega, by omega⟩
    · rintro ⟨⟨hkey, hkeys⟩, ⟨hfirst, hall⟩, hlast, rfl⟩
      have hmiddle : count + value.total ≤ rules.maxItems := by omega
      exact ⟨(), checkedKey_iff.mpr hkey,
        bind_eq_ok.mpr ⟨_, (validateValue_iff value).mpr ⟨hfirst, hmiddle, rfl⟩,
        (validateEntries_iff entries hmiddle).mpr ⟨hkeys, hall, by omega, by omega⟩⟩⟩

end

/-! ## Keys in another order -/

theorem Sound.sorted {v : PyValue φ} (h : Sound floats rules v) : Sound floats rules v.sorted := by
  cases v with
  | dict entries =>
    obtain ⟨others, hothers, hperm⟩ := PyValue.sorted_dict_perm entries
    rw [hothers]
    refine sound_dict.mpr fun other hother => ?_
    obtain ⟨entry, hentry, rfl⟩ := List.mem_map.mp (hperm.subset hother)
    exact sound_dict.mp h entry hentry
  | none => exact h
  | bool _ => exact h
  | int _ => exact h
  | float _ => exact h
  | str _ => exact h
  | list _ => exact sound_atom (fun _ => by simp [PyValue.sorted]) (fun _ => by simp [PyValue.sorted]) fun _ => by simp [PyValue.sorted]

/-- A value that is walked through is so with its keys sorted. -/
theorem validateValue_sorted {v : PyValue φ}
    (h : validateValue floats rules depth count v = .ok n) :
    validateValue floats rules depth count v.sorted = .ok n := by
  obtain ⟨hall, hcount, heq⟩ := (validateValue_iff v).mp h
  refine (validateValue_iff v.sorted).mpr ⟨hall.sorted fun d w hw => ⟨hw.1, hw.2.sorted⟩, ?_, ?_⟩
  · rw [PyValue.total_sorted]
    exact hcount
  · rw [PyValue.total_sorted]
    exact heq

theorem finite_of_walk {v : PyValue φ} (h : validateValue floats rules depth count v = .ok n) :
    v.Finite floats :=
  ((validateValue_iff v).mp h).1.mono fun _ _ hw => hw.2.finite

/-- A value that is walked through and dumped is returned with its keys sorted, if it is short
enough. -/
theorem sanitized_eq {v : PyValue φ} (hdistinct : v.Distinct) {encoded : Bytes}
    (hwalk : validateValue floats rules 0 0 v = .ok n) (hdumped : v.dumped floats = .some encoded)
    (hbytes : encoded.length ≤ rules.maxBytes) : sanitized floats rules v = .ok v.sorted := by
  rw [sanitized, hwalk]
  simp only [bind, Except.bind, hdumped, if_neg (Nat.not_lt.mpr hbytes),
    PyValue.loaded_dumped hdumped (finite_of_walk hwalk) hdistinct]

/-! ## Refusals -/

/-- No other exception than a refusal. -/
def Refuses {α : Type} (x : Except SafetyError α) : Prop :=
  ∀ e, x = .error e → ∃ error, e = .refused error

theorem refuses_ok {α : Type} {a : α} : Refuses (.ok a : Except SafetyError α) := fun _ h => by
  cases h

theorem refuses_refuse {α : Type} {message : String} : Refuses
    (.error (rules.refuse message) : Except SafetyError α) := by
  intro e h
  cases h
  exact ⟨_, rfl⟩

theorem Refuses.bind {α β : Type} {x : Except SafetyError α} {f : α → Except SafetyError β}
    (hx : Refuses x) (hf : ∀ a, Refuses (f a)) :
    Refuses (x >>= f) := by
  cases x with
  | error e =>
    intro e' h
    cases h
    exact hx e rfl
  | ok a => exact hf a

theorem refuses_ite {α : Type} {p : Prop} [Decidable p] {x y : Except SafetyError α}
    (hx : Refuses x) (hy : Refuses y) :
    Refuses (if p then x else y) := by
  split
  · exact hx
  · exact hy

theorem refuses_counted : Refuses (counted rules depth count) :=
  refuses_ite refuses_refuse (refuses_ite refuses_refuse refuses_ok)

theorem refuses_checkedFloat {value : φ} : Refuses (checkedFloat floats rules value count) :=
  refuses_ite refuses_ok refuses_refuse

theorem refuses_checkedString {value : PyStr} : Refuses (checkedString rules value count) :=
  refuses_ite refuses_refuse (refuses_ite refuses_refuse refuses_ok)

theorem refuses_checkedKey : ∀ {key : PyKey}, Refuses (checkedKey rules key)
  | .other _ => refuses_refuse
  | .str _ => refuses_ite refuses_refuse refuses_ok

mutual

theorem refuses_validateValue : ∀ (v : PyValue φ) {depth count : ℕ}, Refuses
    (validateValue floats rules depth count v)
  | .none, _, _ => refuses_counted
  | .bool _, _, _ => refuses_counted
  | .int _, _, _ => refuses_counted
  | .float _, _, _ => refuses_counted.bind fun _ => refuses_checkedFloat
  | .str _, _, _ => refuses_counted.bind fun _ => refuses_checkedString
  | .list items, _, _ => refuses_counted.bind fun _ => refuses_validateItems items
  | .dict entries, _, _ => refuses_counted.bind fun _ => refuses_validateEntries entries

theorem refuses_validateItems : ∀ (items : List (PyValue φ)) {depth count : ℕ}, Refuses
    (validateItems floats rules depth count items)
  | [], _, _ => refuses_ok
  | item :: items, _, _ => (refuses_validateValue item).bind fun _ => refuses_validateItems items

theorem refuses_validateEntries : ∀ (entries : List (PyKey × PyValue φ)) {depth count : ℕ},
    Refuses (validateEntries floats rules depth count entries)
  | [], _, _ => refuses_ok
  | (_, value) :: entries, _, _ =>
    refuses_checkedKey.bind fun _ => (refuses_validateValue value).bind fun _ =>
      refuses_validateEntries entries

end

/-- What is dumped is always loaded, so nothing but a refusal ends a call; and what is returned was
walked through, dumped and short enough. -/
theorem sanitized_refuses {v : PyValue φ} (hdistinct : v.Distinct) : Refuses
    (sanitized floats rules v) := by
  cases hwalk : validateValue floats rules 0 0 v with
  | error e =>
    rw [sanitized, hwalk]
    intro e' h
    cases h
    exact refuses_validateValue v e hwalk
  | ok n =>
    cases hdumped : v.dumped floats with
    | none =>
      rw [sanitized, hwalk]
      simp only [bind, Except.bind, hdumped]
      exact refuses_refuse
    | some encoded =>
      by_cases hbytes : encoded.length ≤ rules.maxBytes
      · rw [sanitized_eq hdistinct hwalk hdumped hbytes]
        exact refuses_ok
      · rw [sanitized, hwalk]
        simp only [bind, Except.bind, hdumped, if_pos (Nat.not_le.mp hbytes)]
        exact refuses_refuse

theorem sanitized_ok {v r : PyValue φ} (h : sanitized floats rules v = .ok r) : ∃ n encoded,
    validateValue floats rules 0 0 v = .ok n ∧
    v.dumped floats = .some encoded ∧ encoded.length ≤ rules.maxBytes := by
  rw [sanitized, bind_eq_ok] at h
  obtain ⟨n, hwalk, h⟩ := h
  split at h
  next => cases h
  next encoded hdumped =>
    split at h
    next => cases h
    next hbytes => exact ⟨n, encoded, hwalk, hdumped, Nat.not_lt.mp hbytes⟩

/-! ## The sanitisers -/

/-- A value as Python builds it: the keys of a dict are distinct. -/
structure BuiltValue (φ : Type) where
  value : PyValue φ
  distinct : value.Distinct

/-- A value is accepted if it keeps to the rules and its integers can be printed. -/
theorem sanitized_ok_iff {v : PyValue φ} (hdistinct : v.Distinct) :
    (∃ r, sanitized floats rules v = .ok r) ↔ Acceptable floats rules v ∧ v.Printable := by
  constructor
  · rintro ⟨r, h⟩
    obtain ⟨n, encoded, hwalk, hdumped, hbytes⟩ := sanitized_ok h
    obtain ⟨hall, hcount, -⟩ := (validateValue_iff v).mp hwalk
    obtain ⟨hprint, tree, htree, rfl⟩ := PyValue.dumped_eq_some hdumped
    refine ⟨⟨fun d w hw => ?_, ?_, tree, htree, hbytes⟩, hprint⟩
    · obtain ⟨hdepth, hsound⟩ := hall d w hw
      exact ⟨by omega, hsound⟩
    · omega
  · rintro ⟨h, hprint⟩
    obtain ⟨tree, htree, hbytes⟩ := h.bytes
    have hwalk : validateValue floats rules 0 0 v = .ok v.total := by
      refine (validateValue_iff v).mpr ⟨fun d w hw => ?_, ?_, (Nat.zero_add _).symm⟩
      · obtain ⟨hdepth, hsound⟩ := h.nested d w hw
        exact ⟨by omega, hsound⟩
      · rw [Nat.zero_add]
        exact h.total
    have hdumped : v.dumped floats = .some (encode tree.dumps) := by
      rw [PyValue.dumped, if_pos ((PyValue.printable_iff v).mpr hprint), htree]
      rfl
    exact ⟨_, sanitized_eq hdistinct hwalk hdumped hbytes⟩

/-- What is returned is equal to the value, and is returned again. -/
theorem sanitized_again {v r : PyValue φ} (hdistinct : v.Distinct)
    (h : sanitized floats rules v = .ok r) :
    PyValue.Same v r ∧ sanitized floats rules r = .ok r := by
  obtain ⟨n, encoded, hwalk, hdumped, hbytes⟩ := sanitized_ok h
  have hsorted : r = v.sorted :=
    Except.ok.inj (h.symm.trans (sanitized_eq hdistinct hwalk hdumped hbytes))
  subst hsorted
  refine ⟨PyValue.same_sorted hdistinct, ?_⟩
  have hloaded := PyValue.loaded_dumped hdumped (finite_of_walk hwalk) hdistinct
  rw [sanitized, validateValue_sorted hwalk]
  simp only [bind, Except.bind, PyValue.dumped_sorted hdumped, if_neg (Nat.not_lt.mpr hbytes),
    hloaded]

/-! ## Bytes of a value within -/

theorem document_item {items : List (PyValue φ)} {trees : List JsonTree}
    (h : PyValue.documentItems floats items = .some trees) {item : PyValue φ}
    (hitem : item ∈ items) : ∃ tree ∈ trees, item.document floats = .some tree := by
  induction items generalizing trees with
  | nil => cases hitem
  | cons first items ih =>
    rw [PyValue.documentItems, Option.bind_eq_some_iff] at h
    obtain ⟨tree, htree, hmap⟩ := h
    obtain ⟨rest, hrest, rfl⟩ := Option.map_eq_some_iff.mp hmap
    rcases List.mem_cons.mp hitem with rfl | hitem
    · exact ⟨tree, List.mem_cons_self, htree⟩
    · obtain ⟨other, hother, hdocument⟩ := ih hrest hitem
      exact ⟨other, List.mem_cons_of_mem _ hother, hdocument⟩

/-- The text of a value is no shorter than that of one within it. -/
theorem size_within {v w : PyValue φ} {d : ℕ} (hw : Within d v w) : ∀ {tree : JsonTree},
    v.document floats = .some tree →
    ∃ sub, w.document floats = .some sub ∧ sub.size ≤ tree.size := by
  induction hw with
  | here => exact fun h => ⟨_, h, le_rfl⟩
  | @item d items item w hitem _ ih =>
    intro tree h
    rw [PyValue.document, Option.map_eq_some_iff] at h
    obtain ⟨trees, htrees, rfl⟩ := h
    obtain ⟨tree, htree, hdocument⟩ := document_item htrees hitem
    obtain ⟨sub, hsub, hsize⟩ := ih hdocument
    have hsum : tree.size ≤ (trees.map JsonTree.size).sum :=
      List.single_le_sum (fun _ _ => Nat.zero_le _) _ (List.mem_map_of_mem htree)
    refine ⟨sub, hsub, ?_⟩
    rw [JsonTree.size_array]
    omega
  | @entry d entries entry w hentry _ ih =>
    intro tree h
    rw [PyValue.document, Option.map_eq_some_iff] at h
    obtain ⟨fields, hfields, rfl⟩ := h
    obtain ⟨hall, rfl⟩ := (PyValue.documentEntries_iff _ _).mp hfields
    obtain ⟨tree, htree⟩ := Option.isSome_iff_exists.mp (hall entry hentry).2
    obtain ⟨sub, hsub, hsize⟩ := ih htree
    have hfield : (PyValue.field floats entry).2 = tree := by
      rw [PyValue.field, htree]
      rfl
    have hmem : tree.size ∈ (entries.map (PyValue.field floats)).map fun field => field.2.size := by
      rw [← hfield, List.map_map]
      exact List.mem_map_of_mem (f := (fun field => field.2.size) ∘ PyValue.field floats) hentry
    have hsum := List.single_le_sum (fun _ _ => Nat.zero_le _) _ hmem
    refine ⟨sub, hsub, ?_⟩
    rw [JsonTree.size_object]
    omega

theorem numeralLength_le_size (n : Int) : numeralLength n.natAbs ≤ (JsonTree.int n).size := by
  cases n with
  | ofNat n => exact (JsonTree.size_int n).ge
  | negSucc n =>
    have hpositive := JsonTree.size_int (n + 1)
    have htext : JsonTree.int ((n + 1 : ℕ) : Int) = .number (Nat.toDigits 10 (n + 1)) :=
      JsonTree.int_eq _
    rw [htext, JsonTree.size_number] at hpositive
    rw [JsonTree.int_eq, JsonTree.intText, JsonTree.size_number, JsonTree.measure_cons, hpositive]
    exact Nat.le_add_left _ _

/-- Where fewer bytes are allowed than an integer may have digits, every integer can be printed. -/
theorem printable_of_bytes {v : PyValue φ} (hrules : rules.maxBytes ≤ PyValue.MAX_STR_DIGITS)
    (h : BytesWithin floats rules v) : v.Printable := by
  obtain ⟨tree, htree, hbytes⟩ := h
  rw [JsonTree.length_encode_dumps] at hbytes
  rintro d w hw n rfl
  obtain ⟨sub, hsub, hsize⟩ := size_within hw htree
  cases hsub
  exact (numeralLength_le_size n).trans (hsize.trans (hbytes.trans hrules))

/-! ## Both sanitisers -/

/-- A sanitiser refuses a value or returns one that is equal to it and that it returns again; and it
accepts it under one condition. -/
structure Exact (sanitise : PyValue φ → Except SafetyError (PyValue φ)) (v : PyValue φ)
    (Accepted : Prop) : Prop where
  refuses : Refuses (sanitise v)
  again : ∀ r, sanitise v = .ok r → PyValue.Same v r ∧ sanitise r = .ok r
  accepts : (∃ r, sanitise v = .ok r) ↔ Accepted

/-- `None` would be let through as well if it were checked. -/
theorem safe_eq (hnone : sanitized floats rules .none = .ok .none) (v : PyValue φ) :
    safe floats rules v = sanitized floats rules v := by
  cases v with
  | none => exact hnone.symm
  | bool _ => rfl
  | int _ => rfl
  | float _ => rfl
  | str _ => rfl
  | list _ => rfl
  | dict _ => rfl

theorem sanitized_none (hitems : 1 ≤ rules.maxItems) (hbytes : 4 ≤ rules.maxBytes) :
    sanitized floats rules .none = .ok .none := by
  have hdistinct : (PyValue.none : PyValue φ).Distinct :=
    (PyValue.throughout_atom (fun _ => by simp) fun _ => by simp).mpr fun _ heq => by cases heq
  have hwalk : validateValue floats rules 0 0 .none = .ok 1 :=
    counted_iff.mpr ⟨Nat.zero_le _, hitems, rfl⟩
  exact sanitized_eq hdistinct hwalk rfl hbytes

theorem safe_exact (hitems : 1 ≤ rules.maxItems) (hbytes : 4 ≤ rules.maxBytes) {v : PyValue φ}
    (hdistinct : v.Distinct) :
    Exact (safe floats rules) v (Acceptable floats rules v ∧ v.Printable) := by
  have hsafe : safe floats rules = sanitized floats rules :=
    funext (safe_eq (sanitized_none hitems hbytes))
  rw [hsafe]
  exact ⟨sanitized_refuses hdistinct, fun r h => sanitized_again hdistinct h,
    sanitized_ok_iff hdistinct⟩

/-! ## Metadata as a document -/

theorem shown_of_text? {value : PyStr} {text : Text} (h : value.text? = .some text) :
    shown value = text := by
  rw [← PyStr.ofText_of_text? h, shown, PyStr.ofText, List.map_map]
  exact List.map_id text

theorem audit_counted_iff : Audit.counted depth count = .ok n ↔
    depth ≤ Audit.MAX_METADATA_DEPTH ∧ count + 1 ≤ Audit.MAX_METADATA_ITEMS ∧ n = count + 1 := by
  rw [Audit.counted]
  split
  next h => exact iff_of_false (by simp) fun hall => by omega
  next h =>
    split
    next h' => exact iff_of_false (by simp) fun hall => by omega
    next h' =>
      rw [Except.ok.injEq]
      exact ⟨fun heq => ⟨by omega, by omega, heq.symm⟩, fun hall => hall.2.2.symm⟩

section
variable {lib : TextLibrary} {w : WordClass}

theorem counted_document : counted (metadataRules lib w) depth count = .ok n ↔
    Audit.counted depth count = .ok n :=
  counted_iff.trans audit_counted_iff.symm

theorem checkedString_document {value : PyStr} {text : Text} (h : value.text? = .some text) :
    checkedString (metadataRules lib w) value count = .ok n ↔
      Audit.checkedString lib w text count = .ok n := by
  have hlength : value.length = text.length := by
    rw [← PyStr.ofText_of_text? h]
    exact List.length_map ..
  have hcredential : (metadataRules lib w).credential (shown value) =
      (Audit.credentialBearingUrl lib text || (SECRET_VALUE w).search text) := by
    rw [shown_of_text? h]
    rfl
  rw [checkedString_iff, Audit.checkedString, hlength, hcredential]
  split
  next hlong => exact iff_of_false (fun hall => absurd hall.1.1 (Nat.not_le.mpr hlong)) (by simp)
  next hlong =>
    split
    next hbad => simp [hbad]
    next hgood =>
      rw [Except.ok.injEq]
      exact ⟨fun hall => hall.2.symm,
        fun heq => ⟨⟨Nat.not_lt.mp hlong, eq_false_of_ne_true hgood⟩, heq.symm⟩⟩

theorem checkedKey_document {key : PyStr} {text : Text} (h : key.text? = .some text) :
    checkedKey (metadataRules lib w) (.str key) = .ok () ↔ Audit.forbiddenKey lib text = false := by
  have hforbidden : (metadataRules lib w).forbidden (shown key) = Audit.forbiddenKey lib text := by
    rw [shown_of_text? h]
    rfl
  rw [checkedKey_iff]
  constructor
  · rintro ⟨other, heq, hfalse⟩
    cases heq
    rw [← hforbidden, hfalse]
  · exact fun hfalse => ⟨key, rfl, by rw [hforbidden, hfalse]⟩

/-- Two walks that go on from the same counts. -/
theorem walk_congr {ε ε' : Type} {x : Except ε ℕ} {y : Except ε' ℕ} {f : ℕ → Except ε ℕ}
    {g : ℕ → Except ε' ℕ} (hfirst : ∀ n, x = .ok n ↔ y = .ok n)
    (hrest : ∀ count n, f count = .ok n ↔ g count = .ok n) (n : ℕ) :
    (x >>= f) = .ok n ↔ (y >>= g) = .ok n := by
  rw [bind_eq_ok, bind_eq_ok]
  exact exists_congr fun count => and_congr (hfirst count) (hrest count n)

mutual

/-- The walk of a value is that of its document. -/
theorem validate_document : ∀ {v : PyValue φ} {tree : JsonTree} {depth count : ℕ},
    v.document floats = .some tree → v.Finite floats → ∀ n,
    validateValue floats (metadataRules lib w) depth count v = .ok n ↔
      Audit.validateMetadataValue lib w depth count tree = .ok n
  | .none, _, _, _, h, _, _ => by cases h; exact counted_document
  | .bool _, _, _, _, h, _, _ => by cases h; exact counted_document
  | .int _, _, _, _, h, _, _ => by cases h; exact counted_document
  | .float x, _, depth, count, h, hfinite, n => by
    cases h
    have hcounted : counted (metadataRules lib w) depth count = .ok n ↔
      Audit.counted depth count = .ok n := counted_document
    rw [validateValue, Audit.validateMetadataValue, ← hcounted, bind_eq_ok]
    simp only [checkedFloat_iff, hfinite.here x rfl, true_and]
    exact ⟨fun ⟨_, hcounted, heq⟩ => heq ▸ hcounted, fun hcounted => ⟨n, hcounted, rfl⟩⟩
  | .str value, _, _, _, h, _, n => by
    rw [PyValue.document, Option.map_eq_some_iff] at h
    obtain ⟨text, htext, rfl⟩ := h
    exact walk_congr (fun _ => counted_document) (fun _ _ => checkedString_document htext) n
  | .list items, _, depth, _, h, hfinite, n => by
    rw [PyValue.document, Option.map_eq_some_iff] at h
    obtain ⟨trees, htrees, rfl⟩ := h
    exact walk_congr (fun _ => counted_document)
      (fun _ n => validateItems_document htrees (PyValue.throughout_list.mp hfinite).2 n) n
  | .dict entries, _, depth, _, h, hfinite, n => by
    rw [PyValue.document, Option.map_eq_some_iff] at h
    obtain ⟨fields, hfields, rfl⟩ := h
    exact walk_congr (fun _ => counted_document)
      (fun _ n => validateEntries_document hfields (PyValue.throughout_dict.mp hfinite).2 n) n

theorem validateItems_document :
    ∀ {items : List (PyValue φ)} {trees : List JsonTree} {depth count : ℕ},
    PyValue.documentItems floats items = .some trees → (∀ item ∈ items, item.Finite floats) → ∀ n,
      validateItems floats (metadataRules lib w) depth count items = .ok n ↔
        Audit.validateItems lib w depth count trees = .ok n
  | [], _, _, _, h, _, n => by
    cases h
    rw [validateItems, Audit.validateItems, Except.ok.injEq, Except.ok.injEq]
  | item :: items, _, _, _, h, hfinite, n => by
    rw [PyValue.documentItems, Option.bind_eq_some_iff] at h
    obtain ⟨tree, htree, hmap⟩ := h
    obtain ⟨trees, htrees, rfl⟩ := Option.map_eq_some_iff.mp hmap
    obtain ⟨hfirst, hrest⟩ := List.forall_mem_cons.mp hfinite
    exact walk_congr (validate_document htree hfirst)
      (fun _ n => validateItems_document htrees hrest n) n

theorem validateEntries_document :
    ∀ {entries : List (PyKey × PyValue φ)} {fields : List (Text × JsonTree)} {depth count : ℕ},
    PyValue.documentEntries floats entries = .some fields →
      (∀ entry ∈ entries, entry.2.Finite floats) → ∀ n,
      validateEntries floats (metadataRules lib w) depth count entries = .ok n ↔
        Audit.validateFields lib w depth count fields = .ok n
  | [], _, _, _, h, _, n => by
    cases h
    rw [validateEntries, Audit.validateFields, Except.ok.injEq, Except.ok.injEq]
  | (.other _, _) :: _, _, _, _, h, _, _ => by cases h
  | (.str key, value) :: entries, _, depth, count, h, hfinite, n => by
    rw [PyValue.documentEntries, Option.bind_eq_some_iff] at h
    obtain ⟨text, htext, hbind⟩ := h
    obtain ⟨tree, htree, hmap⟩ := Option.bind_eq_some_iff.mp hbind
    obtain ⟨fields, hfields, rfl⟩ := Option.map_eq_some_iff.mp hmap
    obtain ⟨hfirst, hrest⟩ := List.forall_mem_cons.mp hfinite
    have hwalk : (validateValue floats (metadataRules lib w) depth count value >>= fun count =>
        validateEntries floats (metadataRules lib w) depth count entries) = .ok n ↔
        (Audit.validateMetadataValue lib w depth count tree >>= fun count =>
            Audit.validateFields lib w depth count fields) = .ok n :=
      walk_congr (validate_document htree hfirst)
        (fun _ n => validateEntries_document hfields hrest n) n
    rw [validateEntries, Audit.validateFields, bind_eq_ok]
    cases hforbidden : Audit.forbiddenKey lib text with
    | true =>
      refine iff_of_false ?_ (by simp)
      rintro ⟨_, hkey, -⟩
      rw [(checkedKey_document htext).mp hkey] at hforbidden
      cases hforbidden
    | false =>
      rw [if_neg (by decide)]
      refine Iff.trans ⟨fun ⟨_, _, h⟩ => h,
        fun h => ⟨(), (checkedKey_document htext).mpr hforbidden, h⟩⟩ hwalk

end

/-- What is accepted of metadata is what is accepted of its document. -/
theorem metadata_document {v : PyValue φ} {tree : JsonTree} (hdistinct : v.Distinct)
    (hdocument : v.document floats = .some tree) (hfinite : v.Finite floats) :
    (∃ r, sanitized floats (metadataRules lib w) v = .ok r) ↔
    ∃ r, Audit.safeMetadata lib w tree = .ok r := by
  constructor
  · rintro ⟨r, h⟩
    obtain ⟨n, encoded, hwalk, hdumped, hbytes⟩ := sanitized_ok h
    obtain ⟨-, other, hother, rfl⟩ := PyValue.dumped_eq_some hdumped
    rw [hdocument] at hother
    cases hother
    exact ⟨tree, Audit.safeMetadata_ok ((validate_document hdocument hfinite n).mp hwalk) hbytes⟩
  · rintro ⟨r, h⟩
    rw [Audit.safeMetadata, bind_eq_ok] at h
    obtain ⟨n, hwalk, h⟩ := h
    have hbytes : (encode tree.dumps).length ≤ Audit.MAX_METADATA_BYTES := by
      by_contra hlong
      rw [if_pos (Nat.not_le.mp hlong)] at h
      cases h
    have hwithin : BytesWithin floats (metadataRules lib w) v := ⟨tree, hdocument, hbytes⟩
    have hprint : v.Printable := printable_of_bytes (Nat.le_of_ble_eq_true rfl) hwithin
    have hdumped : v.dumped floats = .some (encode tree.dumps) := by
      rw [PyValue.dumped, if_pos ((PyValue.printable_iff v).mpr hprint), hdocument]
      rfl
    exact ⟨_, sanitized_eq hdistinct ((validate_document hdocument hfinite n).mpr hwalk) hdumped
      hbytes⟩

end

/-- **The sanitisers are exact**: a payload is accepted if it keeps to the rules and its integers
have no more digits than are printed, and metadata if it keeps to the rules. Metadata that has a
document is accepted if the document is, as the records of the log are. -/
theorem sanitisers_exact (floats : FloatText φ) (lib : TextLibrary) (w : WordClass)
    (v : BuiltValue φ) :
    Exact (safePayload floats lib) v.value
      (Acceptable floats (payloadRules lib) v.value ∧ v.value.Printable) ∧
      Exact (safeMetadata floats lib w) v.value (Acceptable floats (metadataRules lib w) v.value) ∧
      ∀ tree, v.value.document floats = .some tree → v.value.Finite floats →
        ((∃ r, safeMetadata floats lib w v.value = .ok r) ↔ ∃ r, Audit.safeMetadata lib w tree =
          .ok r) := by
  refine ⟨safe_exact (Nat.le_of_ble_eq_true rfl) (Nat.le_of_ble_eq_true rfl) v.distinct, ?_, ?_⟩
  · obtain ⟨hrefuses, hagain, haccepts⟩ : Exact (safeMetadata floats lib w) v.value
      (Acceptable floats (metadataRules lib w) v.value ∧ v.value.Printable) :=
      safe_exact (Nat.le_of_ble_eq_true rfl) (Nat.le_of_ble_eq_true rfl) v.distinct
    refine ⟨hrefuses, hagain, haccepts.trans ⟨fun h => h.1, fun h => ⟨h, ?_⟩⟩⟩
    exact printable_of_bytes (Nat.le_of_ble_eq_true rfl) h.bytes
  · intro tree hdocument hfinite
    have hnone : sanitized floats (metadataRules lib w) .none = .ok .none :=
      sanitized_none (Nat.le_of_ble_eq_true rfl) (Nat.le_of_ble_eq_true rfl)
    rw [safeMetadata, safe_eq hnone]
    exact metadata_document v.distinct hdocument hfinite

end

/-- The floats 0.5 and NaN. -/
def halves : FloatText Bool where
  isfinite x := x
  repr x := if x then "0.5".toList else "nan".toList
  ofText text := decide (text = "0.5".toList)
  repr_number := by decide
  repr_mark := by decide
  ofText_repr := by decide

/-- `{"b": [1, {"d": "x"}], "a": 0.5}` -/
def nestedValue : PyValue Bool :=
  .dict [(.str [.char 'b'], .list [.int 1, .dict [(.str [.char 'd'], .str [.char 'x'])]]),
    (.str [.char 'a'], .float true)]

def nestedDocument : JsonTree :=
  .object [(['b'], .array [.int 1, .object [(['d'], .string ['x'])]]),
    (['a'], .number "0.5".toList)]

theorem nestedValue_distinct : nestedValue.Distinct := by
  have hatom : ∀ v : PyValue Bool, (∀ items, v ≠ .list items) → (∀ entries, v ≠ .dict entries) →
      v.Distinct :=
    fun v hlist hdict => (PyValue.throughout_atom hlist hdict).mpr fun entries heq =>
      absurd heq (hdict entries)
  have hinner : (PyValue.dict [(.str [.char 'd'], .str [.char 'x'])] : PyValue Bool).Distinct := by
    refine PyValue.throughout_dict.mpr ⟨fun entries heq => ?_, fun entry hentry => ?_⟩
    · cases heq
      exact List.nodup_singleton _
    · rw [List.mem_singleton.mp hentry]
      exact hatom _ (fun _ => by simp) fun _ => by simp
  refine PyValue.throughout_dict.mpr ⟨fun entries heq => ?_, fun entry hentry => ?_⟩
  · cases heq
    decide
  · rcases List.mem_pair.mp hentry with rfl | rfl
    · refine PyValue.throughout_list.mpr ⟨fun entries heq => (by cases heq), fun item hitem => ?_⟩
      rcases List.mem_pair.mp hitem with rfl | rfl
      · exact hatom _ (fun _ => by simp) fun _ => by simp
      · exact hinner
    · exact hatom _ (fun _ => by simp) fun _ => by simp

def nested : BuiltValue Bool := ⟨nestedValue, nestedValue_distinct⟩

theorem nestedValue_walks :
    (validateValue halves (payloadRules Policy.asciiLibrary) 0 0 nestedValue = .ok 6 ∧
      validateValue halves (metadataRules Policy.asciiLibrary Contracts.asciiWord) 0 0 nestedValue =
        .ok 6) ∧
      nestedDocument.size ≤ Audit.MAX_METADATA_BYTES := by
  decide +kernel

theorem nestedValue_printable : nestedValue.Printable := by
  refine @printable_of_bytes _ halves (metadataRules Policy.asciiLibrary Contracts.asciiWord) _
    (Nat.le_of_ble_eq_true rfl) ⟨nestedDocument, rfl, ?_⟩
  rw [JsonTree.length_encode_dumps]
  exact nestedValue_walks.2

theorem nestedValue_acceptable {rules : SafetyRules}
    (hwalk : validateValue halves rules 0 0 nestedValue = .ok 6)
    (hbytes : Audit.MAX_METADATA_BYTES ≤ rules.maxBytes) : Acceptable halves rules nestedValue := by
  have hlength : (encode nestedDocument.dumps).length ≤ rules.maxBytes := by
    rw [JsonTree.length_encode_dumps]
    exact nestedValue_walks.2.trans hbytes
  have hdumped : nestedValue.dumped halves = .some (encode nestedDocument.dumps) := by
    rw [PyValue.dumped, if_pos ((PyValue.printable_iff _).mpr nestedValue_printable)]
    rfl
  exact ((sanitized_ok_iff nestedValue_distinct).mp ⟨_,
    sanitized_eq nestedValue_distinct hwalk hdumped hlength⟩).1

theorem nested_sanitised :
    (∃ r, safePayload halves Policy.asciiLibrary nested.value = .ok r ∧
      PyValue.Same nested.value r) ∧
      (∃ r, safeMetadata halves Policy.asciiLibrary Contracts.asciiWord nested.value = .ok r ∧
        PyValue.Same nested.value r) ∧
      ∃ r, Audit.safeMetadata Policy.asciiLibrary Contracts.asciiWord nestedDocument = .ok r := by
  obtain ⟨hpayload, hmetadata, hdocument⟩ :=
    sanitisers_exact halves Policy.asciiLibrary Contracts.asciiWord nested
  obtain ⟨payload, hsafe⟩ := hpayload.accepts.mpr
    ⟨nestedValue_acceptable nestedValue_walks.1.1 (Nat.le_of_ble_eq_true rfl),
      nestedValue_printable⟩
  obtain ⟨metadata, hsafe'⟩ :=
    hmetadata.accepts.mpr (nestedValue_acceptable nestedValue_walks.1.2 le_rfl)
  have hfinite : nestedValue.Finite halves := finite_of_walk nestedValue_walks.1.1
  exact ⟨⟨payload, hsafe, (hpayload.again payload hsafe).1⟩,
    ⟨metadata, hsafe', (hmetadata.again metadata hsafe').1⟩,
      (hdocument nestedDocument rfl hfinite).mp ⟨metadata, hsafe'⟩⟩

/-! ## An integer that is not printed -/

/-- The least integer that is too long to be printed. -/
def wide : ℕ := 10 ^ PyValue.MAX_STR_DIGITS

theorem numeralLength_wide : numeralLength wide = PyValue.MAX_STR_DIGITS + 1 := by
  have hdigits : 0 < PyValue.MAX_STR_DIGITS := Nat.le_of_ble_eq_true rfl
  refine Nat.le_antisymm ((numeralLength_le_iff (Nat.succ_pos _)).mpr ?_) (Nat.not_le.mp fun h =>
    ?_)
  · exact Nat.pow_lt_pow_right (by decide) (Nat.lt_succ_self _)
  · exact absurd ((numeralLength_le_iff hdigits).mp h) (Nat.lt_irrefl _)

/-- `{"a": n}` -/
def intPayload (n : ℕ) : PyValue Bool := .dict [(.str [.char 'a'], .int n)]

theorem intPayload_acceptable {n : ℕ} (h : 6 + numeralLength n ≤ MAX_PAYLOAD_BYTES) :
    Acceptable halves (payloadRules Policy.asciiLibrary) (intPayload n) := by
  have hatom : (PyValue.int n : PyValue Bool).Throughout
      (Proper halves (payloadRules Policy.asciiLibrary) 1) :=
    (PyValue.throughout_atom (fun _ => by simp) fun _ => by simp).mpr
      ⟨Nat.le_of_ble_eq_true rfl, sound_atom (fun _ => by simp) (fun _ => by simp) fun _ => by simp⟩
  have hall : (intPayload n).Throughout (Proper halves (payloadRules Policy.asciiLibrary) 0) := by
    refine PyValue.throughout_dict.mpr ⟨⟨Nat.zero_le _, sound_dict.mpr ?_⟩, ?_⟩
    · intro entry hentry
      rw [List.mem_singleton.mp hentry]
      exact ⟨[.char 'a'], rfl, by decide⟩
    · intro entry hentry
      rw [List.mem_singleton.mp hentry, proper_succ]
      exact hatom
  refine ⟨fun d w hw => ?_, Nat.le_of_ble_eq_true rfl, .object [(['a'], .int n)], rfl, ?_⟩
  · obtain ⟨hdepth, hsound⟩ := hall d w hw
    exact ⟨by omega, hsound⟩
  · have hframe : JsonTree.frame [['a']] = 6 := rfl
    rw [JsonTree.length_encode_dumps, JsonTree.size_object, List.map_singleton, List.map_singleton,
      List.sum_singleton, hframe, JsonTree.size_int]
    exact h

theorem intPayload_distinct (n : ℕ) : (intPayload n).Distinct := by
  refine PyValue.throughout_dict.mpr ⟨fun entries heq => ?_, fun entry hentry => ?_⟩
  · cases heq
    exact List.nodup_singleton _
  · rw [List.mem_singleton.mp hentry]
    exact (PyValue.throughout_atom (fun _ => by simp) fun _ => by simp).mpr fun _ heq => by
      cases heq

theorem intPayload_printable {n : ℕ} (h : (intPayload n).Printable) :
    numeralLength n ≤ PyValue.MAX_STR_DIGITS :=
  h 1 (.int n) (.entry (List.mem_singleton_self _) .here) n rfl

/-- A payload within every limit, `{"a": 10 ** 4300}`, is refused for the 4301 digits of its
integer. -/
theorem wide_integer_refused : Acceptable halves (payloadRules Policy.asciiLibrary)
    (intPayload wide) ∧
    ¬ ∃ r, safePayload halves Policy.asciiLibrary (intPayload wide) = .ok r := by
  have hbytes : 6 + numeralLength wide ≤ MAX_PAYLOAD_BYTES := by
    rw [numeralLength_wide]
    exact Nat.le_of_ble_eq_true rfl
  refine ⟨intPayload_acceptable hbytes, fun h => ?_⟩
  have hexact : Exact (safePayload halves Policy.asciiLibrary) (intPayload wide)
    (Acceptable halves (payloadRules Policy.asciiLibrary) (intPayload wide) ∧
        (intPayload wide).Printable) :=
    safe_exact (Nat.le_of_ble_eq_true rfl) (Nat.le_of_ble_eq_true rfl) (intPayload_distinct wide)
  have hdigits := intPayload_printable (hexact.accepts.mp h).2
  rw [numeralLength_wide] at hdigits
  exact absurd hdigits (Nat.not_succ_le_self _)

end Novalton.PayloadSafety
