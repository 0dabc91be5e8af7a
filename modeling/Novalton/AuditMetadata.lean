/-
What an audit record may carry (`_validate_metadata_value` and `safe_metadata` of
`modules/audit/service.py`): a JSON object of at most 64 values, four levels and 4096
bytes, without forbidden keys, long strings or credentials.

Case folding, `str.isalnum`, percent-decoding and the host rules of `urlsplit` are
parameters, with what the keys used here rely on. A number is finite, and its text is
JSON.
-/
import Novalton.HandoffText
import Novalton.JsonText

namespace Novalton.Audit

open Contracts

/-- The text functions of Python's library that the checks call. -/
structure TextLibrary where
  /-- `character.casefold()`. -/
  casefold : Char → Text
  isalnum : Char → Bool
  /-- `urllib.parse.unquote`. -/
  unquote : Text → Text
  /-- A host `urlsplit` raises `ValueError` for: brackets that hold no address, or characters
  that normalise to separators. -/
  hostInvalid : Text → Bool
  casefold_lower : ∀ c, 'a' ≤ c → c ≤ 'z' → casefold c = [c]
  casefold_underscore : casefold '_' = ['_']
  isalnum_lower : ∀ c, 'a' ≤ c → c ≤ 'z' → isalnum c = true
  isalnum_underscore : isalnum '_' = false

def MAX_METADATA_BYTES : ℕ := 4 * 1024

def MAX_METADATA_DEPTH : ℕ := 4

def MAX_METADATA_ITEMS : ℕ := 64

def MAX_STRING_LENGTH : ℕ := 256

def FORBIDDEN_KEYS : List Text :=
  ["accesstoken", "apikey", "authorization", "authorizationheader", "body", "clientsecret",
    "cookie", "credential", "email", "idtoken", "message", "password", "passwd", "refreshtoken",
      "requestbody", "secret", "setcookie", "token"].map String.toList

/-- `_SECRET_VALUE_PATTERN`: `Bearer` and a token, `Basic` and a token, or a key that begins with
`sk-`. -/
def SECRET_VALUE (w : WordClass) : Regex :=
  .alt
    (.seq (.boundary w.holds) (.chars (ignoreCase "bearer".toList) (.seq (.plus (.char isSpace))
      (.seq (.plus (.char fun c => lowercase (foldCase c) || digit c ||
        ['.', '_', '~', '+', '/', '-'].contains c))
        (.star (.char (· == '=')))))))
    (.alt
      (.seq (.boundary w.holds) (.chars (ignoreCase "basic".toList) (.seq (.plus (.char isSpace))
        (.seq (.plus (.char fun c => lowercase (foldCase c) || digit c || ['+', '/'].contains c))
          (.star (.char (· == '=')))))))
      (.seq (.boundary w.holds) (.chars (ignoreCase "sk-".toList) (.atLeast (.char keyChar) 8))))

/-- What `urlsplit` gives of an address, as far as it is looked at. -/
structure SplitResult where
  scheme : Text
  netloc : Text
  query : Text

/-- `scheme_chars`. -/
def schemeChar (c : Char) : Bool := c.isAlphanum || ['+', '-', '.'].contains c

/-- The scheme of an address and what stands behind it. -/
def splitScheme (url : Text) : Text × Text :=
  match partition ':' url with
  | (scheme, true, rest) =>
    if scheme.head?.any Char.isAlpha && scheme.all schemeChar then (scheme.map Char.toLower, rest)
      else ([], url)
  | _ => ([], url)

section
variable (lib : TextLibrary) (w : WordClass)

/-- The host part that follows `//`. -/
def hostOf (rest : Text) : Text :=
  if "//".toList.isPrefixOf rest then (rest.drop 2).takeWhile fun c => !(['/', '?', '#'].contains c)
    else []

/-- The query of what stands behind the scheme: behind the host, between `?` and `#`. -/
def queryOf (rest : Text) : Text :=
  let tail := if "//".toList.isPrefixOf rest then rest.drop (2 + (hostOf rest).length) else rest
  (partition '?' (partition '#' tail).1).2.2

/-- An address without what `urlsplit` strips: leading blanks and controls, tabs and line ends. -/
def strippedUrl (value : Text) : Text :=
  (value.dropWhile fun c => c.toNat ≤ 32).filter fun c => !(['\t', '\r', '\n'].contains c)

/-- `urlsplit`, or none where it raises `ValueError`. -/
def urlsplit (value : Text) : Option SplitResult :=
  let rest := (splitScheme (strippedUrl value)).2
  if (hostOf rest).contains '[' != (hostOf rest).contains ']' || lib.hostInvalid (hostOf rest) then
    .none
  else .some ⟨(splitScheme (strippedUrl value)).1, hostOf rest, queryOf rest⟩

/-- The keys of `parse_qsl(query)`. -/
def queryKeys (query : Text) : List Text :=
  (query.splitOn '&').filterMap fun item =>
    match partition '=' item with
    | (name, true, value) => if value.isEmpty then .none
        else .some (lib.unquote (name.map fun c => if c = '+' then ' ' else c))
    | _ => .none

/-- `_normalized_key`. -/
def normalizedKey (value : Text) : Text := (value.flatMap lib.casefold).filter lib.isalnum

/-- `_forbidden_key`. -/
def forbiddenKey (value : Text) : Bool :=
  FORBIDDEN_KEYS.any fun marker => occursIn marker (normalizedKey lib value)

/-- `_credential_bearing_url`. -/
def credentialBearingUrl (value : Text) : Bool :=
  match urlsplit lib value with
  | .none => false
  | .some parsed =>
    ["http".toList, "https".toList].contains parsed.scheme &&
      (parsed.netloc.contains '@' || (queryKeys lib parsed.query).any (forbiddenKey lib))

/-- The checks of a value of any kind: its depth, and that it is within the count. -/
def counted (depth count : ℕ) : Except String ℕ :=
  if MAX_METADATA_DEPTH < depth then .error "Audit metadata is too deeply nested"
  else if MAX_METADATA_ITEMS < count + 1 then .error "Audit metadata contains too many values"
  else .ok (count + 1)

/-- A string's own checks. -/
def checkedString (value : Text) (count : ℕ) : Except String ℕ :=
  if MAX_STRING_LENGTH < value.length then .error "Audit metadata contains an oversized string"
  else if credentialBearingUrl lib value || (SECRET_VALUE w).search value then
    .error "Audit metadata contains credential material"
  else .ok count

mutual

/-- `_validate_metadata_value`, from the count before a value to the count after it. -/
def validateMetadataValue (depth count : ℕ) : JsonTree → Except String ℕ
  | .null => counted depth count
  | .bool _ => counted depth count
  | .number _ => counted depth count
  | .string value => counted depth count >>= checkedString lib w value
  | .array items => counted depth count >>= fun count => validateItems (depth + 1) count items
  | .object fields => counted depth count >>= fun count => validateFields (depth + 1) count fields

def validateItems (depth count : ℕ) : List JsonTree → Except String ℕ
  | [] => .ok count
  | item :: items => validateMetadataValue depth count item >>= fun count =>
    validateItems depth count items

def validateFields (depth count : ℕ) : List (Text × JsonTree) → Except String ℕ
  | [] => .ok count
  | (key, value) :: fields =>
    if forbiddenKey lib key then .error "Audit metadata contains a forbidden field"
    else validateMetadataValue depth count value >>= fun count => validateFields depth count fields

end

/-- `safe_metadata`. -/
def safeMetadata (metadata : JsonTree) : Except String JsonTree := do
  let _ ← validateMetadataValue lib w 0 0 metadata
  if MAX_METADATA_BYTES < (encode metadata.dumps).length then
    throw "Audit metadata exceeds 4096 bytes"
  return metadata

end

/-! ## Texts that pass -/

variable {lib : TextLibrary} {w : WordClass} {depth count : ℕ}

theorem safeMetadata_ok {metadata : JsonTree}
    (hvalid : validateMetadataValue lib w 0 0 metadata = .ok count)
    (hbytes : (encode metadata.dumps).length ≤ MAX_METADATA_BYTES) :
    safeMetadata lib w metadata = .ok metadata := by
  rw [safeMetadata, hvalid]
  exact if_neg (Nat.not_lt.mpr hbytes)

theorem safeMetadata_error {metadata : JsonTree} {message : String}
    (hinvalid : validateMetadataValue lib w 0 0 metadata = .error message) :
    safeMetadata lib w metadata = .error message := by
  rw [safeMetadata, hinvalid]
  rfl

/-- A string that passes and is written without escapes. -/
structure Plain (lib : TextLibrary) (w : WordClass) (text : Text) : Prop where
  length : text.length ≤ MAX_STRING_LENGTH
  url : credentialBearingUrl lib text = false
  secret : (SECRET_VALUE w).search text = false
  escape : ∀ c ∈ text, JsonTree.escapeChar c = [c]
  ascii : ∀ c ∈ text, c.toNat < 128

theorem splitScheme_of_colonless {url : Text} (h : ':' ∉ url) : (splitScheme url).1 = [] := by
  have hfound : ∀ text : Text, ':' ∉ text → (partition ':' text).2.1 = false := by
    intro text
    induction text with
    | nil => exact fun _ => rfl
    | cons c text ih =>
      intro hmem
      rw [List.mem_cons, not_or] at hmem
      rw [partition, if_neg (Ne.symm hmem.1)]
      exact ih hmem.2
  unfold splitScheme
  split
  next scheme rest heq =>
    have hfalse := hfound url h
    rw [heq] at hfalse
    cases hfalse
  next => rfl

/-- Text without a colon is no address. -/
theorem credentialBearingUrl_of_colonless {text : Text} (h : ':' ∉ text) :
    credentialBearingUrl lib text = false := by
  have hstripped : ':' ∉ strippedUrl text := by
    intro hmem
    exact h ((List.dropWhile_sublist _).subset (List.mem_of_mem_filter hmem))
  unfold credentialBearingUrl urlsplit
  rw [splitScheme_of_colonless hstripped]
  split
  next => rfl
  next parsed hparsed =>
    simp only at hparsed
    split at hparsed <;> cases hparsed
    rfl

/-- A secret has a blank, or begins with the letters `sk` and a hyphen. -/
theorem SECRET_VALUE_needs {p : Char → Prop} (letter : Char) (hletter : letter ∈ "sk-".toList)
    (hspace : ∀ c, isSpace c = true → p c) (hkey : ∀ c, foldCase c = letter → p c) :
    (SECRET_VALUE w).Needs p := by
  have hblank : ∀ r : Regex, (Regex.seq (.plus (.char isSpace)) r).Needs p :=
    fun r => .first (.first (.char hspace))
  refine .alt (.second ((hblank _).behind _)) (.alt (.second ((hblank _).behind _)) (.second ?_))
  refine .letter (fun d => foldCase d == letter) (fun c hc => hkey c (by simpa using hc)) ?_
  exact List.mem_map.mpr ⟨letter, hletter, rfl⟩

/-- The letters, digits, underscores and points of action names and words. -/
def wordChar (c : Char) : Bool := Contracts.alphanumeric c || c == '_' || c == '.'

theorem wordChar_range {c : Char} (h : wordChar c = true) :
    46 ≤ c.toNat ∧ c.toNat < 128 ∧ c ≠ ':' ∧ c ≠ '-' ∧ c ≠ '"' ∧ c ≠ '\\' := by
  have hnum : c = '_' ∨ c = '.' ∨ (97 ≤ c.toNat ∧ c.toNat ≤ 122) ∨ (65 ≤ c.toNat ∧ c.toNat ≤ 90) ∨
      (48 ≤ c.toNat ∧ c.toNat ≤ 57) := by
    simp only [wordChar, Contracts.alphanumeric, Bool.or_eq_true, lowercase_iff, digit_iff,
      beq_iff_eq, Bool.and_eq_true, decide_eq_true_eq] at h
    have hupper : ('A' ≤ c ∧ c ≤ 'Z') ↔ 65 ≤ c.toNat ∧ c.toNat ≤ 90 := Iff.rfl
    tauto
  have hne : ∀ d : Char, d.toNat = 58 ∨ d.toNat = 45 ∨ d.toNat = 34 ∨ d.toNat = 92 → c ≠ d := by
    intro d hd hcd
    rw [hcd] at hnum
    rcases hnum with hnum | hnum | hnum
    · rw [hnum] at hd
      revert hd
      decide
    · rw [hnum] at hd
      revert hd
      decide
    · omega
  refine ⟨?_, ?_, hne ':' (by decide), hne '-' (by decide), hne '"' (by decide),
    hne '\\' (by decide)⟩
  · rcases hnum with hnum | hnum | hnum
    · rw [hnum]
      decide
    · rw [hnum]
      decide
    · omega
  · rcases hnum with hnum | hnum | hnum
    · rw [hnum]
      decide
    · rw [hnum]
      decide
    · omega

theorem escapeChar_of_range {c : Char} (h : 35 ≤ c.toNat) (hslash : c ≠ '\\') :
    JsonTree.escapeChar c = [c] := by
  have hne : ∀ d : Char, d.toNat < 35 → c ≠ d := by
    intro d hd hcd
    rw [hcd] at h
    omega
  have h8 : ¬ c.toNat = 8 := by omega
  have h12 : ¬ c.toNat = 12 := by omega
  have h32 : ¬ c.toNat < 32 := by omega
  rw [JsonTree.escapeChar, if_neg (hne '"' (by decide)), if_neg hslash,
    if_neg (hne '\n' (by decide)), if_neg (hne '\r' (by decide)), if_neg (hne '\t' (by decide)),
      if_neg h8, if_neg h12, if_neg h32]

theorem Plain.of_words {text : Text} (hlength : text.length ≤ MAX_STRING_LENGTH)
    (h : ∀ c ∈ text, wordChar c = true) :
    Plain lib w text := by
  refine ⟨hlength, ?_, ?_, fun c hc => ?_, fun c hc => (wordChar_range (h c hc)).2.1⟩
  · exact credentialBearingUrl_of_colonless fun hmem => (wordChar_range (h ':' hmem)).2.2.1 rfl
  · refine Regex.search_eq_false_of_needs (p := fun c => isSpace c = true ∨
      foldCase c = '-') ?_ fun c hc hp => ?_
    · exact SECRET_VALUE_needs '-' (by decide) (fun c hc => .inl hc) fun c hc => .inr hc
    · obtain ⟨hlow, hhigh, -, hhyphen, -, -⟩ := wordChar_range (h c hc)
      rcases hp with hp | hp
      · have hcases := isSpace_range hp
        omega
      · by_cases hupper : 65 ≤ c.toNat ∧ c.toNat ≤ 90
        · have hall : ((List.range 26).all fun n => foldCase (Char.ofNat (65 + n)) ≠ '-') =
            true := by decide
          have hc65 : c = Char.ofNat (65 + (c.toNat - 65)) := by
            rw [Nat.add_sub_cancel' hupper.1, Char.ofNat_toNat]
          have hne := of_decide_eq_true
            (List.all_eq_true.mp hall (c.toNat - 65) (List.mem_range.mpr (by omega)))
          rw [← hc65] at hne
          exact hne hp
        · have hfolded : foldCase c = c := foldCase_of_lower (by omega)
          exact hhyphen (hfolded.symm.trans hp)
  · obtain ⟨hlow, -, -, -, -, hslash⟩ := wordChar_range (h c hc)
    exact escapeChar_of_range (by omega) hslash

/-- The text of an id is ASCII and written without escapes. -/
theorem Uuid_written (id : Uuid) : ∀ c ∈ id.str, JsonTree.escapeChar c = [c] ∧ c.toNat < 128 := by
  have hall : ("0123456789abcdef-".toList.all fun d => 35 ≤ d.toNat ∧ d.toNat < 128 ∧
    d ≠ '\\') = true := by decide
  intro c hc
  obtain ⟨hlow, hhigh, hslash⟩ :=
    of_decide_eq_true (List.all_eq_true.mp hall c (Uuid.str_chars id hc))
  exact ⟨escapeChar_of_range hlow hslash, hhigh⟩

theorem Plain.of_uuid (id : Uuid) : Plain lib w id.str := by
  have hall : ("0123456789abcdef-".toList.all fun d => d ≠ ':' ∧ foldCase d ≠ 's') = true := by
    decide
  have hchar : ∀ c ∈ id.str, c ≠ ':' ∧ foldCase c ≠ 's' :=
    fun c hc => of_decide_eq_true (List.all_eq_true.mp hall c (Uuid.str_chars id hc))
  refine ⟨?_, ?_, ?_, fun c hc => (Uuid_written id c hc).1, fun c hc => (Uuid_written id c hc).2⟩
  · rw [Uuid.length_str]
    decide
  · exact credentialBearingUrl_of_colonless fun hmem => (hchar ':' hmem).1 rfl
  · refine Regex.search_eq_false_of_needs (p := fun c => isSpace c = true ∨
      foldCase c = 's') ?_ fun c hc hp => ?_
    · exact SECRET_VALUE_needs 's' (by decide) (fun c hc => .inl hc) fun c hc => .inr hc
    · rcases hp with hp | hp
      · exact Bool.false_ne_true ((Uuid_solid hc).1.symm.trans hp)
      · exact (hchar c hc).2 hp

/-! ## Counting -/

theorem counted_eq (hdepth : depth ≤ MAX_METADATA_DEPTH) :
    counted depth count = if count < MAX_METADATA_ITEMS then .ok (count + 1)
      else .error "Audit metadata contains too many values" := by
  rw [counted, if_neg (by omega)]
  by_cases hcount : count < MAX_METADATA_ITEMS
  · rw [if_pos hcount, if_neg (by omega)]
  · rw [if_neg hcount, if_pos (by omega)]

theorem validate_plain {text : Text} (h : Plain lib w text) :
    validateMetadataValue lib w depth count (.string text) = counted depth count := by
  have hlength := h.length
  have hchecked : ∀ count, checkedString lib w text count = .ok count := by
    intro count
    rw [checkedString, if_neg (by omega), h.url, h.secret]
    rfl
  rw [validateMetadataValue]
  cases counted depth count with
  | ok count => exact hchecked count
  | error message => rfl

/-- A list of plain strings passes while the count lasts. -/
theorem validateItems_plain (hdepth : depth ≤ MAX_METADATA_DEPTH) :
    ∀ {texts : List Text} {count : ℕ}, count ≤ MAX_METADATA_ITEMS →
    (∀ text ∈ texts, Plain lib w text) →
    validateItems lib w depth count (texts.map .string) =
      if count + texts.length ≤ MAX_METADATA_ITEMS then .ok (count + texts.length)
      else .error "Audit metadata contains too many values"
  | [], count, hcount, _ => by
    rw [List.map_nil, validateItems, List.length_nil, Nat.add_zero, if_pos hcount]
  | text :: texts, count, hcount, h => by
    rw [List.map_cons, validateItems, validate_plain (h text List.mem_cons_self), counted_eq hdepth,
      List.length_cons]
    by_cases hlt : count < MAX_METADATA_ITEMS
    · have hrest := validateItems_plain hdepth (Nat.succ_le_of_lt hlt) fun t ht =>
        h t (List.mem_cons_of_mem text ht)
      have hsum : count + (texts.length + 1) = count.succ + texts.length := by omega
      rw [if_pos hlt, hsum]
      exact hrest
    · rw [if_neg hlt, if_neg (by omega)]
      rfl

/-- A field that passes. -/
theorem validateFields_cons {key : Text} {value : JsonTree} {fields : List (Text × JsonTree)}
    (h : forbiddenKey lib key = false) :
    validateFields lib w depth count ((key, value) :: fields) =
      (validateMetadataValue lib w depth count value >>= fun count =>
        validateFields lib w depth count fields) := by
  rw [validateFields, if_neg (by rw [h]; nofun)]

end Novalton.Audit
