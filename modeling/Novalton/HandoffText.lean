/-
What the text rules of the contracts say about the texts a hand-off is made of:
identifiers, task keys, relative paths and references, and lines composed of them.

A line of evidence is a tag, a colon and a value. `CREDENTIAL` reads a colon only where a
match ends, so what it finds in the line it finds in one of the parts.
-/
import Novalton.Specializations
import Novalton.TextFacts

namespace Novalton.Contracts

variable {w : WordClass}

/-! ## Characters -/

theorem lowercase_iff {c : Char} : lowercase c = true ↔ 97 ≤ c.toNat ∧ c.toNat ≤ 122 := by
  rw [lowercase, Bool.and_eq_true, decide_eq_true_eq, decide_eq_true_eq]
  exact Iff.rfl

theorem digit_iff {c : Char} : digit c = true ↔ 48 ≤ c.toNat ∧ c.toNat ≤ 57 := by
  rw [digit, Bool.and_eq_true, decide_eq_true_eq, decide_eq_true_eq]
  exact Iff.rfl

theorem isSpace_range {c : Char} (h : isSpace c = true) : c.toNat ≤ 32 ∨ 133 ≤ c.toNat := by
  simp only [isSpace, isLineBoundary, Bool.or_eq_true, decide_eq_true_eq, List.mem_cons,
    List.not_mem_nil, or_false, Bool.and_eq_true] at h
  rcases h with ((h | h | h | h | h | h | h | h | h | h) | h | h | h | h | h | h | h | h) | ⟨h, -⟩
  all_goals first
    | (rw [h]; decide)
    | exact .inr (Nat.le_trans (by decide) h)

/-- The characters of an identifier. -/
def plainChar (c : Char) : Bool := identifierChar c || c == '.' || c == '-'

theorem plainChar_cases {c : Char} (h : plainChar c = true) :
    (97 ≤ c.toNat ∧ c.toNat ≤ 122) ∨ (48 ≤ c.toNat ∧ c.toNat ≤ 57) ∨ c = '_' ∨ c = '.' ∨
    c = '-' := by
  simp only [plainChar, identifierChar, Bool.or_eq_true, lowercase_iff, digit_iff, beq_iff_eq] at h
  tauto

theorem plainChar_range {c : Char} (h : plainChar c = true) : 45 ≤ c.toNat ∧ c.toNat ≤ 122 ∧
    c.toNat ≠ 58 ∧ c.toNat ≠ 61 := by
  rcases plainChar_cases h with h | h | h | h | h
  · omega
  · omega
  all_goals
    rw [h]
    decide

theorem plainChar_not_space {c : Char} (h : plainChar c = true) : isSpace c = false := by
  have hrange := plainChar_range h
  rw [← Bool.not_eq_true]
  intro hspace
  have hcases := isSpace_range hspace
  omega

theorem plainChar_not_control {c : Char} (h : plainChar c = true) : isControl c = false := by
  have hrange := plainChar_range h
  have hlt : ¬ c.toNat < 32 := by omega
  simp [isControl, hlt]

/-! ## Credentials -/

theorem colon_not_word (w : WordClass) : w.holds ':' = false := w.ascii ':' (by decide)

theorem CREDENTIAL_uses {word : Char → Bool} (h : (CREDENTIAL w).uses word) : word = w.holds := by
  simp only [CREDENTIAL, AUTHORIZATION, API_KEY, BEARER, TOKEN, SECRET_KEY, Regex.uses,
    Regex.uses_chars, Regex.optional, Regex.plus, Regex.atLeast, false_or, or_false] at h
  exact h.symm

/-- A credential without a blank, a colon or an equals sign is a secret key. -/
theorem CREDENTIAL_needs {p : Char → Prop} (hspace : ∀ c, isSpace c = true → p c) (hcolon : p ':')
    (hequals : p '=') (hkey : ((SECRET_KEY w).Needs p)) : (CREDENTIAL w).Needs p := by
  have htoken : TOKEN.Needs p := .first (.first (.char hspace))
  refine .alt ?_ (.alt ?_ (.alt ?_ hkey))
  · refine .behind (.second (.char fun c hc => ?_)) _
    rw [beq_iff_eq] at hc
    rw [hc]
    exact hcolon
  · refine .behind (.second (.behind (.second (.char fun c hc => ?_)) _)) _
    simp only [List.mem_cons, List.not_mem_nil, or_false, decide_eq_true_eq] at hc
    rcases hc with hc | hc
    · rw [hc]
      exact hcolon
    · rw [hc]
      exact hequals
  · exact .alt (htoken.behind _) (htoken.behind _)

theorem foldCase_of_lower {c : Char} (h : c.toNat < 65 ∨ (90 < c.toNat ∧ c.toNat < 304)) :
    foldCase c = c := by
  have hupper : ('A' ≤ c && c ≤ 'Z') = false := by
    rw [Bool.and_eq_false_iff, decide_eq_false_iff_not, decide_eq_false_iff_not]
    change ¬ 65 ≤ c.toNat ∨ ¬ c.toNat ≤ 90
    omega
  have hne : ∀ d : Char, 304 ≤ d.toNat → c ≠ d := by
    intro d hd heq
    rw [heq] at h
    omega
  rw [foldCase, if_neg (by rw [hupper]; nofun), if_neg, if_neg (hne _ (by decide)),
    if_neg (hne _ (by decide))]
  rw [Bool.or_eq_true, decide_eq_true_eq, decide_eq_true_eq, not_or]
  exact ⟨hne _ (by decide), hne _ (by decide)⟩

/-- A secret key begins with the letters `sk` and a hyphen. -/
theorem SECRET_KEY_needs {p : Char → Prop} (letter : Char) (hletter : letter ∈ "sk-".toList)
    (h : ∀ c, foldCase c = letter → p c) : (SECRET_KEY w).Needs p := by
  refine .second (.letter (fun d => foldCase d == letter) (fun c hc => h c (by simpa using hc)) ?_)
  exact List.mem_map.mpr ⟨letter, hletter, rfl⟩

/-- **Around a colon** a text holds a credential exactly when one of its parts does. -/
theorem CREDENTIAL_split (u v : Text) :
    (CREDENTIAL w).search
    (u ++ ':' :: v) = ((CREDENTIAL w).search (u ++ [':']) || (CREDENTIAL w).search v) := by
  refine Regex.search_split (fun word huse => ?_) rfl ?_
  · rw [CREDENTIAL_uses huse]
    exact colon_not_word w
  · exact CREDENTIAL_needs (fun _ _ => trivial) trivial trivial
      (SECRET_KEY_needs 's' (by decide) fun _ _ => trivial)

/-! ## What the validators return -/

theorem isSpace_not_trim {c : Char} (h : isSpace c = false) :
    (isSpace c && !isSeparator c) = false := by
  rw [h, Bool.false_and]

theorem trim_eq {text : Text} (h : Tight isSpace text) : trim text = text := by
  have htight : Tight (fun c => isSpace c && !isSeparator c) text :=
    ⟨fun c hc => isSpace_not_trim (h.head c hc), fun c hc => isSpace_not_trim (h.last c hc)⟩
  exact htight.stripped_eq

theorem safeText_ok {value out : Text} (h : safeText w value = .ok out) :
    out = strip value ∧ out ≠ [] ∧ (∀ c ∈ out, isControl c = false) ∧
      (CREDENTIAL w).search out = false := by
  simp only [safeText, Py.bind_eq_ok, raiseIf_eq_ok] at h
  obtain ⟨-, hne, -, hcontrol, -, hcredential, hout⟩ := h
  cases hout
  refine ⟨rfl, fun hnil => ?_, fun c hc => ?_, hcredential⟩
  · rw [hnil] at hne
    contradiction
  · rw [List.any_eq_false] at hcontrol
    exact Bool.not_eq_true _ ▸ hcontrol c hc

theorem safeText_tight {text : Text} (htight : Tight isSpace text) (hne : text ≠ [])
    (hcontrol : ∀ c ∈ text, isControl c = false) :
    safeText w text = if (CREDENTIAL w).search text then .error .valueError else .ok text := by
  have hstrip : strip text = text := htight.stripped_eq
  have hempty : text.isEmpty = false := by simpa using hne
  have hany : text.any isControl = false := by
    rw [List.any_eq_false]
    exact fun c hc => by rw [hcontrol c hc]; nofun
  rw [safeText, hstrip, hempty, hany, raiseIf_false]
  cases (CREDENTIAL w).search text <;> rfl

theorem lengthBetween_ok {least most : ℕ} {value : Text} {u : Unit} :
    lengthBetween least most value = .ok u ↔ least ≤ value.length ∧ value.length ≤ most := by
  rw [lengthBetween, raiseIf_eq_ok, Bool.not_eq_false', Bool.and_eq_true, decide_eq_true_eq,
    decide_eq_true_eq]

theorem countBetween_ok {α} {least most : ℕ} {values : List α} {u : Unit} :
    countBetween least most values = .ok u ↔ least ≤ values.length ∧ values.length ≤ most := by
  rw [countBetween, raiseIf_eq_ok, Bool.not_eq_false', Bool.and_eq_true, decide_eq_true_eq,
    decide_eq_true_eq]

/-- A text that is fit for a line, apart from credentials. -/
structure Fit (most : ℕ) (text : Text) : Prop where
  tight : Tight isSpace text
  nonempty : text ≠ []
  length : text.length ≤ most
  control : ∀ c ∈ text, isControl c = false

theorem Fit.mono {m n : ℕ} {text : Text} (h : Fit m text) (hmn : m ≤ n) : Fit n text :=
  { h with length := Nat.le_trans h.length hmn }

/-- Behind a beginning of its own, a text stays fit. -/
theorem Fit.append {m n : ℕ} {left right : Text} (hleft : Fit m left) (hright : Fit n right) : Fit
    (m + n) (left ++ right) where
  tight := .append hleft.nonempty hleft.tight.head hright.nonempty hright.tight.last
  nonempty := List.append_ne_nil_of_left_ne_nil hleft.nonempty right
  length := by
    rw [List.length_append]
    exact Nat.add_le_add hleft.length hright.length
  control := fun c hc => (List.mem_append.mp hc).elim (hleft.control c) (hright.control c)

theorem shortText_fit {text : Text} (h : Fit 500 text) :
    shortText w text = if (CREDENTIAL w).search text then .error .valueError else .ok text := by
  have hlen : lengthBetween 1 500 text = .ok () :=
    lengthBetween_ok.mpr ⟨List.length_pos_iff.mpr h.nonempty, h.length⟩
  rw [shortText, trim_eq h.tight, hlen, Py.ok_bind]
  exact safeText_tight h.tight h.nonempty h.control

theorem fit_of_solid {text : Text} {most : ℕ} (hne : text ≠ []) (hlen : text.length ≤ most)
    (hsolid : ∀ c ∈ text, isSpace c = false ∧ isControl c = false) : Fit most text where
  tight := ⟨fun c hc => (hsolid c (List.mem_of_mem_head? hc)).1,
    fun c hc => (hsolid c (List.mem_of_getLast? hc)).1⟩
  nonempty := hne
  length := hlen
  control := fun c hc => (hsolid c hc).2

theorem fit_of_plain {text : Text} {most : ℕ} (hne : text ≠ []) (hlen : text.length ≤ most)
    (hplain : ∀ c ∈ text, plainChar c = true) : Fit most text :=
  fit_of_solid hne hlen fun c hc =>
    ⟨plainChar_not_space (hplain c hc), plainChar_not_control (hplain c hc)⟩

theorem plain_of_identifier {c : Char} (h : Regex.reads c IDENTIFIER = true) :
    plainChar c = true := by
  simp only [IDENTIFIER, Regex.reads, Regex.plus, Bool.or_eq_true, decide_eq_true_eq, List.mem_cons,
    List.not_mem_nil, or_false] at h
  simp only [plainChar, identifierChar, Bool.or_eq_true, beq_iff_eq] at h ⊢
  tauto

theorem identifierItem_ok {value out : Text} (h : identifierItem value = .ok out) :
    Fit 100 out ∧ ∀ c ∈ out, plainChar c = true := by
  simp only [identifierItem, identifier, Py.bind_eq_ok, lengthBetween_ok, raiseIf_eq_ok,
    Bool.not_eq_false'] at h
  obtain ⟨-, hlen, -, -, -, hfull, hout⟩ := h
  cases hout
  have hplain : ∀ c ∈ (strip (trim value)).map Char.toLower, plainChar c = true :=
    fun c hc => plain_of_identifier (Regex.fullmatch_reads hfull c hc)
  refine ⟨fit_of_plain (fun hnil => ?_) ?_ hplain, hplain⟩
  · rw [hnil] at hfull
    revert hfull
    decide
  · rw [List.length_map]
    exact Nat.le_trans (stripped_length_le _) hlen.2

theorem identifierChar_of_taskKey : ∀ {n : ℕ} {c : Char}, Regex.reads c
    (Regex.upTo (.char identifierChar) n) = true →
    identifierChar c = true
  | 0, _, h => by contradiction
  | n + 1, c, h => by
    simp only [Regex.upTo, Regex.optional, Regex.reads, Bool.or_eq_true, Bool.or_false] at h
    rcases h with h | h
    · exact h
    · exact identifierChar_of_taskKey h

theorem taskKeyItem_ok {value out : Text} (h : taskKeyItem value = .ok out) :
    Fit 64 out ∧ ∀ c ∈ out, identifierChar c = true := by
  simp only [taskKeyItem, boundedText, Py.bind_eq_ok, lengthBetween_ok, raiseIf_eq_ok,
    Bool.not_eq_false'] at h
  obtain ⟨text, ⟨-, hlen, htext⟩, -, -, -, hfull, hout⟩ := h
  cases htext
  cases hout
  have hchars : ∀ c ∈ (strip (trim value)).map Char.toLower, identifierChar c = true := by
    intro c hc
    have hreads := Regex.fullmatch_reads hfull c hc
    rw [TASK_KEY, Regex.reads, Bool.or_eq_true] at hreads
    rcases hreads with hlower | hrest
    · rw [identifierChar, show lowercase c = true from hlower, Bool.true_or, Bool.true_or]
    · exact identifierChar_of_taskKey hrest
  refine ⟨fit_of_plain (fun hnil => ?_) ?_ fun c hc => ?_, hchars⟩
  · rw [hnil] at hfull
    revert hfull
    decide
  · rw [List.length_map]
    exact Nat.le_trans (stripped_length_le _) hlen.2
  · rw [plainChar, hchars c hc, Bool.true_or, Bool.true_or]

/-- Turning its backslashes leaves a text fit. -/
theorem fit_turned {most : ℕ} {text : Text} (h : Fit most text) : Fit most
    (text.map fun c => if c = '\\' then '/' else c) := by
  have hturned : ∀ c : Char, isSpace c = false → isSpace (if c = '\\' then '/' else c) = false := by
    intro c hc
    split
    · decide
    · exact hc
  refine ⟨⟨fun c hc => ?_, fun c hc => ?_⟩, fun hnil => h.nonempty (List.map_eq_nil_iff.mp hnil),
    ?_, fun c hc => ?_⟩
  · rw [List.head?_map, Option.map_eq_some_iff] at hc
    obtain ⟨d, hd, hdc⟩ := hc
    rw [← hdc]
    exact hturned d (h.tight.head d hd)
  · rw [List.getLast?_map, Option.map_eq_some_iff] at hc
    obtain ⟨d, hd, hdc⟩ := hc
    rw [← hdc]
    exact hturned d (h.tight.last d hd)
  · rw [List.length_map]
    exact h.length
  · obtain ⟨d, hd, hdc⟩ := List.mem_map.mp hc
    rw [← hdc]
    split
    · decide
    · exact h.control d hd

theorem safeText_fits {value out : Text} (h : safeText w value = .ok out) : Fit out.length out := by
  obtain ⟨hstrip, hne, hcontrol, -⟩ := safeText_ok h
  refine ⟨?_, hne, le_rfl, hcontrol⟩
  rw [hstrip]
  exact stripped_tight value

/-- An accepted path, as it is kept: with its backslashes turned. -/
theorem relativePath_ok {value out : Text} (h : relativePath w value = .ok out) :
    Fit 300 out ∧ out = (strip value).map fun c => if c = '\\' then '/' else c := by
  simp only [relativePath, Py.bind_eq_ok, raiseIf_eq_ok, Bool.or_eq_false_iff, bne_eq_false_iff_eq,
    decide_eq_false_iff_not] at h
  obtain ⟨text, htext, -, -, -, ⟨hsame, hlen⟩, hout⟩ := h
  cases hout
  rw [hsame] at hlen ⊢
  rw [replace_singleton] at hlen ⊢
  exact ⟨{ fit_turned (safeText_fits htext) with length := Nat.not_lt.mp hlen },
    by rw [(safeText_ok htext).1]⟩

/-! ## References -/

theorem Uuid_str_cons (id : Uuid) : ∃ c rest, id.str = c :: rest ∧
    c ∈ "0123456789abcdef".toList := by
  have hlen : (hexDigits 32 id.toNat).length = 32 := hexDigits_length
  cases hdigits : hexDigits 32 id.toNat with
  | nil =>
    rw [hdigits] at hlen
    contradiction
  | cons c rest =>
    refine ⟨c, _, by rw [Uuid.str, hdigits]; rfl, ?_⟩
    refine hexDigits_mem (show c ∈ hexDigits 32 id.toNat from ?_)
    rw [hdigits]
    exact List.mem_cons_self

theorem not_occursIn {sub text : Text} {c : Char} (hsub : c ∈ sub) (htext : c ∉ text) :
    occursIn sub text = false := by
  rw [occursIn, List.any_eq_false]
  intro t ht hprefix
  have hsublist := (List.isPrefixOf_iff_prefix.mp hprefix).subset hsub
  exact htext (((List.mem_tails _ _).mp ht).subset hsublist)

theorem Uuid_solid {id : Uuid} {c : Char} (h : c ∈ id.str) : isSpace c = false ∧
    isControl c = false := by
  have hall : ("0123456789abcdef-".toList.all fun d => !isSpace d && !isControl d) = true := by
    decide
  simpa using List.all_eq_true.mp hall c (Uuid.str_chars id h)

theorem Uuid_fit (id : Uuid) : Fit 36 id.str := by
  refine fit_of_solid (fun hnil => ?_) (Uuid.length_str id).le fun c hc => Uuid_solid hc
  have hlen := Uuid.length_str id
  rw [hnil, List.length_nil] at hlen
  omega

theorem Uuid_no_credential (w : WordClass) (id : Uuid) : (CREDENTIAL w).search id.str = false := by
  have hall : ("0123456789abcdef-".toList.all fun d => d ≠ ':' ∧ d ≠ '=' ∧
    foldCase d ≠ 's') = true := by decide
  refine Regex.search_eq_false_of_needs (p := fun c => isSpace c = true ∨ c = ':' ∨ c = '=' ∨
    foldCase c = 's') ?_ ?_
  · refine CREDENTIAL_needs (fun c hc => .inl hc) (.inr (.inl rfl)) (.inr (.inr (.inl rfl))) ?_
    exact SECRET_KEY_needs 's' (by decide) fun c hc => .inr (.inr (.inr hc))
  · intro c hc hp
    obtain ⟨hcolon, hequals, hs⟩ :=
      of_decide_eq_true (List.all_eq_true.mp hall c (Uuid.str_chars id hc))
    rcases hp with hp | hp | hp | hp
    · exact Bool.false_ne_true ((Uuid_solid hc).1.symm.trans hp)
    · exact hcolon hp
    · exact hequals hp
    · exact hs hp

theorem Uuid_reference (id : Uuid) : REFERENCE.fullmatch id.str = true := by
  have hall : ("0123456789abcdef-".toList.all fun d => alphanumeric d ||
    d ∈ ['.', '_', ':', '/', '-']) = true := by decide
  have hfirst : "0123456789abcdef".toList.all alphanumeric = true := by decide
  obtain ⟨c, rest, hstr, hc⟩ := Uuid_str_cons id
  have hlen := Uuid.length_str id
  rw [hstr, List.length_cons] at hlen
  have hrest : ∀ d ∈ rest, (alphanumeric d || d ∈ ['.', '_', ':', '/', '-']) = true := by
    intro d hd
    refine List.all_eq_true.mp hall d (Uuid.str_chars id ?_)
    rw [hstr]
    exact List.mem_cons_of_mem c hd
  have hbound : rest.length ≤ 127 := by omega
  obtain ⟨last, hm⟩ := Regex.matches_upTo (.some c) hbound hrest
  rw [Regex.fullmatch_iff, hstr]
  exact ⟨last, .seq (.char (List.all_eq_true.mp hfirst c hc)) hm⟩

/-- The text of a UUID is a reference. -/
theorem referenceItem_uuid (w : WordClass) (id : Uuid) : referenceItem w id.str = .ok id.str := by
  have hfit := Uuid_fit id
  have hscheme : occursIn "://".toList id.str = false := by
    refine not_occursIn (c := ':') (by decide) fun hc => ?_
    have hmem := Uuid.str_chars id hc
    revert hmem
    decide
  have hlen : lengthBetween 1 128 id.str = .ok () := by
    rw [lengthBetween_ok, Uuid.length_str]
    decide
  rw [referenceItem, trim_eq hfit.tight, hlen, Uuid_reference, Py.ok_bind, reference,
    safeText_tight hfit.tight hfit.nonempty hfit.control, Uuid_no_credential]
  simp only [Bool.false_eq_true, if_false, Bool.not_true, raiseIf_false, Py.ok_bind, hscheme,
    Uuid_reference, Bool.or_self]
  rfl

end Novalton.Contracts
