/-
Reading JSON as `json.loads` does, and that it reads back what `json.dumps` writes: the value
with the fields of every object in the order of their keys.

A number goes as far as it can, so what stands behind a value must not go on with a number;
that is all a value asks of the text behind it. Nothing here names the repository.
-/
import Mathlib.Data.List.TakeWhile
import Novalton.Dict
import Novalton.JsonSize

namespace Novalton.JsonTree

/-! ## Scanners -/

def blank (c : Char) : Bool := [' ', '\t', '\n', '\r'].contains c

/-- What stands behind the blanks. -/
def skip (text : Text) : Text := text.dropWhile blank

/-- Digits, one at least, behind what has been scanned. -/
def scanDigits (scanned : Text) : Text → Option (Text × Text)
  | [] => .none
  | c :: text => if c.isDigit then
      .some (scanned ++ c :: text.takeWhile Char.isDigit, text.dropWhile Char.isDigit) else .none

/-- A zero, or digits that begin with another. -/
def scanNatural : Text → Option (Text × Text)
  | [] => .none
  | c :: text => if c = '0' then .some (['0'], text) else scanDigits [] (c :: text)

def scanInteger : Text → Option (Text × Text)
  | [] => .none
  | c :: text => if c = '-' then (scanNatural text).map fun scanned => ('-' :: scanned.1, scanned.2)
      else scanNatural (c :: text)

/-- A fraction, or nothing. -/
def scanFraction : Text → Text × Text
  | [] => ([], [])
  | c :: text => if c = '.' then (scanDigits ['.'] text).getD ([], c :: text) else ([], c :: text)

def exponentSign (c : Char) : Bool := c == '+' || c == '-'

def exponentMark (c : Char) : Bool := c == 'e' || c == 'E'

/-- The digits of an exponent, behind its mark and the sign it may have. -/
def scanSigned (mark : Char) : Text → Option (Text × Text)
  | [] => .none
  | c :: text => if exponentSign c then scanDigits [mark, c] text else scanDigits [mark] (c :: text)

/-- An exponent, or nothing. -/
def scanExponent : Text → Text × Text
  | [] => ([], [])
  | c :: text => if exponentMark c then (scanSigned c text).getD ([], c :: text)
      else ([], c :: text)

/-- The longest number a text begins with, and what stands behind it. -/
def scanNumber (text : Text) : Option (Text × Text) :=
  (scanInteger text).map fun integer =>
    let fraction := scanFraction integer.2
    let exponent := scanExponent fraction.2
    (integer.1 ++ fraction.1 ++ exponent.1, exponent.2)

def hexValue (c : Char) : Option ℕ :=
  if c.isDigit then .some (c.toNat - 48)
  else if 'a' ≤ c ∧ c ≤ 'f' then .some (c.toNat - 87)
  else if 'A' ≤ c ∧ c ≤ 'F' then .some (c.toNat - 55)
  else .none

/-- The character of four hexadecimal digits. The halves of a surrogate pair are no characters,
and are left out. -/
def escapedCode (a b c d : Char) : Option Char := do
  let a ← hexValue a
  let b ← hexValue b
  let c ← hexValue c
  let d ← hexValue d
  let code := ((a * 16 + b) * 16 + c) * 16 + d
  if code.isValidChar then .some (Char.ofNat code) else .none

/-- The escapes of one letter. -/
def escapedLetters : List (Char × Char) :=
  [('"', '"'), ('\\', '\\'), ('/', '/'), ('b', Char.ofNat 8), ('f', Char.ofNat 12), ('n', '\n'),
    ('r', '\r'), ('t', '\t')]

/-- A string behind its opening quote. -/
def scanString : Text → Option (Text × Text)
  | [] => .none
  | c :: text =>
    if c = '"' then .some ([], text)
    else if c = '\\' then
      match text with
      | [] => .none
      | letter :: text =>
        if letter = 'u' then
          match text with
          | a :: b :: c :: d :: text => (escapedCode a b c d).bind fun code =>
            (scanString text).map fun scanned => (code :: scanned.1, scanned.2)
          | _ => .none
        else (escapedLetters.lookup letter).bind fun code => (scanString text).map fun scanned =>
          (code :: scanned.1, scanned.2)
    else if c.toNat < 32 then .none
    else (scanString text).map fun scanned => (c :: scanned.1, scanned.2)

/-! ## Values -/

/-- The texts of the constants. -/
def constants : List (Text × JsonTree) :=
  [("null".toList, .null), ("true".toList, .bool true), ("false".toList, .bool false)]

/-- A constant or a number. -/
def parseAtom (text : Text) : Option (JsonTree × Text) :=
  match constants.find? fun entry => entry.1.isPrefixOf text with
  | .some entry => .some (entry.2, text.drop entry.1.length)
  | .none => (scanNumber text).map fun scanned => (.number scanned.1, scanned.2)

/-- A key, and what stands behind its colon. -/
def parseKey : Text → Option (Text × Text)
  | [] => .none
  | c :: text =>
    if c = '"' then
      (scanString text).bind fun key =>
        match skip key.2 with
        | [] => .none
        | c :: rest => if c = ':' then .some (key.1, skip rest) else .none
    else .none

mutual

/-- A value, and what stands behind it. -/
def parseValue : ℕ → Text → Option (JsonTree × Text)
  | 0, _ => .none
  | _ + 1, [] => .none
  | fuel + 1, c :: text =>
    if c = '"' then (scanString text).map fun scanned => (.string scanned.1, scanned.2)
    else if c = '{' then (parseFields fuel (skip text)).map fun parsed =>
      (.object (Dict.update [] parsed.1), parsed.2)
    else if c = '[' then (parseItems fuel (skip text)).map fun parsed => (.array parsed.1, parsed.2)
    else parseAtom (c :: text)

/-- The items of an array behind its bracket. -/
def parseItems : ℕ → Text → Option (List JsonTree × Text)
  | 0, _ => .none
  | fuel + 1, text =>
    match text with
    | [] => .none
    | c :: rest => if c = ']' then .some ([], rest) else parseItemsOn fuel (c :: rest)

/-- An item, and those behind its comma. -/
def parseItemsOn : ℕ → Text → Option (List JsonTree × Text)
  | 0, _ => .none
  | fuel + 1, text =>
    (parseValue fuel text).bind fun item =>
      match skip item.2 with
      | [] => .none
      | c :: rest =>
        if c = ']' then .some ([item.1], rest)
        else if c = ',' then (parseItemsOn fuel (skip rest)).map fun items =>
          (item.1 :: items.1, items.2)
        else .none

/-- The fields of an object behind its brace. -/
def parseFields : ℕ → Text → Option (List (Text × JsonTree) × Text)
  | 0, _ => .none
  | fuel + 1, text =>
    match text with
    | [] => .none
    | c :: rest => if c = '\x7d' then .some ([], rest) else parseFieldsOn fuel (c :: rest)

/-- A field, and those behind its comma. -/
def parseFieldsOn : ℕ → Text → Option (List (Text × JsonTree) × Text)
  | 0, _ => .none
  | fuel + 1, text =>
    (parseKey text).bind fun key =>
      (parseValue fuel key.2).bind fun value =>
        match skip value.2 with
        | [] => .none
        | c :: rest =>
          if c = '\x7d' then .some ([(key.1, value.1)], rest)
          else if c = ',' then (parseFieldsOn fuel (skip rest)).map fun fields =>
            ((key.1, value.1) :: fields.1, fields.2)
          else .none

end

/-- `json.loads` of a text, but for `NaN` and the infinities. -/
def loads (text : Text) : Option JsonTree :=
  match parseValue (2 * text.length + 1) (skip text) with
  | .some (tree, rest) => if (skip rest).isEmpty then .some tree else .none
  | .none => .none

/-! ## Scanning on -/

/-- A character that may go on with a number. -/
def numeric (c : Char) : Bool := c.isDigit || ['.', 'e', 'E', '+', '-'].contains c

/-- A text that does not go on with a number. -/
def Stops (rest : Text) : Prop := ∀ c ∈ rest.head?, numeric c = false

theorem stops_nil : Stops [] := by
  intro c h
  cases h

theorem stops_cons {c : Char} {rest : Text} (h : numeric c = false) : Stops (c :: rest) := by
  intro d hd
  cases hd
  exact h

section
variable {text rest scanned number : Text}

theorem while_append {p : Char → Bool} (h : ∀ c ∈ rest.head?, p c = false) :
    (text ++ rest).takeWhile p = text.takeWhile p ∧ (text ++ rest).dropWhile p = text.dropWhile p ++
    rest := by
  induction text with
  | nil =>
    cases rest with
    | nil => exact ⟨rfl, rfl⟩
    | cons c rest => simp [h c rfl]
  | cons c text ih =>
    cases hc : p c with
    | true => simp [hc, ih.1, ih.2]
    | false => simp [hc]

theorem Stops.digit (h : Stops rest) : ∀ c ∈ rest.head?, c.isDigit = false := by
  intro c hc
  have hnumeric := h c hc
  rw [numeric, Bool.or_eq_false_iff] at hnumeric
  exact hnumeric.1

theorem scanDigits_append (h : Stops rest) :
    scanDigits scanned (text ++ rest) = (scanDigits scanned text).map fun digits =>
      (digits.1, digits.2 ++ rest) := by
  cases text with
  | nil =>
    cases rest with
    | nil => rfl
    | cons c rest => simp [scanDigits, h.digit c rfl]
  | cons c text =>
    obtain ⟨htake, hdrop⟩ : (text ++ rest).takeWhile Char.isDigit = text.takeWhile Char.isDigit ∧
      (text ++ rest).dropWhile Char.isDigit = text.dropWhile Char.isDigit ++ rest :=
        while_append h.digit
    cases hc : c.isDigit with
    | true => simp [scanDigits, hc, htake, hdrop]
    | false => simp [scanDigits, hc]

theorem scanInteger_append (h : Stops rest) {digits : Text}
    (hscan : scanInteger text = .some (number, digits)) :
    scanInteger (text ++ rest) = .some (number, digits ++ rest) := by
  have hnatural : ∀ {text number digits : Text}, scanNatural text = .some (number, digits) →
      scanNatural (text ++ rest) = .some (number, digits ++ rest) := by
    intro text number digits hscan
    cases text with
    | nil => cases hscan
    | cons c text =>
      rw [scanNatural] at hscan
      rw [List.cons_append, scanNatural]
      split
      next hzero =>
        rw [if_pos hzero] at hscan
        cases hscan
        rfl
      next hzero =>
        rw [if_neg hzero] at hscan
        rw [← List.cons_append, scanDigits_append h, hscan]
        rfl
  cases text with
  | nil => cases hscan
  | cons c text =>
    rw [scanInteger] at hscan
    rw [List.cons_append, scanInteger]
    split
    next hsign =>
      rw [if_pos hsign, Option.map_eq_some_iff] at hscan
      obtain ⟨natural, hscan, heq⟩ := hscan
      cases heq
      rw [hnatural hscan]
      rfl
    next hsign =>
      rw [if_neg hsign] at hscan
      exact hnatural hscan

theorem scanFraction_append (h : Stops rest) : scanFraction
    (text ++ rest) = ((scanFraction text).1, (scanFraction text).2 ++ rest) := by
  cases text with
  | nil =>
    cases rest with
    | nil => rfl
    | cons c rest =>
      have hc : c ≠ '.' := by
        rintro rfl
        exact absurd (h '.' rfl) (by decide)
      simp [scanFraction, hc]
  | cons c text =>
    by_cases hc : c = '.'
    · rw [List.cons_append, scanFraction, scanFraction, if_pos hc, if_pos hc, scanDigits_append h]
      cases scanDigits ['.'] text with
      | none => rfl
      | some digits => rfl
    · simp [scanFraction, hc]

theorem scanSigned_append (h : Stops rest) {mark : Char} :
    scanSigned mark (text ++ rest) = (scanSigned mark text).map fun digits =>
      (digits.1, digits.2 ++ rest) := by
  cases text with
  | nil =>
    cases rest with
    | nil => rfl
    | cons c rest =>
      have hsign : exponentSign c = false := by
        have hc := h c rfl
        simp only [numeric, List.contains_cons, Bool.or_eq_false_iff] at hc
        rw [exponentSign, hc.2.2.2.2.1, hc.2.2.2.2.2.1]
        rfl
      simp [scanSigned, hsign, scanDigits, h.digit c rfl]
  | cons c text =>
    rw [List.cons_append, scanSigned, scanSigned]
    split
    next => exact scanDigits_append h
    next => rw [← List.cons_append, scanDigits_append h]

theorem scanExponent_append (h : Stops rest) : scanExponent
    (text ++ rest) = ((scanExponent text).1, (scanExponent text).2 ++ rest) := by
  cases text with
  | nil =>
    cases rest with
    | nil => rfl
    | cons c rest =>
      have hmark : exponentMark c = false := by
        have hc := h c rfl
        simp only [numeric, List.contains_cons, Bool.or_eq_false_iff] at hc
        rw [exponentMark, hc.2.2.1, hc.2.2.2.1]
        rfl
      simp [scanExponent, hmark]
  | cons c text =>
    cases hmark : exponentMark c with
    | true =>
      rw [List.cons_append, scanExponent, scanExponent, if_pos hmark, if_pos hmark,
        scanSigned_append h]
      cases scanSigned c text with
      | none => rfl
      | some digits => rfl
    | false => simp [scanExponent, hmark]

/-- A text that is a number. -/
def IsNumber (text : Text) : Prop := scanNumber text = .some (text, [])

instance (text : Text) : Decidable (IsNumber text) := inferInstanceAs (Decidable (_ = _))

/-- A number is read to its end where the text behind it stops it. -/
theorem IsNumber.scan (h : IsNumber number) (hstops : Stops rest) : scanNumber
    (number ++ rest) = .some (number, rest) := by
  rw [IsNumber, scanNumber, Option.map_eq_some_iff] at h
  obtain ⟨integer, hinteger, heq⟩ := h
  obtain ⟨hnumber, hend⟩ := Prod.mk.inj heq
  rw [scanNumber, scanInteger_append hstops hinteger, Option.map_some, scanFraction_append hstops]
  dsimp only
  rw [scanExponent_append hstops]
  exact congrArg Option.some (Prod.ext hnumber (by rw [hend]; rfl))

/-- A number begins with its sign or a digit. -/
theorem IsNumber.begins (h : IsNumber number) : ∃ c digits, number = c :: digits ∧
    (c = '-' ∨ c.isDigit = true) := by
  rw [IsNumber, scanNumber, Option.map_eq_some_iff] at h
  obtain ⟨integer, hinteger, -⟩ := h
  cases number with
  | nil => cases hinteger
  | cons c digits =>
    refine ⟨c, digits, rfl, ?_⟩
    by_cases hsign : c = '-'
    · exact .inl hsign
    · right
      rw [scanInteger, if_neg hsign, scanNatural] at hinteger
      split at hinteger
      next hzero =>
        rw [hzero]
        rfl
      next =>
        rw [scanDigits] at hinteger
        split at hinteger
        next hdigit => exact hdigit
        next => cases hinteger

end

/-! ## Integers -/

theorem scanNatural_toDigits (n : ℕ) : scanNatural (Nat.toDigits 10 n) = .some
    (Nat.toDigits 10 n, []) := by
  by_cases hzero : n = 0
  · rw [hzero]
    rfl
  · have hfirst : (Nat.toDigits 10 n).head? ≠ .some '0' := by
      induction n using Nat.strong_induction_on with
      | _ n ih =>
        by_cases hsmall : n < 10
        · rw [Nat.toDigits_of_lt_base hsmall]
          have hfirst : ∀ k : Fin 10, k.val ≠ 0 → [Nat.digitChar k.val].head? ≠ .some '0' := by
            decide
          exact hfirst ⟨n, hsmall⟩ hzero
        · have hbase : 10 ≤ n := Nat.not_lt.mp hsmall
          rw [Nat.toDigits_of_base_le (by decide) hbase]
          have hrest := ih (n / 10) (by omega) (by omega)
          cases hdigits : Nat.toDigits 10 (n / 10) with
          | nil => exact absurd hdigits Nat.toDigits_ne_nil
          | cons c digits =>
            rw [hdigits] at hrest
            exact hrest
    have hall : ∀ c ∈ Nat.toDigits 10 n, c.isDigit = true :=
      fun c hc => Nat.isDigit_of_mem_toDigits (by decide) (by decide) hc
    cases hdigits : Nat.toDigits 10 n with
    | nil => exact absurd hdigits Nat.toDigits_ne_nil
    | cons c digits =>
      rw [hdigits] at hfirst hall
      have hc : c ≠ '0' := by
        rintro rfl
        exact hfirst rfl
      have hdigit : ∀ d ∈ digits, d.isDigit = true := fun d hd => hall d (List.mem_cons_of_mem c hd)
      rw [scanNatural, if_neg hc, scanDigits, if_pos (hall c List.mem_cons_self),
        List.takeWhile_eq_self_iff.mpr hdigit, List.dropWhile_eq_nil_iff.mpr hdigit]
      rfl

/-- The digits of an integer behind its sign. -/
def intText : Int → Text
  | .ofNat n => Nat.toDigits 10 n
  | .negSucc n => '-' :: Nat.toDigits 10 (n + 1)

theorem int_eq (value : Int) : int value = .number (intText value) := by
  cases value with
  | ofNat n =>
    rw [int, intText, show toString (Int.ofNat n) = n.repr from rfl, Nat.toList_repr]
  | negSucc n =>
    have htext : (toString (Int.negSucc n)).toList = '-' :: (n + 1).repr.toList := by
      rw [show toString (Int.negSucc n) = "-" ++ (n + 1).repr from rfl, String.toList_append]
      rfl
    rw [int, intText, htext, Nat.toList_repr]

theorem isNumber_intText (value : Int) : IsNumber (intText value) := by
  have hnatural : ∀ n, scanInteger (Nat.toDigits 10 n) = .some (Nat.toDigits 10 n, []) := by
    intro n
    have hscan := scanNatural_toDigits n
    cases hdigits : Nat.toDigits 10 n with
    | nil => exact absurd hdigits Nat.toDigits_ne_nil
    | cons c digits =>
      have hdigit : c.isDigit = true :=
        Nat.isDigit_of_mem_toDigits (by decide) (by decide) (hdigits ▸ List.mem_cons_self)
      have hsign : c ≠ '-' := by
        rintro rfl
        exact absurd hdigit (by decide)
      rw [hdigits] at hscan
      rw [scanInteger, if_neg hsign, hscan]
  cases value with
  | ofNat n =>
    rw [intText, IsNumber, scanNumber, hnatural, Option.map_some]
    simp [scanFraction, scanExponent]
  | negSucc n =>
    rw [intText, IsNumber, scanNumber, scanInteger, if_pos rfl, scanNatural_toDigits]
    simp [scanFraction, scanExponent]

/-! ## Strings -/

/-- A control character is read back from its four digits. -/
theorem escapedCode_control : ∀ n : Fin 32, escapedCode (hexDigit (n.val / 16 / 16 / 16))
    (hexDigit (n.val / 16 / 16)) (hexDigit (n.val / 16)) (hexDigit n.val) = .some
    (Char.ofNat n.val) := by decide

section
variable {c : Char} {text : Text}

theorem scanString_letter {letter : Char} (hletter : letter ≠ 'u')
    (hcode : escapedLetters.lookup letter = .some c) :
    scanString ('\\' :: letter :: text) = (scanString text).map fun scanned =>
      (c :: scanned.1, scanned.2) := by
  rw [scanString.eq_def]
  simp [hletter, hcode]

theorem scanString_code {first second third fourth : Char}
    (hcode : escapedCode first second third fourth = .some c) :
    scanString ('\\' :: 'u' :: first :: second :: third :: fourth :: text) =
      (scanString text).map fun scanned => (c :: scanned.1, scanned.2) := by
  rw [scanString.eq_def]
  simp [hcode]

theorem scanString_plain (hquote : c ≠ '"') (hslash : c ≠ '\\') (hcontrol : ¬ c.toNat < 32) :
    scanString (c :: text) = (scanString text).map fun scanned => (c :: scanned.1, scanned.2) := by
  rw [scanString.eq_def]
  simp [hquote, hslash, hcontrol]

end

theorem scanString_escape (c : Char) (text : Text) :
    scanString (escapeChar c ++ text) = (scanString text).map fun scanned =>
      (c :: scanned.1, scanned.2) := by
  unfold escapeChar
  split
  next hc =>
    rw [hc]
    exact scanString_letter (by decide) rfl
  next hquote =>
    split
    next hc =>
      rw [hc]
      exact scanString_letter (by decide) rfl
    next hslash =>
      split
      next hc => exact scanString_letter (by decide) (hc ▸ rfl)
      next =>
        split
        next hc => exact scanString_letter (by decide) (hc ▸ rfl)
        next =>
          split
          next hc => exact scanString_letter (by decide) (hc ▸ rfl)
          next =>
            split
            next hc =>
              have heq : Char.ofNat 8 = c := by rw [← hc, Char.ofNat_toNat]
              exact scanString_letter (by decide) (heq ▸ rfl)
            next =>
              split
              next hc =>
                have heq : Char.ofNat 12 = c := by rw [← hc, Char.ofNat_toNat]
                exact scanString_letter (by decide) (heq ▸ rfl)
              next =>
                split
                next hcontrol =>
                  have hcode := escapedCode_control ⟨c.toNat, hcontrol⟩
                  rw [Char.ofNat_toNat] at hcode
                  exact scanString_code hcode
                next hcontrol => exact scanString_plain hquote hslash hcontrol

theorem scanString_quote (value rest : Text) : scanString
    (value.flatMap escapeChar ++ '"' :: rest) = .some (value, rest) := by
  induction value with
  | nil =>
    rw [List.flatMap_nil, List.nil_append, scanString.eq_def]
    rfl
  | cons c value ih =>
    rw [List.flatMap_cons, List.append_assoc, scanString_escape, ih]
    rfl

theorem skip_of_head {c : Char} {text : Text} (h : blank c = false) : skip
    (c :: text) = c :: text := by
  rw [skip, List.dropWhile_cons, h]
  rfl

theorem parseKey_quote (key rest : Text) : parseKey (quote key ++ ':' :: rest) = .some
    (key, skip rest) := by
  have htext : quote key ++ ':' :: rest = '"' ::
      (key.flatMap escapeChar ++ '"' :: ':' :: rest) := by
    rw [quote, List.cons_append, List.append_assoc]
    rfl
  rw [htext, parseKey, if_pos rfl, scanString_quote, Option.bind_some, skip_of_head (by decide)]
  rfl

/-! ## Values -/

mutual

/-- A number is one, and the keys of an object are distinct. -/
def WellFormed : JsonTree → Prop
  | .null => True
  | .bool _ => True
  | .number text => IsNumber text
  | .string _ => True
  | .array items => WellFormedItems items
  | .object fields => (fields.map Prod.fst).Nodup ∧ WellFormedFields fields

def WellFormedItems : List JsonTree → Prop
  | [] => True
  | item :: items => WellFormed item ∧ WellFormedItems items

def WellFormedFields : List (Text × JsonTree) → Prop
  | [] => True
  | (_, value) :: fields => WellFormed value ∧ WellFormedFields fields

end

theorem numeric_of_begins {c : Char} (h : c = '-' ∨ c.isDigit = true) : numeric c = true := by
  rw [numeric, Bool.or_eq_true]
  rcases h with rfl | h
  · exact .inr rfl
  · exact .inl h

theorem parseAtom_number {number rest : Text} (h : IsNumber number) (hstops : Stops rest) :
    parseAtom (number ++ rest) = .some (.number number, rest) := by
  have hnone : constants.find? (fun entry => entry.1.isPrefixOf (number ++ rest)) = .none := by
    obtain ⟨c, digits, rfl, hc⟩ := h.begins
    have hletter : ('n' == c) = false ∧ ('t' == c) = false ∧ ('f' == c) = false := by
      have hnumeric := numeric_of_begins hc
      refine ⟨?_, ?_, ?_⟩
      all_goals
        rw [beq_eq_false_iff_ne]
        rintro rfl
        exact absurd hnumeric (by decide)
    simp [constants, List.isPrefixOf, hletter]
  rw [parseAtom, hnone]
  dsimp only
  rw [h.scan hstops]
  rfl

/-- A value begins with a character that is no blank and ends no array or object. -/
theorem compact_begins {tree : JsonTree} (h : tree.WellFormed) :
    ∃ c text, tree.compact = c :: text ∧ blank c = false ∧ c ≠ ']' ∧ c ≠ '\x7d' := by
  cases tree with
  | null => exact ⟨_, _, rfl, rfl, by decide, by decide⟩
  | bool value =>
    cases value with
    | true => exact ⟨_, _, rfl, rfl, by decide, by decide⟩
    | false => exact ⟨_, _, rfl, rfl, by decide, by decide⟩
  | number number =>
    obtain ⟨c, digits, rfl, hc⟩ := IsNumber.begins h
    have hnumeric := numeric_of_begins hc
    refine ⟨c, digits, rfl, ?_, ?_, ?_⟩
    · cases hblank : blank c with
      | false => rfl
      | true =>
        have hmem : c ∈ [' ', '\t', '\n', '\r'] := List.contains_iff_mem.mp hblank
        simp only [List.mem_cons, List.not_mem_nil, or_false] at hmem
        rcases hmem with rfl | rfl | rfl | rfl
        all_goals exact absurd hnumeric (by decide)
    · rintro rfl
      exact absurd hnumeric (by decide)
    · rintro rfl
      exact absurd hnumeric (by decide)
  | string value => exact ⟨_, _, rfl, rfl, by decide, by decide⟩
  | array items => exact ⟨_, _, rfl, rfl, by decide, by decide⟩
  | object fields => exact ⟨_, _, rfl, rfl, by decide, by decide⟩

/-- The items of an array between its brackets. -/
def itemsText (items : List JsonTree) : Text := [','].intercalate (items.map compact)

/-- The fields of an object between its braces, as they stand. -/
def fieldsText (fields : List (Text × JsonTree)) : Text :=
  [','].intercalate (fields.map fun field => quote field.1 ++ ':' :: field.2.compact)

theorem compact_array (items : List JsonTree) :
    (array items).compact = '[' :: (itemsText items ++ [']']) := by
  rw [compact, write, writeItems_eq]
  rfl

theorem compact_object (fields : List (Text × JsonTree)) :
    (object fields).compact = '{' :: (fieldsText fields ++ ['\x7d']) := by
  have htext : compactStyle.fields (writeFields compactStyle fields) = fieldsText fields := by
    rw [writeFields_eq, Style.fields, fieldsText]
    exact congrArg _ (List.map_map ..)
  rw [compact, write, htext]

@[simp] theorem itemsText_one (item : JsonTree) : itemsText [item] = item.compact := by
  simp [itemsText]

@[simp] theorem itemsText_cons (item next : JsonTree) (items : List JsonTree) :
    itemsText (item :: next :: items) = item.compact ++ ',' :: itemsText (next :: items) := by
  simp [itemsText, List.intercalate_cons_cons]

@[simp] theorem fieldsText_one (field : Text × JsonTree) : fieldsText
    [field] = quote field.1 ++ ':' :: field.2.compact := by
  simp [fieldsText]

@[simp] theorem fieldsText_cons (field next : Text × JsonTree) (fields : List (Text × JsonTree)) :
    fieldsText (field :: next :: fields) = quote field.1 ++ ':' :: field.2.compact ++ ',' ::
      fieldsText (next :: fields) := by
  simp [fieldsText, List.intercalate_cons_cons]

/-- The items begin as the first of them. -/
theorem itemsText_begins {item : JsonTree} (h : item.WellFormed) (items : List JsonTree) :
    ∃ c text, itemsText (item :: items) = c :: text ∧ blank c = false ∧ c ≠ ']' := by
  obtain ⟨c, text, hcompact, hblank, hbracket, -⟩ := compact_begins h
  cases items with
  | nil => exact ⟨c, text, by rw [itemsText_one, hcompact], hblank, hbracket⟩
  | cons next items => exact ⟨c, text ++ ',' :: itemsText (next :: items),
      by rw [itemsText_cons, hcompact]; rfl, hblank, hbracket⟩

theorem fieldsText_begins (field : Text × JsonTree) (fields : List (Text × JsonTree)) :
    ∃ text, fieldsText (field :: fields) = '"' :: text := by
  cases fields with
  | nil =>
    rw [fieldsText_one]
    exact ⟨_, rfl⟩
  | cons next fields =>
    rw [fieldsText_cons]
    exact ⟨_, rfl⟩

mutual

/-- A value is read back from its compact text, whatever stops it. -/
theorem parse_compact : ∀ (tree : JsonTree) {fuel : ℕ} {rest : Text}, tree.WellFormed →
    2 * tree.compact.length ≤ fuel → Stops rest →
    parseValue fuel (tree.compact ++ rest) = .some (tree, rest)
  | tree, 0, rest, h, hfuel, _ => by
    obtain ⟨c, text, hcompact, -⟩ := compact_begins h
    rw [hcompact, List.length_cons] at hfuel
    omega
  | .null, fuel + 1, rest, _, _, _ => rfl
  | .bool true, fuel + 1, rest, _, _, _ => rfl
  | .bool false, fuel + 1, rest, _, _, _ => rfl
  | .number digits, fuel + 1, rest, h, _, hstops => by
    obtain ⟨c, text, rfl, hc⟩ := IsNumber.begins h
    have hnumeric := numeric_of_begins hc
    have hother : c ≠ '"' ∧ c ≠ '{' ∧ c ≠ '[' := by
      refine ⟨?_, ?_, ?_⟩
      all_goals
        rintro rfl
        exact absurd hnumeric (by decide)
    have hatom : parseAtom (c :: (text ++ rest)) = .some (.number (c :: text), rest) :=
      parseAtom_number h hstops
    have htext : (JsonTree.number (c :: text)).compact ++ rest = c :: (text ++ rest) := rfl
    rw [htext, parseValue, if_neg hother.1, if_neg hother.2.1, if_neg hother.2.2, hatom]
  | .string value, fuel + 1, rest, _, _, _ => by
    have htext : (JsonTree.string value).compact ++ rest = '"' ::
        (value.flatMap escapeChar ++ '"' :: rest) := by
      rw [show (JsonTree.string value).compact = quote value from rfl, quote, List.cons_append,
        List.append_assoc]
      rfl
    rw [htext, parseValue, if_pos rfl, scanString_quote]
    rfl
  | .array items, fuel + 1, rest, h, hfuel, _ => by
    have hlength : (itemsText items).length + 2 = (JsonTree.array items).compact.length := by
      rw [compact_array, List.length_cons, List.length_append, List.length_singleton]
    have htext : (JsonTree.array items).compact ++ rest = '[' ::
        (itemsText items ++ ']' :: rest) := by
      rw [compact_array, List.cons_append, List.append_assoc]
      rfl
    have hitems : parseItems fuel (skip (itemsText items ++ ']' :: rest)) =
        .some (items, rest) := by
      obtain ⟨fuel, rfl⟩ : ∃ more, fuel = more + 1 := ⟨fuel - 1, by omega⟩
      cases items with
      | nil => rfl
      | cons item items =>
        obtain ⟨c, text, hbegins, hblank, hbracket⟩ := itemsText_begins h.1 items
        have hparsed : parseItemsOn fuel (itemsText (item :: items) ++ ']' :: rest) =
            .some (item :: items, rest) :=
          parse_items (item :: items) (List.cons_ne_nil _ _) h (by omega)
        rw [hbegins, List.cons_append] at hparsed ⊢
        rw [skip_of_head hblank, parseItems, if_neg hbracket, hparsed]
    rw [htext, parseValue, if_neg (by decide), if_neg (by decide), if_pos rfl, hitems]
    rfl
  | .object fields, fuel + 1, rest, h, hfuel, _ => by
    have hlength : (fieldsText fields).length + 2 = (JsonTree.object fields).compact.length := by
      rw [compact_object, List.length_cons, List.length_append, List.length_singleton]
    have htext : (JsonTree.object fields).compact ++ rest = '{' ::
        (fieldsText fields ++ '\x7d' :: rest) := by
      rw [compact_object, List.cons_append, List.append_assoc]
      rfl
    have hfields : parseFields fuel (skip (fieldsText fields ++ '\x7d' :: rest)) =
        .some (fields, rest) := by
      obtain ⟨fuel, rfl⟩ : ∃ more, fuel = more + 1 := ⟨fuel - 1, by omega⟩
      cases fields with
      | nil => rfl
      | cons field fields =>
        obtain ⟨text, hbegins⟩ := fieldsText_begins field fields
        have hparsed : parseFieldsOn fuel (fieldsText (field :: fields) ++ '\x7d' :: rest) =
            .some (field :: fields, rest) :=
          parse_fields (field :: fields) (List.cons_ne_nil _ _) h.2 (by omega)
        rw [hbegins, List.cons_append] at hparsed ⊢
        rw [skip_of_head (by decide), parseFields, if_neg (by decide), hparsed]
    rw [htext, parseValue, if_neg (by decide), if_pos rfl, hfields, Option.map_some]
    exact congrArg (fun fields => Option.some (JsonTree.object fields, rest)) (update_fresh h.1)

theorem parse_items : ∀ (items : List JsonTree) {fuel : ℕ} {rest : Text}, items ≠ [] →
    WellFormedItems items →
    2 * (itemsText items).length + 1 ≤ fuel → parseItemsOn fuel
      (itemsText items ++ ']' :: rest) = .some (items, rest)
  | [], _, _, hne, _, _ => absurd rfl hne
  | _ :: _, 0, _, _, _, hfuel => absurd hfuel (by omega)
  | [item], fuel + 1, rest, _, h, hfuel => by
    rw [itemsText_one] at hfuel ⊢
    rw [parseItemsOn, parse_compact item h.1 (by omega) (stops_cons (by decide)), Option.bind_some,
      skip_of_head (by decide)]
    rfl
  | item :: next :: items, fuel + 1, rest, _, h, hfuel => by
    rw [itemsText_cons] at hfuel ⊢
    rw [List.length_append, List.length_cons] at hfuel
    obtain ⟨c, text, hbegins, hblank, -⟩ := itemsText_begins h.2.1 items
    have hparsed : parseItemsOn fuel (itemsText (next :: items) ++ ']' :: rest) =
        .some (next :: items, rest) :=
      parse_items (next :: items) (List.cons_ne_nil _ _) h.2 (by omega)
    have hskip : skip (itemsText (next :: items) ++ ']' :: rest) = itemsText (next :: items) ++
        ']' :: rest := by
      rw [hbegins]
      exact skip_of_head hblank
    rw [List.append_assoc, List.cons_append, parseItemsOn,
      parse_compact item h.1 (by omega) (stops_cons (by decide)), Option.bind_some,
        skip_of_head (by decide)]
    dsimp only
    rw [if_neg (by decide), if_pos rfl, hskip, hparsed]
    rfl

theorem parse_fields : ∀ (fields : List (Text × JsonTree)) {fuel : ℕ} {rest : Text}, fields ≠ [] →
    WellFormedFields fields →
    2 * (fieldsText fields).length + 1 ≤ fuel → parseFieldsOn fuel
      (fieldsText fields ++ '\x7d' :: rest) = .some (fields, rest)
  | [], _, _, hne, _, _ => absurd rfl hne
  | _ :: _, 0, _, _, _, hfuel => absurd hfuel (by omega)
  | [(key, value)], fuel + 1, rest, _, h, hfuel => by
    rw [fieldsText_one] at hfuel ⊢
    rw [List.length_append, List.length_cons] at hfuel
    dsimp only at hfuel ⊢
    obtain ⟨c, text, hbegins, hblank, -⟩ := compact_begins h.1
    have hskip : skip (value.compact ++ '\x7d' :: rest) = value.compact ++ '\x7d' :: rest := by
      rw [hbegins]
      exact skip_of_head hblank
    rw [List.append_assoc, List.cons_append, parseFieldsOn, parseKey_quote, Option.bind_some, hskip,
      parse_compact value h.1 (by omega) (stops_cons (by decide)), Option.bind_some,
        skip_of_head (by decide)]
    rfl
  | (key, value) :: next :: fields, fuel + 1, rest, _, h, hfuel => by
    rw [fieldsText_cons] at hfuel ⊢
    rw [List.length_append, List.length_append, List.length_cons, List.length_cons] at hfuel
    dsimp only at hfuel ⊢
    obtain ⟨c, text, hbegins, hblank, -⟩ := compact_begins h.1
    obtain ⟨more, hmore⟩ := fieldsText_begins next fields
    have hparsed : parseFieldsOn fuel (fieldsText (next :: fields) ++ '\x7d' :: rest) =
        .some (next :: fields, rest) :=
      parse_fields (next :: fields) (List.cons_ne_nil _ _) h.2 (by omega)
    have hskip : skip (fieldsText (next :: fields) ++ '\x7d' :: rest) =
        fieldsText (next :: fields) ++ '\x7d' :: rest := by
      rw [hmore]
      exact skip_of_head (by decide)
    have hvalue : skip (value.compact ++ ',' :: (fieldsText (next :: fields) ++ '\x7d' :: rest)) =
        value.compact ++ ',' :: (fieldsText (next :: fields) ++ '\x7d' :: rest) := by
      rw [hbegins]
      exact skip_of_head hblank
    have htext : quote key ++ ':' :: value.compact ++ ',' :: fieldsText (next :: fields) ++
      '\x7d' :: rest =
        quote key ++ ':' ::
          (value.compact ++ ',' :: (fieldsText (next :: fields) ++ '\x7d' :: rest)) := by simp
    rw [htext, parseFieldsOn, parseKey_quote, Option.bind_some, hvalue,
      parse_compact value h.1 (by omega) (stops_cons (by decide)), Option.bind_some,
        skip_of_head (by decide)]
    dsimp only
    rw [if_neg (by decide), if_pos rfl, hskip, hparsed]
    rfl

end

/-! ## Sorted keys -/

mutual

/-- The value with the fields of every object in the order of their keys. -/
def sorted : JsonTree → JsonTree
  | .null => .null
  | .bool value => .bool value
  | .number text => .number text
  | .string value => .string value
  | .array items => .array (sortedItems items)
  | .object fields => .object ((sortedFields fields).insertionSort fun a b => a.1 ≤ b.1)

def sortedItems : List JsonTree → List JsonTree
  | [] => []
  | item :: items => item.sorted :: sortedItems items

def sortedFields : List (Text × JsonTree) → List (Text × JsonTree)
  | [] => []
  | (key, value) :: fields => (key, value.sorted) :: sortedFields fields

end

theorem sortedFields_eq (fields : List (Text × JsonTree)) :
    sortedFields fields = fields.map fun field => (field.1, field.2.sorted) := by
  induction fields with
  | nil => rfl
  | cons field fields ih => rw [sortedFields, ih, List.map_cons]

theorem wellFormedFields_iff {fields : List (Text × JsonTree)} : WellFormedFields fields ↔
    ∀ field ∈ fields, field.2.WellFormed := by
  induction fields with
  | nil => simp [WellFormedFields]
  | cons field fields ih => simp [WellFormedFields, ih]

/-- What is written of fields does not change where they go. -/
theorem map_insertionSort_fields {β γ : Type} (f : β → γ) (fields : List (Text × β)) :
    (fields.insertionSort fun a b => a.1 ≤ b.1).map (fun field => (field.1, f field.2)) =
      (fields.map fun field => (field.1, f field.2)).insertionSort fun a b => a.1 ≤ b.1 :=
  List.map_insertionSort _ _ _ _ fun _ _ _ _ => Iff.rfl

mutual

/-- `json.dumps` writes the compact text of the sorted value. -/
theorem dumps_eq_compact : ∀ tree : JsonTree, tree.dumps = tree.sorted.compact
  | .null => rfl
  | .bool true => rfl
  | .bool false => rfl
  | .number _ => rfl
  | .string _ => rfl
  | .array items => by
    rw [dumps, sorted, compact_array, dumpsItems_eq_compact items]
    rfl
  | .object fields => by
    rw [dumps, sorted, compact_object, dumpsFields_eq_compact fields, joinFields,
      ← map_insertionSort_fields, List.map_map]
    rfl

theorem dumpsItems_eq_compact : ∀ items : List JsonTree,
    dumpsItems items = (sortedItems items).map compact
  | [] => rfl
  | item :: items => by
    rw [dumpsItems, sortedItems, List.map_cons, dumps_eq_compact item, dumpsItems_eq_compact items]

theorem dumpsFields_eq_compact : ∀ fields : List (Text × JsonTree),
    dumpsFields fields = (sortedFields fields).map fun field => (field.1, field.2.compact)
  | [] => rfl
  | (key, value) :: fields => by
    rw [dumpsFields, sortedFields, List.map_cons, dumps_eq_compact value,
    dumpsFields_eq_compact fields]

end

theorem keys_insertionSort (fields : List (Text × JsonTree)) :
    (((sortedFields fields).insertionSort fun a b => a.1 ≤ b.1).map Prod.fst).Perm
    (fields.map Prod.fst) := by
  have hkeys : (sortedFields fields).map Prod.fst = fields.map Prod.fst := by
    rw [sortedFields_eq, List.map_map]
    rfl
  rw [← hkeys]
  exact (List.perm_insertionSort _ _).map _

mutual

theorem WellFormed.sorted : ∀ {tree : JsonTree}, tree.WellFormed → tree.sorted.WellFormed
  | .null, _ => trivial
  | .bool _, _ => trivial
  | .number _, h => h
  | .string _, _ => trivial
  | .array items, h => by
    rw [JsonTree.sorted, WellFormed]
    exact WellFormedItems.sorted h
  | .object fields, h => by
    rw [JsonTree.sorted, WellFormed]
    refine ⟨(keys_insertionSort fields).nodup_iff.mpr h.1, ?_⟩
    have hfields := wellFormedFields_iff.mp (WellFormedFields.sorted h.2)
    exact wellFormedFields_iff.mpr fun field hfield =>
      hfields field ((List.mem_insertionSort _).mp hfield)

theorem WellFormedItems.sorted : ∀ {items : List JsonTree}, WellFormedItems items → WellFormedItems
    (sortedItems items)
  | [], _ => trivial
  | _ :: _, h => ⟨WellFormed.sorted h.1, WellFormedItems.sorted h.2⟩

theorem WellFormedFields.sorted : ∀ {fields : List (Text × JsonTree)}, WellFormedFields fields →
    WellFormedFields (sortedFields fields)
  | [], _ => trivial
  | (_, _) :: _, h => ⟨WellFormed.sorted h.1, WellFormedFields.sorted h.2⟩

end

/-- **What `json.dumps` writes, `json.loads` reads back**, with its keys sorted. -/
theorem loads_dumps {tree : JsonTree} (h : tree.WellFormed) :
    loads tree.dumps = .some tree.sorted := by
  obtain ⟨c, text, hbegins, hblank, -⟩ := compact_begins h.sorted
  have hparsed : parseValue (2 * tree.sorted.compact.length + 1) (tree.sorted.compact ++ []) =
      .some (tree.sorted, []) :=
    parse_compact tree.sorted h.sorted (by omega) stops_nil
  rw [List.append_nil] at hparsed
  have hskip : skip tree.sorted.compact = tree.sorted.compact := by
    rw [hbegins]
    exact skip_of_head hblank
  rw [dumps_eq_compact, loads, hskip, hparsed]
  rfl

instance : Std.Total fun a b : Text × JsonTree => a.1 ≤ b.1 := ⟨fun a b => le_total a.1 b.1⟩

instance : IsTrans (Text × JsonTree) fun a b => a.1 ≤ b.1 := ⟨fun _ _ _ hab hbc => le_trans hab hbc⟩

mutual

theorem sorted_sorted : ∀ tree : JsonTree, tree.sorted.sorted = tree.sorted
  | .null => rfl
  | .bool _ => rfl
  | .number _ => rfl
  | .string _ => rfl
  | .array items => by rw [sorted, sorted, sortedItems_sorted items]
  | .object fields => by
    have hfields : sortedFields ((sortedFields fields).insertionSort fun a b => a.1 ≤ b.1) =
        (sortedFields fields).insertionSort fun a b => a.1 ≤ b.1 := by
      rw [sortedFields_eq, map_insertionSort_fields, ← sortedFields_eq, sortedFields_sorted fields]
    rw [sorted, sorted, hfields, (List.pairwise_insertionSort _ _).insertionSort_eq]

theorem sortedItems_sorted : ∀ items : List JsonTree, sortedItems
    (sortedItems items) = sortedItems items
  | [] => rfl
  | item :: items => by rw [sortedItems, sortedItems, sorted_sorted item, sortedItems_sorted items]

theorem sortedFields_sorted : ∀ fields : List (Text × JsonTree), sortedFields
    (sortedFields fields) = sortedFields fields
  | [] => rfl
  | (key, value) :: fields => by
    rw [sortedFields, sortedFields, sorted_sorted value, sortedFields_sorted fields]

end

end Novalton.JsonTree
