/-
The grammar of constraint paths, against the scanner that reads them (`_tokenize_path` of
`modules/agents/contract_execution.py`): a name, and then names behind dots, decimal indices
and asterisks in brackets.
-/
import Novalton.ContractExecution

namespace Novalton.ContractExecution

/-! ## The grammar -/

/-- `[A-Za-z_][A-Za-z0-9_]*` -/
def isName : Text → Bool
  | [] => false
  | c :: rest => nameStart c && rest.all nameChar

structure Name where
  text : Text
  valid : isName text = true

structure Index where
  digits : Text
  nonempty : digits ≠ []
  valid : digits.all isDecimal = true

inductive Segment where
  | name (name : Name)
  | index (index : Index)
  | wildcard

def Segment.text : Segment → Text
  | .name key => '.' :: key.text
  | .index position => '[' :: (position.digits ++ [']'])
  | .wildcard => ['[', '*', ']']

def Segment.token : Segment → Token
  | .name key => .name key.text
  | .index position => .index (decimalValue position.digits)
  | .wildcard => .wildcard

/-- `int` takes the digits of an index. -/
def Segment.short : Segment → Bool
  | .index position => decide (position.digits.length ≤ maxStrDigits)
  | _ => true

structure Path where
  first : Name
  segments : List Segment

def Path.text (path : Path) : Text := path.first.text ++ path.segments.flatMap Segment.text

def Path.tokens (path : Path) : List Token :=
  .name path.first.text :: path.segments.map Segment.token

/-! ## Matches -/

/-- A text that does not go on with a name. -/
def Ended (text : Text) : Prop := ∀ c ∈ text.head?, nameChar c = false

theorem ended_segments (segments : List Segment) : Ended (segments.flatMap Segment.text) := by
  intro c hc
  cases segments with
  | nil => cases hc
  | cons segment segments =>
    cases segment with
    | name key =>
      cases hc
      decide
    | index position =>
      cases hc
      decide
    | wildcard =>
      cases hc
      decide

theorem nameStart_nameChar {c : Char} (h : nameStart c = true) : nameChar c = true := by
  rw [nameChar, h, Bool.true_or]

theorem takeWhile_ended {rest : Text} (h : Ended rest) : rest.takeWhile nameChar = [] ∧
    rest.dropWhile nameChar = rest := by
  cases rest with
  | nil => exact ⟨rfl, rfl⟩
  | cons c rest =>
    have hc := h c rfl
    rw [List.takeWhile_cons_of_neg (by simp [hc]), List.dropWhile_cons_of_neg (by simp [hc])]
    exact ⟨rfl, rfl⟩

theorem matchName_append (name : Name) {rest : Text} (h : Ended rest) :
    matchName (name.text ++ rest) = .ok (.name name.text, rest) := by
  have hvalid := name.valid
  cases htext : name.text with
  | nil =>
    rw [htext] at hvalid
    cases hvalid
  | cons c chars =>
    rw [htext, isName, Bool.and_eq_true, List.all_eq_true] at hvalid
    obtain ⟨hc, hchars⟩ := hvalid
    obtain ⟨htake, hdrop⟩ := takeWhile_ended h
    rw [List.cons_append, matchName, if_pos hc, List.takeWhile_append_of_pos hchars,
      List.dropWhile_append_of_pos hchars, htake, hdrop, List.append_nil]

theorem matchName_ok {text rest : Text} {token : Token} (h : matchName text = .ok (token, rest)) :
    ∃ name : Name, text = name.text ++ rest ∧ token = .name name.text := by
  cases text with
  | nil => cases h
  | cons c chars =>
    rw [matchName] at h
    split at h
    · rename_i hc
      cases h
      have hvalid : isName (c :: chars.takeWhile nameChar) = true := by
        rw [isName, hc, Bool.true_and, List.all_takeWhile]
      refine ⟨⟨c :: chars.takeWhile nameChar, hvalid⟩, ?_, rfl⟩
      rw [List.cons_append, List.takeWhile_append_dropWhile]
    · cases h

/-- What is read in brackets: an asterisk, or an index that `int` takes. -/
theorem matchIndex_append {index : Index} {rest : Text} : matchIndex (index.digits ++ ']' :: rest) =
    (intOfDigits index.digits).map fun position => (.index position, rest) := by
  obtain ⟨digits, hnonempty, hvalid⟩ := index
  have hdigits := List.all_eq_true.mp hvalid
  have hbracket : isDecimal ']' = false := by decide
  have hstar : ['*', ']'].isPrefixOf (digits ++ ']' :: rest) = false := by
    cases digits with
    | nil => exact absurd rfl hnonempty
    | cons c digits =>
      have hc : c ≠ '*' := by
        rintro rfl
        have := hdigits '*' List.mem_cons_self
        revert this
        decide
      rw [List.cons_append, List.isPrefixOf_cons_cons, beq_eq_false_iff_ne.mpr (Ne.symm hc),
        Bool.false_and]
  have htake : (digits ++ ']' :: rest).takeWhile isDecimal = digits := by
    rw [List.takeWhile_append_of_pos hdigits, List.takeWhile_cons_of_neg (by simp [hbracket]),
      List.append_nil]
  have hdrop : (digits ++ ']' :: rest).dropWhile isDecimal = ']' :: rest := by
    rw [List.dropWhile_append_of_pos hdigits, List.dropWhile_cons_of_neg (by simp [hbracket])]
  have hempty : digits.isEmpty = false := List.isEmpty_eq_false_iff.mpr hnonempty
  simp only [matchIndex, hstar, Bool.false_eq_true, if_false, htake, hdrop, hempty]

theorem matchIndex_ok {text rest : Text} {token : Token} (h : matchIndex text = .ok (token, rest)) :
    ∃ segment : Segment, segment.short = true ∧ '[' :: text = segment.text ++ rest ∧
      token = segment.token := by
  rw [matchIndex] at h
  split at h
  · rename_i hstar
    cases h
    obtain ⟨tail, rfl⟩ := List.isPrefixOf_iff_prefix.mp hstar
    exact ⟨.wildcard, rfl, rfl, rfl⟩
  · dsimp only at h
    split at h
    · rename_i after hdrop
      split at h
      · cases h
      · rename_i hempty
        rw [intOfDigits] at h
        split at h
        · cases h
        · rename_i hshort
          cases h
          set digits := text.takeWhile isDecimal with hdigits
          have hvalid : digits.all isDecimal = true := List.all_takeWhile
          have hnonempty : digits ≠ [] := fun hnil => hempty (List.isEmpty_iff.mpr hnil)
          refine ⟨.index ⟨digits, hnonempty, hvalid⟩, decide_eq_true (Nat.not_lt.mp hshort), ?_,
            rfl⟩
          have htext : text = digits ++ ']' :: rest := by
            rw [← hdrop, hdigits, List.takeWhile_append_dropWhile]
          rw [htext, Segment.text, List.cons_append, List.append_assoc]
          rfl
    · cases h

/-! ## Parts -/

/-- The part that a segment is read as. -/
theorem matchPart_segment (first : Bool) (segment : Segment) {rest : Text} (h : Ended rest) :
    (segment.short = true → matchPart first (segment.text ++ rest) = .ok (segment.token, rest)) ∧
      (segment.short = false → ∃ message, matchPart first (segment.text ++ rest) =
        .error message) := by
  cases segment with
  | name name => exact ⟨fun _ => matchName_append name h, fun hlong => Bool.noConfusion hlong⟩
  | wildcard => exact ⟨fun _ => rfl, fun hlong => Bool.noConfusion hlong⟩
  | index index =>
    have hread : matchPart first ((Segment.index index).text ++ rest) =
        (intOfDigits index.digits).map fun position => (.index position, rest) := by
      rw [Segment.text, List.cons_append, List.append_assoc]
      exact matchIndex_append
    rw [hread]
    constructor
    · intro hshort
      rw [intOfDigits, if_neg (Nat.not_lt.mpr (of_decide_eq_true hshort))]
      rfl
    · intro hlong
      rw [intOfDigits, if_pos (Nat.lt_of_not_le (of_decide_eq_false hlong))]
      exact ⟨_, rfl⟩

/-- A part is a segment, or at the first position a name. -/
theorem matchPart_ok {first : Bool} {text rest : Text} {token : Token}
    (h : matchPart first text = .ok (token, rest)) :
    (∃ segment : Segment, segment.short = true ∧ text = segment.text ++ rest ∧
      token = segment.token) ∨
      first = true ∧ ∃ name : Name, text = name.text ++ rest ∧ token = .name name.text := by
  rw [matchPart.eq_def] at h
  split at h
  · exact .inl (matchIndex_ok h)
  · obtain ⟨name, rfl, rfl⟩ := matchName_ok h
    exact .inl ⟨.name name, rfl, rfl, rfl⟩
  · split at h
    · rename_i hfirst
      exact .inr ⟨hfirst, matchName_ok h⟩
    · cases h

theorem Segment.text_ne_nil (segment : Segment) : segment.text ≠ [] := by
  cases segment <;> exact List.cons_ne_nil _ _

/-! ## Sequences of parts -/

theorem tokenizeFrom_cons {fuel : ℕ} {first : Bool} {text : Text} (h : text ≠ []) :
    tokenizeFrom (fuel + 1) first text = (do
      let part ← matchPart first text
      let tokens ← tokenizeFrom fuel false part.2
      return part.1 :: tokens) := by
  cases text with
  | nil => exact absurd rfl h
  | cons c text => rfl

/-- A sequence of segments is read if `int` takes its indices, and refused otherwise. -/
theorem tokenizeFrom_segments (segments : List Segment) : ∀ {fuel : ℕ} {first : Bool},
    (segments.flatMap Segment.text).length ≤ fuel →
    (segments.all Segment.short = true →
      tokenizeFrom fuel first (segments.flatMap Segment.text) = .ok (segments.map Segment.token)) ∧
      (segments.all Segment.short = false → ∃ message,
        tokenizeFrom fuel first (segments.flatMap Segment.text) = .error message) := by
  induction segments with
  | nil =>
    intro fuel first _
    have hnil : tokenizeFrom fuel first [] = .ok [] := by cases fuel <;> rfl
    exact ⟨fun _ => hnil, fun hlong => Bool.noConfusion hlong⟩
  | cons segment segments ih =>
    intro fuel first hfuel
    have hnonempty := segment.text_ne_nil
    have hlength := List.length_pos_iff.mpr hnonempty
    rw [List.flatMap_cons, List.length_append] at hfuel
    obtain ⟨fuel, rfl⟩ : ∃ n, fuel = n + 1 := ⟨fuel - 1, by omega⟩
    have hread := matchPart_segment first segment (ended_segments segments)
    have hrest := @ih fuel false (by omega)
    rw [List.flatMap_cons, tokenizeFrom_cons (List.append_ne_nil_of_left_ne_nil hnonempty _),
      List.all_cons]
    cases hsegment : segment.short with
    | false =>
      obtain ⟨message, herror⟩ := hread.2 hsegment
      rw [herror]
      exact ⟨fun hshort => Bool.noConfusion hshort, fun _ => ⟨message, rfl⟩⟩
    | true =>
      rw [hread.1 hsegment, Bool.true_and]
      constructor
      · intro hshort
        have htokens := hrest.1 hshort
        show (tokenizeFrom fuel false (segments.flatMap Segment.text) >>= _) = _
        rw [htokens]
        rfl
      · intro hlong
        obtain ⟨message, herror⟩ := hrest.2 hlong
        refine ⟨message, ?_⟩
        show (tokenizeFrom fuel false (segments.flatMap Segment.text) >>= _) = _
        rw [herror]
        rfl

/-- What is read behind the first position is a sequence of segments. -/
theorem tokenizeFrom_ok : ∀ {fuel : ℕ} {text : Text} {tokens : List Token},
    tokenizeFrom fuel false text = .ok tokens →
    ∃ segments : List Segment, segments.all Segment.short = true ∧
      text = segments.flatMap Segment.text ∧
      tokens = segments.map Segment.token
  | fuel, [], tokens, h => by
    have hnil : tokenizeFrom fuel false [] = .ok [] := by cases fuel <;> rfl
    rw [hnil] at h
    cases h
    exact ⟨[], rfl, rfl, rfl⟩
  | 0, _ :: _, _, h => by cases h
  | fuel + 1, c :: text, tokens, h => by
    rw [tokenizeFrom_cons (List.cons_ne_nil c text)] at h
    cases hpart : matchPart false (c :: text) with
    | error message =>
      rw [hpart] at h
      cases h
    | ok part =>
      obtain ⟨token, rest⟩ := part
      rw [hpart] at h
      cases hrest : tokenizeFrom fuel false rest with
      | error message =>
        replace h : (tokenizeFrom fuel false rest >>= fun tokens => pure (token :: tokens)) =
          .ok tokens := h
        rw [hrest] at h
        cases h
      | ok found =>
        replace h : (tokenizeFrom fuel false rest >>= fun tokens => pure (token :: tokens)) =
          .ok tokens := h
        rw [hrest] at h
        cases h
        obtain ⟨segments, hshort, rfl, rfl⟩ := tokenizeFrom_ok hrest
        rcases matchPart_ok hpart with ⟨segment, hsegment, htext, rfl⟩ | ⟨hfirst, -⟩
        · refine ⟨segment :: segments, ?_, htext, rfl⟩
          rw [List.all_cons, hsegment, hshort]
          rfl
        · cases hfirst

/-! ## Paths -/

theorem Name.starts (name : Name) : ∃ c chars, name.text = c :: chars ∧ nameStart c = true := by
  have hvalid := name.valid
  cases htext : name.text with
  | nil =>
    rw [htext] at hvalid
    cases hvalid
  | cons c chars =>
    rw [htext, isName, Bool.and_eq_true] at hvalid
    exact ⟨c, chars, rfl, hvalid.1⟩

/-- A path begins with a name, and a sequence of segments does not. -/
theorem Path.text_ne (path : Path) (segments : List Segment) :
    path.text ≠ segments.flatMap Segment.text := by
  intro h
  obtain ⟨c, chars, hname, hc⟩ := path.first.starts
  have hended := ended_segments segments
  rw [← h, Path.text, hname] at hended
  have hother := hended c rfl
  rw [nameStart_nameChar hc] at hother
  cases hother

theorem matchPart_name (name : Name) {rest : Text} (h : Ended rest) :
    matchPart true (name.text ++ rest) = .ok (.name name.text, rest) := by
  obtain ⟨c, chars, hname, hc⟩ := name.starts
  have hread := matchName_append name h
  rw [hname, List.cons_append] at hread ⊢
  have hbracket : c ≠ '[' := by
    rintro rfl
    cases hc
  have hdot : c ≠ '.' := by
    rintro rfl
    cases hc
  rw [matchPart.eq_def]
  split
  · rename_i heq
    exact absurd (List.cons.inj heq).1 hbracket
  · rename_i heq
    exact absurd (List.cons.inj heq).1 hdot
  · exact hread

/-- A path is read if `int` takes its indices, and refused otherwise. -/
theorem tokenizePath_text (path : Path) :
    (path.segments.all Segment.short = true → tokenizePath path.text = .ok path.tokens) ∧
      (path.segments.all Segment.short = false → ∃ message, tokenizePath path.text =
        .error message) := by
  obtain ⟨c, chars, hname, -⟩ := path.first.starts
  have hlength : path.text.length = path.first.text.length +
    (path.segments.flatMap Segment.text).length := List.length_append
  have hpositive : path.first.text.length = chars.length + 1 := by rw [hname, List.length_cons]
  have hnonempty : path.text ≠ [] := by
    rw [Path.text, hname]
    exact List.cons_ne_nil _ _
  obtain ⟨fuel, hfuel⟩ : ∃ fuel, path.text.length = fuel + 1 := ⟨path.text.length - 1, by omega⟩
  have hfirst :
      matchPart true path.text = .ok (.name path.first.text, path.segments.flatMap Segment.text) :=
    matchPart_name path.first (ended_segments path.segments)
  have hrest := @tokenizeFrom_segments path.segments fuel false (by omega)
  rw [tokenizePath, hfuel, tokenizeFrom_cons hnonempty, hfirst]
  constructor
  · intro hshort
    show (tokenizeFrom fuel false (path.segments.flatMap Segment.text) >>= _) = _
    rw [hrest.1 hshort]
    rfl
  · intro hlong
    obtain ⟨message, herror⟩ := hrest.2 hlong
    refine ⟨message, ?_⟩
    show (tokenizeFrom fuel false (path.segments.flatMap Segment.text) >>= _) = _
    rw [herror]
    rfl

/-- What is read is a path, or a sequence of segments. -/
theorem tokenizePath_ok {text : Text} {tokens : List Token} (h : tokenizePath text = .ok tokens) :
    (∃ segments : List Segment, segments.all Segment.short = true ∧
      segments.flatMap Segment.text = text) ∨
      ∃ path : Path, path.text = text ∧ path.tokens = tokens := by
  cases text with
  | nil => exact .inl ⟨[], rfl, rfl⟩
  | cons c text =>
    rw [tokenizePath, List.length_cons, tokenizeFrom_cons (List.cons_ne_nil c text)] at h
    cases hpart : matchPart true (c :: text) with
    | error message =>
      rw [hpart] at h
      cases h
    | ok part =>
      obtain ⟨token, rest⟩ := part
      rw [hpart] at h
      replace h : (tokenizeFrom text.length false rest >>= fun tokens => pure (token :: tokens)) =
        .ok tokens := h
      cases hrest : tokenizeFrom text.length false rest with
      | error message =>
        rw [hrest] at h
        cases h
      | ok found =>
        rw [hrest] at h
        cases h
        obtain ⟨segments, hshort, rfl, rfl⟩ := tokenizeFrom_ok hrest
        rcases matchPart_ok hpart with ⟨segment, hsegment, htext, -⟩ | ⟨-, name, htext, rfl⟩
        · refine .inl ⟨segment :: segments, ?_, htext.symm⟩
          rw [List.all_cons, hsegment, hshort]
          rfl
        · exact .inr ⟨⟨name, segments⟩, htext.symm, rfl⟩

/-- The scanner succeeds on a text exactly if it is a path, with the tokens of the path. -/
def ReadsPaths (text : Text) : Prop :=
  ∀ tokens, tokenizePath text = .ok tokens ↔ ∃ path : Path, path.text = text ∧ path.tokens = tokens

/-- **The scanner keeps to the grammar** on every text but sequences of segments without a
name before them, which it takes, and paths with indices too long for `int`, which it
refuses. -/
theorem reads_paths_iff (text : Text) : ReadsPaths text ↔
    (¬∃ segments : List Segment, segments.all Segment.short = true ∧
      segments.flatMap Segment.text = text) ∧
      ∀ path : Path, path.text = text → path.segments.all Segment.short = true := by
  constructor
  · intro h
    constructor
    · rintro ⟨segments, hshort, rfl⟩
      have htokens := (@tokenizeFrom_segments segments _ true le_rfl).1 hshort
      obtain ⟨path, hpath, -⟩ := (h _).mp htokens
      exact path.text_ne segments hpath
    · rintro path rfl
      have htokens := (h path.tokens).mpr ⟨path, rfl, rfl⟩
      cases hshort : path.segments.all Segment.short with
      | true => rfl
      | false =>
        obtain ⟨message, herror⟩ := (tokenizePath_text path).2 hshort
        rw [htokens] at herror
        cases herror
  · rintro ⟨hnamed, hshort⟩ tokens
    constructor
    · intro htokens
      rcases tokenizePath_ok htokens with hsegments | hpath
      · exact absurd hsegments hnamed
      · exact hpath
    · rintro ⟨path, rfl, rfl⟩
      exact (tokenizePath_text path).1 (hshort path rfl)

/-- A leading dot is taken. -/
theorem leading_dot_read : tokenizePath ".tasks".toList = .ok [.name "tasks".toList] ∧
    ¬ReadsPaths ".tasks".toList := by
  have hread : tokenizePath ".tasks".toList = .ok [.name "tasks".toList] := rfl
  refine ⟨hread, fun h => ?_⟩
  obtain ⟨path, hpath, -⟩ := (h _).mp hread
  obtain ⟨c, chars, hname, hc⟩ := path.first.starts
  rw [Path.text, hname] at hpath
  obtain ⟨rfl, -⟩ := List.cons.inj hpath
  cases hc

end Novalton.ContractExecution
