/-
The text rules of the agent contracts (`modules/agents/contracts.py`): what `_safe_text`,
`_identifier` and `_reference` admit and return, and the validation of an `AgentInput`.

The expressions are those of the source, read without regard to case where it says so.
`\w` of a `str` is a property of Unicode's tables; what the code relies on of it is
stated with it.
-/
import Mathlib.Data.List.Sort
import Novalton.Regex
import Novalton.Status

namespace Novalton.Contracts

/-- `\w`: Unicode's alphanumeric characters and the underscore. -/
structure WordClass where
  holds : Char → Bool
  ascii : ∀ c, c.toNat < 128 → holds c = (c.isAlphanum || c == '_')
  space : ∀ c, isSpace c = true → holds c = false

/-- The word class of ASCII. -/
def asciiWord : WordClass where
  holds c := c.isAlphanum || c == '_'
  ascii := fun _ _ => rfl
  space := by
    intro c hc
    simp only [isSpace, isLineBoundary, Bool.or_eq_true, decide_eq_true_eq, List.mem_cons,
      List.not_mem_nil, or_false, Bool.and_eq_true] at hc
    rcases hc with ((h | h | h | h | h | h | h | h | h | h) | h | h | h | h | h | h | h | h) |
      ⟨h, -⟩
    all_goals first
      | (rw [h]; decide)
      | skip
    have hbound : ∀ high : Char, high.toNat < 0x2000 → ¬ c.val ≤ high.val := by
      intro high hhigh hle
      have hval : c.toNat ≤ high.toNat := hle
      omega
    rw [← Bool.not_eq_true]
    intro hword
    have hcases : (((c.isUpper || c.isLower) || c.isDigit) || c == '_') = true := hword
    rw [Bool.or_eq_true, Bool.or_eq_true, Bool.or_eq_true, beq_iff_eq] at hcases
    rcases hcases with ((hupper | hlower) | hdigit) | heq
    · exact hbound 'Z' (by decide) (of_decide_eq_true hupper).2
    · exact hbound 'z' (by decide) (of_decide_eq_true (Bool.and_eq_true_iff.mp hlower).2)
    · exact hbound '9' (by decide) (of_decide_eq_true (Bool.and_eq_true_iff.mp hdigit).2)
    · rw [heq] at h
      exact absurd h (by decide)

/-- The characters `str.strip` removes and Rust's `trim` does not. -/
def isSeparator (c : Char) : Bool := c ∈ ['\x1c', '\x1d', '\x1e', '\x1f']

/-- `strip_whitespace=True`, which is Rust's `trim`. -/
def trim (text : Text) : Text :=
  let blank := fun c => isSpace c && !isSeparator c
  ((text.dropWhile blank).reverse.dropWhile blank).reverse

/-! ## The expressions -/

/-- The lower case `re.IGNORECASE` compares: of ASCII letters, and of the four other
letters that fold to one. -/
def foldCase (c : Char) : Char :=
  if 'A' ≤ c && c ≤ 'Z' then Char.ofNat (c.toNat + 32)
  else if c = '\u0130' || c = '\u0131' then 'i'
  else if c = '\u017f' then 's'
  else if c = '\u212a' then 'k'
  else c

/-- The letters of a lower-case word, in either case. -/
def ignoreCase (word : Text) : List (Char → Bool) := word.map fun c d => foldCase d == c

def lowercase (c : Char) : Bool := 'a' ≤ c && c ≤ 'z'

def digit (c : Char) : Bool := '0' ≤ c && c ≤ '9'

/-- `[A-Za-z0-9_-]`, ignoring case. -/
def keyChar (c : Char) : Bool := lowercase (foldCase c) || digit c || c == '_' || c == '-'

/-- The characters of a token, ignoring case. -/
def tokenChar (c : Char) : Bool :=
  lowercase (foldCase c) || digit c || c ∈ ['.', '_', '~', '+', '/', '=', '-']

/-- `authorization\s*:` -/
def AUTHORIZATION : Regex :=
  .chars (ignoreCase "authorization".toList) (.seq (.star (.char isSpace)) (.char (· == ':')))

/-- `api[-_ ]?key\s*[:=]` -/
def API_KEY : Regex :=
  .chars (ignoreCase "api".toList) (.seq (.optional (.char fun c => c ∈ ['-', '_', ' ']))
    (.chars (ignoreCase "key".toList)
      (.seq (.star (.char isSpace)) (.char fun c => c ∈ [':', '=']))))

/-- Blanks, then a token. -/
def TOKEN : Regex := .seq (.plus (.char isSpace)) (.plus (.char tokenChar))

/-- `(?:bearer|basic)` and a token. -/
def BEARER : Regex :=
  .alt (.chars (ignoreCase "bearer".toList) TOKEN) (.chars (ignoreCase "basic".toList) TOKEN)

/-- `\bsk-(?:proj-)?[A-Za-z0-9_-]{8,}` -/
def SECRET_KEY (w : WordClass) : Regex :=
  .seq (.boundary w.holds) (.chars (ignoreCase "sk-".toList)
    (.seq (.optional (.chars (ignoreCase "proj-".toList) .empty)) (.atLeast (.char keyChar) 8)))

/-- `_CREDENTIAL`. -/
def CREDENTIAL (w : WordClass) : Regex :=
  .alt AUTHORIZATION (.alt API_KEY (.alt BEARER (SECRET_KEY w)))

/-- `_UNSAFE_HANDOFF`, and `_UNSAFE_TEXT` of the QA contract. -/
def UNSAFE_TEXT (w : WordClass) : Regex :=
  .alt (.chars (ignoreCase "http".toList)
    (.seq (.optional (.chars (ignoreCase "s".toList) .empty)) (.literal "://".toList)))
    (.alt (.chars (ignoreCase "data:".toList) .empty)
      (.alt (.chars (ignoreCase ";base64,".toList) .empty)
        (.alt (.literal ['\x60', '\x60', '\x60'])
          (.alt (.literal "$(".toList)
            (.alt (.literal "&&".toList)
              (.alt (.literal "||".toList)
                (.seq (.boundary w.holds)
                  (.seq (.alt (.chars (ignoreCase "sudo".toList) .empty)
                      (.alt (.chars (ignoreCase "curl".toList) .empty)
                        (.chars (ignoreCase "wget".toList) .empty)))
                    (.char isSpace)))))))))

/-- `[a-z0-9_]`. -/
def identifierChar (c : Char) : Bool := lowercase c || digit c || c == '_'

/-- `^[a-z][a-z0-9_]*(?:[.-][a-z0-9_]+)*$` -/
def IDENTIFIER : Regex :=
  .seq (.char lowercase) (.seq (.star (.char identifierChar))
    (.star (.seq (.char fun c => c ∈ ['.', '-']) (.plus (.char identifierChar)))))

/-- `[A-Za-z0-9]`. -/
def alphanumeric (c : Char) : Bool := lowercase c || ('A' ≤ c && c ≤ 'Z') || digit c

/-- A letter or digit, then at most 127 letters, digits, points, underscores, colons, slashes and
hyphens. -/
def REFERENCE : Regex :=
  .seq (.char alphanumeric)
    (.upTo (.char fun c => alphanumeric c || c ∈ ['.', '_', ':', '/', '-']) 127)

/-- `^[a-z][a-z0-9_]{0,63}$` -/
def TASK_KEY : Regex := .seq (.char lowercase) (.upTo (.char identifierChar) 63)

/-! ## Validators -/

/-- `ord(character) < 32 and character not in "\n\t"`. -/
def isControl (c : Char) : Bool := c.toNat < 32 && c != '\n' && c != '\t'

/-- `_safe_text`. -/
def safeText (w : WordClass) (value : Text) : Py Text := do
  let value := strip value
  raiseIf value.isEmpty .valueError
  raiseIf (value.any isControl) .valueError
  raiseIf ((CREDENTIAL w).search value) .valueError
  return value

/-- `_identifier`. Its callers have matched the ASCII pattern before, so `lower` is that of ASCII.
-/
def identifier (value : Text) : Py Text := do
  let value := (strip value).map Char.toLower
  raiseIf (!IDENTIFIER.fullmatch value) .valueError
  return value

/-- `_reference`. -/
def reference (w : WordClass) (value : Text) : Py Text := do
  let value ← safeText w value
  raiseIf (occursIn "://".toList value || !REFERENCE.fullmatch value) .valueError
  return value

/-- `min_length` and `max_length`. -/
def lengthBetween (least most : ℕ) (value : Text) : Py Unit :=
  raiseIf (!(least ≤ value.length && value.length ≤ most)) .valueError

/-- An item of type `ShortText`, and `_safe_text` on it. -/
def shortText (w : WordClass) (value : Text) : Py Text := do
  let value := trim value
  lengthBetween 1 500 value
  safeText w value

/-- An item of type `Identifier`, and `_identifier` on it. -/
def identifierItem (value : Text) : Py Text := do
  let value := trim value
  lengthBetween 1 100 value
  raiseIf (!IDENTIFIER.fullmatch value) .valueError
  identifier value

/-- An item of type `ReferenceId`, and `_reference` on it. -/
def referenceItem (w : WordClass) (value : Text) : Py Text := do
  let value := trim value
  lengthBetween 1 128 value
  raiseIf (!REFERENCE.fullmatch value) .valueError
  reference w value

/-- `_unique_sorted`. -/
def uniqueSorted (values : List Text) : List Text := values.dedup.insertionSort (· ≤ ·)

/-- An `AgentInput`, with the fields a dispatched step sets; the others keep their
empty defaults. `requiredCapabilities` are those of the model requirements. -/
structure AgentInput where
  objective : Text
  constraints : List Text
  projectId : Option Text
  taskId : Option Text
  priorResultReferences : List Text
  expectedOutputType : Text
  permittedTools : List Text
  requiredCapabilities : List Text
deriving DecidableEq, Repr

/-- At most `most` items. -/
def atMost {α} (most : ℕ) (values : List α) : Py Unit :=
  raiseIf (!(values.length ≤ most)) .valueError

/-- An optional field of type `ReferenceId`. -/
def optionalReference (w : WordClass) : Option Text → Py (Option Text)
  | .some value => do
    let value ← referenceItem w value
    return .some value
  | .none => return .none

/-- The validation of an `AgentInput`; a subclass bounds the tools by `maxTools`. -/
def validateInput (w : WordClass) (maxTools : ℕ) (data : AgentInput) : Py AgentInput := do
  lengthBetween 1 4000 data.objective
  let objective ← safeText w data.objective
  atMost 32 data.constraints
  let constraints ← data.constraints.mapM (shortText w)
  let projectId ← optionalReference w data.projectId
  let taskId ← optionalReference w data.taskId
  atMost 16 data.priorResultReferences
  let priorResultReferences ← data.priorResultReferences.mapM (referenceItem w)
  let expectedOutputType ← identifierItem data.expectedOutputType
  atMost maxTools data.permittedTools
  let permittedTools ← data.permittedTools.mapM identifierItem
  atMost 16 data.requiredCapabilities
  let requiredCapabilities ← data.requiredCapabilities.mapM identifierItem
  raiseIf (taskId.isSome && projectId.isNone) .valueError
  return {
    objective := objective
    constraints := uniqueSorted constraints
    projectId := projectId
    taskId := taskId
    priorResultReferences := uniqueSorted priorResultReferences
    expectedOutputType := expectedOutputType
    permittedTools := uniqueSorted permittedTools
    requiredCapabilities := uniqueSorted requiredCapabilities }

end Novalton.Contracts
