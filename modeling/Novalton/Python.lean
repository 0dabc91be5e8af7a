/-
What the repository uses of Python's text and bytes: `str` is a list of
characters, `bytes` a list of octets, and the methods here (`encode`, `decode`,
`count`, `replace`, `split`, `join`, `splitlines`) behave as the documented ones
do on them. Nothing here names the repository.

A `str` of Python may also hold lone surrogates. No value of the modelled code
does: its text is decoded from UTF-8 or is accepted by PostgreSQL.
-/
import Mathlib.Algebra.Group.Nat.Defs
import Mathlib.Data.Char
import Mathlib.Data.List.Lex

namespace Novalton

/-- Python's `str`. -/
abbrev Text := List Char

/-- Python's `bytes`. -/
abbrev Bytes := List UInt8

/-- What a modelled call raises. `tool` is `ToolExecutionError` with its code; the
others are Python's own exceptions; `objectMissing` is the `KeyError` of an object
store. -/
inductive PyError where
  | tool (code : String)
  | keyError (key : String)
  | objectMissing (sha : Text)
  | valueError
  | unicodeDecodeError
  | osError
  | assertionError
  | recursionError
deriving DecidableEq, Repr

/-- The value a call returns, or the exception it raises. -/
abbrev Py := Except PyError

theorem Py.bind_eq_ok {α β} {x : Py α} {f : α → Py β} {b : β} :
    (x >>= f) = .ok b ↔ ∃ a, x = .ok a ∧ f a = .ok b := by
  cases x with
  | error e => simp [bind, Except.bind]
  | ok a => simp [bind, Except.bind]

@[simp] theorem Py.ok_bind {α β} (a : α) (f : α → Py β) : (Except.ok a >>= f) = f a := rfl

@[simp] theorem Py.error_bind {α β} (e : PyError) (f : α → Py β) :
    (Except.error e >>= f) = .error e := rfl

theorem Py.error_bind_of_eq {α β} {x : Py α} {f : α → Py β} {e : PyError} (h : x = .error e) :
    (x >>= f) = .error e := by
  rw [h]
  rfl

/-- `if condition: raise error`. -/
def raiseIf (condition : Bool) (error : PyError) : Py Unit :=
  if condition then .error error else .ok ()

@[simp] theorem raiseIf_eq_ok {c : Bool} {e : PyError} {u : Unit} : raiseIf c e = .ok u ↔
    c = false := by
  cases c <;> simp [raiseIf]

@[simp] theorem raiseIf_false {e : PyError} : raiseIf false e = .ok () := rfl

@[simp] theorem raiseIf_true {e : PyError} : raiseIf true e = .error e := rfl

/-- The value an `Option` holds, or the exception for a missing one. -/
def orRaise {α} (value : Option α) (error : PyError) : Py α :=
  match value with
  | .some a => .ok a
  | .none => .error error

@[simp] theorem orRaise_eq_ok {α} {o : Option α} {e : PyError} {a : α} : orRaise o e = .ok a ↔
    o = .some a := by
  cases o <;> simp [orRaise]

@[simp] theorem orRaise_some {α} {a : α} {e : PyError} : orRaise (.some a) e = .ok a := rfl

theorem mapM_ok_length {α β} {f : α → Py β} : ∀ {l : List α} {r : List β}, l.mapM f = .ok r →
    r.length = l.length
  | [], r, h => by simp_all [pure, Except.pure]
  | a :: l, r, h => by
    simp only [List.mapM_cons, Py.bind_eq_ok] at h
    obtain ⟨b, -, bs, hbs, hr⟩ := h
    cases hr
    simp [mapM_ok_length hbs]

/-! ## UTF-8 -/

/-- `text.encode("utf-8")`. -/
def encode (text : Text) : Bytes := text.flatMap String.utf8EncodeChar

/-- `raw.decode("utf-8")`; `none` is the `UnicodeDecodeError`. -/
def decode (raw : Bytes) : Option Text := raw.toByteArray.utf8Decode?.map Array.toList

@[simp] theorem decode_encode (t : Text) : decode (encode t) = .some t := by
  have h : (encode t).toByteArray = t.utf8Encode := rfl
  simp [decode, h]

/-! ## Substrings -/

/-- `sub in text`. -/
def occursIn (sub text : Text) : Bool := text.tails.any (sub.isPrefixOf ·)

/-- How often `sub` occurs, left to right and without overlap; `skip` characters
are still inside the last occurrence. -/
def countFrom (sub : Text) : Nat → Text → Nat
  | _, [] => 0
  | skip + 1, _ :: rest => countFrom sub skip rest
  | 0, c :: rest =>
    if sub.isPrefixOf (c :: rest) then 1 + countFrom sub (sub.length - 1) rest
      else countFrom sub 0 rest

/-- `text.count(sub)`. -/
def count (sub text : Text) : Nat :=
  if sub.isEmpty then text.length + 1 else countFrom sub 0 text

/-- The occurrences `countFrom` counts, each replaced by `new`. -/
def replaceFrom (sub new : Text) : Nat → Text → Text
  | _, [] => []
  | skip + 1, _ :: rest => replaceFrom sub new skip rest
  | 0, c :: rest =>
    if sub.isPrefixOf (c :: rest) then new ++ replaceFrom sub new (sub.length - 1) rest
    else c :: replaceFrom sub new 0 rest

/-- `text.replace(sub, new)`. -/
def replace (sub new text : Text) : Text :=
  if sub.isEmpty then new ++ text.flatMap (fun c => c :: new) else replaceFrom sub new 0 text

/-! ## Splitting and joining -/

/-- `path.split("/")`. -/
def splitSlash (path : Text) : List Text := path.splitOn '/'

/-- `"/".join(parts)`. -/
def joinSlash (parts : List Text) : Text := ['/'].intercalate parts

theorem splitSlash_joinSlash {parts : List Text} (hne : parts ≠ []) (hp : ∀ p ∈ parts, '/' ∉ p) :
    splitSlash (joinSlash parts) = parts :=
  List.splitOn_intercalate '/' hp hne

/-- No part of a split holds the separator. -/
theorem not_mem_of_mem_splitOn {α} [BEq α] [LawfulBEq α] {sep : α} : ∀ {l p : List α},
    p ∈ l.splitOn sep → sep ∉ p
  | [], p, h => by
    rw [List.splitOn_nil, List.mem_singleton] at h
    rw [h]
    exact List.not_mem_nil
  | x :: xs, p, h => by
    rw [List.splitOn_cons_eq_if_modifyHead] at h
    split at h
    next =>
      rcases List.mem_cons.mp h with rfl | h
      · exact List.not_mem_nil
      · exact not_mem_of_mem_splitOn h
    next hx =>
      have hne : sep ≠ x := fun he => hx (by simp [he])
      cases hs : xs.splitOn sep with
      | nil => exact absurd hs (List.splitOn_ne_nil sep xs)
      | cons head tail =>
        rw [hs, List.modifyHead_cons] at h
        rcases List.mem_cons.mp h with rfl | h
        · have hhead : sep ∉ head :=
            not_mem_of_mem_splitOn (l := xs) (by rw [hs]; exact List.mem_cons_self)
          simp [hne, hhead]
        · exact not_mem_of_mem_splitOn (l := xs) (by rw [hs]; exact List.mem_cons_of_mem _ h)

/-- The characters `str.splitlines` ends a line at. -/
def isLineBoundary (c : Char) : Bool :=
  c ∈ ['\n', '\r', '\x0b', '\x0c', '\x1c', '\x1d', '\x1e', '\u0085', '\u2028', '\u2029']

/-- `text.splitlines(keepends=True)`, with the current line so far in `line`
(reversed). A `\r\n` pair is one boundary. -/
def splitLinesFrom (line : Text) : Text → List Text
  | [] => if line.isEmpty then [] else [line.reverse]
  | '\r' :: '\n' :: rest => ('\n' :: '\r' :: line).reverse :: splitLinesFrom [] rest
  | c :: rest =>
    if isLineBoundary c then (c :: line).reverse :: splitLinesFrom [] rest
    else splitLinesFrom (c :: line) rest

/-- `text.splitlines(keepends=True)`. -/
def splitLinesKeep (text : Text) : List Text := splitLinesFrom [] text

/-- `raw.split(b"/")`. -/
def splitSlashBytes (raw : Bytes) : List Bytes := raw.splitOn 47

/-- `b"/".join(parts)`. -/
def joinSlashBytes (parts : List Bytes) : Bytes := [47].intercalate parts

/-- The characters `str.isspace` holds of. -/
def isSpace (c : Char) : Bool :=
  isLineBoundary c || c ∈ ['\t', ' ', '\x1f', '\u00a0', '\u1680', '\u202f', '\u205f', '\u3000'] ||
    (0x2000 ≤ c.toNat && c.toNat ≤ 0x200a)

/-- `text.strip()`. -/
def strip (text : Text) : Text := ((text.dropWhile isSpace).reverse.dropWhile isSpace).reverse

/-- `text.partition(sep)` at a one-character separator: what stands before it,
whether it was found, and what stands after it. -/
def partition (sep : Char) : Text → Text × Bool × Text
  | [] => ([], false, [])
  | c :: rest =>
    if c = sep then ([], true, rest)
    else
      let (before, found, after) := partition sep rest
      (c :: before, found, after)

/-- The order of `bytes` values. -/
def bytesLe : Bytes → Bytes → Bool
  | [], _ => true
  | _ :: _, [] => false
  | a :: as, b :: bs => a < b || (a == b && bytesLe as bs)

/-! ## Dictionaries -/

/-- A `dict` in insertion order. -/
abbrev Dict (α β : Type) := List (α × β)

/-- `d[key] = value`. -/
def Dict.set {α β} [DecidableEq α] : Dict α β → α → β → Dict α β
  | [], key, value => [(key, value)]
  | (k, v) :: rest, key, value => if k = key then (k, value) :: rest
      else (k, v) :: Dict.set rest key value

/-- `d.get(key)`. -/
def Dict.get? {α β} [DecidableEq α] (d : Dict α β) (key : α) : Option β :=
  (d.find? (fun entry => entry.1 = key)).map Prod.snd

/-- `d.update(other)`. -/
def Dict.update {α β} [DecidableEq α] (d other : Dict α β) : Dict α β :=
  other.foldl (fun acc entry => acc.set entry.1 entry.2) d

/-- `d.keys()`. -/
def Dict.keys {α β} (d : Dict α β) : List α := d.map Prod.fst

/-! ## Values of a JSON column -/

/-- What a field of the persisted JSON items holds. -/
inductive Json where
  | str (value : Text)
  | int (value : Int)
deriving DecidableEq, Repr

/-- A JSON object by its keys. -/
abbrev JsonObject := List (String × Json)

/-- `item[key]`. -/
def JsonObject.item (object : JsonObject) (key : String) : Py Json :=
  orRaise (object.lookup key) (.keyError key)

/-- `str(value)`. -/
def Json.toText : Json → Text
  | .str value => value
  | .int value => (toString value).toList

/-- The value of a list of decimal digits. -/
def digitsValue : Nat → Text → Option Nat
  | acc, [] => .some acc
  | acc, c :: rest => if c.isDigit then digitsValue (10 * acc + (c.toNat - '0'.toNat)) rest
      else .none

/-- `int(value)`: of a string, of unsigned decimal digits only (the writers of the
columns here store numbers as numbers). -/
def Json.toInt : Json → Py Int
  | .int value => .ok value
  | .str [] => .error .valueError
  | .str (c :: rest) => (orRaise (digitsValue 0 (c :: rest)) .valueError).map Int.ofNat

/-! ## UUIDs -/

/-- `uuid.UUID`. -/
abbrev Uuid := BitVec 128

def hexDigit (n : Nat) : Char :=
  ['0', '1', '2', '3', '4', '5', '6', '7', '8', '9', 'a', 'b', 'c', 'd', 'e', 'f'].getD (n % 16) '0'

/-- The last `width` hexadecimal digits of a number. -/
def hexDigits : Nat → Nat → Text
  | 0, _ => []
  | width + 1, n => hexDigits width (n / 16) ++ [hexDigit n]

/-- `str(id)`: 32 hexadecimal digits in groups of 8, 4, 4, 4 and 12. -/
def Uuid.str (id : Uuid) : Text :=
  let digits := hexDigits 32 id.toNat
  digits.take 8 ++ '-' :: ((digits.drop 8).take 4 ++ '-' :: ((digits.drop 12).take 4 ++ '-' ::
    ((digits.drop 16).take 4 ++ '-' :: digits.drop 20)))

theorem hexDigit_mem (n : Nat) : hexDigit n ∈ "0123456789abcdef".toList := by
  have h : ∀ k : Fin 16, hexDigit k.val ∈ "0123456789abcdef".toList := by decide
  have hn : hexDigit n = hexDigit (n % 16) := by simp [hexDigit]
  rw [hn]
  exact h ⟨n % 16, Nat.mod_lt n (by decide)⟩

theorem hexDigit_inj {m n : Nat} (h : hexDigit m = hexDigit n) : m % 16 = n % 16 := by
  have hinj : ∀ a b : Fin 16, hexDigit a.val = hexDigit b.val → a = b := by decide
  have hm : hexDigit m = hexDigit (m % 16) := by simp [hexDigit]
  have hn : hexDigit n = hexDigit (n % 16) := by simp [hexDigit]
  have heq := hinj ⟨m % 16, Nat.mod_lt m (by decide)⟩ ⟨n % 16, Nat.mod_lt n (by decide)⟩
    (by rw [← hm, ← hn, h])
  exact congrArg Fin.val heq

theorem hexDigits_mem : ∀ {width n : Nat} {c : Char}, c ∈ hexDigits width n →
    c ∈ "0123456789abcdef".toList
  | width + 1, n, c, h => by
    rw [hexDigits, List.mem_append, List.mem_singleton] at h
    rcases h with h | h
    · exact hexDigits_mem h
    · rw [h]
      exact hexDigit_mem n

@[simp] theorem hexDigits_length : ∀ {width n : Nat}, (hexDigits width n).length = width
  | 0, _ => rfl
  | width + 1, n => by rw [hexDigits, List.length_append, hexDigits_length, List.length_singleton]

theorem hexDigits_inj : ∀ {width m n : Nat}, hexDigits width m = hexDigits width n →
    m % 16 ^ width = n % 16 ^ width
  | 0, m, n, _ => by simp [Nat.mod_one]
  | width + 1, m, n, h => by
    rw [hexDigits, hexDigits] at h
    obtain ⟨hinit, hlast⟩ := List.append_inj' h rfl
    have hd := hexDigit_inj (List.cons.inj hlast).1
    have hi := hexDigits_inj hinit
    rw [Nat.pow_succ, Nat.mul_comm, Nat.mod_mul, Nat.mod_mul, hd, hi]

theorem Uuid.str_chars (id : Uuid) {c : Char} (h : c ∈ id.str) :
    c ∈ "0123456789abcdef-".toList := by
  have hdigit : ∀ {d : Char}, d ∈ hexDigits 32 id.toNat → d ∈ "0123456789abcdef-".toList := by
    intro d hd
    have hsplit : "0123456789abcdef-".toList = "0123456789abcdef".toList ++ ['-'] := by decide
    rw [hsplit]
    exact List.mem_append_left ['-'] (hexDigits_mem hd)
  simp only [Uuid.str, List.mem_append, List.mem_cons] at h
  rcases h with h | h | h | h | h | h | h | h | h
  · exact hdigit (List.mem_of_mem_take h)
  · rw [h]
    decide
  · exact hdigit (List.mem_of_mem_drop (List.mem_of_mem_take h))
  · rw [h]
    decide
  · exact hdigit (List.mem_of_mem_drop (List.mem_of_mem_take h))
  · rw [h]
    decide
  · exact hdigit (List.mem_of_mem_drop (List.mem_of_mem_take h))
  · rw [h]
    decide
  · exact hdigit (List.mem_of_mem_drop h)

theorem Uuid.length_str (id : Uuid) : id.str.length = 36 := by
  simp [Uuid.str]

/-- Dropping the dashes leaves the digits. -/
theorem Uuid.filter_str (id : Uuid) : id.str.filter (· ≠ '-') = hexDigits 32 id.toNat := by
  have hkeep : ∀ l : Text, (∀ c ∈ l, c ∈ hexDigits 32 id.toNat) → l.filter (· ≠ '-') = l := by
    intro l hl
    rw [List.filter_eq_self]
    intro c hc
    have hmem := hexDigits_mem (hl c hc)
    simp only [ne_eq, decide_not, Bool.not_eq_true', decide_eq_false_iff_not]
    intro hdash
    rw [hdash] at hmem
    revert hmem
    decide
  have htake : ∀ a b : Nat, (((hexDigits 32 id.toNat).drop a).take b).filter (· ≠ '-') =
      ((hexDigits 32 id.toNat).drop a).take b :=
    fun a b => hkeep _ fun c hc => List.mem_of_mem_drop (List.mem_of_mem_take hc)
  have hfirst := htake 0 8
  have hlast := hkeep ((hexDigits 32 id.toNat).drop 20) fun c hc => List.mem_of_mem_drop hc
  have hsplit : ∀ a b : Nat, ((hexDigits 32 id.toNat).drop a).take b ++
      (hexDigits 32 id.toNat).drop (a + b) = (hexDigits 32 id.toNat).drop a := by
    intro a b
    rw [← List.drop_drop]
    exact List.take_append_drop b _
  rw [List.drop_zero] at hfirst
  have hdash : ∀ l : Text, ('-' :: l).filter (· ≠ '-') = l.filter (· ≠ '-') :=
    fun l => List.filter_cons_of_neg (by decide)
  simp only [Uuid.str, List.filter_append, hdash, hfirst, htake, hlast]
  rw [hsplit 16 4, hsplit 12 4, hsplit 8 4, List.take_append_drop]

theorem Uuid.str_inj {a b : Uuid} (h : a.str = b.str) : a = b := by
  have hdigits : hexDigits 32 a.toNat = hexDigits 32 b.toNat := by
    rw [← Uuid.filter_str, ← Uuid.filter_str, h]
  have hmod := hexDigits_inj hdigits
  have hpow : 16 ^ 32 = 2 ^ 128 := by decide
  rw [hpow, Nat.mod_eq_of_lt a.isLt, Nat.mod_eq_of_lt b.isLt] at hmod
  exact BitVec.eq_of_toNat_eq hmod

end Novalton
