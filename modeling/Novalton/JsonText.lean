/-
JSON values and the text of them as `json.dumps(value, ensure_ascii=False,
separators=(",", ":"), sort_keys=True)` writes it, with how long it is.

A text is measured by the width of its characters, so that one lemma serves its length
and the bytes of its encoding. Nothing here names the repository.
-/
import Mathlib.Algebra.BigOperators.Group.List.Basic
import Mathlib.Algebra.GroupWithZero.Nat
import Mathlib.Data.List.Sort
import Novalton.Python

namespace Novalton

/-- A JSON value. A number stands as its text. -/
inductive JsonTree where
  | null
  | bool (value : Bool)
  | number (text : Text)
  | string (value : Text)
  | array (items : List JsonTree)
  | object (fields : List (Text × JsonTree))

namespace JsonTree

/-- The text of an `int`. -/
def int (value : Int) : JsonTree := .number (toString value).toList

/-- The escape of a character in a JSON string. -/
def escapeChar (c : Char) : Text :=
  if c = '"' then ['\\', '"']
  else if c = '\\' then ['\\', '\\']
  else if c = '\n' then ['\\', 'n']
  else if c = '\r' then ['\\', 'r']
  else if c = '\t' then ['\\', 't']
  else if c.toNat = 8 then ['\\', 'b']
  else if c.toNat = 12 then ['\\', 'f']
  else if c.toNat < 32 then '\\' :: 'u' :: hexDigits 4 c.toNat
  else [c]

/-- A string between its quotes. -/
def quote (text : Text) : Text := '"' :: (text.flatMap escapeChar ++ ['"'])

/-- The fields of an object in the order of their keys, each as `"key":value`. -/
def joinFields (fields : List (Text × Text)) : Text :=
  [','].intercalate ((fields.insertionSort fun a b => a.1 ≤ b.1).map fun field => quote field.1 ++
    ':' :: field.2)

mutual

def dumps : JsonTree → Text
  | .null => "null".toList
  | .bool true => "true".toList
  | .bool false => "false".toList
  | .number text => text
  | .string value => quote value
  | .array items => '[' :: ([','].intercalate (dumpsItems items) ++ [']'])
  | .object fields => '{' :: (joinFields (dumpsFields fields) ++ ['\x7d'])

def dumpsItems : List JsonTree → List Text
  | [] => []
  | item :: items => item.dumps :: dumpsItems items

def dumpsFields : List (Text × JsonTree) → List (Text × Text)
  | [] => []
  | (key, value) :: fields => (key, value.dumps) :: dumpsFields fields

end

theorem dumpsItems_eq (items : List JsonTree) : dumpsItems items = items.map dumps := by
  induction items with
  | nil => rfl
  | cons item items ih => rw [dumpsItems, ih, List.map_cons]

theorem dumpsFields_eq (fields : List (Text × JsonTree)) :
    dumpsFields fields = fields.map fun field => (field.1, field.2.dumps) := by
  induction fields with
  | nil => rfl
  | cons field fields ih => rw [dumpsFields, ih, List.map_cons]

/-! ## Widths -/

section
variable (width : Char → ℕ)

/-- The sum of the widths of a text's characters. -/
def measure (text : Text) : ℕ := (text.map width).sum

@[simp] theorem measure_nil : measure width [] = 0 := rfl

@[simp] theorem measure_cons (c : Char) (text : Text) : measure width
    (c :: text) = width c + measure width text := by
  simp [measure]

@[simp] theorem measure_append (u v : Text) : measure width
    (u ++ v) = measure width u + measure width v := by
  simp [measure]

theorem measure_replicate (n : ℕ) (c : Char) : measure width
    (List.replicate n c) = n * width c := by
  simp [measure]

/-- Texts with a separator between them. -/
theorem measure_join (separator : Text) : ∀ texts : List Text,
    measure width (separator.intercalate texts) = (texts.map (measure width)).sum +
      measure width separator * (texts.length - 1)
  | [] => rfl
  | [text] => by simp
  | text :: next :: texts => by
    have ih := measure_join separator (next :: texts)
    rw [List.intercalate_cons_cons, measure_append, measure_append, ih]
    simp only [List.map_cons, List.sum_cons, List.length_cons, Nat.add_sub_cancel, Nat.mul_add,
      Nat.mul_one]
    omega

/-- Texts with a separator of width one between them. -/
theorem measure_intercalate {c : Char} (hc : width c = 1) (texts : List Text) :
    measure width ([c].intercalate texts) = (texts.map (measure width)).sum +
      (texts.length - 1) := by
  rw [measure_join, measure_cons, hc, measure_nil, Nat.add_zero, Nat.one_mul]

variable (hascii : ∀ c : Char, c.toNat < 128 → width c = 1)
include hascii

/-- A string without escapes. -/
theorem measure_quote {text : Text} (h : ∀ c ∈ text, escapeChar c = [c]) : measure width
    (quote text) = measure width text + 2 := by
  have hflat : text.flatMap escapeChar = text := by
    induction text with
    | nil => rfl
    | cons c text ih =>
      rw [List.flatMap_cons, h c List.mem_cons_self, ih fun d hd => h d (List.mem_cons_of_mem c hd)]
      rfl
  rw [quote, hflat, measure_cons, measure_append, measure_cons, measure_nil, hascii '"' (by decide)]
  omega

/-- An array: its items, a comma between each two, and the brackets. -/
theorem measure_array (items : List JsonTree) :
    measure width (JsonTree.array items).dumps =
      (items.map fun item => measure width item.dumps).sum + (items.length - 1) + 2 := by
  rw [dumps, dumpsItems_eq, measure_cons, measure_append,
    measure_intercalate width (hascii ',' (by decide))]
  simp only [List.map_map, List.length_map, measure_cons, measure_nil, hascii '[' (by decide),
    hascii ']' (by decide)]
  have hsum : (items.map (measure width ∘ dumps)).sum =
    (items.map fun item => measure width item.dumps).sum := rfl
  omega

/-- An object: its keys and values with a colon each, a comma between each two, and the
braces. Their order does not matter. -/
theorem measure_object (fields : List (Text × JsonTree)) :
    measure width (JsonTree.object fields).dumps =
      (fields.map fun field => measure width (quote field.1) + 1 +
        measure width field.2.dumps).sum + (fields.length - 1) + 2 := by
  have hperm := List.perm_insertionSort (fun a b : Text × Text => a.1 ≤ b.1)
    (fields.map fun field => (field.1, field.2.dumps))
  have hsum : ((((fields.map fun field => (field.1, field.2.dumps)).insertionSort fun a b =>
    a.1 ≤ b.1).map
      fun field => quote field.1 ++ ':' :: field.2).map (measure width)).sum =
      (fields.map fun field => measure width (quote field.1) + 1 +
          measure width field.2.dumps).sum := by
    rw [((hperm.map _).map _).sum_eq, List.map_map, List.map_map]
    congr 1
    refine List.map_congr_left fun field _ => ?_
    simp only [Function.comp, measure_append, measure_cons, hascii ':' (by decide)]
    omega
  rw [dumps, dumpsFields_eq, joinFields, measure_cons, measure_append,
    measure_intercalate width (hascii ',' (by decide)), hsum]
  simp only [List.length_map, List.length_insertionSort, measure_cons, measure_nil,
    hascii '{' (by decide), hascii '\x7d' (by decide)]
  omega

end

/-- The number of bytes of a character. -/
def utf8Width (c : Char) : ℕ := (String.utf8EncodeChar c).length

theorem length_encode (text : Text) : (encode text).length = measure utf8Width text := by
  simp only [encode, List.length_flatMap, measure]
  rfl

theorem utf8Width_ascii (c : Char) (h : c.toNat < 128) : utf8Width c = 1 := by
  have hval : c.val ≤ 127 := by
    rw [UInt32.le_iff_toNat_le]
    exact Nat.le_of_lt_succ h
  have hsize : c.utf8Size = 1 := by simp [Char.utf8Size, hval]
  rw [utf8Width, String.length_utf8EncodeChar, hsize]

end JsonTree

end Novalton
