/-
The Python values that `json.dumps` takes: strings that may hold lone surrogates, dicts whose
keys need not be strings, integers that may be too long to print, and floats, whose texts are a
parameter with what the language says of them.

A statement about every value within a value, at its depth, is one about all of them; such
statements, the document of a value and the value of a document go along with the order of
keys. Nothing here names the repository.
-/
import Novalton.JsonParse

namespace Novalton

/-- A code point of a `str`: a character, or half of a surrogate pair that stands alone. -/
inductive PyChar where
  | char (c : Char)
  | surrogate (half : Fin 2048)
deriving DecidableEq

abbrev PyStr := List PyChar

namespace PyStr

def ofText (text : Text) : PyStr := text.map .char

/-- The text of a string that can be encoded. -/
def text? : PyStr → Option Text
  | [] => .some []
  | .char c :: rest => (text? rest).map (c :: ·)
  | .surrogate _ :: _ => .none

@[simp] theorem text?_ofText (text : Text) : (ofText text).text? = .some text := by
  induction text with
  | nil => rfl
  | cons c text ih =>
    rw [show ofText (c :: text) = .char c :: ofText text from rfl, text?, ih]
    rfl

theorem ofText_of_text? {value : PyStr} {text : Text} (h : value.text? = .some text) :
    ofText text = value := by
  induction value generalizing text with
  | nil =>
    cases h
    rfl
  | cons c value ih =>
    cases c with
    | char c =>
      rw [text?, Option.map_eq_some_iff] at h
      obtain ⟨rest, hrest, rfl⟩ := h
      rw [← ih hrest]
      rfl
    | surrogate half => cases h

end PyStr

/-- A key of a `dict`. Keys of other types are told apart by a number. -/
inductive PyKey where
  | str (key : PyStr)
  | other (key : ℕ)
deriving DecidableEq

/-- What the language says of floats: their texts are numbers that are no integers, and are read
back, if they are finite. -/
structure FloatText (φ : Type) where
  isfinite : φ → Bool
  repr : φ → Text
  /-- `float(text)`. -/
  ofText : Text → φ
  repr_number : ∀ x, isfinite x = true → JsonTree.IsNumber (repr x)
  repr_mark : ∀ x, isfinite x = true →
    (repr x).any (fun c => c == '.' || JsonTree.exponentMark c) = true
  ofText_repr : ∀ x, isfinite x = true → ofText (repr x) = x

inductive PyValue (φ : Type) where
  | none
  | bool (value : Bool)
  | int (value : Int)
  | float (value : φ)
  | str (value : PyStr)
  | list (items : List (PyValue φ))
  | dict (entries : List (PyKey × PyValue φ))

namespace PyValue
variable {φ : Type}

/-! ## Values within a value -/

/-- `Within d v w`: `w` stands `d` levels deep in `v`. -/
inductive Within : ℕ → PyValue φ → PyValue φ → Prop where
  | here {v : PyValue φ} : Within 0 v v
  | item {d : ℕ} {items : List (PyValue φ)} {item w : PyValue φ} (hitem : item ∈ items)
      (h : Within d item w) : Within (d + 1) (.list items) w
  | entry {d : ℕ} {entries : List (PyKey × PyValue φ)} {entry : PyKey × PyValue φ} {w : PyValue φ}
      (hentry : entry ∈ entries)
      (h : Within d entry.2 w) : Within (d + 1) (.dict entries) w

/-- Every value within a value is so, at its depth. -/
def Throughout (P : ℕ → PyValue φ → Prop) (v : PyValue φ) : Prop := ∀ d w, Within d v w → P d w

section
variable {P Q : ℕ → PyValue φ → Prop} {v : PyValue φ}

theorem Throughout.here (h : v.Throughout P) : P 0 v := h 0 v .here

theorem Throughout.mono (h : v.Throughout P) (himp : ∀ d w, P d w → Q d w) : v.Throughout Q :=
  fun d w hw => himp d w (h d w hw)

theorem throughout_atom (hlist : ∀ items, v ≠ .list items) (hdict : ∀ entries, v ≠ .dict entries) :
    v.Throughout P ↔ P 0 v := by
  refine ⟨Throughout.here, fun h d w hw => ?_⟩
  cases hw with
  | here => exact h
  | @item _ items _ _ _ _ => exact absurd rfl (hlist items)
  | @entry _ entries _ _ _ _ => exact absurd rfl (hdict entries)

theorem throughout_list {items : List (PyValue φ)} : (PyValue.list items).Throughout P ↔
    P 0 (.list items) ∧ ∀ item ∈ items, item.Throughout fun d => P (d + 1) := by
  constructor
  · exact fun h => ⟨h.here, fun item hitem d w hw => h (d + 1) w (.item hitem hw)⟩
  · rintro ⟨hhere, hitems⟩ d w hw
    cases hw with
    | here => exact hhere
    | item hitem hw => exact hitems _ hitem _ w hw

theorem throughout_dict {entries : List (PyKey × PyValue φ)} : (PyValue.dict entries).Throughout P ↔
    P 0 (.dict entries) ∧ ∀ entry ∈ entries, entry.2.Throughout fun d => P (d + 1) := by
  constructor
  · exact fun h => ⟨h.here, fun entry hentry d w hw => h (d + 1) w (.entry hentry hw)⟩
  · rintro ⟨hhere, hentries⟩ d w hw
    cases hw with
    | here => exact hhere
    | entry hentry hw => exact hentries _ hentry _ w hw

end

mutual

/-- How many values a value is, itself among them. -/
def total : PyValue φ → ℕ
  | .list items => totalItems items + 1
  | .dict entries => totalEntries entries + 1
  | .none => 1
  | .bool _ => 1
  | .int _ => 1
  | .float _ => 1
  | .str _ => 1

def totalItems : List (PyValue φ) → ℕ
  | [] => 0
  | item :: items => item.total + totalItems items

def totalEntries : List (PyKey × PyValue φ) → ℕ
  | [] => 0
  | (_, value) :: entries => value.total + totalEntries entries

end

theorem totalEntries_eq (entries : List (PyKey × PyValue φ)) :
    totalEntries entries = (entries.map fun entry => entry.2.total).sum := by
  induction entries with
  | nil => rfl
  | cons entry entries ih => rw [totalEntries, ih, List.map_cons, List.sum_cons]

/-- The keys of every dict are distinct, as Python has it. -/
def Distinct (v : PyValue φ) : Prop :=
  v.Throughout fun _ w => ∀ entries, w = .dict entries → (entries.map Prod.fst).Nodup

/-- Equality of values: that of lists goes by their items, and that of dicts by their keys. -/
inductive Same : PyValue φ → PyValue φ → Prop where
  | refl {v : PyValue φ} : Same v v
  | list {items others : List (PyValue φ)} (h : List.Forall₂ Same items others) :
      Same (.list items) (.list others)
  | dict {entries others : List (PyKey × PyValue φ)}
      (hkeys : (entries.map Prod.fst).Perm (others.map Prod.fst))
      (h : ∀ key value other, (key, value) ∈ entries → (key, other) ∈ others → Same value other) :
        Same (.dict entries) (.dict others)

/-! ## Sorted keys -/

/-- The text by which a key is sorted. -/
def sortKey : PyKey → Text
  | .str key => key.text?.getD []
  | .other _ => []

mutual

/-- The value with the entries of every dict in the order of their keys. -/
def sorted : PyValue φ → PyValue φ
  | .none => .none
  | .bool value => .bool value
  | .int value => .int value
  | .float value => .float value
  | .str value => .str value
  | .list items => .list (sortedItems items)
  | .dict entries =>
    .dict ((sortedEntries entries).insertionSort fun a b => sortKey a.1 ≤ sortKey b.1)

def sortedItems : List (PyValue φ) → List (PyValue φ)
  | [] => []
  | item :: items => item.sorted :: sortedItems items

def sortedEntries : List (PyKey × PyValue φ) → List (PyKey × PyValue φ)
  | [] => []
  | (key, value) :: entries => (key, value.sorted) :: sortedEntries entries

end

theorem sortedEntries_eq (entries : List (PyKey × PyValue φ)) :
    sortedEntries entries = entries.map fun entry => (entry.1, entry.2.sorted) := by
  induction entries with
  | nil => rfl
  | cons entry entries ih => rw [sortedEntries, ih, List.map_cons]

/-- The entries of a sorted dict are its entries, sorted. -/
theorem sorted_dict_perm (entries : List (PyKey × PyValue φ)) :
    ∃ others, (PyValue.dict entries).sorted = .dict others ∧ others.Perm
      (entries.map fun entry => (entry.1, entry.2.sorted)) := by
  refine ⟨_, rfl, ?_⟩
  rw [← sortedEntries_eq]
  exact List.perm_insertionSort _ _

mutual

theorem Throughout.sorted : ∀ {v : PyValue φ} {P : ℕ → PyValue φ → Prop}, v.Throughout P →
    (∀ d w, P d w → P d w.sorted) → v.sorted.Throughout P
  | .none, _, h, _ => h
  | .bool _, _, h, _ => h
  | .int _, _, h, _ => h
  | .float _, _, h, _ => h
  | .str _, _, h, _ => h
  | .list items, P, h, hP => by
    obtain ⟨hhere, hitems⟩ := throughout_list.mp h
    exact throughout_list.mpr ⟨hP 0 _ hhere, throughoutItems_sorted hitems fun d => hP (d + 1)⟩
  | .dict entries, P, h, hP => by
    obtain ⟨hhere, hentries⟩ := throughout_dict.mp h
    refine throughout_dict.mpr ⟨hP 0 _ hhere, fun entry hentry => ?_⟩
    exact throughoutEntries_sorted hentries (fun d => hP (d + 1)) entry
      ((List.mem_insertionSort _).mp hentry)

theorem throughoutItems_sorted : ∀ {items : List (PyValue φ)} {P : ℕ → PyValue φ → Prop},
    (∀ item ∈ items, item.Throughout P) →
    (∀ d w, P d w → P d w.sorted) → ∀ item ∈ sortedItems items, item.Throughout P
  | [], _, _, _, _, h => by cases h
  | item :: items, P, hitems, hP, other, hother => by
    rcases List.mem_cons.mp hother with rfl | hother
    · exact Throughout.sorted (hitems item List.mem_cons_self) hP
    · exact throughoutItems_sorted (fun next hnext => hitems next (List.mem_cons_of_mem _ hnext)) hP
        other hother

theorem throughoutEntries_sorted :
    ∀ {entries : List (PyKey × PyValue φ)} {P : ℕ → PyValue φ → Prop},
    (∀ entry ∈ entries, entry.2.Throughout P) → (∀ d w, P d w → P d w.sorted) →
    ∀ entry ∈ sortedEntries entries, entry.2.Throughout P
  | [], _, _, _, _, h => by cases h
  | (key, value) :: entries, P, hentries, hP, other, hother => by
    rcases List.mem_cons.mp hother with rfl | hother
    · exact Throughout.sorted (hentries (key, value) List.mem_cons_self) hP
    · exact throughoutEntries_sorted (fun next hnext =>
        hentries next (List.mem_cons_of_mem _ hnext)) hP other hother

end

mutual

@[simp] theorem total_sorted : ∀ v : PyValue φ, v.sorted.total = v.total
  | .none => rfl
  | .bool _ => rfl
  | .int _ => rfl
  | .float _ => rfl
  | .str _ => rfl
  | .list items => by rw [sorted, total, total, totalItems_sorted items]
  | .dict entries => by
    have hperm := List.perm_insertionSort (fun a b : PyKey × PyValue φ => sortKey a.1 ≤ sortKey b.1)
      (sortedEntries entries)
    rw [sorted, total, total, totalEntries_eq, (hperm.map _).sum_eq, ← totalEntries_eq,
      totalEntries_sorted entries]

theorem totalItems_sorted : ∀ items : List (PyValue φ), totalItems
    (sortedItems items) = totalItems items
  | [] => rfl
  | item :: items => by
    rw [sortedItems, totalItems, totalItems, total_sorted item, totalItems_sorted items]

theorem totalEntries_sorted : ∀ entries : List (PyKey × PyValue φ), totalEntries
    (sortedEntries entries) = totalEntries entries
  | [] => rfl
  | (_, value) :: entries => by
    rw [sortedEntries, totalEntries, totalEntries, total_sorted value, totalEntries_sorted entries]

end

theorem keys_sorted {entries others : List (PyKey × PyValue φ)}
    (h : others.Perm (entries.map fun entry => (entry.1, entry.2.sorted))) :
    (others.map Prod.fst).Perm (entries.map Prod.fst) := by
  refine (h.map _).trans ?_
  rw [List.map_map]
  exact List.Perm.refl _

theorem Distinct.keys {entries : List (PyKey × PyValue φ)} (h : (PyValue.dict entries).Distinct) :
    (entries.map Prod.fst).Nodup :=
  (throughout_dict.mp h).1 entries rfl

mutual

/-- A value is equal to itself with its keys sorted. -/
theorem same_sorted : ∀ {v : PyValue φ}, v.Distinct → Same v v.sorted
  | .none, _ => .refl
  | .bool _, _ => .refl
  | .int _, _ => .refl
  | .float _, _ => .refl
  | .str _, _ => .refl
  | .list items, h => .list (sameItems_sorted (throughout_list.mp h).2)
  | .dict entries, h => by
    obtain ⟨others, hothers, hperm⟩ := sorted_dict_perm entries
    rw [hothers]
    refine .dict (keys_sorted hperm).symm fun key value other hvalue hother => ?_
    obtain ⟨entry, hentry, heq⟩ := List.mem_map.mp (hperm.subset hother)
    obtain ⟨rfl, rfl⟩ := Prod.mk.inj heq
    have hsame : entry.2 = value :=
      Option.some.inj ((lookup_of_mem h.keys hentry).symm.trans (lookup_of_mem h.keys hvalue))
    rw [← hsame]
    exact sameEntries_sorted (throughout_dict.mp h).2 entry hentry

theorem sameItems_sorted : ∀ {items : List (PyValue φ)}, (∀ item ∈ items, item.Distinct) →
    List.Forall₂ Same items (sortedItems items)
  | [], _ => .nil
  | item :: _, h => .cons (same_sorted (h item List.mem_cons_self))
      (sameItems_sorted fun next hnext => h next (List.mem_cons_of_mem _ hnext))

theorem sameEntries_sorted : ∀ {entries : List (PyKey × PyValue φ)},
    (∀ entry ∈ entries, entry.2.Distinct) →
    ∀ entry ∈ entries, Same entry.2 entry.2.sorted
  | [], _, _, h => by cases h
  | (key, value) :: entries, h, other, hother => by
    rcases List.mem_cons.mp hother with rfl | hother
    · exact same_sorted (h (key, value) List.mem_cons_self)
    · exact sameEntries_sorted (fun next hnext => h next (List.mem_cons_of_mem _ hnext)) other
        hother

end

/-! ## Documents -/

section
variable (floats : FloatText φ)

mutual

/-- What `json.dumps` writes of a value, if it can be encoded. Keys that are no strings are none
of what is written here. -/
def document : PyValue φ → Option JsonTree
  | .none => .some .null
  | .bool value => .some (.bool value)
  | .int value => .some (.int value)
  | .float value => .some (.number (floats.repr value))
  | .str value => value.text?.map .string
  | .list items => (documentItems items).map .array
  | .dict entries => (documentEntries entries).map .object

def documentItems : List (PyValue φ) → Option (List JsonTree)
  | [] => .some []
  | item :: items => (document item).bind fun tree => (documentItems items).map (tree :: ·)

def documentEntries : List (PyKey × PyValue φ) → Option (List (Text × JsonTree))
  | [] => .some []
  | (.str key, value) :: entries =>
    key.text?.bind fun key => (document value).bind fun tree =>
      (documentEntries entries).map ((key, tree) :: ·)
  | (.other _, _) :: _ => .none

end

/-- The most digits of an integer that is printed or read. -/
def MAX_STR_DIGITS : ℕ := 4300

mutual

/-- Every integer can be printed. -/
def printable : PyValue φ → Bool
  | .int value => decide (numeralLength value.natAbs ≤ MAX_STR_DIGITS)
  | .list items => printableItems items
  | .dict entries => printableEntries entries
  | .none => true
  | .bool _ => true
  | .float _ => true
  | .str _ => true

def printableItems : List (PyValue φ) → Bool
  | [] => true
  | item :: items => item.printable && printableItems items

def printableEntries : List (PyKey × PyValue φ) → Bool
  | [] => true
  | (_, value) :: entries => value.printable && printableEntries entries

end

/-- `json.dumps(value, ensure_ascii=False, separators=(",", ":"), sort_keys=True).encode("utf-8")`,
or none where it raises `ValueError`. -/
def dumped (v : PyValue φ) : Option Bytes := if v.printable then (v.document floats).map fun tree =>
    encode tree.dumps else .none

/-- The integer of its text. -/
def intOf : Text → Int
  | [] => 0
  | c :: digits => if c = '-' then -(Nat.ofDigitChars 10 digits 0 : Int)
      else Nat.ofDigitChars 10 (c :: digits) 0

mutual

/-- The value of a document; none where an integer is too long to be read. -/
def ofTree : JsonTree → Option (PyValue φ)
  | .null => .some .none
  | .bool value => .some (.bool value)
  | .number text =>
    if text.any fun c => c == '.' || JsonTree.exponentMark c then
      .some (.float (floats.ofText text))
    else if (text.filter Char.isDigit).length ≤ MAX_STR_DIGITS then .some (.int (intOf text))
      else .none
  | .string value => .some (.str (PyStr.ofText value))
  | .array items => (ofTrees items).map .list
  | .object fields => (ofFields fields).map .dict

def ofTrees : List JsonTree → Option (List (PyValue φ))
  | [] => .some []
  | tree :: trees => (ofTree tree).bind fun item => (ofTrees trees).map (item :: ·)

def ofFields : List (Text × JsonTree) → Option (List (PyKey × PyValue φ))
  | [] => .some []
  | (key, tree) :: fields => (ofTree tree).bind fun value =>
    (ofFields fields).map ((.str (PyStr.ofText key), value) :: ·)

end

/-- `json.loads(encoded)`. -/
def loaded (encoded : Bytes) : Option (PyValue φ) := (decode encoded).bind fun text =>
    (JsonTree.loads text).bind (ofTree floats)

/-! ## What is dumped is loaded -/

variable {floats : FloatText φ}

/-- Floats are finite. -/
def Finite (floats : FloatText φ) (v : PyValue φ) : Prop :=
  v.Throughout fun _ w => ∀ x, w = .float x → floats.isfinite x = true

/-- Integers are not too long. -/
def Printable (v : PyValue φ) : Prop :=
  v.Throughout fun _ w => ∀ n, w = .int n → numeralLength n.natAbs ≤ MAX_STR_DIGITS

theorem Finite.sorted {v : PyValue φ} (h : v.Finite floats) : v.sorted.Finite floats := by
  refine Throughout.sorted h fun d w hw x heq => ?_
  cases w with
  | float _ => exact hw x heq
  | none => cases heq
  | bool _ => cases heq
  | int _ => cases heq
  | str _ => cases heq
  | list _ => cases heq
  | dict _ => cases heq

theorem Printable.sorted {v : PyValue φ} (h : v.Printable) : v.sorted.Printable := by
  refine Throughout.sorted h fun d w hw n heq => ?_
  cases w with
  | int _ => exact hw n heq
  | none => cases heq
  | bool _ => cases heq
  | float _ => cases heq
  | str _ => cases heq
  | list _ => cases heq
  | dict _ => cases heq

theorem atom_printable {v : PyValue φ} (hlist : ∀ items, v ≠ .list items)
    (hdict : ∀ entries, v ≠ .dict entries) (hint : ∀ n, v ≠ .int n) :
    v.Printable := (throughout_atom hlist hdict).mpr fun n heq => absurd heq (hint n)

mutual

theorem printable_iff : ∀ v : PyValue φ, v.printable = true ↔ v.Printable
  | .none => iff_of_true rfl (atom_printable (fun _ => by simp) (fun _ => by simp) fun _ => by simp)
  | .bool _ => iff_of_true rfl (atom_printable (fun _ => by simp) (fun _ => by simp)
      fun _ => by simp)
  | .float _ =>
    iff_of_true rfl (atom_printable (fun _ => by simp) (fun _ => by simp) fun _ => by simp)
  | .str _ => iff_of_true rfl (atom_printable (fun _ => by simp) (fun _ => by simp)
      fun _ => by simp)
  | .int n => by
    rw [printable, decide_eq_true_iff, Printable,
      throughout_atom (fun _ => by simp) fun _ => by simp]
    constructor
    · rintro h m heq
      cases heq
      exact h
    · exact fun h => h n rfl
  | .list items => by
    rw [printable, printableItems_iff items, Printable, throughout_list]
    exact ⟨fun h => ⟨fun n heq => (by cases heq), h⟩, fun h => h.2⟩
  | .dict entries => by
    rw [printable, printableEntries_iff entries, Printable, throughout_dict]
    exact ⟨fun h => ⟨fun n heq => (by cases heq), h⟩, fun h => h.2⟩

theorem printableItems_iff : ∀ items : List (PyValue φ), printableItems items = true ↔
    ∀ item ∈ items, item.Printable
  | [] => by simp [printableItems]
  | item :: items => by
    rw [printableItems, Bool.and_eq_true, printable_iff item, printableItems_iff items,
      List.forall_mem_cons]

theorem printableEntries_iff : ∀ entries : List (PyKey × PyValue φ), printableEntries entries =
    true ↔ ∀ entry ∈ entries, entry.2.Printable
  | [] => by simp [printableEntries]
  | (_, value) :: entries => by
    rw [printableEntries, Bool.and_eq_true, printable_iff value, printableEntries_iff entries,
      List.forall_mem_cons]

end

/-- The field of an entry. -/
def field (floats : FloatText φ) (entry : PyKey × PyValue φ) : Text × JsonTree :=
  (sortKey entry.1, (entry.2.document floats).getD .null)

/-- An entry that can be encoded. -/
def Encodable (floats : FloatText φ) (entry : PyKey × PyValue φ) : Prop :=
  (∃ key text, entry.1 = .str key ∧ key.text? = .some text) ∧ (entry.2.document floats).isSome

theorem documentEntries_iff (entries : List (PyKey × PyValue φ)) (fields : List (Text × JsonTree)) :
    documentEntries floats entries = .some fields ↔ (∀ entry ∈ entries, Encodable floats entry) ∧
      fields = entries.map (field floats) := by
  induction entries generalizing fields with
  | nil => simp [documentEntries, eq_comm]
  | cons entry entries ih =>
    obtain ⟨key, value⟩ := entry
    rw [List.forall_mem_cons, List.map_cons]
    cases key with
    | other n =>
      refine iff_of_false (by simp [documentEntries]) ?_
      rintro ⟨⟨⟨⟨key, text, heq, -⟩, -⟩, -⟩, -⟩
      cases heq
    | str key =>
      rw [documentEntries, Option.bind_eq_some_iff]
      constructor
      · rintro ⟨text, htext, hbind⟩
        obtain ⟨tree, htree, hmap⟩ := Option.bind_eq_some_iff.mp hbind
        obtain ⟨rest, hrest, rfl⟩ := Option.map_eq_some_iff.mp hmap
        obtain ⟨hall, rfl⟩ := (ih rest).mp hrest
        refine ⟨⟨⟨⟨key, text, rfl, htext⟩, by rw [htree]; rfl⟩, hall⟩, ?_⟩
        rw [field, sortKey, htext, htree]
        rfl
      · rintro ⟨⟨⟨⟨_, text, heq, htext⟩, hsome⟩, hall⟩, rfl⟩
        cases heq
        obtain ⟨tree, htree⟩ := Option.isSome_iff_exists.mp hsome
        refine ⟨text, htext, Option.bind_eq_some_iff.mpr ⟨tree, htree,
          Option.map_eq_some_iff.mpr ⟨_, (ih _).mpr ⟨hall, rfl⟩, ?_⟩⟩⟩
        rw [field, sortKey, htext, htree]
        rfl

/-- The fields of sorted entries are the fields, sorted. -/
theorem map_field_sort (entries : List (PyKey × PyValue φ)) :
    (entries.insertionSort fun a b => sortKey a.1 ≤ sortKey b.1).map (field floats) =
      (entries.map (field floats)).insertionSort fun a b => a.1 ≤ b.1 :=
  List.map_insertionSort _ _ _ _ fun _ _ _ _ => Iff.rfl

mutual

theorem document_sorted : ∀ {v : PyValue φ} {tree : JsonTree}, v.document floats = .some tree →
    v.sorted.document floats = .some tree.sorted
  | .none, _, h => by cases h; rfl
  | .bool _, _, h => by cases h; rfl
  | .int _, _, h => by cases h; rfl
  | .float _, _, h => by cases h; rfl
  | .str value, _, h => by
    rw [document, Option.map_eq_some_iff] at h
    obtain ⟨text, htext, rfl⟩ := h
    rw [sorted, document, htext]
    rfl
  | .list items, _, h => by
    rw [document, Option.map_eq_some_iff] at h
    obtain ⟨trees, htrees, rfl⟩ := h
    rw [sorted, document, documentItems_sorted htrees]
    rfl
  | .dict entries, _, h => by
    rw [document, Option.map_eq_some_iff] at h
    obtain ⟨fields, hfields, rfl⟩ := h
    obtain ⟨hall, heq⟩ := (documentEntries_iff _ _).mp (documentEntries_sorted hfields)
    have hsort : documentEntries floats ((sortedEntries entries).insertionSort fun a b =>
      sortKey a.1 ≤ sortKey b.1) =
        .some ((JsonTree.sortedFields fields).insertionSort fun a b => a.1 ≤ b.1) := by
      refine (documentEntries_iff _ _).mpr ⟨fun entry hentry =>
        hall entry ((List.mem_insertionSort _).mp hentry), ?_⟩
      rw [map_field_sort, heq]
    rw [sorted, document, hsort]
    rfl

theorem documentItems_sorted : ∀ {items : List (PyValue φ)} {trees : List JsonTree},
    documentItems floats items = .some trees →
    documentItems floats (sortedItems items) = .some (JsonTree.sortedItems trees)
  | [], _, h => by cases h; rfl
  | item :: items, _, h => by
    rw [documentItems, Option.bind_eq_some_iff] at h
    obtain ⟨tree, htree, hmap⟩ := h
    obtain ⟨trees, htrees, rfl⟩ := Option.map_eq_some_iff.mp hmap
    rw [sortedItems, documentItems, document_sorted htree, documentItems_sorted htrees]
    rfl

theorem documentEntries_sorted :
    ∀ {entries : List (PyKey × PyValue φ)} {fields : List (Text × JsonTree)},
    documentEntries floats entries = .some fields → documentEntries floats
      (sortedEntries entries) = .some (JsonTree.sortedFields fields)
  | [], _, h => by cases h; rfl
  | (.other _, _) :: _, _, h => by cases h
  | (.str key, value) :: entries, _, h => by
    rw [documentEntries, Option.bind_eq_some_iff] at h
    obtain ⟨text, htext, hbind⟩ := h
    obtain ⟨tree, htree, hmap⟩ := Option.bind_eq_some_iff.mp hbind
    obtain ⟨fields, hfields, rfl⟩ := Option.map_eq_some_iff.mp hmap
    rw [sortedEntries, documentEntries, htext, Option.bind_some, document_sorted htree,
      documentEntries_sorted hfields]
    rfl

end

/-! Integers -/

theorem intOf_intText (n : Int) : intOf (JsonTree.intText n) = n := by
  cases n with
  | ofNat n =>
    have hvalue := @Nat.ofDigitChars_ten_toDigits n
    cases hdigits : Nat.toDigits 10 n with
    | nil => exact absurd hdigits Nat.toDigits_ne_nil
    | cons c digits =>
      have hdigit : c.isDigit = true :=
        Nat.isDigit_of_mem_toDigits (by decide) (by decide) (hdigits ▸ List.mem_cons_self)
      have hsign : c ≠ '-' := by
        rintro rfl
        exact absurd hdigit (by decide)
      rw [hdigits] at hvalue
      rw [JsonTree.intText, hdigits, intOf, if_neg hsign, hvalue]
      rfl
  | negSucc n =>
    rw [JsonTree.intText, intOf, if_pos rfl, Nat.ofDigitChars_ten_toDigits]
    rfl

theorem intText_chars {n : Int} {c : Char} (h : c ∈ JsonTree.intText n) : c = '-' ∨
    c.isDigit = true := by
  cases n with
  | ofNat n => exact .inr (Nat.isDigit_of_mem_toDigits (by decide) (by decide) h)
  | negSucc n =>
    rcases List.mem_cons.mp h with rfl | h
    · exact .inl rfl
    · exact .inr (Nat.isDigit_of_mem_toDigits (by decide) (by decide) h)

/-- No mark of a float is in the text of an integer. -/
theorem intText_unmarked (n : Int) :
    ((JsonTree.intText n).any fun c => c == '.' || JsonTree.exponentMark c) = false := by
  rw [List.any_eq_false]
  intro c hc hmark
  rw [JsonTree.exponentMark, Bool.or_eq_true, Bool.or_eq_true, beq_iff_eq, beq_iff_eq,
    beq_iff_eq] at hmark
  rcases intText_chars hc with rfl | hdigit
  · exact absurd hmark (by decide)
  · rcases hmark with rfl | rfl | rfl
    all_goals exact absurd hdigit (by decide)

theorem intText_digits (n : Int) :
    ((JsonTree.intText n).filter Char.isDigit).length = numeralLength n.natAbs := by
  have hall : ∀ m : ℕ, (Nat.toDigits 10 m).filter Char.isDigit = Nat.toDigits 10 m := fun m =>
    List.filter_eq_self.mpr fun c hc => Nat.isDigit_of_mem_toDigits (by decide) (by decide) hc
  cases n with
  | ofNat n =>
    rw [JsonTree.intText, hall]
    rfl
  | negSucc n =>
    rw [JsonTree.intText, List.filter_cons_of_neg (by decide), hall]
    rfl

mutual

/-- A value is read off its document. -/
theorem ofTree_document : ∀ {v : PyValue φ} {tree : JsonTree}, v.document floats = .some tree →
    v.Finite floats → v.Printable →
    ofTree floats tree = .some v
  | .none, _, h, _, _ => by cases h; rfl
  | .bool _, _, h, _, _ => by cases h; rfl
  | .int n, _, h, _, hprint => by
    cases h
    have hdigits : numeralLength n.natAbs ≤ MAX_STR_DIGITS := hprint.here n rfl
    rw [JsonTree.int_eq, ofTree, intText_unmarked, if_neg (by decide), intText_digits,
      if_pos hdigits, intOf_intText]
  | .float x, _, h, hfinite, _ => by
    cases h
    have hx := hfinite.here x rfl
    rw [ofTree, if_pos (floats.repr_mark x hx), floats.ofText_repr x hx]
  | .str value, _, h, _, _ => by
    rw [document, Option.map_eq_some_iff] at h
    obtain ⟨text, htext, rfl⟩ := h
    rw [ofTree, PyStr.ofText_of_text? htext]
  | .list items, _, h, hfinite, hprint => by
    rw [document, Option.map_eq_some_iff] at h
    obtain ⟨trees, htrees, rfl⟩ := h
    rw [ofTree, ofTrees_documentItems htrees (throughout_list.mp hfinite).2
      (throughout_list.mp hprint).2]
    rfl
  | .dict entries, _, h, hfinite, hprint => by
    rw [document, Option.map_eq_some_iff] at h
    obtain ⟨fields, hfields, rfl⟩ := h
    rw [ofTree, ofFields_documentEntries hfields (throughout_dict.mp hfinite).2
      (throughout_dict.mp hprint).2]
    rfl

theorem ofTrees_documentItems : ∀ {items : List (PyValue φ)} {trees : List JsonTree},
    documentItems floats items = .some trees →
    (∀ item ∈ items, item.Finite floats) → (∀ item ∈ items, item.Printable) →
    ofTrees floats trees = .some items
  | [], _, h, _, _ => by cases h; rfl
  | item :: items, _, h, hfinite, hprint => by
    rw [documentItems, Option.bind_eq_some_iff] at h
    obtain ⟨tree, htree, hmap⟩ := h
    obtain ⟨trees, htrees, rfl⟩ := Option.map_eq_some_iff.mp hmap
    obtain ⟨hfinite, hrest⟩ := List.forall_mem_cons.mp hfinite
    obtain ⟨hprint, hprints⟩ := List.forall_mem_cons.mp hprint
    rw [ofTrees, ofTree_document htree hfinite hprint, ofTrees_documentItems htrees hrest hprints]
    rfl

theorem ofFields_documentEntries :
    ∀ {entries : List (PyKey × PyValue φ)} {fields : List (Text × JsonTree)},
    documentEntries floats entries = .some fields → (∀ entry ∈ entries, entry.2.Finite floats) →
      (∀ entry ∈ entries, entry.2.Printable) →
      ofFields floats fields = .some entries
  | [], _, h, _, _ => by cases h; rfl
  | (.other _, _) :: _, _, h, _, _ => by cases h
  | (.str key, value) :: entries, _, h, hfinite, hprint => by
    rw [documentEntries, Option.bind_eq_some_iff] at h
    obtain ⟨text, htext, hbind⟩ := h
    obtain ⟨tree, htree, hmap⟩ := Option.bind_eq_some_iff.mp hbind
    obtain ⟨fields, hfields, rfl⟩ := Option.map_eq_some_iff.mp hmap
    obtain ⟨hfinite, hrest⟩ := List.forall_mem_cons.mp hfinite
    obtain ⟨hprint, hprints⟩ := List.forall_mem_cons.mp hprint
    rw [ofFields, ofTree_document htree hfinite hprint,
      ofFields_documentEntries hfields hrest hprints, PyStr.ofText_of_text? htext]
    rfl

end

/-- Distinct keys that can be encoded have distinct texts. -/
theorem keys_field {entries : List (PyKey × PyValue φ)} (h : (entries.map Prod.fst).Nodup)
    (hall : ∀ entry ∈ entries, Encodable floats entry) :
    ((entries.map (field floats)).map Prod.fst).Nodup := by
  rw [List.map_map]
  refine List.Nodup.map_on (fun first hfirst second hsecond heq => ?_) (List.Nodup.of_map _ h)
  obtain ⟨⟨key, text, hkey, htext⟩, -⟩ := hall first hfirst
  obtain ⟨⟨key', text', hkey', htext'⟩, -⟩ := hall second hsecond
  replace heq : sortKey first.1 = sortKey second.1 := heq
  rw [hkey, hkey', sortKey, sortKey, htext, htext'] at heq
  have hsame : first.1 = second.1 := by
    rw [hkey, hkey', ← PyStr.ofText_of_text? htext, ← PyStr.ofText_of_text? htext',
      show text = text' from heq]
  exact List.inj_on_of_nodup_map h hfirst hsecond hsame

mutual

theorem document_wellFormed : ∀ {v : PyValue φ} {tree : JsonTree}, v.document floats = .some tree →
    v.Finite floats → v.Distinct →
    tree.WellFormed
  | .none, _, h, _, _ => by cases h; trivial
  | .bool _, _, h, _, _ => by cases h; trivial
  | .int n, _, h, _, _ => by
    cases h
    rw [JsonTree.int_eq]
    exact JsonTree.isNumber_intText n
  | .float x, _, h, hfinite, _ => by
    cases h
    exact floats.repr_number x (hfinite.here x rfl)
  | .str value, _, h, _, _ => by
    rw [document, Option.map_eq_some_iff] at h
    obtain ⟨text, -, rfl⟩ := h
    trivial
  | .list items, _, h, hfinite, hdistinct => by
    rw [document, Option.map_eq_some_iff] at h
    obtain ⟨trees, htrees, rfl⟩ := h
    exact documentItems_wellFormed htrees (throughout_list.mp hfinite).2
      (throughout_list.mp hdistinct).2
  | .dict entries, _, h, hfinite, hdistinct => by
    rw [document, Option.map_eq_some_iff] at h
    obtain ⟨fields, hfields, rfl⟩ := h
    obtain ⟨hall, heq⟩ := (documentEntries_iff _ _).mp hfields
    refine ⟨?_, documentEntries_wellFormed hfields (throughout_dict.mp hfinite).2
      (throughout_dict.mp hdistinct).2⟩
    rw [heq]
    exact keys_field hdistinct.keys hall

theorem documentItems_wellFormed : ∀ {items : List (PyValue φ)} {trees : List JsonTree},
    documentItems floats items = .some trees →
    (∀ item ∈ items, item.Finite floats) → (∀ item ∈ items, item.Distinct) →
    JsonTree.WellFormedItems trees
  | [], _, h, _, _ => by cases h; trivial
  | item :: items, _, h, hfinite, hdistinct => by
    rw [documentItems, Option.bind_eq_some_iff] at h
    obtain ⟨tree, htree, hmap⟩ := h
    obtain ⟨trees, htrees, rfl⟩ := Option.map_eq_some_iff.mp hmap
    obtain ⟨hfinite, hrest⟩ := List.forall_mem_cons.mp hfinite
    obtain ⟨hdistinct, hdistincts⟩ := List.forall_mem_cons.mp hdistinct
    exact ⟨document_wellFormed htree hfinite hdistinct,
      documentItems_wellFormed htrees hrest hdistincts⟩

theorem documentEntries_wellFormed :
    ∀ {entries : List (PyKey × PyValue φ)} {fields : List (Text × JsonTree)},
    documentEntries floats entries = .some fields → (∀ entry ∈ entries, entry.2.Finite floats) →
      (∀ entry ∈ entries, entry.2.Distinct) →
      JsonTree.WellFormedFields fields
  | [], _, h, _, _ => by cases h; trivial
  | (.other _, _) :: _, _, h, _, _ => by cases h
  | (.str key, value) :: entries, _, h, hfinite, hdistinct => by
    rw [documentEntries, Option.bind_eq_some_iff] at h
    obtain ⟨text, htext, hbind⟩ := h
    obtain ⟨tree, htree, hmap⟩ := Option.bind_eq_some_iff.mp hbind
    obtain ⟨fields, hfields, rfl⟩ := Option.map_eq_some_iff.mp hmap
    obtain ⟨hfinite, hrest⟩ := List.forall_mem_cons.mp hfinite
    obtain ⟨hdistinct, hdistincts⟩ := List.forall_mem_cons.mp hdistinct
    exact ⟨document_wellFormed htree hfinite hdistinct,
      documentEntries_wellFormed hfields hrest hdistincts⟩

end

theorem dumped_eq_some {v : PyValue φ} {encoded : Bytes} (h : v.dumped floats = .some encoded) :
    v.Printable ∧ ∃ tree, v.document floats = .some tree ∧ encoded = encode tree.dumps := by
  rw [dumped] at h
  split at h
  next hprint =>
    obtain ⟨tree, htree, rfl⟩ := Option.map_eq_some_iff.mp h
    exact ⟨(printable_iff v).mp hprint, tree, htree, rfl⟩
  next => cases h

/-- **What is dumped is loaded**, with its keys sorted, -/
theorem loaded_dumped {v : PyValue φ} {encoded : Bytes} (h : v.dumped floats = .some encoded)
    (hfinite : v.Finite floats) (hdistinct : v.Distinct) :
    loaded floats encoded = .some v.sorted := by
  obtain ⟨hprint, tree, htree, rfl⟩ := dumped_eq_some h
  rw [loaded, decode_encode, Option.bind_some,
    JsonTree.loads_dumps (document_wellFormed htree hfinite hdistinct), Option.bind_some]
  exact ofTree_document (document_sorted htree) hfinite.sorted hprint.sorted

/-- and is dumped as it was. -/
theorem dumped_sorted {v : PyValue φ} {encoded : Bytes} (h : v.dumped floats = .some encoded) :
    v.sorted.dumped floats = .some encoded := by
  obtain ⟨hprint, tree, htree, rfl⟩ := dumped_eq_some h
  rw [dumped, if_pos ((printable_iff v.sorted).mpr hprint.sorted), document_sorted htree,
    Option.map_some, JsonTree.dumps_eq_compact, JsonTree.sorted_sorted, ← JsonTree.dumps_eq_compact]

end

end PyValue

end Novalton
