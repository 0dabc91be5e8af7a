/-
How many bytes a JSON value takes, whether the fields of an object are sorted by their keys
or stand in the order they were declared in, and the size that a record of its own size
settles on. Nothing here names the repository.
-/
import Novalton.JsonText

namespace Novalton

/-! ## Numerals -/

/-- How many digits `str(n)` has. -/
def numeralLength (n : ℕ) : ℕ := (Nat.toDigits 10 n).length

theorem numeralLength_le_iff {n k : ℕ} (hk : 0 < k) : numeralLength n ≤ k ↔ n < 10 ^ k :=
  Nat.length_toDigits_le_iff (by decide) hk

theorem numeralLength_pos (n : ℕ) : 0 < numeralLength n := Nat.length_toDigits_pos

theorem lt_pow_numeralLength (n : ℕ) : n < 10 ^ numeralLength n :=
  (numeralLength_le_iff (numeralLength_pos n)).mp le_rfl

theorem numeralLength_mono {m n : ℕ} (h : m ≤ n) : numeralLength m ≤ numeralLength n :=
  (numeralLength_le_iff (numeralLength_pos n)).mpr (lt_of_le_of_lt h (lt_pow_numeralLength n))

/-- Counting on by `k` takes at most `k` more digits. -/
theorem numeralLength_add_le (n k : ℕ) : numeralLength (n + k) ≤ numeralLength n + k := by
  have hpos := numeralLength_pos n
  rw [numeralLength_le_iff (by omega), pow_add]
  have hn := lt_pow_numeralLength n
  have hk : k < 10 ^ k := Nat.lt_pow_self (by decide)
  calc n + k < 10 ^ numeralLength n + k := by omega
    _ ≤ 10 ^ numeralLength n + 10 ^ numeralLength n * k :=
      Nat.add_le_add_left (Nat.le_mul_of_pos_left k (by omega)) _
    _ = 10 ^ numeralLength n * (k + 1) := by rw [Nat.mul_add, Nat.mul_one, Nat.add_comm]
    _ ≤ 10 ^ numeralLength n * 10 ^ k := Nat.mul_le_mul_left _ hk

/-! ## A record of its own size -/

/-- A size is measured again, with the last one recorded, until it stays: `rounds` times at
most. -/
def settle (sizeAt : ℕ → ℕ) : ℕ → ℕ → Option ℕ
  | 0, _ => .none
  | rounds + 1, size => if sizeAt size = size then .some size
      else settle sizeAt rounds (sizeAt size)

/-- A size that is returned is the size of the record that holds it. -/
theorem settle_fixed {sizeAt : ℕ → ℕ} : ∀ {rounds start size : ℕ}, settle sizeAt rounds start =
    .some size → sizeAt size = size
  | rounds + 1, start, size, h => by
    rw [settle] at h
    split at h
    · rename_i hstays
      cases h
      exact hstays
    · exact settle_fixed h

/-- Nothing below a bound that the measure keeps to is ever passed. -/
theorem settle_le {sizeAt : ℕ → ℕ} {bound : ℕ} (hbound : ∀ size ≤ bound, sizeAt size ≤ bound) :
    ∀ {rounds start size : ℕ}, start ≤ bound → settle sizeAt rounds start = .some size →
      size ≤ bound
  | rounds + 1, start, size, hstart, h => by
    rw [settle] at h
    split at h
    · cases h
      exact hstart
    · exact settle_le hbound (hbound start hstart) h

/-- A record that takes `base` bytes beside the digits of its size settles within four
rounds from zero. -/
theorem settle_converges (base : ℕ) : ∃ size, settle (fun size => base + numeralLength size) 4 0 =
    .some size := by
  have hzero : numeralLength 0 = 1 := rfl
  set first := base + 1 with hfirst
  set digits := numeralLength first with hdigits
  set second := base + digits with hsecond
  have hpos : 0 < digits := numeralLength_pos first
  have hroom : digits + 10 ^ digits ≤ 10 ^ (digits + 1) := by
    have hself : digits < 10 ^ digits := Nat.lt_pow_self (by decide)
    rw [pow_succ]
    omega
  have hlt : first < 10 ^ digits := lt_pow_numeralLength first
  have hmono : digits ≤ numeralLength second := numeralLength_mono (by omega)
  have htop : numeralLength second ≤ digits + 1 := by
    rw [numeralLength_le_iff (by omega)]
    omega
  -- the third size is the second, or has the one digit more that the second has
  have hthird : numeralLength (base + numeralLength second) = numeralLength second := by
    rcases Nat.lt_or_ge digits (numeralLength second) with hmore | hsame
    · have heq : numeralLength second = digits + 1 := by omega
      refine Nat.le_antisymm ?_ (numeralLength_mono (by omega))
      rw [heq, numeralLength_le_iff (by omega)]
      omega
    · have heq : numeralLength second = digits := by omega
      rw [heq, ← hsecond, heq]
  simp only [settle, hzero, ← hfirst, ← hdigits, ← hsecond, hthird]
  split
  · exact ⟨_, rfl⟩
  · split
    · exact ⟨_, rfl⟩
    · split
      · exact ⟨_, rfl⟩
      · exact ⟨_, rfl⟩

/-- Three rounds do not do where the digits of the size carry it past a power of ten. -/
example : settle (fun size => 998 + numeralLength size) 3 0 = .none := by decide

/-- The size that a record of `base` bytes beside the digits of its size settles on. -/
def settled (base : ℕ) : ℕ := (settle (fun size => base + numeralLength size) 4 0).getD 0

theorem settle_eq (base : ℕ) : settle (fun size => base + numeralLength size) 4 0 = .some
    (settled base) := by
  obtain ⟨size, hsize⟩ := settle_converges base
  rw [settled, hsize, Option.getD_some]

theorem settled_fixed (base : ℕ) : base + numeralLength (settled base) = settled base :=
  settle_fixed (settle_eq base)

/-- A record settles within a size that has room for it. -/
theorem settled_le {base bound : ℕ} (h : base + numeralLength bound ≤ bound) :
    settled base ≤ bound := by
  refine settle_le (fun size hsize => ?_) (Nat.zero_le bound) (settle_eq base)
  have := numeralLength_mono hsize
  omega

/-- What takes fewer bytes settles on a size that is no larger. -/
theorem settled_mono {base base' : ℕ} (h : base' ≤ base) : settled base' ≤ settled base := by
  refine settled_le ?_
  have := settled_fixed base
  omega

namespace JsonTree

/-! ## Styles -/

/-- How values are written: what stands between two items, what stands behind a key, and the
order of the fields of an object. -/
structure Style where
  comma : Text
  colon : Text
  order : List (Text × Text) → List (Text × Text)
  perm : ∀ fields, (order fields).Perm fields

/-- The fields of an object between its braces. -/
def Style.fields (style : Style) (fields : List (Text × Text)) : Text :=
  style.comma.intercalate ((style.order fields).map fun field => quote field.1 ++
    (style.colon ++ field.2))

mutual

def write (style : Style) : JsonTree → Text
  | .null => "null".toList
  | .bool true => "true".toList
  | .bool false => "false".toList
  | .number text => text
  | .string value => quote value
  | .array items => '[' :: (style.comma.intercalate (writeItems style items) ++ [']'])
  | .object fields => '{' :: (style.fields (writeFields style fields) ++ ['\x7d'])

def writeItems (style : Style) : List JsonTree → List Text
  | [] => []
  | item :: items => item.write style :: writeItems style items

def writeFields (style : Style) : List (Text × JsonTree) → List (Text × Text)
  | [] => []
  | (key, value) :: fields => (key, value.write style) :: writeFields style fields

end

theorem writeItems_eq (style : Style) (items : List JsonTree) :
    writeItems style items = items.map fun item => item.write style := by
  induction items with
  | nil => rfl
  | cons item items ih => rw [writeItems, ih, List.map_cons]

theorem writeFields_eq (style : Style) (fields : List (Text × JsonTree)) :
    writeFields style fields = fields.map fun field => (field.1, field.2.write style) := by
  induction fields with
  | nil => rfl
  | cons field fields ih => rw [writeFields, ih, List.map_cons]

/-- The bytes of the text. -/
def sizeIn (style : Style) (tree : JsonTree) : ℕ := (encode (tree.write style)).length

/-- The bytes of an object with these keys beside its values: the braces, the commas, and a
key with its colon for each. -/
def frameIn (style : Style) (keys : List Text) : ℕ :=
  (keys.map fun key => measure utf8Width (quote key) + measure utf8Width style.colon).sum +
    measure utf8Width style.comma * (keys.length - 1) + 2

section
variable (style : Style)

theorem sizeIn_eq (tree : JsonTree) : tree.sizeIn style = measure utf8Width (tree.write style) :=
  length_encode _

theorem sizeIn_array (items : List JsonTree) : (array items).sizeIn style =
    (items.map fun item => item.sizeIn style).sum + measure utf8Width style.comma *
    (items.length - 1) + 2 := by
  have hsum : ((items.map fun item => item.write style).map (measure utf8Width)).sum =
      (items.map fun item => item.sizeIn style).sum := by
    rw [List.map_map]
    exact congrArg List.sum (List.map_congr_left fun item _ => (sizeIn_eq style item).symm)
  rw [sizeIn_eq, write, writeItems_eq, measure_cons, measure_append, measure_join, hsum,
    List.length_map, measure_cons, measure_nil, utf8Width_ascii '[' (by decide),
      utf8Width_ascii ']' (by decide)]
  omega

/-- The order of the fields does not matter to the size. -/
theorem sizeIn_object (fields : List (Text × JsonTree)) :
    (object fields).sizeIn style = frameIn style
    (fields.map Prod.fst) + (fields.map fun field => field.2.sizeIn style).sum := by
  have hperm := style.perm (fields.map fun field => (field.1, field.2.write style))
  have hsum : ((fields.map fun field => (field.1, field.2.write style)).map
      fun field => measure utf8Width (quote field.1 ++ (style.colon ++ field.2))).sum =
      (fields.map fun field => measure utf8Width (quote field.1) +
        measure utf8Width style.colon).sum +
        (fields.map fun field => field.2.sizeIn style).sum := by
    clear hperm
    induction fields with
    | nil => rfl
    | cons field fields ih =>
      rw [List.map_cons, List.map_cons, List.map_cons, List.map_cons, List.sum_cons, List.sum_cons,
        List.sum_cons, ih, measure_append, measure_append, sizeIn_eq style field.2]
      dsimp only
      omega
  have hwritten :
    measure utf8Width (style.fields (fields.map fun field => (field.1, field.2.write style))) =
      ((fields.map fun field => (field.1, field.2.write style)).map
        fun field => measure utf8Width (quote field.1 ++ (style.colon ++ field.2))).sum +
        measure utf8Width style.comma * (fields.length - 1) := by
    rw [Style.fields, measure_join, List.map_map, List.length_map, hperm.length_eq, List.length_map,
      (hperm.map _).sum_eq]
    rfl
  rw [sizeIn_eq, write, writeFields_eq, measure_cons, measure_append, hwritten, hsum, frameIn,
    List.map_map, List.length_map, measure_cons, measure_nil, utf8Width_ascii '{' (by decide),
      utf8Width_ascii '\x7d' (by decide)]
  have hkeys : (fields.map
    ((fun key => measure utf8Width (quote key) + measure utf8Width style.colon) ∘ Prod.fst)).sum =
      (fields.map fun field => measure utf8Width (quote field.1) +
        measure utf8Width style.colon).sum := rfl
  omega

end

/-! ## Compact texts -/

/-- Without blanks, the fields in the order they are declared in. -/
def compactStyle : Style := ⟨[','], [':'], id, List.Perm.refl⟩

def compact (tree : JsonTree) : Text := tree.write compactStyle

/-- The bytes of the compact text. -/
def size (tree : JsonTree) : ℕ := tree.sizeIn compactStyle

def frame (keys : List Text) : ℕ := frameIn compactStyle keys

@[simp] theorem size_null : null.size = 4 := rfl

@[simp] theorem size_true : (bool true).size = 4 := rfl

theorem size_number (text : Text) : (number text).size = measure utf8Width text :=
  length_encode text

theorem size_string (value : Text) : (string value).size = measure utf8Width (quote value) :=
  length_encode (quote value)

theorem size_array (items : List JsonTree) : (array items).size = (items.map size).sum +
    (items.length - 1) + 2 := by
  have hcomma : measure utf8Width compactStyle.comma = 1 := rfl
  rw [size, sizeIn_array, hcomma, Nat.one_mul]
  rfl

theorem size_object (fields : List (Text × JsonTree)) :
    (object fields).size = frame
    (fields.map Prod.fst) + (fields.map fun field => field.2.size).sum :=
  sizeIn_object compactStyle fields

theorem two_le_size_object (fields : List (Text × JsonTree)) : 2 ≤ (object fields).size := by
  rw [size_object, frame, frameIn]
  omega

/-- Each item that is left out of an array frees its own bytes. -/
theorem size_array_filter {α} (dump : α → JsonTree) {least : ℕ}
    (hleast : ∀ item, least ≤ (dump item).size) (keep : α → Bool) (items : List α) :
    (array ((items.filter keep).map dump)).size + least * items.countP
    (fun item => !keep item) ≤ (array (items.map dump)).size := by
  have hsum : (((items.filter keep).map dump).map size).sum + least *
    items.countP (fun item => !keep item) ≤
      ((items.map dump).map size).sum := by
    induction items with
    | nil => simp
    | cons item items ih =>
      have hitem := hleast item
      cases hkeep : keep item with
      | true =>
        simp only [List.filter_cons, hkeep, if_true, List.countP_cons, Bool.not_true,
          Bool.false_eq_true, if_false, Nat.add_zero, List.map_cons, List.sum_cons]
        omega
      | false =>
        simp only [List.filter_cons, hkeep, Bool.false_eq_true, if_false, List.countP_cons,
          Bool.not_false, if_true, List.map_cons, List.sum_cons, Nat.mul_add, Nat.mul_one]
        omega
  have hlength := List.length_filter_le keep items
  rw [size_array, size_array, List.length_map, List.length_map]
  omega

/-- As `json.dumps` with `sort_keys`. -/
def sortedStyle : Style :=
  ⟨[','], [':'], fun fields => fields.insertionSort fun a b => a.1 ≤ b.1, fun fields =>
    List.perm_insertionSort _ fields⟩

mutual

theorem dumps_eq : ∀ tree : JsonTree, tree.dumps = tree.write sortedStyle
  | .null => rfl
  | .bool true => rfl
  | .bool false => rfl
  | .number _ => rfl
  | .string _ => rfl
  | .array items => by
    rw [dumps, write, dumpsItems_write items]
    rfl
  | .object fields => by
    rw [dumps, write, dumpsFields_write fields]
    rfl

theorem dumpsItems_write : ∀ items : List JsonTree, dumpsItems items = writeItems sortedStyle items
  | [] => rfl
  | item :: items => by rw [dumpsItems, writeItems, dumps_eq item, dumpsItems_write items]

theorem dumpsFields_write : ∀ fields : List (Text × JsonTree),
    dumpsFields fields = writeFields sortedStyle fields
  | [] => rfl
  | (key, value) :: fields => by
    rw [dumpsFields, writeFields, dumps_eq value, dumpsFields_write fields]

end

mutual

/-- Two styles with the same separators take the same bytes. -/
theorem sizeIn_congr {first second : Style} (hcomma : first.comma = second.comma)
    (hcolon : first.colon = second.colon) :
    ∀ tree : JsonTree, tree.sizeIn first = tree.sizeIn second
  | .null => rfl
  | .bool true => rfl
  | .bool false => rfl
  | .number _ => rfl
  | .string _ => rfl
  | .array items => by rw [sizeIn_array, sizeIn_array, sizeItems_congr hcomma hcolon items, hcomma]
  | .object fields => by
    rw [sizeIn_object, sizeIn_object, sizeFields_congr hcomma hcolon fields, frameIn, frameIn,
      hcomma, hcolon]

theorem sizeItems_congr {first second : Style} (hcomma : first.comma = second.comma)
    (hcolon : first.colon = second.colon) :
    ∀ items : List JsonTree, (items.map fun item => item.sizeIn first).sum =
      (items.map fun item => item.sizeIn second).sum
  | [] => rfl
  | item :: items => by
    rw [List.map_cons, List.map_cons, List.sum_cons, List.sum_cons, sizeIn_congr hcomma hcolon item,
      sizeItems_congr hcomma hcolon items]

theorem sizeFields_congr {first second : Style} (hcomma : first.comma = second.comma)
    (hcolon : first.colon = second.colon) :
    ∀ fields : List (Text × JsonTree),
      (fields.map fun field => field.2.sizeIn first).sum =
      (fields.map fun field => field.2.sizeIn second).sum
  | [] => rfl
  | (key, value) :: fields => by
    rw [List.map_cons, List.map_cons, List.sum_cons, List.sum_cons,
      sizeIn_congr hcomma hcolon value, sizeFields_congr hcomma hcolon fields]

end

theorem length_encode_dumps (tree : JsonTree) : (encode tree.dumps).length = tree.size := by
  have hcomma : sortedStyle.comma = compactStyle.comma := rfl
  have hcolon : sortedStyle.colon = compactStyle.colon := rfl
  rw [dumps_eq]
  exact sizeIn_congr hcomma hcolon tree

/-! ## PostgreSQL -/

/-- A key stands before another if it is shorter, or as long and not after it in bytes. -/
def jsonbBefore (a b : Text × Text) : Bool :=
  (encode a.1).length < (encode b.1).length ||
    ((encode a.1).length == (encode b.1).length && bytesLe (encode a.1) (encode b.1))

/-- As a `jsonb` is cast to text. -/
def jsonbStyle : Style :=
  ⟨", ".toList, ": ".toList, fun fields => fields.insertionSort fun a b => jsonbBefore a b = true,
    fun fields => List.perm_insertionSort _ fields⟩

/-! ## Texts without escapes -/

/-- A character that a JSON string holds as one byte. -/
def verbatim (c : Char) : Bool := decide (escapeChar c = [c]) && decide (c.toNat < 128)

theorem measure_verbatim {text : Text} (h : text.all verbatim = true) :
    measure utf8Width text = text.length := by
  induction text with
  | nil => rfl
  | cons c text ih =>
    rw [List.all_cons, Bool.and_eq_true] at h
    have hc : c.toNat < 128 := of_decide_eq_true (Bool.and_eq_true_iff.mp h.1).2
    rw [measure_cons, utf8Width_ascii c hc, ih h.2, List.length_cons, Nat.add_comm]

theorem size_verbatim {text : Text} (h : text.all verbatim = true) :
    (string text).size = text.length + 2 := by
  rw [size_string, measure_quote utf8Width utf8Width_ascii fun c hc => ?_, measure_verbatim h]
  exact of_decide_eq_true (Bool.and_eq_true_iff.mp (List.all_eq_true.mp h c hc)).1

theorem measure_quote_verbatim {text : Text} (h : text.all verbatim = true) : measure utf8Width
    (quote text) = text.length + 2 := by
  rw [← size_string, size_verbatim h]

/-- Keys without escapes take two bytes each beside their characters and the colon. -/
theorem frameIn_verbatim (style : Style) {keys : List Text}
    (h : (keys.all fun key => key.all verbatim) = true) :
    frameIn style keys =
      (keys.map fun key => key.length + (2 + measure utf8Width style.colon)).sum +
      measure utf8Width style.comma * (keys.length - 1) + 2 := by
  rw [frameIn]
  congr 3
  refine List.map_congr_left fun key hkey => ?_
  rw [measure_quote_verbatim (List.all_eq_true.mp h key hkey), Nat.add_assoc]

theorem frame_verbatim {keys : List Text} (h : (keys.all fun key => key.all verbatim) = true) :
    frame keys = (keys.map fun key => key.length + 3).sum + (keys.length - 1) + 2 := by
  have hcomma : measure utf8Width compactStyle.comma = 1 := rfl
  rw [frame, frameIn_verbatim compactStyle h, hcomma, Nat.one_mul]
  rfl

theorem verbatim_digit {c : Char} (h : c.isDigit = true) : verbatim c = true := by
  have hall : ∀ n : Fin 10, verbatim (Char.ofNat (48 + n.val)) = true := by decide
  have hrange : 48 ≤ c.toNat ∧ c.toNat ≤ 57 := by
    simpa [Char.isDigit, UInt32.le_iff_toNat_le] using h
  have heq : Char.ofNat (48 + (c.toNat - 48)) = c := by
    rw [Nat.add_sub_cancel' hrange.1, Char.ofNat_toNat]
  have := hall ⟨c.toNat - 48, by omega⟩
  rwa [heq] at this

theorem uuid_verbatim (id : Uuid) : id.str.all verbatim = true := by
  have hall : ("0123456789abcdef-".toList.all verbatim) = true := by decide
  rw [List.all_eq_true]
  intro c hc
  exact List.all_eq_true.mp hall c (Uuid.str_chars id hc)

@[simp] theorem size_int (n : ℕ) : (int n).size = numeralLength n := by
  have htext : (toString (n : Int)).toList = Nat.toDigits 10 n := by
    rw [show toString (n : Int) = n.repr from rfl, Nat.toList_repr]
  rw [int, size_number, htext, measure_verbatim, numeralLength]
  rw [List.all_eq_true]
  intro c hc
  exact verbatim_digit (Nat.isDigit_of_mem_toDigits (by decide) (by decide) hc)

end JsonTree

end Novalton
