/-
Non-negative decimal numbers as Python's `decimal` computes with them: a coefficient and
an exponent, and operations that round their exact result half-even to the precision of
the context. Nothing here names the repository.
-/
import Mathlib.Data.Nat.Log
import Mathlib.Data.Rat.Floor
import Mathlib.Tactic.FieldSimp
import Mathlib.Tactic.Linarith
import Mathlib.Tactic.NormNum
import Mathlib.Tactic.Positivity
import Mathlib.Tactic.Ring

namespace Novalton

/-! ### Rounding half-even -/

/-- The integer nearest to `x`, the even one of two. -/
def roundHalfEven (x : Rat) : Int :=
  if x - ⌊x⌋ < 1 / 2 ∨ x - ⌊x⌋ = 1 / 2 ∧ ⌊x⌋ % 2 = 0 then ⌊x⌋ else ⌊x⌋ + 1

/-- The same for a quotient of naturals. -/
def divHalfEven (n d : ℕ) : ℕ :=
  if 2 * (n % d) < d ∨ 2 * (n % d) = d ∧ n / d % 2 = 0 then n / d else n / d + 1

theorem div_le_divHalfEven (n d : ℕ) : n / d ≤ divHalfEven n d := by
  unfold divHalfEven
  split <;> omega

theorem divHalfEven_le (n d : ℕ) : divHalfEven n d ≤ n / d + 1 := by
  unfold divHalfEven
  split <;> omega

@[simp] theorem divHalfEven_one (n : ℕ) : divHalfEven n 1 = n := by
  simp [divHalfEven, Nat.mod_one]

theorem roundHalfEven_div (n d : ℕ) (hd : 0 < d) : roundHalfEven
    ((n : Rat) / d) = divHalfEven n d := by
  have hd' : (0 : Rat) < d := by exact_mod_cast hd
  have hfloor : ⌊(n : Rat) / d⌋ = ((n / d : ℕ) : Int) := by
    rw [Rat.floor_natCast_div_natCast]; norm_cast
  have hrest : (n : Rat) / d - ((n / d : ℕ) : Int) = ((n % d : ℕ) : Rat) / d := by
    have hsplit : ((d * (n / d) + n % d : ℕ) : Rat) = n := by rw [Nat.div_add_mod]
    rw [Nat.cast_add, Nat.cast_mul] at hsplit
    rw [Int.cast_natCast, eq_div_iff hd'.ne', sub_mul, div_mul_cancel₀ _ hd'.ne']
    linarith
  have hlt : ((n % d : ℕ) : Rat) / d < 1 / 2 ↔ 2 * (n % d) < d := by
    rw [div_lt_div_iff₀ hd' (by norm_num)]
    norm_cast
    omega
  have heq : ((n % d : ℕ) : Rat) / d = 1 / 2 ↔ 2 * (n % d) = d := by
    rw [div_eq_div_iff hd'.ne' (by norm_num)]
    norm_cast
    omega
  have heven : ((n / d : ℕ) : Int) % 2 = 0 ↔ n / d % 2 = 0 := by omega
  unfold roundHalfEven divHalfEven
  simp only [hfloor, hrest, hlt, heq, heven]
  split <;> simp

theorem roundHalfEven_lower (x : Rat) : x - 1 < roundHalfEven x := by
  have hfloor := Int.sub_one_lt_floor x
  unfold roundHalfEven
  split
  · exact hfloor
  · push_cast; linarith

theorem roundHalfEven_upper (x : Rat) : roundHalfEven x ≤ x + 1 := by
  have hfloor := Int.floor_le x
  unfold roundHalfEven
  split
  · linarith
  · push_cast; linarith

/-! ### Decimals -/

/-- `coefficient * 10 ^ exponent`. -/
structure Decimal where
  coefficient : ℕ
  exponent : Int
deriving DecidableEq, Repr

namespace Decimal

def value (d : Decimal) : Rat := d.coefficient * (10 : Rat) ^ d.exponent

/-- `Decimal(n)`. -/
def ofNat (n : ℕ) : Decimal := ⟨n, 0⟩

/-- How many digits a coefficient is written with. -/
def digits (n : ℕ) : ℕ := Nat.log 10 n + 1

/-- The exponent of the leading digit. -/
def adjusted (d : Decimal) : Int := d.exponent + digits d.coefficient - 1

/-- The decimal rounded to `prec` digits. -/
def fix (prec : ℕ) (d : Decimal) : Decimal :=
  let drop := digits d.coefficient - prec
  let c := divHalfEven d.coefficient (10 ^ drop)
  -- rounding 99…9 up gives a digit too many, the last one a zero
  if digits c ≤ prec then ⟨c, d.exponent + drop⟩ else ⟨c / 10, d.exponent + drop + 1⟩

def mul (prec : ℕ) (a b : Decimal) : Decimal :=
  fix prec ⟨a.coefficient * b.coefficient, a.exponent + b.exponent⟩

def add (prec : ℕ) (a b : Decimal) : Decimal :=
  let e := min a.exponent b.exponent
  fix prec ⟨a.coefficient * 10 ^ (a.exponent - e).toNat + b.coefficient * 10 ^
    (b.exponent - e).toNat, e⟩

/-- Trailing zeros are dropped, `n` at most. -/
def reduce : ℕ → ℕ → Int → Decimal
  | 0, c, e => ⟨c, e⟩
  | n + 1, c, e => if c % 10 = 0 then reduce n (c / 10) (e + 1) else ⟨c, e⟩

/-- The quotient to two digits more than the precision. An inexact one that ends in 0 or 5
gets a last digit that keeps it from looking exact; an exact one gives up its zeros as far
as the exponent of the operands. -/
def div (prec : ℕ) (a b : Decimal) : Decimal :=
  let shift : Int := digits b.coefficient - digits a.coefficient + prec + 1
  let n := a.coefficient * 10 ^ shift.toNat
  let d := b.coefficient * 10 ^ (-shift).toNat
  let e := a.exponent - b.exponent
  fix prec
    (if n % d ≠ 0 then ⟨if n / d % 5 = 0 then n / d + 1 else n / d, e - shift⟩
      else reduce shift.toNat (n / d) (e - shift))

/-- The decimal with the exponent `e`. -/
def rescale (d : Decimal) (e : Int) : Decimal :=
  ⟨divHalfEven (d.coefficient * 10 ^ (d.exponent - e).toNat) (10 ^ (e - d.exponent).toNat), e⟩

/-- `d.quantize(Decimal(1).scaleb(e))`: nothing where it raises `InvalidOperation`. -/
def quantize (prec : ℕ) (d : Decimal) (e : Int) : Option Decimal :=
  if d.coefficient = 0 then .some ⟨0, e⟩
  else if d.adjusted - e + 1 > prec then .none
  else
    let rounded := d.rescale e
    if digits rounded.coefficient > prec then .none else .some rounded

/-! ### What the operations keep of the value -/

theorem digits_le {n k : ℕ} (hk : 0 < k) : digits n ≤ k ↔ n < 10 ^ k := by
  unfold digits
  constructor
  · intro h
    exact Nat.lt_pow_of_log_lt (by norm_num) (by omega)
  · intro h
    have := Nat.log_lt_of_lt_pow' hk.ne' h
    omega

theorem lt_pow_digits (n : ℕ) : n < 10 ^ digits n := Nat.lt_pow_succ_log_self (by norm_num) n

theorem pow_digits_le {n : ℕ} (hn : n ≠ 0) : 10 ^ (digits n - 1) ≤ n := by
  simpa [digits] using Nat.pow_log_le_self 10 hn

theorem value_nonneg (d : Decimal) : 0 ≤ d.value := by
  exact mul_nonneg (Nat.cast_nonneg _) (zpow_pos (by norm_num) _).le

@[simp] theorem value_ofNat (n : ℕ) : (ofNat n).value = n := by simp [value, ofNat]

theorem value_mk_add (c k : ℕ) (e : Int) : value ⟨c, e + k⟩ = value ⟨c * 10 ^ k, e⟩ := by
  simp only [value]
  rw [zpow_add₀ (by norm_num)]
  push_cast
  rw [zpow_natCast]
  ring

/-- A decimal of at most `prec` digits stays as it is. -/
theorem fix_of_lt {prec : ℕ} (hp : 0 < prec) {d : Decimal} (h : d.coefficient < 10 ^ prec) :
    fix prec d = d := by
  have hdigits := (digits_le hp).mpr h
  have hdrop : digits d.coefficient - prec = 0 := by omega
  simp [fix, hdrop, hdigits]

/-- The rounded coefficient, before a digit too many is taken from it. -/
theorem value_fix {prec : ℕ} (hp : 0 < prec) (d : Decimal) :
    (fix prec d).value =
      value ⟨divHalfEven d.coefficient (10 ^ (digits d.coefficient - prec)) * 10 ^
        (digits d.coefficient - prec), d.exponent⟩ ∧
      (fix prec d).coefficient < 10 ^ prec := by
  set drop := digits d.coefficient - prec with hdrop
  set c := divHalfEven d.coefficient (10 ^ drop) with hc
  have hquot : d.coefficient / 10 ^ drop < 10 ^ prec := by
    rw [Nat.div_lt_iff_lt_mul (by positivity), ← pow_add]
    calc d.coefficient < 10 ^ digits d.coefficient := lt_pow_digits _
      _ ≤ 10 ^ (prec + drop) := Nat.pow_le_pow_right (by norm_num) (by omega)
  have hle : c ≤ 10 ^ prec := by
    have := divHalfEven_le d.coefficient (10 ^ drop)
    omega
  unfold fix
  simp only [← hdrop, ← hc]
  split
  · rename_i hdigits
    exact ⟨value_mk_add c drop d.exponent, (digits_le hp).mp hdigits⟩
  · rename_i hdigits
    -- then the coefficient is the power of ten itself
    have heq : c = 10 ^ prec := by
      have := (digits_le hp).not.mp hdigits
      omega
    have hpow : (10 : ℕ) ^ prec = 10 ^ (prec - 1) * 10 := by
      rw [← pow_succ, Nat.sub_add_cancel hp]
    have hten : c / 10 = 10 ^ (prec - 1) := by omega
    have hlt : 10 ^ (prec - 1) < 10 ^ prec := Nat.pow_lt_pow_right (by norm_num) (by omega)
    refine ⟨?_, by rw [hten]; exact hlt⟩
    have hshift := value_mk_add (c / 10) (drop + 1) d.exponent
    push_cast at hshift
    rw [add_assoc, hshift, hten, heq, hpow, pow_succ]
    ring_nf

/-- Rounding at most doubles a value, and at most halves it. -/
theorem value_fix_le {prec : ℕ} (hp : 0 < prec) (d : Decimal) :
    (fix prec d).value ≤ 2 * d.value ∧ d.value ≤ 2 * (fix prec d).value := by
  by_cases hlt : d.coefficient < 10 ^ prec
  · rw [fix_of_lt hp hlt]
    have := d.value_nonneg
    constructor <;> linarith
  rw [(value_fix hp d).1]
  set drop := digits d.coefficient - prec with hdrop
  set c := divHalfEven d.coefficient (10 ^ drop) with hc
  have hpos : d.coefficient ≠ 0 := by
    have : 0 < 10 ^ prec := by positivity
    omega
  have hpow : 10 ^ drop ≤ d.coefficient :=
    le_trans (Nat.pow_le_pow_right (by norm_num) (by omega)) (pow_digits_le hpos)
  have hdiv := Nat.div_add_mod d.coefficient (10 ^ drop)
  have hmod := Nat.mod_lt d.coefficient (show 0 < 10 ^ drop by positivity)
  have hone : 1 ≤ d.coefficient / 10 ^ drop := by
    rw [Nat.le_div_iff_mul_le (by positivity)]; omega
  have hupper : c * 10 ^ drop ≤ 2 * d.coefficient := by
    have h : c * 10 ^ drop ≤ (d.coefficient / 10 ^ drop + 1) * 10 ^ drop :=
      Nat.mul_le_mul_right _ (divHalfEven_le _ _)
    rw [Nat.add_mul, Nat.mul_comm (d.coefficient / 10 ^ drop)] at h
    omega
  have hlower : d.coefficient ≤ 2 * (c * 10 ^ drop) := by
    have h : d.coefficient / 10 ^ drop * 10 ^ drop ≤ c * 10 ^ drop :=
      Nat.mul_le_mul_right _ (div_le_divHalfEven _ _)
    have h' : 10 ^ drop ≤ d.coefficient / 10 ^ drop * 10 ^ drop := Nat.le_mul_of_pos_left _ hone
    rw [Nat.mul_comm (d.coefficient / 10 ^ drop)] at h h'
    omega
  have hscale : (0 : Rat) ≤ (10 : Rat) ^ d.exponent := (zpow_pos (by norm_num) _).le
  unfold value
  constructor
  · rw [← mul_assoc]
    exact mul_le_mul_of_nonneg_right (by exact_mod_cast hupper) hscale
  · rw [← mul_assoc]
    exact mul_le_mul_of_nonneg_right (by exact_mod_cast hlower) hscale

@[simp] theorem ofNat_exponent (n : ℕ) : (ofNat n).exponent = 0 := rfl

theorem value_product (a b : Decimal) :
    value ⟨a.coefficient * b.coefficient, a.exponent + b.exponent⟩ = a.value * b.value := by
  simp only [value]
  rw [zpow_add₀ (by norm_num)]
  push_cast
  ring

theorem value_sum (a b : Decimal) :
    value ⟨a.coefficient * 10 ^ (a.exponent - min a.exponent b.exponent).toNat +
      b.coefficient * 10 ^ (b.exponent - min a.exponent b.exponent).toNat,
        min a.exponent b.exponent⟩ =
      a.value + b.value := by
  have ha : a.exponent = min a.exponent b.exponent +
    ((a.exponent - min a.exponent b.exponent).toNat : ℕ) := by omega
  have hb : b.exponent = min a.exponent b.exponent +
    ((b.exponent - min a.exponent b.exponent).toNat : ℕ) := by omega
  have hav := value_mk_add a.coefficient (a.exponent - min a.exponent b.exponent).toNat
    (min a.exponent b.exponent)
  have hbv := value_mk_add b.coefficient (b.exponent - min a.exponent b.exponent).toNat
    (min a.exponent b.exponent)
  rw [← ha] at hav
  rw [← hb] at hbv
  rw [show a.value = _ from hav, show b.value = _ from hbv]
  simp only [value]
  push_cast
  ring

theorem value_reduce (n c : ℕ) (e : Int) : (reduce n c e).value = value ⟨c, e⟩ := by
  induction n generalizing c e with
  | zero => rfl
  | succ n ih =>
    unfold reduce
    split
    · rename_i h
      have hten : c / 10 * 10 = c := by omega
      have hone := value_mk_add (c / 10) 1 e
      rw [ih]
      simpa [hten] using hone
    · rfl

theorem reduce_le (n c : ℕ) (e : Int) : (reduce n c e).coefficient ≤ c := by
  induction n generalizing c e with
  | zero => exact le_rfl
  | succ n ih =>
    unfold reduce
    split
    · exact le_trans (ih _ _) (by omega)
    · exact le_rfl

/-- Zeros that were put behind a coefficient are dropped again. -/
theorem reduce_mul_pow (k n c : ℕ) (e : Int) (h : k ≤ n) :
    reduce n (c * 10 ^ k) e = reduce (n - k) c (e + k) := by
  induction k generalizing n e with
  | zero => simp
  | succ k ih =>
    obtain ⟨n, rfl⟩ : ∃ m, n = m + 1 := ⟨n - 1, by omega⟩
    have hmod : c * 10 ^ (k + 1) % 10 = 0 := by rw [pow_succ, ← mul_assoc]; omega
    have hdiv : c * 10 ^ (k + 1) / 10 = c * 10 ^ k := by rw [pow_succ, ← mul_assoc]; omega
    rw [reduce, if_pos hmod, hdiv, ih n (e + 1) (by omega)]
    congr 1
    · omega
    · push_cast; ring

/-- Dividing by a power of ten is exact. -/
theorem value_div_pow {prec k : ℕ} (hp : 0 < prec) {a : Decimal} (h : a.coefficient < 10 ^ prec) :
    (div prec a (ofNat (10 ^ k))).value = a.value / 10 ^ k := by
  have hdigits : digits a.coefficient ≤ prec := (digits_le hp).mpr h
  have hk : digits (10 ^ k) = k + 1 := by simp [digits]
  set m := prec + 1 + 1 - digits a.coefficient with hm
  have hshift : ((digits (10 ^ k) : ℕ) : Int) - digits a.coefficient + prec + 1 =
      ((m + k : ℕ) : Int) := by
    rw [hk, hm]; omega
  have hneg : (-((m + k : ℕ) : Int)).toNat = 0 := by omega
  have hn : a.coefficient * 10 ^ (m + k) = a.coefficient * 10 ^ m * 10 ^ k := by
    rw [pow_add, mul_assoc]
  have hmod : a.coefficient * 10 ^ (m + k) % 10 ^ k = 0 := by rw [hn]; exact Nat.mul_mod_left _ _
  have hquot : a.coefficient * 10 ^ (m + k) / 10 ^ k = a.coefficient * 10 ^ m := by
    rw [hn]; exact Nat.mul_div_cancel _ (by positivity)
  unfold div ofNat
  simp only [hshift, Int.toNat_natCast, hneg, pow_zero, mul_one, hmod, ne_eq, not_true_eq_false,
    if_false, hquot]
  rw [reduce_mul_pow m (m + k) _ _ (by omega)]
  rw [fix_of_lt hp (lt_of_le_of_lt (reduce_le _ _ _) h), value_reduce]
  have hexp : a.exponent - 0 - ((m + k : ℕ) : Int) + (m : ℕ) = a.exponent - (k : ℕ) := by
    push_cast; ring
  rw [hexp]
  simp only [value]
  rw [zpow_sub₀ (by norm_num), zpow_natCast]
  ring

/-- The rescaled coefficient is the value in units of `10 ^ e`, rounded half-even. -/
theorem rescale_coefficient (d : Decimal) (e : Int) :
    ((d.rescale e).coefficient : Int) = roundHalfEven (d.value / (10 : Rat) ^ e) := by
  have hquot : d.value / (10 : Rat) ^ e =
      ((d.coefficient * 10 ^ (d.exponent - e).toNat : ℕ) : Rat) /
          ((10 ^ (e - d.exponent).toNat : ℕ) : Rat) := by
    unfold value
    rw [mul_div_assoc, ← zpow_sub₀ (by norm_num)]
    push_cast
    rw [mul_div_assoc, ← zpow_natCast, ← zpow_natCast, ← zpow_sub₀ (by norm_num)]
    congr 2
    omega
  rw [hquot, roundHalfEven_div _ _ (by positivity)]
  rfl

/-- `quantize` does not fail below a tenth of what the precision holds. -/
theorem quantize_of_lt {prec : ℕ} (hp : 0 < prec) {d : Decimal} {e : Int}
    (h : d.value < (10 : Rat) ^ ((prec : Int) - 1 + e)) : d.quantize prec e = .some
    (d.rescale e) := by
  unfold quantize
  by_cases hzero : d.coefficient = 0
  · simp [hzero, rescale, divHalfEven]
  · have hlead : (10 : Rat) ^ d.adjusted ≤ d.value := by
      have hpow : ((10 ^ (digits d.coefficient - 1) : ℕ) : Rat) ≤ d.coefficient := by
        exact_mod_cast pow_digits_le hzero
      have hsplit : d.adjusted = ((digits d.coefficient - 1 : ℕ) : Int) + d.exponent := by
        unfold adjusted digits; omega
      rw [hsplit, zpow_add₀ (by norm_num), zpow_natCast]
      push_cast at hpow
      exact mul_le_mul_of_nonneg_right hpow (zpow_pos (by norm_num) _).le
    have hadjusted : d.adjusted < (prec : Int) - 1 + e :=
      (zpow_lt_zpow_iff_right₀ (by norm_num : (1 : Rat) < 10)).mp (lt_of_le_of_lt hlead h)
    have hvalue : d.value / (10 : Rat) ^ e < 10 ^ (prec - 1) := by
      rw [div_lt_iff₀ (zpow_pos (by norm_num) _), ← zpow_natCast, ← zpow_add₀ (by norm_num)]
      calc d.value < _ := h
        _ = _ := by congr 1; omega
    have hcoefficient : (d.rescale e).coefficient < 10 ^ prec := by
      have hround := roundHalfEven_upper (d.value / (10 : Rat) ^ e)
      rw [← rescale_coefficient] at hround
      have hle : ((d.rescale e).coefficient : Rat) < ((10 ^ (prec - 1) + 1 : ℕ) : Rat) := by
        push_cast at hround ⊢
        linarith
      have hle' : (d.rescale e).coefficient < 10 ^ (prec - 1) + 1 := by exact_mod_cast hle
      have hten : (10 : ℕ) ^ (prec - 1) * 10 = 10 ^ prec := by
        rw [← pow_succ, Nat.sub_add_cancel hp]
      have hpos : 0 < 10 ^ (prec - 1) := by positivity
      omega
    have hdigits := (digits_le hp).mpr hcoefficient
    rw [if_neg hzero, if_neg (by omega)]
    simp only [if_neg (show ¬ digits (d.rescale e).coefficient > prec by omega)]

/-! ### Where nothing is rounded -/

section
variable {prec k : ℕ} {a b : Decimal}

theorem coefficient_le {d : Decimal} (h : -(k : Int) ≤ d.exponent) :
    (d.coefficient : Rat) ≤ d.value * 10 ^ k := by
  have hone : (1 : Rat) ≤ (10 : Rat) ^ (d.exponent + k) := one_le_zpow₀ (by norm_num) (by omega)
  have hc : (0 : Rat) ≤ d.coefficient := Nat.cast_nonneg _
  unfold value
  rw [mul_assoc, ← zpow_natCast, ← zpow_add₀ (by norm_num)]
  nlinarith

theorem coefficient_lt {d : Decimal} (h : -(k : Int) ≤ d.exponent)
    (hlt : d.value * 10 ^ k < 10 ^ prec) :
    d.coefficient < 10 ^ prec := by
  have hle : (d.coefficient : Rat) < ((10 ^ prec : ℕ) : Rat) := by
    push_cast
    exact lt_of_le_of_lt (coefficient_le h) hlt
  exact_mod_cast hle

/-- A product that fits the precision in units of `10 ^ -k` is exact. -/
theorem mul_exact (hp : 0 < prec) (hexp : -(k : Int) ≤ a.exponent + b.exponent)
    (hlt : a.value * b.value * 10 ^ k < 10 ^ prec) :
    (mul prec a b).value = a.value * b.value ∧ (mul prec a b).exponent = a.exponent +
    b.exponent := by
  have hfix : mul prec a b = ⟨a.coefficient * b.coefficient, a.exponent + b.exponent⟩ := by
    refine fix_of_lt hp (coefficient_lt hexp ?_)
    rwa [value_product]
  rw [hfix, value_product]
  exact ⟨rfl, rfl⟩

/-- So is such a sum, and its coefficient stays below the precision. -/
theorem add_exact (hp : 0 < prec) (ha : -(k : Int) ≤ a.exponent) (hb : -(k : Int) ≤ b.exponent)
    (hlt : (a.value + b.value) * 10 ^ k < 10 ^ prec) :
    (add prec a b).value = a.value + b.value ∧ (add prec a b).coefficient < 10 ^ prec := by
  have hexp : -(k : Int) ≤ min a.exponent b.exponent := le_min ha hb
  have hsum : (⟨a.coefficient * 10 ^ (a.exponent - min a.exponent b.exponent).toNat +
      b.coefficient * 10 ^ (b.exponent - min a.exponent b.exponent).toNat,
        min a.exponent b.exponent⟩ :
      Decimal).coefficient < 10 ^ prec := by
    refine coefficient_lt hexp ?_
    rwa [value_sum]
  rw [add, fix_of_lt hp hsum, value_sum]
  exact ⟨rfl, hsum⟩

/-! ### Where it is -/

theorem mul_bounds (hp : 0 < prec) :
    (mul prec a b).value ≤ 2 * (a.value * b.value) ∧
    a.value * b.value ≤ 2 * (mul prec a b).value := by
  have h := value_fix_le hp ⟨a.coefficient * b.coefficient, a.exponent + b.exponent⟩
  rwa [value_product] at h

theorem add_bounds (hp : 0 < prec) :
    (add prec a b).value ≤ 2 * (a.value + b.value) ∧
    a.value + b.value ≤ 2 * (add prec a b).value := by
  have h := value_fix_le hp ⟨a.coefficient * 10 ^ (a.exponent - min a.exponent b.exponent).toNat +
    b.coefficient * 10 ^ (b.exponent - min a.exponent b.exponent).toNat, min a.exponent b.exponent⟩
  rwa [value_sum] at h

theorem add_coefficient_lt (hp : 0 < prec) : (add prec a b).coefficient < 10 ^ prec :=
  (value_fix hp _).2

theorem div_coefficient_lt (hp : 0 < prec) : (div prec a b).coefficient < 10 ^ prec := by
  unfold div
  exact (value_fix hp _).2

end

/-! ### Digits and places of a decimal -/

/-- The decimal places a decimal is written with. -/
def places (d : Decimal) : ℕ := (-d.exponent).toNat

/-- Its digits: those of the coefficient with the zeros a positive exponent puts behind
them, or with those between them and the point. -/
def totalDigits (d : Decimal) : ℕ :=
  if 0 ≤ d.exponent then digits d.coefficient + d.exponent.toNat
    else max (digits d.coefficient) d.places

def wholeDigits (d : Decimal) : ℕ := d.totalDigits - d.places

/-- `d.normalize()`: rounded to the context and without trailing zeros. -/
def normalize (prec : ℕ) (d : Decimal) : Decimal :=
  let rounded := fix prec d
  if rounded.coefficient = 0 then ⟨0, 0⟩
  else reduce (digits rounded.coefficient) rounded.coefficient rounded.exponent

/-- `Field(max_digits, decimal_places)`: every check passes for the decimal as it is
written, or for its normalized form. -/
def admitted (prec maxDigits decimalPlaces : ℕ) (d : Decimal) : Bool :=
  let normalized := d.normalize prec
  (normalized.totalDigits ≤ maxDigits || d.totalDigits ≤ maxDigits) &&
  (normalized.places ≤ decimalPlaces || d.places ≤ decimalPlaces) &&
  (normalized.wholeDigits ≤ maxDigits - decimalPlaces || d.wholeDigits ≤ maxDigits - decimalPlaces)

theorem places_le_iff {d : Decimal} {k : ℕ} : d.places ≤ k ↔ -(k : Int) ≤ d.exponent := by
  unfold places
  omega

theorem wholeDigits_le_iff {d : Decimal} {w : ℕ} : d.wholeDigits ≤ w ↔
    digits d.coefficient + d.exponent ≤ w := by
  unfold wholeDigits totalDigits places
  split <;> omega

theorem totalDigits_le {d : Decimal} : d.totalDigits ≤ d.wholeDigits + d.places := by
  unfold wholeDigits
  omega

theorem value_lt_iff {d : Decimal} (h : d.coefficient ≠ 0) {w : ℕ} :
    d.value < 10 ^ w ↔ digits d.coefficient + d.exponent ≤ w := by
  have hpos : (0 : Rat) < (10 : Rat) ^ d.exponent := zpow_pos (by norm_num) _
  constructor
  · intro hlt
    have hpow : ((10 ^ (digits d.coefficient - 1) : ℕ) : Rat) ≤ d.coefficient := by
      exact_mod_cast pow_digits_le h
    have hlead : (10 : Rat) ^ (((digits d.coefficient - 1 : ℕ) : Int) + d.exponent) < (10 : Rat) ^
        (w : Int) := by
      rw [zpow_add₀ (by norm_num), zpow_natCast, zpow_natCast]
      push_cast at hpow
      exact lt_of_le_of_lt (mul_le_mul_of_nonneg_right hpow hpos.le) hlt
    have hexp := (zpow_lt_zpow_iff_right₀ (by norm_num : (1 : Rat) < 10)).mp hlead
    have hdigits : 1 ≤ digits d.coefficient := by unfold digits; omega
    omega
  · intro hle
    have hlt : (d.coefficient : Rat) < ((10 ^ digits d.coefficient : ℕ) : Rat) := by
      exact_mod_cast lt_pow_digits _
    calc d.value < ((10 ^ digits d.coefficient : ℕ) : Rat) * (10 : Rat) ^ d.exponent :=
      mul_lt_mul_of_pos_right hlt hpos
      _ = (10 : Rat) ^ ((digits d.coefficient : Int) + d.exponent) := by
        rw [zpow_add₀ (by norm_num), zpow_natCast]; push_cast; rfl
      _ ≤ (10 : Rat) ^ (w : Int) := zpow_le_zpow_right₀ (by norm_num) hle
      _ = 10 ^ w := zpow_natCast _ _

theorem value_mul_pow {d : Decimal} {k : ℕ} (h : -(k : Int) ≤ d.exponent) :
    ∃ n : ℕ, d.value * 10 ^ k = n := by
  refine ⟨d.coefficient * 10 ^ (d.exponent + k).toNat, ?_⟩
  unfold value
  rw [mul_assoc, ← zpow_natCast, ← zpow_add₀ (by norm_num)]
  push_cast
  rw [← zpow_natCast, Int.toNat_of_nonneg (by omega)]

/-- Without a trailing zero, the places are all needed. -/
theorem le_exponent {d : Decimal} (h : d.coefficient % 10 ≠ 0) {k : ℕ}
    (hn : ∃ n : ℕ, d.value * 10 ^ k = n) :
    -(k : Int) ≤ d.exponent := by
  by_contra hlt
  obtain ⟨n, hn⟩ := hn
  obtain ⟨j, hj⟩ : ∃ j : ℕ, d.exponent = -(k : Int) - (j + 1 : ℕ) :=
    ⟨(-(k : Int) - d.exponent - 1).toNat, by omega⟩
  have hcoefficient : (d.coefficient : Rat) = ((n * 10 ^ (j + 1) : ℕ) : Rat) := by
    have hpow : (10 : Rat) ^ (j + 1) ≠ 0 := by positivity
    rw [value, hj, zpow_sub₀ (by norm_num), zpow_neg, zpow_natCast, zpow_natCast] at hn
    push_cast
    rw [← hn]
    field_simp
  have hnat : d.coefficient = n * 10 ^ (j + 1) := by exact_mod_cast hcoefficient
  rw [pow_succ, ← mul_assoc] at hnat
  omega

theorem reduce_no_zero (n c : ℕ) (e : Int) (hc : c ≠ 0) (hlt : c < 10 ^ n) :
    (reduce n c e).coefficient % 10 ≠ 0 := by
  induction n generalizing c e with
  | zero =>
    rw [pow_zero] at hlt
    omega
  | succ n ih =>
    unfold reduce
    split
    · refine ih _ _ (by omega) ?_
      rw [pow_succ] at hlt
      omega
    · assumption

/-- A normalized decimal within the precision: the same value, and zero or without trailing zeros.
-/
theorem normalize_spec {prec : ℕ} (hp : 0 < prec) {d : Decimal} (h : d.coefficient < 10 ^ prec) :
    (d.normalize prec).value = d.value ∧
    (d.normalize prec = ⟨0, 0⟩ ∨ (d.normalize prec).coefficient % 10 ≠ 0) := by
  unfold normalize
  rw [fix_of_lt hp h]
  simp only
  split
  · rename_i hzero
    exact ⟨by simp [value, hzero], .inl rfl⟩
  · rename_i hzero
    exact ⟨value_reduce _ _ _, .inr (reduce_no_zero _ _ _ hzero (lt_pow_digits _))⟩

/-- Within the precision, what is admitted is a multiple of the last place below the
power of ten of the whole digits. -/
theorem admitted_iff {prec w k : ℕ} (hp : 0 < prec) (hw : 0 < w) {d : Decimal}
    (h : d.coefficient < 10 ^ prec) :
    d.admitted prec (w + k) k = true ↔ (∃ n : ℕ, d.value * 10 ^ k = n) ∧ d.value < 10 ^ w := by
  obtain ⟨hvalue, hform⟩ := normalize_spec hp h
  have hbelow : ∀ e : Decimal, e.wholeDigits ≤ w → e.value < 10 ^ w := by
    intro e he
    by_cases hzero : e.coefficient = 0
    · simp only [value, hzero, Nat.cast_zero, zero_mul]
      positivity
    · exact (value_lt_iff hzero).mpr (wholeDigits_le_iff.mp he)
  unfold admitted
  simp only [Nat.add_sub_cancel, Bool.and_eq_true, Bool.or_eq_true, decide_eq_true_eq]
  constructor
  · rintro ⟨⟨-, hplaces⟩, hwhole⟩
    constructor
    · rcases hplaces with hplaces | hplaces
      · rw [← hvalue]
        exact value_mul_pow (places_le_iff.mp hplaces)
      · exact value_mul_pow (places_le_iff.mp hplaces)
    · rcases hwhole with hwhole | hwhole
      · rw [← hvalue]
        exact hbelow _ hwhole
      · exact hbelow _ hwhole
  · rintro ⟨hunits, hlt⟩
    rw [← hvalue] at hunits hlt
    have hparts : (d.normalize prec).places ≤ k ∧ (d.normalize prec).wholeDigits ≤ w := by
      rcases hform with hzero | hdigit
      · rw [hzero]
        simp [places, wholeDigits, totalDigits, digits]
        omega
      · have hne : (d.normalize prec).coefficient ≠ 0 := by omega
        exact ⟨places_le_iff.mpr (le_exponent hdigit hunits),
          wholeDigits_le_iff.mpr ((value_lt_iff hne).mp hlt)⟩
    have htotal := @totalDigits_le (d.normalize prec)
    exact ⟨⟨.inl (by omega), .inl hparts.1⟩, .inl hparts.2⟩

end Decimal
end Novalton
