/-
The end of a model run (`modules/model_usage/service.py`): `mark_succeeded` with its
checks of what the provider reported, and the cost it records.

Python's default context holds 28 digits. A row's prices are the values of
`Numeric(20, 10)` columns; `_actual_cost` multiplies, adds and divides decimals under
that context and quantizes the outcome to the ten places of the column.
-/
import Novalton.AgentContracts
import Novalton.Decimal

namespace Novalton.Usage

/-- The precision of the context. -/
def prec : ℕ := 28

/-- A value of a `Numeric(20, 10)` column that is not negative. -/
structure Money where
  amount : Decimal
  places : -10 ≤ amount.exponent
  whole : amount.value < 10 ^ 10

def MILLION : Decimal := .ofNat (10 ^ 6)

def MAX_TOKEN_COUNT : ℕ := 10 ^ 12

/-- `Decimal("9999999999.9999999999")` -/
def MAX_MONEY : Decimal := ⟨99999999999999999999, -10⟩

/-- The columns of `model_runs` that `mark_succeeded` reads and writes. -/
structure ModelRun where
  providerId : Text
  providerModelId : Text
  status : ModelRunStatus
  inputPricePerMillionSnapshot : Option Money
  outputPricePerMillionSnapshot : Option Money
  providerRequestId : Option Text
  finishReason : Option Text
  truncationClassification : Text
  providerResolvedModelId : Option Text
  upstreamProviderId : Option Text
  inputTokens : Option ℕ
  outputTokens : Option ℕ
  totalTokens : Option ℕ
  actualCost : Option Decimal
  durationMs : Option Rat

/-- A validated `GenerationResult`, without its content. -/
structure GenerationResult where
  providerId : Text
  modelId : Text
  providerResolvedModelId : Option Text
  upstreamProviderId : Option Text
  finishReason : Option Text
  inputTokens : Option ℕ
  outputTokens : Option ℕ
  totalTokens : Option ℕ
  providerRequestId : Option Text
  durationMs : Option Rat

inductive UsageError where
  | notFound
  | terminal
  | identityMismatch
  | invalidRequestId
  | invalidDuration
  | invalidTokens
  | inconsistentTokens
  | invalidCost
  /-- `decimal.InvalidOperation` -/
  | invalidOperation
deriving DecidableEq, Repr

/-- The code of the `ApplicationError`. -/
def UsageError.code : UsageError → Text
  | .notFound => "resource_not_found".toList
  | .terminal => "model_run_terminal".toList
  | .identityMismatch => "model_run_identity_mismatch".toList
  | .invalidRequestId => "model_run_invalid_request_id".toList
  | .invalidDuration => "model_run_invalid_duration".toList
  | .invalidTokens => "model_run_invalid_usage".toList
  | .inconsistentTokens => "model_run_invalid_usage".toList
  | .invalidCost => "model_run_invalid_usage".toList
  | .invalidOperation => []

/-- A letter or digit, then at most 127 letters, digits and `._:/+-`. -/
def SAFE_REQUEST_ID : Regex :=
  .seq (.char Contracts.alphanumeric)
    (.upTo (.char fun c => Contracts.alphanumeric c || ['.', '_', ':', '/', '+', '-'].contains c)
      127)

/-- `_require_running` -/
def requireRunning (run : Option ModelRun) : Except UsageError ModelRun :=
  match run with
  | .none => .error .notFound
  | .some run => if run.status = .running then .ok run else .error .terminal

/-- The product and sum of `_actual_cost`, before it is quantized. -/
def rawCost (inputTokens outputTokens : ℕ) (inputPrice outputPrice : Decimal) : Decimal :=
  .div prec
    (.add prec (.mul prec (.ofNat inputTokens) inputPrice)
      (.mul prec (.ofNat outputTokens) outputPrice))
    MILLION

/-- `_actual_cost` -/
def actualCost (run : ModelRun) (result : GenerationResult) : Except UsageError (Option Decimal) :=
  match result.inputTokens, result.outputTokens, run.inputPricePerMillionSnapshot,
      run.outputPricePerMillionSnapshot with
  | .some inputTokens, .some outputTokens, .some inputPrice, .some outputPrice =>
    match (rawCost inputTokens outputTokens inputPrice.amount outputPrice.amount).quantize prec
        (-10) with
    | .none => .error .invalidOperation
    | .some cost => if MAX_MONEY.value < cost.value then .error .invalidCost else .ok (.some cost)
  | _, _, _, _ => .ok .none

/-- The total that was reported contradicts the two counts. -/
def inconsistent (result : GenerationResult) : Bool :=
  match result.totalTokens, result.inputTokens, result.outputTokens with
  | .some total, .some input, .some output => total != input + output
  | _, _, _ => false

/-- The checks of `mark_succeeded` before it writes. -/
def checkResult (run : ModelRun) (result : GenerationResult) : Except UsageError Unit :=
  if (result.providerId, result.modelId) ≠ (run.providerId, run.providerModelId) then
    .error .identityMismatch
  else if result.providerRequestId.any (fun id => !SAFE_REQUEST_ID.fullmatch id) then
    .error .invalidRequestId
  else if result.durationMs.any (fun ms => decide (86400000 < ms)) then .error .invalidDuration
  else if [result.inputTokens, result.outputTokens, result.totalTokens].any
      (·.any fun n => decide (MAX_TOKEN_COUNT < n)) then .error .invalidTokens
  else if inconsistent result then .error .inconsistentTokens
  else .ok ()

def reportedTotal (result : GenerationResult) : Option ℕ :=
  match result.totalTokens, result.inputTokens, result.outputTokens with
  | .some total, _, _ => .some total
  | .none, .some input, .some output => .some (input + output)
  | _, _, _ => .none

/-- The row with the values the update sets. -/
def ModelRun.succeeded (run : ModelRun) (truncationClassification : Text)
    (result : GenerationResult) (actualCost : Option Decimal) : ModelRun :=
  { run with
    status := .succeeded
    providerRequestId := result.providerRequestId
    finishReason := result.finishReason
    truncationClassification := truncationClassification
    providerResolvedModelId := result.providerResolvedModelId
    upstreamProviderId := result.upstreamProviderId
    inputTokens := result.inputTokens
    outputTokens := result.outputTokens
    totalTokens := reportedTotal result
    actualCost := actualCost
    durationMs := result.durationMs }

/-- `mark_succeeded` of the run that was read. `running`: the update still finds it so. -/
def markSucceeded (found : Option ModelRun) (running : Bool) (truncationClassification : Text)
    (result : GenerationResult) :
    Except UsageError ModelRun := do
  let run ← requireRunning found
  checkResult run result
  let cost ← actualCost run result
  if running then return run.succeeded truncationClassification result cost else throw .terminal

/-! ### The exact cost -/

/-- What the tokens cost at the prices per million. -/
def exactCost (inputTokens outputTokens : ℕ) (inputPrice outputPrice : Rat) : Rat :=
  (inputTokens * inputPrice + outputTokens * outputPrice) / 10 ^ 6

/-- An amount rounded half-even to ten decimal places. -/
def toPlaces (x : Rat) : Rat := roundHalfEven (x * 10 ^ 10) / 10 ^ 10

theorem MAX_MONEY_value : MAX_MONEY.value = 10 ^ 10 - 1 / 10 ^ 10 := by
  simp only [Decimal.value, MAX_MONEY]
  norm_num

section
variable {inputTokens outputTokens : ℕ} {inputPrice outputPrice : Money}

/-- Below what the precision holds in units of `10 ^ -10`, nothing is rounded. -/
theorem rawCost_exact
    (h : inputTokens * inputPrice.amount.value + outputTokens * outputPrice.amount.value < 10 ^
      18) :
    (rawCost inputTokens outputTokens inputPrice.amount outputPrice.amount).value =
      exactCost inputTokens outputTokens inputPrice.amount.value outputPrice.amount.value := by
  have hp : 0 < prec := by decide
  have hin : 0 ≤ inputTokens * inputPrice.amount.value :=
    mul_nonneg (Nat.cast_nonneg _) inputPrice.amount.value_nonneg
  have hout : 0 ≤ outputTokens * outputPrice.amount.value :=
    mul_nonneg (Nat.cast_nonneg _) outputPrice.amount.value_nonneg
  have hprec : (10 : Rat) ^ prec = 10 ^ 18 * 10 ^ 10 := by norm_num [prec]
  obtain ⟨hmulIn, hexpIn⟩ :=
    Decimal.mul_exact (k := 10) (a := .ofNat inputTokens) (b := inputPrice.amount) hp
    (by have := inputPrice.places; simpa using this) (by rw [hprec, Decimal.value_ofNat]; linarith)
  obtain ⟨hmulOut, hexpOut⟩ :=
    Decimal.mul_exact (k := 10) (a := .ofNat outputTokens) (b := outputPrice.amount) hp
    (by have := outputPrice.places; simpa using this) (by rw [hprec, Decimal.value_ofNat]; linarith)
  rw [Decimal.value_ofNat] at hmulIn hmulOut
  obtain ⟨hsum, hlt⟩ :=
    Decimal.add_exact (k := 10) (a := .mul prec (.ofNat inputTokens) inputPrice.amount)
    (b := .mul prec (.ofNat outputTokens) outputPrice.amount) hp
    (by have := inputPrice.places; rw [hexpIn]; simpa using this)
    (by have := outputPrice.places; rw [hexpOut]; simpa using this)
    (by rw [hmulIn, hmulOut, hprec]; linarith)
  rw [rawCost, MILLION, Decimal.value_div_pow hp hlt, hsum, hmulIn, hmulOut]
  rfl

/-- The roundings together change a cost by a factor of four at most. -/
theorem rawCost_bounds :
    (rawCost inputTokens outputTokens inputPrice.amount outputPrice.amount).value ≤
      4 * exactCost inputTokens outputTokens inputPrice.amount.value outputPrice.amount.value ∧
    exactCost inputTokens outputTokens inputPrice.amount.value outputPrice.amount.value ≤
      4 * (rawCost inputTokens outputTokens inputPrice.amount outputPrice.amount).value := by
  have hp : 0 < prec := by decide
  have hin := Decimal.mul_bounds (a := .ofNat inputTokens) (b := inputPrice.amount) hp
  have hout := Decimal.mul_bounds (a := .ofNat outputTokens) (b := outputPrice.amount) hp
  rw [Decimal.value_ofNat] at hin hout
  have hsum := Decimal.add_bounds (a := .mul prec (.ofNat inputTokens) inputPrice.amount)
    (b := .mul prec (.ofNat outputTokens) outputPrice.amount) hp
  rw [rawCost, MILLION, Decimal.value_div_pow hp (Decimal.add_coefficient_lt hp), exactCost]
  constructor
  · rw [mul_div_assoc', div_le_div_iff_of_pos_right (by norm_num)]
    linarith [hin.1, hout.1, hsum.1]
  · rw [mul_div_assoc', div_le_div_iff_of_pos_right (by norm_num)]
    linarith [hin.2, hout.2, hsum.2]

end

theorem toPlaces_lower (x : Rat) : x - 1 / 10 ^ 10 < toPlaces x := by
  have h := roundHalfEven_lower (x * 10 ^ 10)
  have hscale : (x - 1 / 10 ^ 10) * 10 ^ 10 = x * 10 ^ 10 - 1 := by rw [sub_mul]; norm_num
  rw [toPlaces, lt_div_iff₀ (by norm_num), hscale]
  exact h

theorem rescale_value (d : Decimal) : (d.rescale (-10)).value = toPlaces d.value := by
  have hcoefficient := d.rescale_coefficient (-10)
  have hunits : d.value / (10 : Rat) ^ (-10 : Int) = d.value * 10 ^ 10 := by
    rw [zpow_neg, div_inv_eq_mul]; norm_cast
  rw [hunits] at hcoefficient
  have hcast : (((d.rescale (-10)).coefficient : ℕ) :
      Rat) = ((roundHalfEven (d.value * 10 ^ 10) : Int) : Rat) := by
    rw [← hcoefficient, Int.cast_natCast]
  have hexponent : (d.rescale (-10)).exponent = -10 := rfl
  rw [Decimal.value, hexponent, hcast, toPlaces, zpow_neg, div_eq_mul_inv]
  norm_cast

/-- The token counts bound the total: quantizing never fails, and where the total is too
large for the precision, both the exact cost and the computed one are above the maximum. -/
theorem rawCost_quantized {inputTokens outputTokens : ℕ} {inputPrice outputPrice : Money}
    (hin : inputTokens ≤ MAX_TOKEN_COUNT) (hout : outputTokens ≤ MAX_TOKEN_COUNT) :
    let exact := toPlaces
      (exactCost inputTokens outputTokens inputPrice.amount.value outputPrice.amount.value)
    ∃ cost, (rawCost inputTokens outputTokens inputPrice.amount outputPrice.amount).quantize prec
      (-10) = .some cost ∧
      (MAX_MONEY.value < cost.value ↔ MAX_MONEY.value < exact) ∧
          (exact ≤ MAX_MONEY.value → cost.value = exact) := by
  intro exact
  set raw := rawCost inputTokens outputTokens inputPrice.amount outputPrice.amount with hraw
  have hinPrice := inputPrice.amount.value_nonneg
  have houtPrice := outputPrice.amount.value_nonneg
  have hinTokens : (inputTokens : Rat) ≤ 10 ^ 12 := by exact_mod_cast hin
  have houtTokens : (outputTokens : Rat) ≤ 10 ^ 12 := by exact_mod_cast hout
  have hinCost : inputTokens * inputPrice.amount.value ≤ 10 ^ 12 * 10 ^ 10 :=
    mul_le_mul hinTokens inputPrice.whole.le hinPrice (by norm_num)
  have houtCost : outputTokens * outputPrice.amount.value ≤ 10 ^ 12 * 10 ^ 10 :=
    mul_le_mul houtTokens outputPrice.whole.le houtPrice (by norm_num)
  have hexact : exactCost inputTokens outputTokens inputPrice.amount.value
      outputPrice.amount.value ≤ 2 * 10 ^ 16 := by
    rw [exactCost, div_le_iff₀ (by norm_num)]
    linarith
  obtain ⟨hupper, hlower⟩ := @rawCost_bounds inputTokens outputTokens inputPrice outputPrice
  rw [← hraw] at hupper hlower
  have hfits : raw.value < (10 : Rat) ^ ((prec : Int) - 1 + -10) := by
    have hpow : (10 : Rat) ^ ((prec : Int) - 1 + -10) = 10 ^ 17 := by
      rw [show ((prec : Int) - 1 + -10) = ((17 : ℕ) : Int) from rfl, zpow_natCast]
    rw [hpow]
    linarith
  refine ⟨raw.rescale (-10), Decimal.quantize_of_lt (by decide) hfits, ?_⟩
  rw [rescale_value]
  by_cases hsmall : inputTokens * inputPrice.amount.value + outputTokens *
    outputPrice.amount.value < 10 ^ 18
  · have heq : raw.value = exactCost inputTokens outputTokens inputPrice.amount.value
        outputPrice.amount.value :=
      rawCost_exact hsmall
    rw [heq]
    exact ⟨Iff.rfl, fun _ => rfl⟩
  · have hbig : 10 ^ 12 ≤ exactCost inputTokens outputTokens inputPrice.amount.value
        outputPrice.amount.value := by
      rw [exactCost, le_div_iff₀ (by norm_num)]
      linarith
    have hround : MAX_MONEY.value < toPlaces raw.value := by
      have := toPlaces_lower raw.value
      rw [MAX_MONEY_value]
      linarith
    have hrest : MAX_MONEY.value < exact := by
      have := toPlaces_lower
        (exactCost inputTokens outputTokens inputPrice.amount.value outputPrice.amount.value)
      rw [MAX_MONEY_value]
      linarith
    exact ⟨⟨fun _ => hrest, fun _ => hround⟩, fun hle => absurd hle (not_le.mpr hrest)⟩

theorem actualCost_eq {run : ModelRun} {result : GenerationResult} {inputTokens outputTokens : ℕ}
    {inputPrice outputPrice : Money} (hin : result.inputTokens = .some inputTokens)
    (hout : result.outputTokens = .some outputTokens)
    (hinPrice : run.inputPricePerMillionSnapshot = .some inputPrice)
    (houtPrice : run.outputPricePerMillionSnapshot = .some outputPrice) :
    actualCost run result =
      match (rawCost inputTokens outputTokens inputPrice.amount outputPrice.amount).quantize prec
        (-10) with
      | .none => .error .invalidOperation
      | .some cost => if MAX_MONEY.value < cost.value then .error .invalidCost
          else .ok (.some cost) := by
  simp only [actualCost, hin, hout, hinPrice, houtPrice]

/-- The checks raise neither of the errors of the cost. -/
theorem checkResult_error {run : ModelRun} {result : GenerationResult} {error : UsageError}
    (h : checkResult run result = .error error) : error ≠ .invalidCost ∧
    error ≠ .invalidOperation := by
  unfold checkResult at h
  repeat' split at h
  all_goals cases h
  all_goals constructor <;> intro hne <;> cases hne

/-- **The recorded cost is the exact one, rounded once.** With the counts and prices of
the run, `_actual_cost` returns the exact cost rounded half-even to ten places, or refuses
it exactly when that is above the maximum. `mark_succeeded` records it where the run is
RUNNING and passes its checks, or refuses alike. -/
theorem actual_cost_exact {run : ModelRun} {result : GenerationResult}
    {inputTokens outputTokens : ℕ} {inputPrice outputPrice : Money}
    (hin : result.inputTokens = .some inputTokens) (hout : result.outputTokens = .some outputTokens)
    (hinPrice : run.inputPricePerMillionSnapshot = .some inputPrice)
    (houtPrice : run.outputPricePerMillionSnapshot = .some outputPrice)
    (hinMost : inputTokens ≤ MAX_TOKEN_COUNT) (houtMost : outputTokens ≤ MAX_TOKEN_COUNT) :
    let exact := toPlaces
      (exactCost inputTokens outputTokens inputPrice.amount.value outputPrice.amount.value)
    (MAX_MONEY.value < exact → actualCost run result = .error .invalidCost) ∧
    (exact ≤ MAX_MONEY.value → ∃ cost, actualCost run result = .ok (.some cost) ∧
      cost.value = exact) ∧
    ∀ running classification,
      (∀ updated, markSucceeded (.some run) running classification result = .ok updated →
        ∃ cost, updated.actualCost = .some cost ∧ cost.value = exact ∧ exact ≤ MAX_MONEY.value) ∧
      (run.status = .running → running = true → checkResult run result = .ok () →
        exact ≤ MAX_MONEY.value →
        ∃ updated cost, markSucceeded (.some run) running classification result = .ok updated ∧
          updated.status = .succeeded ∧ updated.actualCost = .some cost ∧ cost.value = exact) ∧
      (markSucceeded (.some run) running classification result = .error .invalidCost ↔
        run.status = .running ∧ checkResult run result = .ok () ∧ MAX_MONEY.value < exact) ∧
      markSucceeded (.some run) running classification result ≠ .error .invalidOperation := by
  intro exact
  obtain ⟨cost, hquantized, hover, hvalue⟩ :=
    @rawCost_quantized inputTokens outputTokens inputPrice outputPrice
    hinMost houtMost
  have hcost := actualCost_eq hin hout hinPrice houtPrice
  rw [hquantized] at hcost
  have hrefused : MAX_MONEY.value < exact → actualCost run result = .error .invalidCost := by
    intro h
    rw [hcost]
    exact if_pos (hover.mpr h)
  have hreturned : exact ≤ MAX_MONEY.value → actualCost run result = .ok (.some cost) := by
    intro h
    rw [hcost]
    exact if_neg fun hlt => absurd (hover.mp hlt) (not_lt.mpr h)
  have hrecorded : ∀ classification, run.status = .running → checkResult run result = .ok () →
      exact ≤ MAX_MONEY.value → markSucceeded (.some run) true classification result =
        .ok (run.succeeded classification result (.some cost)) := by
    intro classification hstatus hcheck hle
    have hrequired : requireRunning (.some run) = .ok run := if_pos hstatus
    simp [markSucceeded, hrequired, hcheck, hreturned hle, bind, Except.bind, pure, Except.pure]
  refine ⟨hrefused, fun h => ⟨cost, hreturned h, hvalue h⟩, fun running classification => ?_⟩
  suffices hrest : _ ∧ _ ∧ _ from
    ⟨hrest.1, fun hstatus hrunning hcheck hle =>
      ⟨_, cost, hrunning ▸ hrecorded classification hstatus hcheck hle, rfl, rfl, hvalue hle⟩,
        hrest.2⟩
  unfold markSucceeded
  by_cases hstatus : run.status = .running
  · have hrequired : requireRunning (.some run) = .ok run := if_pos hstatus
    cases hcheck : checkResult run result with
    | error error =>
      obtain ⟨hcostError, hoperation⟩ := checkResult_error hcheck
      simp [hrequired, hcheck, bind, Except.bind, hcostError, hoperation]
    | ok _ =>
      rcases lt_or_ge MAX_MONEY.value exact with hlt | hle
      · simp [hrequired, hcheck, hrefused hlt, bind, Except.bind, hstatus, hlt]
      · cases running
        · simp [hrequired, hcheck, hreturned hle, bind, Except.bind, not_lt.mpr hle, throw,
            throwThe, MonadExceptOf.throw]
        · simp [hrequired, hcheck, hreturned hle, bind, Except.bind, not_lt.mpr hle, pure,
            Except.pure, ModelRun.succeeded, hle, hvalue hle]
          rfl
  · have hrequired : requireRunning (.some run) = .error .terminal := if_neg hstatus
    simp [hrequired, bind, Except.bind, hstatus]

/-- 0.15 and 0.60 per million, as the columns hold them. -/
def samplePrice (units : ℕ) (h : units < 10 ^ 20) : Money where
  amount := ⟨units, -10⟩
  places := le_rfl
  whole := by
    have hunits : (units : Rat) < 10 ^ 20 := by exact_mod_cast h
    rw [Decimal.value, zpow_neg, ← div_eq_mul_inv, div_lt_iff₀ (by norm_num)]
    calc (units : Rat) < 10 ^ 20 := hunits
      _ = _ := by norm_num

def sampleRun : ModelRun :=
  ⟨"openrouter".toList, "m".toList, .running, .some (samplePrice 1500000000 (by norm_num)),
    .some (samplePrice 6000000000 (by norm_num)), .none, .none, "NONE".toList, .none, .none, .none,
      .none, .none, .none, .none⟩

def sampleResult : GenerationResult :=
  ⟨"openrouter".toList, "m".toList, .none, .none, .none, .some 1000, .some 500, .none, .none, .none⟩

theorem sample_cost : ∃ cost, actualCost sampleRun sampleResult = .ok (.some cost) ∧
    cost.value = toPlaces (exactCost 1000 500 (15 / 100) (6 / 10)) := by
  have h := (@actual_cost_exact sampleRun sampleResult 1000 500 _ _ rfl rfl rfl rfl (by decide)
    (by decide)).2.1
  have hin : (samplePrice 1500000000 (by norm_num)).amount.value = 15 / 100 := by
    simp only [samplePrice, Decimal.value]; norm_num
  have hout : (samplePrice 6000000000 (by norm_num)).amount.value = 6 / 10 := by
    simp only [samplePrice, Decimal.value]; norm_num
  rw [hin, hout] at h
  refine h ?_
  rw [MAX_MONEY_value, toPlaces, div_le_iff₀ (by norm_num)]
  have hround := roundHalfEven_upper (exactCost 1000 500 (15 / 100) (6 / 10) * 10 ^ 10)
  refine le_trans hround ?_
  norm_num [exactCost]

end Novalton.Usage
