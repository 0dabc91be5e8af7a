/-
The estimate a model run starts with: the router's `_cost` (`modules/model_router/service.py`)
against `estimated_cost` of `ModelRunStart` (`modules/model_usage/schemas.py`), a decimal of
at most twenty digits and ten decimal places.
-/
import Novalton.ModelRouter

namespace Novalton.Router

/-- `estimated_cost: Decimal | None = Field(ge=0, max_digits=20, decimal_places=10)` -/
def estimatedCostAdmitted (amount : Decimal) : Bool := amount.admitted Usage.prec 20 10

/-- The exact estimate of a model of the catalog, where `_cost` returns one. -/
def exactEstimate (model : ModelDefinition) (data : RoutingRequest) : Option Rat :=
  match model.inputPricePerMillion, model.currency, data.expectedOutputTokens,
      model.outputPricePerMillion with
  | .some inputPrice, .some _, .none, _ =>
    .some (Usage.exactCost data.contextTokensEstimate 0 inputPrice.amount.value 0)
  | .some inputPrice, .some _, .some outputTokens, .some outputPrice =>
    .some (Usage.exactCost data.contextTokensEstimate outputTokens inputPrice.amount.value
      outputPrice.amount.value)
  | _, _, _, _ => .none

/-- The exact estimate, if there is one, is a multiple of `10 ^ -10` below `10 ^ 10`. -/
def Recordable (target : RoutableTarget) (data : RoutingRequest) : Prop :=
  match target with
  | .managed _ => True
  | .catalog model =>
    ∀ exact, exactEstimate model data = .some exact → (∃ n : ℕ, exact * 10 ^ 10 = n) ∧
      exact < 10 ^ 10

/-- The request's bounds keep the whole computation within the precision: the router's
estimate is the exact one. -/
theorem cost_exact {model : ModelDefinition} {data : RoutingRequest} {amount : Decimal}
    (h : cost (.catalog model) data = .some amount) :
    exactEstimate model data = .some amount.value ∧ amount.coefficient < 10 ^ Usage.prec := by
  have hp : 0 < Usage.prec := by decide
  have hin : (data.contextTokensEstimate : Rat) ≤ 10 ^ 7 := by exact_mod_cast data.contextBound.2
  simp only [cost] at h
  split at h
  · rename_i inputPrice currency hinput hcurrency
    have hinCost : data.contextTokensEstimate * inputPrice.amount.value ≤ 10 ^ 7 * 10 ^ 10 :=
      mul_le_mul hin inputPrice.whole.le inputPrice.amount.value_nonneg (by norm_num)
    split at h
    · rename_i houtput
      obtain rfl := Option.some.inj h
      have hprec : (10 : Rat) ^ Usage.prec = 10 ^ 18 * 10 ^ 10 := by norm_num [Usage.prec]
      obtain ⟨hmul, hexp⟩ := Decimal.mul_exact (k := 10) (a := .ofNat data.contextTokensEstimate)
        (b := inputPrice.amount) hp
        (by have := inputPrice.places; simpa using this)
          (by rw [hprec, Decimal.value_ofNat]; linarith)
      rw [Decimal.value_ofNat] at hmul
      have hlt := @Decimal.coefficient_lt Usage.prec 10
        (.mul Usage.prec (.ofNat data.contextTokensEstimate) inputPrice.amount)
        (by have := inputPrice.places; rw [hexp]; simpa using this) (by rw [hmul, hprec]; linarith)
      refine ⟨?_, Decimal.div_coefficient_lt hp⟩
      rw [Usage.MILLION, Decimal.value_div_pow hp hlt, hmul]
      simp [exactEstimate, hinput, hcurrency, houtput, Usage.exactCost]
    · rename_i outputTokens houtput
      split at h
      · cases h
      · rename_i outputPrice hprice
        obtain rfl := Option.some.inj h
        have hout : (outputTokens : Rat) ≤ 10 ^ 6 := by
          exact_mod_cast (data.outputBound outputTokens houtput).2
        have houtCost : outputTokens * outputPrice.amount.value ≤ 10 ^ 6 * 10 ^ 10 :=
          mul_le_mul hout outputPrice.whole.le outputPrice.amount.value_nonneg (by norm_num)
        refine ⟨?_, Decimal.div_coefficient_lt hp⟩
        have hexact := @Usage.rawCost_exact data.contextTokensEstimate outputTokens inputPrice
          outputPrice (by linarith)
        rw [Usage.rawCost] at hexact
        rw [hexact]
        simp only [exactEstimate, hinput, hcurrency, houtput, hprice]
  · cases h

/-- There is an estimate whenever there is an exact one. -/
theorem cost_of_exactEstimate {model : ModelDefinition} {data : RoutingRequest} {exact : Rat}
    (h : exactEstimate model data = .some exact) : ∃ amount, cost
    (.catalog model) data = .some amount := by
  unfold exactEstimate at h
  split at h
  · rename_i hinput hcurrency houtput
    simp [cost, hinput, hcurrency, houtput]
  · rename_i hinput hcurrency houtput hprice
    simp [cost, hinput, hcurrency, houtput, hprice]
  · cases h

theorem cost_admitted_iff {model : ModelDefinition} {data : RoutingRequest} {amount : Decimal}
    (h : cost (.catalog model) data = .some amount) :
    estimatedCostAdmitted amount = true ↔ (∃ n : ℕ, amount.value * 10 ^ 10 = n) ∧
      amount.value < 10 ^ 10 :=
  @Decimal.admitted_iff Usage.prec 10 10 (by decide) (by decide) _ (cost_exact h).2

/-- What is selected carries the estimate of its target. -/
theorem selected_estimate {settings : Settings} {data : RoutingRequest}
    {targets : List RoutableTarget} {selected : SelectedCatalogModel}
    (h : (route settings data targets).selected = .some selected) :
    ∃ target ∈ targets, selected = describe data (candidate settings data target) ∧
      selected.estimatedCost.map EstimatedCost.amount = cost target data := by
  obtain ⟨chosen, reasons, hselect, rfl⟩ := route_selected h
  obtain ⟨target, htarget, -, rfl⟩ := (mem_eligible_iff _ _).mp (select_spec hselect).1
  refine ⟨target, htarget, rfl, ?_⟩
  simp [describe, candidate, Option.map_map, Function.comp_def]

/-- **When the estimate can be recorded.** The estimate of a target is admitted by
`ModelRunStart` exactly if the exact estimate needs no more than ten decimal places and
ten whole digits; what the router selects carries the estimate of a canonical target. -/
theorem estimate_admitted_iff (settings : Settings) (data : RoutingRequest)
    (catalog : List ModelDefinition) (routes : List ProviderManagedRoute) :
    (∀ target, (∀ amount, cost target data = .some amount → estimatedCostAdmitted amount = true) ↔
      Recordable target data) ∧
    ∀ selected, (route settings data (canonicalizeTargets catalog routes).targets).selected =
      .some selected →
      ∃ target ∈ (canonicalizeTargets catalog routes).targets,
        selected = describe data (candidate settings data target) ∧
        ((∀ estimate, selected.estimatedCost = .some estimate →
          estimatedCostAdmitted estimate.amount = true) ↔
          Recordable target data) := by
  have htarget : ∀ target,
    (∀ amount, cost target data = .some amount → estimatedCostAdmitted amount = true) ↔
      Recordable target data := by
    intro target
    cases target with
    | managed route =>
      refine iff_of_true (fun amount h => ?_) trivial
      cases h
    | catalog model =>
      constructor
      · intro h exact hexact
        obtain ⟨amount, hamount⟩ := cost_of_exactEstimate hexact
        have hsame := (cost_exact hamount).1
        rw [hexact] at hsame
        rw [Option.some.inj hsame]
        exact (cost_admitted_iff hamount).mp (h amount hamount)
      · intro h amount hamount
        exact (cost_admitted_iff hamount).mpr (h amount.value (cost_exact hamount).1)
  refine ⟨htarget, fun selected hselected => ?_⟩
  obtain ⟨target, hmem, hdescribed, hestimate⟩ := selected_estimate hselected
  refine ⟨target, hmem, hdescribed, ?_⟩
  rw [← htarget target, ← hestimate]
  constructor
  · intro h amount hamount
    obtain ⟨estimate, hsome, rfl⟩ := Option.map_eq_some_iff.mp hamount
    exact h estimate hsome
  · intro h estimate hsome
    exact h estimate.amount (by rw [hsome]; rfl)

/-- A model at 0.07125 a million, as a provider quotes it. -/
def pricedModel : ModelDefinition :=
  { sampleModel with
    contextWindow := .some 10000
    inputPricePerMillion := .some (Usage.samplePrice 712500000 (by norm_num))
    currency := .some "USD".toList }

/-- 2001 tokens of it cost 0.00014257125, which has eleven places. -/
def oddRequest : RoutingRequest :=
  { sampleRequest with contextTokensEstimate := 2001, contextBound := by decide }

/-- The targets of a catalog of that model alone. -/
def pricedTargets : List RoutableTarget := (canonicalizeTargets [pricedModel] []).targets

theorem mem_pricedTargets {target : RoutableTarget} : target ∈ pricedTargets ↔
    target = .catalog pricedModel := by
  have hmem : target ∈ pricedTargets ↔ Canonical [pricedModel] [] target :=
    mem_targets_iff (by simp) (by simp) target
  rw [hmem]
  cases target with
  | managed route => simp [Canonical]
  | catalog model => simp [Canonical]

theorem pricedModel_eligible : Eligible ⟨.none, []⟩ oddRequest (.catalog pricedModel) where
  forced := by intro pair h; cases h
  available := rfl
  context := rfl
  capabilities := by
    intro capability h
    rw [show requirements oddRequest = [.coding] from rfl, List.mem_singleton] at h
    subst h
    rfl
  enforcement := le_rfl
  free := by intro h; cases h

/-- The router selects it. -/
theorem pricedModel_selected :
    ∃ selected, (route ⟨.none, []⟩ oddRequest pricedTargets).selected = .some selected := by
  have hcandidate : candidate ⟨.none, []⟩ oddRequest (.catalog pricedModel) ∈
      (tally ⟨.none, []⟩ oddRequest pricedTargets).eligible :=
    (mem_eligible_iff _ _).mpr ⟨_, mem_pricedTargets.mpr rfl, pricedModel_eligible, rfl⟩
  rw [← Option.ne_none_iff_exists']
  intro hnone
  have hempty := (route_outcome pricedTargets).1.mp ((route_outcome pricedTargets).2.mpr hnone)
  rw [hempty] at hcandidate
  cases hcandidate

theorem pricedModel_exact : exactEstimate pricedModel oddRequest = .some (14257125 / 10 ^ 11) := by
  have hprice : (Usage.samplePrice 712500000 (by norm_num)).amount.value = 7125 / 10 ^ 5 := by
    simp only [Usage.samplePrice, Decimal.value]; norm_num
  have hform : exactEstimate pricedModel oddRequest =
      .some (Usage.exactCost 2001 0 (Usage.samplePrice 712500000 (by norm_num)).amount.value 0) :=
        rfl
  rw [hform, hprice]
  norm_num [Usage.exactCost]

/-- **The router's estimate may be one the run cannot record**: that of the only model of a
catalog, which it selects. -/
theorem odd_estimate_refused :
    ¬ ∀ selected,
      (route ⟨.none, []⟩ oddRequest (canonicalizeTargets [pricedModel] []).targets).selected =
      .some selected →
      ∀ estimate, selected.estimatedCost = .some estimate →
        estimatedCostAdmitted estimate.amount = true := by
  intro h
  obtain ⟨selected, hselected⟩ := pricedModel_selected
  obtain ⟨target, htarget, -, hestimate⟩ := selected_estimate hselected
  obtain rfl := mem_pricedTargets.mp htarget
  obtain ⟨amount, hamount⟩ := cost_of_exactEstimate pricedModel_exact
  rw [hamount] at hestimate
  obtain ⟨estimate, hsome, rfl⟩ := Option.map_eq_some_iff.mp hestimate
  have hsame := (cost_exact hamount).1
  rw [pricedModel_exact] at hsame
  obtain ⟨n, hn⟩ := ((cost_admitted_iff hamount).mp (h selected hselected estimate hsome)).1
  rw [← Option.some.inj hsame] at hn
  have hten : ((14257125 : ℕ) : Rat) = ((n * 10 : ℕ) : Rat) := by
    push_cast
    rw [← hn]
    norm_num
  have hnat : 14257125 = n * 10 := by exact_mod_cast hten
  omega

end Novalton.Router
