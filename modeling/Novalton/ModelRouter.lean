/-
The model router (`modules/model_router/service.py`): canonical targets from the catalog
and the provider-managed routes, the targets that meet the hard requirements of a
request, and the one `simulate` selects.

A request is a validated `RoutingRequest`; the settings are the forced pair and the
qualifications of the process. The log record is left out.
-/
import Mathlib.Data.List.MinMax
import Mathlib.Data.Prod.Lex
import Novalton.Dict
import Novalton.ModelCatalog
import Novalton.ModelUsage

namespace Novalton

def Catalog.ContractEnforcementGrade.rank : Catalog.ContractEnforcementGrade → ℕ
  | .unsupported => 0
  | .bestEffort => 1
  | .providerEnforced => 2
  | .strictSchemaGuaranteed => 3

/-- `satisfies` -/
def Catalog.ContractEnforcementGrade.satisfies (grade minimum : Catalog.ContractEnforcementGrade) :
    Bool :=
  minimum.rank ≤ grade.rank

namespace Router
open Catalog (Key ModelStatus ContractEnforcementGrade ExecutionTargetClass)

inductive ModelCapability where
  | reasoning | coding | toolCalling | structuredOutput | vision
deriving DecidableEq, Repr

def ModelCapability.value : ModelCapability → Text
  | .reasoning => "reasoning".toList
  | .coding => "coding".toList
  | .toolCalling => "tool_calling".toList
  | .structuredOutput => "structured_output".toList
  | .vision => "vision".toList

def ModelCapability.all : List ModelCapability :=
  [.reasoning, .coding, .toolCalling, .structuredOutput, .vision]

inductive CostPolicy where
  | lowestCost | preferFree | freeOnly
deriving DecidableEq, Repr

inductive QualificationSource where
  | providerDocumentation | operatorConfiguration | curatedRegistry
deriving DecidableEq, Repr

def QualificationSource.value : QualificationSource → Text
  | .providerDocumentation => "PROVIDER_DOCUMENTATION".toList
  | .operatorConfiguration => "OPERATOR_CONFIGURATION".toList
  | .curatedRegistry => "CURATED_REGISTRY".toList

/-- A `GovernedProviderQualification`, by its identity in the settings. -/
structure Qualification where
  upstreamProvider : Option Text
  contractEnforcementGrade : ContractEnforcementGrade
  qualificationSource : QualificationSource
  enabled : Bool

/-- The columns of `model_definitions` that the router reads. -/
structure ModelDefinition where
  id : Uuid
  providerId : Text
  providerModelId : Text
  displayName : Text
  status : ModelStatus
  executionTargetClass : ExecutionTargetClass
  contextWindow : Option ℕ
  maxOutputTokens : Option ℕ
  reasoning : Option Bool
  coding : Option Bool
  toolCalling : Option Bool
  structuredOutput : Option Bool
  vision : Option Bool
  contractEnforcementGrade : ContractEnforcementGrade
  enforcementMetadataSource : Text
  inputPricePerMillion : Option Usage.Money
  outputPricePerMillion : Option Usage.Money
  currency : Option Text
  freeAllowlisted : Bool
  lastVerifiedAt : Int

structure ProviderManagedRoute where
  providerId : Text
  providerModelId : Text
  displayName : Text
  executionTargetClass : ExecutionTargetClass
  enabled : Bool
  capabilities : List Text
  capabilityPolicy : Text
  contractEnforcementGrade : ContractEnforcementGrade
  enforcementMetadataSource : Text
  contextWindow : Option ℕ
  maxOutputTokens : Option ℕ
  freeAllowlisted : Bool
  dynamicResolution : Bool
  source : Text
  capabilitySource : Text

def ModelDefinition.identity (model : ModelDefinition) : Key :=
  (model.providerId, model.providerModelId)

def ProviderManagedRoute.identity (route : ProviderManagedRoute) : Key :=
  (route.providerId, route.providerModelId)

inductive RoutableTarget where
  | catalog (model : ModelDefinition)
  | managed (route : ProviderManagedRoute)

structure RoutingRequest where
  requiredCapabilities : List ModelCapability
  contextTokensEstimate : ℕ
  toolCallingRequired : Bool
  structuredOutputRequired : Bool
  visionRequired : Bool
  minimumContractEnforcementGrade : ContractEnforcementGrade
  expectedOutputTokens : Option ℕ
  costPolicy : CostPolicy
  preferredProvider : Option Text
  preferredModelId : Option Uuid
  contextBound : 1 ≤ contextTokensEstimate ∧ contextTokensEstimate ≤ 10000000
  outputBound : ∀ n, expectedOutputTokens = .some n → 1 ≤ n ∧ n ≤ 1000000

structure Settings where
  forcedPair : Option Key
  qualifications : Dict Key Qualification

inductive RoutingReason where
  | available
  | capabilitiesSatisfied
  | contextSatisfied
  | preferredModelAccepted
  | preferredModelRejected
  | freeAllowlistPreferred
  | freeOnlySatisfied
  | lowestKnownEstimatedCost
  | pricingUnknownDeterministicSelection
  | providerPreferenceApplied
  | deterministicIdTieBreak
  | noAvailableModels
  | contextUnsatisfied
  | capabilityUnsatisfied
  | freeOnlyPoolEmpty
  | contractEnforcementUnsatisfied
deriving DecidableEq, Repr

namespace RoutableTarget

def isRoute : RoutableTarget → Bool
  | .catalog _ => false
  | .managed _ => true

def identity : RoutableTarget → Key
  | .catalog model => model.identity
  | .managed route => route.identity

/-- `getattr(model, "id", None)` -/
def id : RoutableTarget → Option Uuid
  | .catalog model => .some model.id
  | .managed _ => .none

def displayName : RoutableTarget → Text
  | .catalog model => model.displayName
  | .managed route => route.displayName

def executionTargetClass : RoutableTarget → ExecutionTargetClass
  | .catalog model => model.executionTargetClass
  | .managed route => route.executionTargetClass

def contextWindow : RoutableTarget → Option ℕ
  | .catalog model => model.contextWindow
  | .managed route => route.contextWindow

def maxOutputTokens : RoutableTarget → Option ℕ
  | .catalog model => model.maxOutputTokens
  | .managed route => route.maxOutputTokens

def freeAllowlisted : RoutableTarget → Bool
  | .catalog model => model.freeAllowlisted
  | .managed route => route.freeAllowlisted

def isAvailable : RoutableTarget → Bool
  | .catalog model => model.status == .available
  | .managed route => route.enabled

/-- `str(getattr(model, "id", model.provider_model_id))` -/
def tieBreak : RoutableTarget → Text
  | .catalog model => model.id.str
  | .managed route => route.providerModelId

end RoutableTarget

/-- `getattr(model, capability.value)` of a row. -/
def ModelDefinition.capability (model : ModelDefinition) : ModelCapability → Option Bool
  | .reasoning => model.reasoning
  | .coding => model.coding
  | .toolCalling => model.toolCalling
  | .structuredOutput => model.structuredOutput
  | .vision => model.vision

/-! ### Canonical targets -/

structure CanonicalTargets where
  targets : List RoutableTarget
  rawRepresentationCount : ℕ
  duplicateIdentityCount : ℕ
  providerManagedPrecedenceCount : ℕ

/-- The variables of the loop of `_canonicalize_targets`. -/
structure Collected where
  targetsByIdentity : Dict Key RoutableTarget
  representationCounts : Dict Key ℕ
  providerManagedPrecedenceCount : ℕ

def Collected.add (c : Collected) (target : RoutableTarget) : Collected :=
  let counts :=
    c.representationCounts.set target.identity
    ((c.representationCounts.get? target.identity).getD 0 + 1)
  let replaced := c.targetsByIdentity.set target.identity target
  match c.targetsByIdentity.get? target.identity with
  | .none => ⟨replaced, counts, c.providerManagedPrecedenceCount⟩
  | .some existing =>
    if target.isRoute && !existing.isRoute then
      ⟨replaced, counts, c.providerManagedPrecedenceCount + 1⟩
    else if existing.isRoute && !target.isRoute then
      ⟨c.targetsByIdentity, counts, c.providerManagedPrecedenceCount + 1⟩
    else ⟨c.targetsByIdentity, counts, c.providerManagedPrecedenceCount⟩

def collect (representations : List RoutableTarget) : Collected :=
  representations.foldl Collected.add ⟨[], [], 0⟩

/-- `sorted` of the items: their keys differ, so no target is ever compared. -/
def sortedItems (items : Dict Key RoutableTarget) : List (Key × RoutableTarget) :=
  items.insertionSort fun a b => toLex a.1 ≤ toLex b.1

/-- `_canonicalize_targets` -/
def canonicalizeTargets (catalog : List ModelDefinition) (routes : List ProviderManagedRoute) :
    CanonicalTargets :=
  let representations := catalog.map RoutableTarget.catalog ++ routes.map RoutableTarget.managed
  let collected := collect representations
  { targets := (sortedItems collected.targetsByIdentity).map Prod.snd
    rawRepresentationCount := representations.length
    duplicateIdentityCount := collected.representationCounts.countP fun entry =>
      decide (1 < entry.2)
    providerManagedPrecedenceCount := collected.providerManagedPrecedenceCount }

/-! ### Eligibility -/

/-- `_requirements` -/
def requirements (data : RoutingRequest) : List ModelCapability :=
  data.requiredCapabilities ++ (if data.toolCallingRequired then [.toolCalling] else []) ++
    (if data.structuredOutputRequired then [.structuredOutput] else []) ++
    if data.visionRequired then [.vision] else []

/-- `_cost` -/
def cost (target : RoutableTarget) (data : RoutingRequest) : Option Decimal :=
  match target with
  | .managed _ => .none
  | .catalog model =>
    match model.inputPricePerMillion, model.currency with
    | .some inputPrice, .some _ =>
      let total := Decimal.mul Usage.prec (.ofNat data.contextTokensEstimate) inputPrice.amount
      match data.expectedOutputTokens with
      | .none => .some (total.div Usage.prec Usage.MILLION)
      | .some outputTokens =>
        match model.outputPricePerMillion with
        | .none => .none
        | .some outputPrice =>
          .some ((total.add Usage.prec
            (.mul Usage.prec (.ofNat outputTokens) outputPrice.amount)).div Usage.prec
            Usage.MILLION)
    | _, _ => .none

/-- `_capabilities_satisfied` -/
def capabilitiesSatisfied (target : RoutableTarget) (required : List ModelCapability) : Bool :=
  match target with
  | .managed route => required.all fun capability => route.capabilities.contains capability.value
  | .catalog model => required.all fun capability => model.capability capability == .some true

/-- `_enforcement_grade` -/
def enforcementGrade (target : RoutableTarget) (qualification : Option Qualification) :
    ContractEnforcementGrade :=
  match target, qualification with
  | .catalog _, .some qualification => qualification.contractEnforcementGrade
  | .catalog model, .none => model.contractEnforcementGrade
  | .managed route, _ => route.contractEnforcementGrade

/-- `_structured_output_capability` -/
def structuredOutputCapability : RoutableTarget → Bool
  | .managed route => route.capabilities.contains "structured_output".toList
  | .catalog model => model.structuredOutput == .some true

/-- `_active_qualification` -/
def activeQualification (settings : Settings) (target : RoutableTarget) : Option Qualification :=
  match target with
  | .managed _ => .none
  | .catalog model => (settings.qualifications.get? model.identity).filter Qualification.enabled

/-- The window admits the estimate; a model of the catalog must state one. -/
def contextSatisfied (target : RoutableTarget) (data : RoutingRequest) : Bool :=
  match target.contextWindow with
  | .none => target.isRoute
  | .some window => data.contextTokensEstimate ≤ window

structure Candidate where
  model : RoutableTarget
  estimatedCost : Option Decimal
  qualification : Option Qualification

/-- The variables of the loop of `simulate`. -/
structure Tally where
  available : ℕ
  contextRejected : ℕ
  capabilityRejected : ℕ
  enforcementRejected : ℕ
  freeRejected : ℕ
  eligible : List Candidate

section
variable (settings : Settings) (data : RoutingRequest)

def candidate (target : RoutableTarget) : Candidate :=
  ⟨target, cost target data, activeQualification settings target⟩

def Tally.consider (tally : Tally) (target : RoutableTarget) : Tally :=
  if settings.forcedPair.any (fun pair => target.identity != pair) then tally
  else if !target.isAvailable then tally
  else
    let tally := { tally with available := tally.available + 1 }
    if !contextSatisfied target data then
      { tally with contextRejected := tally.contextRejected + 1 }
    else if !capabilitiesSatisfied target (requirements data) then
      { tally with capabilityRejected := tally.capabilityRejected + 1 }
    else if !(enforcementGrade target (activeQualification settings target)).satisfies
        data.minimumContractEnforcementGrade then
      { tally with enforcementRejected := tally.enforcementRejected + 1 }
    else if data.costPolicy == .freeOnly && !target.freeAllowlisted then
      { tally with freeRejected := tally.freeRejected + 1 }
    else { tally with eligible := tally.eligible ++ [candidate settings data target] }

end

/-! ### Ranking -/

/-- The parts of the rank key that cost decides. -/
def costKey (data : RoutingRequest) (candidate : Candidate) : ℕ × ℕ × Rat :=
  (if candidate.model.freeAllowlisted then 0 else if data.costPolicy = .preferFree then 1 else 0,
    if candidate.estimatedCost.isSome then 0 else 1,
    (candidate.estimatedCost.map Decimal.value).getD 0)

def providerPreferenceRank (data : RoutingRequest) (candidate : Candidate) : ℕ :=
  if data.preferredProvider = .some candidate.model.identity.1 then 0 else 1

/-- `_rank_key`, compared component by component. -/
def rankKey (data : RoutingRequest) (candidate : Candidate) :
    ℕ ×ₗ ℕ ×ₗ Rat ×ₗ ℕ ×ₗ Text ×ₗ Text ×ₗ Text :=
  let (freeRank, knownPriceRank, price) := costKey data candidate
  toLex (freeRank,
    toLex (knownPriceRank, toLex (price, toLex (providerPreferenceRank data candidate,
    toLex (candidate.model.identity.1,
      toLex (candidate.model.identity.2, candidate.model.tieBreak))))))

/-- `_ranking_reasons` -/
def rankingReasons (selected : Candidate) (eligible : List Candidate) (data : RoutingRequest) :
    List RoutingReason :=
  let free : List RoutingReason :=
    if data.costPolicy == .preferFree && selected.model.freeAllowlisted then
      [.freeAllowlistPreferred]
    else if data.costPolicy = .freeOnly then [.freeOnlySatisfied] else []
  let price : List RoutingReason :=
    if selected.estimatedCost.isNone then [.pricingUnknownDeterministicSelection]
      else [.lowestKnownEstimatedCost]
  let costPeers := eligible.filter fun candidate => costKey data candidate = costKey data selected
  let preference : List RoutingReason :=
    if data.preferredProvider == .some selected.model.identity.1 &&
        costPeers.any (fun candidate => data.preferredProvider !=
          .some candidate.model.identity.1) then
      [.providerPreferenceApplied] else []
  let identityPeers := costPeers.filter fun candidate =>
    providerPreferenceRank data candidate = providerPreferenceRank data selected
  let tie : List RoutingReason := if 1 < identityPeers.length then [.deterministicIdTieBreak]
    else []
  free ++ price ++ preference ++ tie

/-- `_no_suitable_reasons` -/
def noSuitableReasons (tally : Tally) : List RoutingReason :=
  if tally.available = 0 then [.noAvailableModels]
  else
    let reasons : List RoutingReason :=
      (if tally.contextRejected = 0 then [] else [.contextUnsatisfied]) ++
      (if tally.capabilityRejected = 0 then [] else [.capabilityUnsatisfied]) ++
      (if tally.enforcementRejected = 0 then [] else [.contractEnforcementUnsatisfied]) ++
      if tally.freeRejected = 0 then [] else [.freeOnlyPoolEmpty]
    if reasons.isEmpty then [.capabilityUnsatisfied] else reasons

/-- The candidate of the preferred model, or else the first of least rank key, with the
reasons of the choice. -/
def select (data : RoutingRequest) (eligible : List Candidate) :
    Option (Candidate × List RoutingReason) :=
  match data.preferredModelId.bind fun id => eligible.find? fun candidate => candidate.model.id =
      .some id with
  | .some preferred => .some (preferred, [.preferredModelAccepted])
  | .none => (eligible.argmin (rankKey data)).map fun selected =>
      (selected, (if data.preferredModelId.isSome then [.preferredModelRejected] else []) ++
        rankingReasons selected eligible data)

/-! ### The result -/

structure EstimatedCost where
  amount : Decimal
  currency : Option Text
  inputTokensEstimate : ℕ
  outputTokensEstimate : Option ℕ

inductive RoutableTargetKind where
  | catalogModel | virtualRoute
deriving DecidableEq, Repr

structure SelectedCatalogModel where
  catalogModelId : Option Uuid
  providerId : Text
  providerModelId : Text
  displayName : Text
  executionTargetClass : ExecutionTargetClass
  lastVerifiedAt : Option Int
  estimatedCost : Option EstimatedCost
  targetKind : RoutableTargetKind
  routeSource : Option Text
  capabilityDeclarationSource : Option Text
  capabilityPolicy : Option Text
  structuredOutputCapability : Bool
  contractEnforcementGrade : ContractEnforcementGrade
  minimumContractEnforcementGrade : ContractEnforcementGrade
  enforcementMetadataSource : Text
  qualificationPresent : Bool
  qualificationSource : Option QualificationSource
  upstreamProviderConstraint : Option Text
  providerAllowFallbacks : Option Bool
  providerRequireParameters : Bool
  declaredCapabilities : List Text
  contextWindow : Option ℕ
  maxOutputTokens : Option ℕ
  dynamicResolution : Bool

inductive RoutingOutcome where
  | selected | noSuitableModel
deriving DecidableEq, Repr

structure RoutingSimulationResult where
  outcome : RoutingOutcome
  selected : Option SelectedCatalogModel
  reasonCodes : List RoutingReason
  eligibleCandidateCount : ℕ
  minimumContractEnforcementGrade : ContractEnforcementGrade

/-- What the result says of a target by its kind. -/
def RoutableTarget.currency : RoutableTarget → Option Text
  | .catalog model => model.currency
  | .managed _ => .none

def RoutableTarget.enforcementMetadataSource : RoutableTarget → Text
  | .catalog model => model.enforcementMetadataSource
  | .managed route => route.enforcementMetadataSource

def RoutableTarget.declaredCapabilities : RoutableTarget → List Text
  | .catalog model =>
    (ModelCapability.all.filter fun capability => model.capability capability == .some true).map
      ModelCapability.value
  | .managed route => route.capabilities

/-- The description of the selected candidate. -/
def describe (data : RoutingRequest) (selected : Candidate) : SelectedCatalogModel where
  catalogModelId := selected.model.id
  providerId := selected.model.identity.1
  providerModelId := selected.model.identity.2
  displayName := selected.model.displayName
  executionTargetClass := selected.model.executionTargetClass
  lastVerifiedAt := match selected.model with
    | .catalog model => .some model.lastVerifiedAt
    | .managed _ => .none
  estimatedCost := selected.estimatedCost.map fun amount =>
    ⟨amount, selected.model.currency, data.contextTokensEstimate, data.expectedOutputTokens⟩
  targetKind := if selected.model.isRoute then .virtualRoute else .catalogModel
  routeSource := match selected.model with
    | .catalog _ => .none
    | .managed route => .some route.source
  capabilityDeclarationSource := match selected.model with
    | .catalog _ => .none
    | .managed route => .some route.capabilitySource
  capabilityPolicy := match selected.model with
    | .catalog _ => .none
    | .managed route => .some route.capabilityPolicy
  structuredOutputCapability := structuredOutputCapability selected.model
  contractEnforcementGrade := enforcementGrade selected.model selected.qualification
  minimumContractEnforcementGrade := data.minimumContractEnforcementGrade
  enforcementMetadataSource := match selected.qualification with
    | .some qualification => qualification.qualificationSource.value
    | .none => selected.model.enforcementMetadataSource
  qualificationPresent := selected.qualification.isSome
  qualificationSource := selected.qualification.map Qualification.qualificationSource
  upstreamProviderConstraint := selected.qualification.bind Qualification.upstreamProvider
  providerAllowFallbacks := selected.qualification.map fun _ => false
  providerRequireParameters := selected.qualification.isSome
  declaredCapabilities := selected.model.declaredCapabilities
  contextWindow := selected.model.contextWindow
  maxOutputTokens := selected.model.maxOutputTokens
  dynamicResolution := match selected.model with
    | .catalog _ => false
    | .managed route => route.dynamicResolution

section
variable (settings : Settings) (data : RoutingRequest)

def tally (targets : List RoutableTarget) : Tally :=
  targets.foldl (Tally.consider settings data) ⟨0, 0, 0, 0, 0, []⟩

/-- `simulate` from the canonical targets on. -/
def route (targets : List RoutableTarget) : RoutingSimulationResult :=
  let tally := tally settings data targets
  match select data tally.eligible with
  | .none => ⟨.noSuitableModel, .none, noSuitableReasons tally, 0,
      data.minimumContractEnforcementGrade⟩
  | .some (selected, reasons) =>
    { outcome := .selected
      selected := .some (describe data selected)
      reasonCodes := [.available, .capabilitiesSatisfied, .contextSatisfied] ++ reasons
      eligibleCandidateCount := tally.eligible.length
      minimumContractEnforcementGrade := data.minimumContractEnforcementGrade }

/-- `simulate`: nothing where the workspace is not found, for which it raises a 404. -/
def simulate (workspaceFound : Bool) (catalog : List ModelDefinition)
    (routes : List ProviderManagedRoute) :
    Option RoutingSimulationResult :=
  if workspaceFound then .some (route settings data (canonicalizeTargets catalog routes).targets)
    else .none

end

/-! ### What the canonical targets are -/

/-- The target of an identity in a list of representations: its first route, or else its
first model. -/
def chosen (representations : List RoutableTarget) (key : Key) : Option RoutableTarget :=
  (representations.find? fun target => target.isRoute && target.identity == key).or
    (representations.find? fun target => target.identity == key)

theorem chosen_identity {representations : List RoutableTarget} {key : Key}
    {target : RoutableTarget} (h : chosen representations key = .some target) :
    target.identity = key ∧ target ∈ representations := by
  rw [chosen, Option.or_eq_some_iff] at h
  rcases h with h | ⟨-, h⟩
  · have hfound := List.find?_some h
    rw [Bool.and_eq_true, beq_iff_eq] at hfound
    exact ⟨hfound.2, List.mem_of_find?_eq_some h⟩
  · have hfound := List.find?_some h
    rw [beq_iff_eq] at hfound
    exact ⟨hfound, List.mem_of_find?_eq_some h⟩

theorem chosen_concat (representations : List RoutableTarget) (target : RoutableTarget)
    (key : Key) :
    chosen (representations ++ [target]) key =
      if target.identity = key then
        match chosen representations key with
        | .none => .some target
        | .some existing => if target.isRoute && !existing.isRoute then .some target
            else .some existing
      else chosen representations key := by
  simp only [chosen, List.find?_append, List.find?_cons, List.find?_nil]
  by_cases hkey : target.identity = key
  · rw [if_pos hkey]
    cases hroute : representations.find? fun target => target.isRoute && target.identity == key with
    | some existing =>
      have hexisting : existing.isRoute = true := by
        have := List.find?_some hroute
        rw [Bool.and_eq_true] at this
        exact this.1
      simp [hexisting]
    | none =>
      cases hany : representations.find? fun target => target.identity == key with
      | none => cases target.isRoute <;> simp [hkey]
      | some existing =>
        have hmodel : existing.isRoute = false := by
          have hnone := List.find?_eq_none.mp hroute existing (List.mem_of_find?_eq_some hany)
          have hfound := List.find?_some hany
          simpa [hfound] using hnone
        cases target.isRoute <;> simp [hkey, hmodel]
  · have hne : (target.identity == key) = false := by simpa using hkey
    simp [hkey, hne]

/-- What one round of the loop does to the targets. -/
theorem add_get? (c : Collected) (target : RoutableTarget) (key : Key) :
    (c.add target).targetsByIdentity.get? key =
      if target.identity = key then
        match c.targetsByIdentity.get? key with
        | .none => .some target
        | .some existing => if target.isRoute && !existing.isRoute then .some target
            else .some existing
      else c.targetsByIdentity.get? key := by
  unfold Collected.add
  by_cases hkey : target.identity = key
  · subst hkey
    rw [if_pos rfl]
    cases hget : c.targetsByIdentity.get? target.identity with
    | none => simp [set_get?]
    | some existing =>
      simp only
      by_cases hreplace : (target.isRoute && !existing.isRoute) = true
      · simp [hreplace, set_get?]
      · rw [if_neg hreplace, if_neg hreplace]
        split <;> exact hget
  · have hset : (c.targetsByIdentity.set target.identity target).get? key =
        c.targetsByIdentity.get? key := by
      rw [set_get?, if_neg (Ne.symm hkey)]
    rw [if_neg hkey]
    split
    · exact hset
    · split
      · exact hset
      · split <;> rfl

theorem add_keys_nodup {c : Collected} (h : c.targetsByIdentity.keys.Nodup)
    (target : RoutableTarget) :
    (c.add target).targetsByIdentity.keys.Nodup := by
  unfold Collected.add
  split
  · exact set_keys_nodup h _ _
  · split
    · exact set_keys_nodup h _ _
    · split <;> exact h

/-- The loop holds the chosen target of every identity it has seen. -/
theorem collect_spec (representations : List RoutableTarget) :
    (collect representations).targetsByIdentity.keys.Nodup ∧
      ∀ key, (collect representations).targetsByIdentity.get? key = chosen representations key := by
  induction representations using List.reverseRecOn with
  | nil => exact ⟨List.nodup_nil, fun key => rfl⟩
  | append_singleton representations target ih =>
    obtain ⟨hnodup, hget⟩ := ih
    have hconcat : collect (representations ++ [target]) =
        (collect representations).add target := by
      simp [collect, List.foldl_append]
    rw [hconcat]
    refine ⟨add_keys_nodup hnodup target, fun key => ?_⟩
    rw [add_get?, chosen_concat, hget]

/-- One authoritative target for each identity: a route where there is one. -/
def Canonical (catalog : List ModelDefinition) (routes : List ProviderManagedRoute) :
    RoutableTarget → Prop
  | .managed route => route ∈ routes
  | .catalog model => model ∈ catalog ∧ ∀ route ∈ routes, route.identity ≠ model.identity

section
variable {catalog : List ModelDefinition} {routes : List ProviderManagedRoute}

theorem chosen_iff (hcatalog : (catalog.map ModelDefinition.identity).Nodup)
    (hroutes : (routes.map ProviderManagedRoute.identity).Nodup) (target : RoutableTarget) :
    chosen (catalog.map RoutableTarget.catalog ++ routes.map RoutableTarget.managed)
      target.identity = .some target ↔
      Canonical catalog routes target := by
  have hfirst : (catalog.map RoutableTarget.catalog ++ routes.map RoutableTarget.managed).find?
      (fun other => other.isRoute && other.identity == target.identity) =
      (routes.find? fun route => route.identity == target.identity).map RoutableTarget.managed := by
    rw [List.find?_append, List.find?_map, List.find?_map]
    have hnone : catalog.find? ((fun other => other.isRoute && other.identity == target.identity) ∘
      RoutableTarget.catalog) =
        .none := by
      rw [List.find?_eq_none]
      intro model _
      simp [RoutableTarget.isRoute]
    rw [hnone]
    rfl
  have hsecond : (catalog.map RoutableTarget.catalog ++ routes.map RoutableTarget.managed).find?
      (fun other => other.identity == target.identity) =
      ((catalog.find? fun model => model.identity == target.identity).map RoutableTarget.catalog).or
        ((routes.find? fun route => route.identity == target.identity).map
            RoutableTarget.managed) := by
    rw [List.find?_append, List.find?_map, List.find?_map]
    rfl
  rw [chosen, hfirst, hsecond]
  cases target with
  | managed route =>
    constructor
    · intro h
      cases hroute : routes.find? fun other => other.identity == route.identity with
      | none =>
        simp only [RoutableTarget.identity, hroute] at h
        cases hmodel : catalog.find? fun model => model.identity == route.identity <;>
          simp [hmodel] at h
      | some other =>
        simp only [RoutableTarget.identity, hroute] at h
        have heq : other = route := by simpa using h
        rw [← heq]
        exact List.mem_of_find?_eq_some hroute
    · intro hmem
      have hfound := find?_key hroutes hmem
      simp only [RoutableTarget.identity, hfound]
      rfl
  | catalog model =>
    constructor
    · intro h
      cases hroute : routes.find? fun other => other.identity == model.identity with
      | some other => simp [RoutableTarget.identity, hroute] at h
      | none =>
        simp only [RoutableTarget.identity, hroute] at h
        cases hmodel : catalog.find? fun other => other.identity == model.identity with
        | none => simp [hmodel] at h
        | some other =>
          have heq : other = model := by simpa [hmodel] using h
          subst heq
          refine ⟨List.mem_of_find?_eq_some hmodel, fun route hmem heq => ?_⟩
          have hnone := List.find?_eq_none.mp hroute route hmem
          simp [heq] at hnone
    · rintro ⟨hmem, hfree⟩
      have hnone : (routes.find? fun route => route.identity == model.identity) = .none := by
        rw [List.find?_eq_none]
        intro route hroute
        simpa using hfree route hroute
      have hfound := find?_key hcatalog hmem
      simp only [RoutableTarget.identity, hnone, hfound]
      rfl

theorem mem_items_iff (hcatalog : (catalog.map ModelDefinition.identity).Nodup)
    (hroutes : (routes.map ProviderManagedRoute.identity).Nodup) (item : Key × RoutableTarget) :
    item ∈ (collect (catalog.map RoutableTarget.catalog ++
      routes.map RoutableTarget.managed)).targetsByIdentity ↔
      item.2.identity = item.1 ∧ Canonical catalog routes item.2 := by
  obtain ⟨hnodup, hget⟩ :=
    collect_spec (catalog.map RoutableTarget.catalog ++ routes.map RoutableTarget.managed)
  obtain ⟨key, target⟩ := item
  rw [← Dict.get?_eq_some_iff hnodup, hget]
  constructor
  · intro hfound
    obtain ⟨hidentity, -⟩ := chosen_identity hfound
    subst hidentity
    exact ⟨rfl, (chosen_iff hcatalog hroutes target).mp hfound⟩
  · rintro ⟨hidentity, hcanonical⟩
    obtain rfl : target.identity = key := hidentity
    exact (chosen_iff hcatalog hroutes target).mpr hcanonical

theorem mem_targets_iff (hcatalog : (catalog.map ModelDefinition.identity).Nodup)
    (hroutes : (routes.map ProviderManagedRoute.identity).Nodup) (target : RoutableTarget) :
    target ∈ (canonicalizeTargets catalog routes).targets ↔ Canonical catalog routes target := by
  simp only [canonicalizeTargets, sortedItems, List.mem_map, List.mem_insertionSort]
  constructor
  · rintro ⟨item, hmem, rfl⟩
    exact ((mem_items_iff hcatalog hroutes item).mp hmem).2
  · intro hcanonical
    exact ⟨(target.identity, target), (mem_items_iff hcatalog hroutes _).mpr ⟨rfl, hcanonical⟩, rfl⟩

/-- The items are sorted by keys that differ, so their order is that of the keys alone. -/
theorem targets_perm {catalog' : List ModelDefinition} {routes' : List ProviderManagedRoute}
    (hcatalog : (catalog.map ModelDefinition.identity).Nodup)
    (hroutes : (routes.map ProviderManagedRoute.identity).Nodup) (hperm : catalog'.Perm catalog)
    (hperm' : routes'.Perm routes) :
    (canonicalizeTargets catalog' routes').targets =
    (canonicalizeTargets catalog routes).targets := by
  have hcatalog' : (catalog'.map ModelDefinition.identity).Nodup :=
    (hperm.map _).nodup_iff.mpr hcatalog
  have hroutes' : (routes'.map ProviderManagedRoute.identity).Nodup :=
    (hperm'.map _).nodup_iff.mpr hroutes
  have hcanonical : ∀ target, Canonical catalog' routes' target ↔
      Canonical catalog routes target := by
    intro target
    cases target with
    | managed route => exact hperm'.mem_iff
    | catalog model =>
      refine and_congr hperm.mem_iff (forall_congr' fun route => ?_)
      rw [hperm'.mem_iff]
  set items := (collect (catalog.map RoutableTarget.catalog ++
    routes.map RoutableTarget.managed)).targetsByIdentity
    with hitems
  set items' :=
    (collect (catalog'.map RoutableTarget.catalog ++
    routes'.map RoutableTarget.managed)).targetsByIdentity
    with hitems'
  have hnodup : items.keys.Nodup := (collect_spec _).1
  have hnodup' : items'.keys.Nodup := (collect_spec _).1
  have hsame : items'.Perm items := by
    rw [List.perm_ext_iff_of_nodup hnodup'.of_map hnodup.of_map]
    intro item
    rw [hitems, hitems', mem_items_iff hcatalog hroutes, mem_items_iff hcatalog' hroutes',
      hcanonical]
  have hsorted : ∀ entries : Dict Key RoutableTarget,
      (sortedItems entries).Pairwise fun a b => toLex a.1 ≤ toLex b.1 := by
    intro entries
    have htotal : Std.Total fun a b : Key × RoutableTarget => toLex a.1 ≤ toLex b.1 :=
      ⟨fun a b => le_total _ _⟩
    have htrans : IsTrans (Key × RoutableTarget) fun a b => toLex a.1 ≤ toLex b.1 :=
      ⟨fun a b c => le_trans⟩
    exact List.pairwise_insertionSort _ _
  have heq : sortedItems items' = sortedItems items := by
    have hpermItems : (sortedItems items').Perm (sortedItems items) :=
      (List.perm_insertionSort _ _).trans (hsame.trans (List.perm_insertionSort _ _).symm)
    refine hpermItems.eq_of_pairwise (fun a b ha hb hab hba => ?_) (hsorted items') (hsorted items)
    have hkeys : a.1 = b.1 := toLex.injective (le_antisymm hab hba)
    have hb' : b ∈ items := (List.mem_insertionSort _).mp hb
    have ha' : a ∈ items := hsame.subset ((List.mem_insertionSort _).mp ha)
    exact List.inj_on_of_nodup_map hnodup ha' hb' hkeys
  simp only [canonicalizeTargets]
  rw [← hitems, ← hitems', heq]

end

/-! ### What the selection is -/

/-- The target is known to have the capability. -/
def RoutableTarget.Has (target : RoutableTarget) (capability : ModelCapability) : Prop :=
  match target with
  | .catalog model => model.capability capability = .some true
  | .managed route => capability.value ∈ route.capabilities

/-- Every hard requirement of the request holds of the target. -/
structure Eligible (settings : Settings) (data : RoutingRequest) (target : RoutableTarget) :
    Prop where
  forced : ∀ pair, settings.forcedPair = .some pair → target.identity = pair
  available : target.isAvailable = true
  context : contextSatisfied target data = true
  capabilities : ∀ capability ∈ requirements data, target.Has capability
  enforcement : data.minimumContractEnforcementGrade.rank ≤
    (enforcementGrade target (activeQualification settings target)).rank
  free : data.costPolicy = .freeOnly → target.freeAllowlisted = true

section
variable {settings : Settings} {data : RoutingRequest}

theorem capabilitiesSatisfied_iff {target : RoutableTarget} {required : List ModelCapability} :
    capabilitiesSatisfied target required = true ↔ ∀ capability ∈ required,
      target.Has capability := by
  cases target <;> simp [capabilitiesSatisfied, RoutableTarget.Has]

/-- One round of the loop adds the candidate of an eligible target and no other. -/
theorem consider_eligible (tally : Tally) (target : RoutableTarget) :
    (Eligible settings data target ∧ (tally.consider settings data target).eligible =
        tally.eligible ++ [candidate settings data target]) ∨
      (¬ Eligible settings data target ∧
        (tally.consider settings data target).eligible = tally.eligible) := by
  unfold Tally.consider
  split
  · rename_i hforced
    refine .inr ⟨fun h => ?_, rfl⟩
    cases hpair : settings.forcedPair with
    | none => simp [hpair] at hforced
    | some pair => simp [hpair, h.forced pair hpair] at hforced
  · rename_i hforced
    split
    · rename_i havailable
      refine .inr ⟨fun h => ?_, rfl⟩
      simp [h.available] at havailable
    · rename_i havailable
      simp only
      split
      · rename_i hcontext
        refine .inr ⟨fun h => ?_, rfl⟩
        simp [h.context] at hcontext
      · rename_i hcontext
        split
        · rename_i hcapabilities
          refine .inr ⟨fun h => ?_, rfl⟩
          rw [capabilitiesSatisfied_iff.mpr h.capabilities] at hcapabilities
          cases hcapabilities
        · rename_i hcapabilities
          split
          · rename_i hgrade
            refine .inr ⟨fun h => ?_, rfl⟩
            have henforcement := h.enforcement
            simp [ContractEnforcementGrade.satisfies] at hgrade
            omega
          · rename_i hgrade
            split
            · rename_i hfree
              refine .inr ⟨fun h => ?_, rfl⟩
              rw [Bool.and_eq_true, beq_iff_eq] at hfree
              simp [h.free hfree.1] at hfree
            · rename_i hfree
              refine .inl ⟨⟨?_, ?_, ?_, ?_, ?_, ?_⟩, rfl⟩
              · intro pair hpair
                simpa [hpair] using hforced
              · simpa using havailable
              · simpa using hcontext
              · exact capabilitiesSatisfied_iff.mp (by simpa using hcapabilities)
              · simpa [ContractEnforcementGrade.satisfies] using hgrade
              · intro hpolicy
                simpa [hpolicy] using hfree

/-- The loop gathers the candidates of the eligible targets. -/
theorem mem_eligible_iff (targets : List RoutableTarget) (selected : Candidate) :
    selected ∈ (tally settings data targets).eligible ↔
      ∃ target ∈ targets, Eligible settings data target ∧
        selected = candidate settings data target := by
  induction targets using List.reverseRecOn with
  | nil => simp [tally]
  | append_singleton targets target ih =>
    have hconcat : tally settings data (targets ++ [target]) =
        (tally settings data targets).consider settings data target := by
      simp [tally, List.foldl_append]
    rw [hconcat]
    rcases consider_eligible (tally settings data targets) target with ⟨heligible, heq⟩ |
      ⟨hnot, heq⟩
    · rw [heq, List.mem_append, ih, List.mem_singleton]
      constructor
      · rintro (⟨other, hmem, hother⟩ | rfl)
        · exact ⟨other, List.mem_append_left _ hmem, hother⟩
        · exact ⟨target, List.mem_append_right _ (List.mem_singleton.mpr rfl), heligible, rfl⟩
      · rintro ⟨other, hmem, hother, rfl⟩
        rcases List.mem_append.mp hmem with hmem | hmem
        · exact .inl ⟨other, hmem, hother, rfl⟩
        · rw [List.mem_singleton.mp hmem]
          exact .inr rfl
    · rw [heq, ih]
      constructor
      · rintro ⟨other, hmem, hother⟩
        exact ⟨other, List.mem_append_left _ hmem, hother⟩
      · rintro ⟨other, hmem, hother, heq'⟩
        rcases List.mem_append.mp hmem with hmem | hmem
        · exact ⟨other, hmem, hother, heq'⟩
        · rw [List.mem_singleton.mp hmem] at hother
          exact absurd hother hnot

theorem select_eq_none_iff {eligible : List Candidate} : select data eligible = .none ↔
    eligible = [] := by
  unfold select
  split
  · rename_i preferred hpreferred
    obtain ⟨id, -, hfound⟩ := Option.bind_eq_some_iff.mp hpreferred
    constructor
    · intro h
      cases h
    · intro h
      rw [h] at hfound
      cases hfound
  · rw [Option.map_eq_none_iff, List.argmin_eq_none]

/-- The selected candidate is the preferred one where that is eligible, and else of least key. -/
theorem select_spec {eligible : List Candidate} {selected : Candidate}
    {reasons : List RoutingReason} (h : select data eligible = .some (selected, reasons)) :
    selected ∈ eligible ∧
      (∀ id, data.preferredModelId = .some id → (∃ other ∈ eligible, other.model.id = .some id) →
        selected.model.id = .some id) ∧
      ((¬ ∃ other ∈ eligible, data.preferredModelId.isSome = true ∧
        other.model.id = data.preferredModelId) →
        ∀ other ∈ eligible, rankKey data selected ≤ rankKey data other) := by
  unfold select at h
  split at h
  · rename_i preferred hpreferred
    rw [Option.some.injEq, Prod.mk.injEq] at h
    obtain ⟨rfl, -⟩ := h
    obtain ⟨id, hid, hfound⟩ := Option.bind_eq_some_iff.mp hpreferred
    have hmem := List.mem_of_find?_eq_some hfound
    have hmodel : preferred.model.id = .some id := by simpa using List.find?_some hfound
    refine ⟨hmem, fun other hother _ => ?_, fun hnone => ?_⟩
    · rw [hid] at hother
      rw [hmodel, hother]
    · exact absurd ⟨preferred, hmem, by rw [hid]; rfl, by rw [hmodel, hid]⟩ hnone
  · rename_i hpreferred
    obtain ⟨selected', hmin, heq⟩ := Option.map_eq_some_iff.mp h
    rw [Prod.mk.injEq] at heq
    obtain ⟨rfl, -⟩ := heq
    refine ⟨List.argmin_mem hmin, fun id hid hother => ?_, fun _ other hother =>
      List.le_of_mem_argmin hother hmin⟩
    obtain ⟨other, hmem, hmodel⟩ := hother
    rw [hid, Option.bind_some, List.find?_eq_none] at hpreferred
    exact absurd hmodel (by simpa using hpreferred other hmem)

theorem route_selected {targets : List RoutableTarget} {selected : SelectedCatalogModel}
    (h : (route settings data targets).selected = .some selected) :
    ∃ chosen reasons, select data (tally settings data targets).eligible = .some (chosen, reasons) ∧
      selected = describe data chosen := by
  unfold route at h
  simp only at h
  split at h
  · cases h
  · rename_i chosen reasons hselect
    exact ⟨chosen, reasons, hselect, (Option.some.inj h).symm⟩

theorem route_outcome (targets : List RoutableTarget) :
    ((route settings data targets).outcome = .noSuitableModel ↔
      (tally settings data targets).eligible = []) ∧
      ((route settings data targets).outcome = .noSuitableModel ↔
        (route settings data targets).selected = .none) := by
  rw [← @select_eq_none_iff data]
  unfold route
  simp only
  split
  · rename_i hselect
    simp [hselect]
  · rename_i hselect
    simp [hselect]

end

/-- **The router's selection is sound, complete, optimal and independent of the order.**
What is selected is an eligible canonical target, reported under its own identity and id:
the preferred model if that is eligible, and else one of least rank key. Nothing is selected
exactly if no canonical target is eligible. -/
theorem router_selection {settings : Settings} {data : RoutingRequest} {workspaceFound : Bool}
    {catalog : List ModelDefinition} {routes : List ProviderManagedRoute}
    {result : RoutingSimulationResult} (hcatalog : (catalog.map ModelDefinition.identity).Nodup)
    (hroutes : (routes.map ProviderManagedRoute.identity).Nodup)
    (h : simulate settings data workspaceFound catalog routes = .some result) :
    (∀ selected, result.selected = .some selected → ∃ target, Canonical catalog routes target ∧
      Eligible settings data target ∧ selected = describe data (candidate settings data target) ∧
      ((selected.providerId, selected.providerModelId) = target.identity ∧
        selected.catalogModelId = target.id) ∧
      (∀ id, data.preferredModelId = .some id →
        (∃ other, Canonical catalog routes other ∧ Eligible settings data other ∧
          other.id = .some id) →
        target.id = .some id) ∧
      ((¬ ∃ other, Canonical catalog routes other ∧ Eligible settings data other ∧
          data.preferredModelId.isSome = true ∧ other.id = data.preferredModelId) →
        ∀ other, Canonical catalog routes other → Eligible settings data other →
          rankKey data (candidate settings data target) ≤ rankKey data
            (candidate settings data other))) ∧
    (result.outcome = .noSuitableModel ↔ ¬ ∃ target, Canonical catalog routes target ∧
      Eligible settings data target) ∧
    (result.outcome = .noSuitableModel ↔ result.selected = .none) ∧
    ∀ catalog' routes', catalog'.Perm catalog → routes'.Perm routes →
      simulate settings data workspaceFound catalog' routes' = .some result := by
  have hmem := mem_targets_iff hcatalog hroutes
  unfold simulate at h
  split at h
  · rename_i hfound
    obtain rfl := Option.some.inj h
    refine ⟨fun selected hselected => ?_, ?_, (route_outcome _).2,
      fun catalog' routes' hperm hperm' => ?_⟩
    · obtain ⟨chosen, reasons, hselect, rfl⟩ := route_selected hselected
      obtain ⟨heligible, hpreferred, hleast⟩ := select_spec hselect
      obtain ⟨target, htarget, hrequirements, rfl⟩ := (mem_eligible_iff _ _).mp heligible
      have hlisted : ∀ other, Canonical catalog routes other → Eligible settings data other →
          candidate settings data other ∈
              (tally settings data (canonicalizeTargets catalog routes).targets).eligible :=
        fun other hcanonical hother =>
          (mem_eligible_iff _ _).mpr ⟨other, (hmem other).mpr hcanonical, hother, rfl⟩
      refine ⟨target, (hmem target).mp htarget, hrequirements, rfl, ⟨rfl, rfl⟩, fun id hid hother =>
        ?_, fun hnone => ?_⟩
      · obtain ⟨other, hcanonical, hother, hmodel⟩ := hother
        exact hpreferred id hid ⟨_, hlisted other hcanonical hother, hmodel⟩
      · intro other hcanonical hother
        refine hleast (fun hsome => hnone ?_) _ (hlisted other hcanonical hother)
        obtain ⟨_, hlist, hsome, hmodel⟩ := hsome
        obtain ⟨preferred, hpreferredMem, hpreferredEligible, rfl⟩ :=
          (mem_eligible_iff _ _).mp hlist
        exact ⟨preferred, (hmem preferred).mp hpreferredMem, hpreferredEligible, hsome, hmodel⟩
    · rw [(route_outcome _).1, List.eq_nil_iff_forall_not_mem]
      constructor
      · rintro hempty ⟨target, hcanonical, heligible⟩
        exact hempty _ ((mem_eligible_iff _ _).mpr ⟨target, (hmem target).mpr hcanonical, heligible,
          rfl⟩)
      · intro hnone selected hselected
        obtain ⟨target, htarget, heligible, -⟩ := (mem_eligible_iff _ _).mp hselected
        exact hnone ⟨target, (hmem target).mp htarget, heligible⟩
    · unfold simulate
      rw [if_pos hfound, targets_perm hcatalog hroutes hperm hperm']
  · cases h

/-- A model of the catalog, and a route under its identity. -/
def sampleModel : ModelDefinition where
  id := 1
  providerId := "p".toList
  providerModelId := "m".toList
  displayName := "M".toList
  status := .available
  executionTargetClass := .remote
  contextWindow := .some 1000
  maxOutputTokens := .none
  reasoning := .none
  coding := .some true
  toolCalling := .none
  structuredOutput := .none
  vision := .none
  contractEnforcementGrade := .unsupported
  enforcementMetadataSource := "catalog_unknown".toList
  inputPricePerMillion := .none
  outputPricePerMillion := .none
  currency := .none
  freeAllowlisted := false
  lastVerifiedAt := 0

def sampleRoute : ProviderManagedRoute :=
  ⟨"p".toList, "m".toList, "R".toList, .remote, true, ["coding".toList],
    "DECLARED_GUARANTEE".toList, .unsupported, "provider_adapter".toList, .none, .none, false, true,
      "provider_adapter".toList, "provider_adapter".toList⟩

def sampleRequest : RoutingRequest where
  requiredCapabilities := [.coding]
  contextTokensEstimate := 2000
  toolCallingRequired := false
  structuredOutputRequired := false
  visionRequired := false
  minimumContractEnforcementGrade := .unsupported
  expectedOutputTokens := .none
  costPolicy := .lowestCost
  preferredProvider := .none
  preferredModelId := .none
  contextBound := by decide
  outputBound := by intro n h; cases h

theorem sampleRoute_eligible : Eligible ⟨.none, []⟩ sampleRequest (.managed sampleRoute) where
  forced := by intro pair h; cases h
  available := rfl
  context := rfl
  capabilities := by
    intro capability h
    rw [show requirements sampleRequest = [.coding] from rfl, List.mem_singleton] at h
    subst h
    exact List.mem_singleton.mpr rfl
  enforcement := le_rfl
  free := by intro h; cases h

/-- The route replaces the model, whose window is too small. -/
theorem sample_selected :
    (route ⟨.none, []⟩ sampleRequest
      (canonicalizeTargets [sampleModel] [sampleRoute]).targets).outcome ≠ .noSuitableModel := by
  intro h
  have hnone :=
    (@router_selection ⟨.none, []⟩ sampleRequest true [sampleModel] [sampleRoute] _ (by simp)
    (by simp)
    rfl).2.1.mp h
  exact hnone ⟨.managed sampleRoute, List.mem_singleton.mpr rfl, sampleRoute_eligible⟩

end Router
end Novalton
