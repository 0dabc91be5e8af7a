/-
The one tool round of an agent execution by its model runs: which run a tool call names as
that of its proposal, and what the continuation takes from that run
(`modules/agents/execution.py`, `execute_proposal` of `modules/tools/service.py` and
`approve_and_resume` of `modules/approvals/mutation_resume.py`).

An execution is a machine that its environment moves: the provider replies, the tool
gateway returns, an approval resumes. The model runs of an agent run are told apart by the
attempt they are for, of which there is one each. What the provider replies to the
continuation is not taken further.
-/
import Novalton.Attempts
import Novalton.ContractExecution
import Novalton.Transition

namespace Novalton.ToolContinuation

open Attempts ContractExecution

/-! ## Contract profiles -/

/-- `ResultShapeConstraint`, with the instruction the fingerprint reads. -/
structure ResultShapeConstraint extends ShapeConstraint where
  instruction : Text

/-- `SemanticConstraint`. -/
structure SemanticConstraint where
  code : Text
  path : Text
  instruction : Text

/-- A result contract: its class's name, its schema, and its `semantic_constraints`. -/
structure Contract where
  name : Text
  schema : Schema
  semantic : List SemanticConstraint

/-- `kind.value` and `value` of a constraint. -/
def kindFields : ShapeKind → Text × JsonTree
  | .exactItems value => ("exact_items".toList, .int value)
  | .minItems value => ("min_items".toList, .int value)
  | .maxItems value => ("max_items".toList, .int value)
  | .empty => ("empty".toList, .null)
  | .allowedValues value => ("allowed_values".toList, .array (value.map .string))
  | .semantic _ => ("semantic".toList, .null)

/-- `fingerprint_data`. -/
def ResultShapeConstraint.fingerprint_data (constraint : ResultShapeConstraint) : JsonTree :=
  .object [("code".toList, .string constraint.code),
    ("instruction".toList, .string constraint.instruction),
      ("kind".toList, .string (kindFields constraint.kind).1),
      ("path".toList, .string constraint.path),
    ("value".toList, (kindFields constraint.kind).2)]

/-- `_semantic_constraints`, each as its `__dict__`. -/
def semanticConstraints (contract : Contract) : List JsonTree :=
  (contract.semantic.take 16).map fun constraint =>
    .object [("code".toList, .string (constraint.code.take 64)),
      ("instruction".toList, .string (constraint.instruction.take 240)),
        ("path".toList, .string (constraint.path.take 160))]

/-- `\uXXXX`, in two surrogates above the basic plane. -/
def unicodeEscape (c : Char) : Text :=
  if c.toNat < 0x10000 then '\\' :: 'u' :: hexDigits 4 c.toNat
  else '\\' :: 'u' :: hexDigits 4 (0xd800 + (c.toNat - 0x10000) / 0x400) ++
    '\\' :: 'u' :: hexDigits 4 (0xdc00 + (c.toNat - 0x10000) % 0x400)

/-- `ensure_ascii`: outside of strings the text is ASCII already. -/
def ensureAscii (text : Text) : Text :=
  text.flatMap fun c => if 32 ≤ c.toNat ∧ c.toNat < 127 then [c] else unicodeEscape c

/-- The functions a profile is made with: the JSON document of a schema, and
`hashlib.sha256(text.encode()).hexdigest()`. -/
structure Digests where
  document : Schema → JsonTree
  sha256 : Text → Text

/-- `ContractExecutionProfile`, as far as an execution reads it. -/
structure ContractExecutionProfile where
  json_schema : Schema
  result_shape_constraints : List ResultShapeConstraint
  fingerprint : Text

section
variable (digests : Digests)

/-- The text that is hashed. -/
def fingerprintText (contract : Contract) (schema : Schema)
    (contextual : List ResultShapeConstraint) : Text :=
  ensureAscii (JsonTree.dumps (.object [("name".toList, .string contract.name),
    ("result_shape_constraints".toList,
      .array (contextual.map ResultShapeConstraint.fingerprint_data)),
    ("schema".toList, digests.document schema),
      ("semantic_constraints".toList, .array (semanticConstraints contract))]))

/-- `compile_contract`. -/
def compile_contract (contract : Contract) (constraints : List ResultShapeConstraint) :
    Except Text ContractExecutionProfile := do
  let contextual := constraints.take maxResultShapeConstraints
  let schema ← compileContract contract.schema
    (constraints.map ResultShapeConstraint.toShapeConstraint)
  return ⟨schema, contextual,
    (digests.sha256 (fingerprintText digests contract schema contextual)).take 16⟩

end

/-! ## Strategies and budgets -/

/-- `ContractStrategyTier`. -/
inductive StrategyTier where
  | strictSchema | jsonObject | jsonInstruction
deriving DecidableEq, Repr

/-- `ContractGenerationStrategy`. -/
structure Strategy where
  tier : StrategyTier
  native_structured_output : Bool
  json_object_output : Bool
  require_parameters : Bool
  response_healing : Bool
deriving DecidableEq, Repr

/-- `ContractGenerationCapabilities` of the routed model and its provider. -/
structure Capabilities where
  native_structured_output : Bool
  json_object_output : Bool
  provider_require_parameters : Bool
  response_healing : Bool

/-- `select_generation_strategy`. -/
def select_generation_strategy (capabilities : Capabilities) (required : Bool) : Option Strategy :=
  if capabilities.native_structured_output then
    .some ⟨.strictSchema, true, false, capabilities.provider_require_parameters,
      capabilities.response_healing⟩
  else if required then .none
  else if capabilities.json_object_output then
    .some ⟨.jsonObject, false, true, capabilities.provider_require_parameters,
      capabilities.response_healing⟩
  else .some ⟨.jsonInstruction, false, false, capabilities.provider_require_parameters,
    capabilities.response_healing⟩

/-- `ceil(tokens * 1.5)`. -/
def half_more (tokens : ℕ) : ℕ := (3 * tokens + 1) / 2

/-- The tokens of `select_output_budget`. A maximum of 0 is none. -/
def select_output_budget (expected_output_tokens : ℕ) (known_model_maximum : Option ℕ)
    (safety_ceiling : ℕ) (recovery : Bool) : ℕ :=
  let target := max expected_output_tokens (half_more expected_output_tokens)
  let ceiling :=
    match known_model_maximum with
    | .some (maximum + 1) => min (maximum + 1) safety_ceiling
    | _ => safety_ceiling
  let target := if recovery then max target (half_more target) else target
  max 1 (min target ceiling)

/-! ## Rows -/

/-- A `ModelRun`, as far as the tool round reads it, with the generation whose usage
`mark_succeeded` recorded on it and the strategy its provider was called with. -/
structure ModelRun where
  target : Target
  provider_require_parameters : Bool
  contract_strategy_tier : Option StrategyTier
  contract_fingerprint : Option Text
  execution_max_output_tokens : Option ℕ
  status : ModelRunStatus
  generation : Option Generation
  strategy : Option Strategy

/-- A `ToolCall`, and the generation whose result held its proposal. -/
structure ToolCall where
  proposal_model_run : Option AttemptKind
  status : ToolExecutionStatus
  generation : Generation

/-- The request of a continuation. The strategy decides its schema or JSON mode and its
provider options. -/
structure CompletionRequest where
  provider_id : Text
  provider_model_id : Text
  strategy : Strategy
  max_output_tokens : ℕ
deriving DecidableEq

/-- Where an execution stands, with the locals it goes on with. -/
inductive Point where
  | routed
  | prepared
  | calling (strategy : Strategy)
  | recovering (strategy : Strategy)
  | repairing
  | accepted (strategy : Strategy) (generation : Generation)
  | suspended
  | ended
deriving DecidableEq

/-- `resumed` is the response healing of the provider where a continuation was requested after
an approval. -/
structure State where
  runs : AttemptKind → Option ModelRun
  call : Option ToolCall
  continued : Option (Except Text CompletionRequest)
  resumed : Option Bool
  point : Point

def State.setRun (s : State) (kind : AttemptKind) (run : ModelRun) : State :=
  { s with runs := fun other => if other = kind then .some run else s.runs other }

/-- A change of a row that is there. -/
def State.update (s : State) (kind : AttemptKind) (f : ModelRun → ModelRun) : State :=
  { s with runs := fun other => if other = kind then (s.runs kind).map f else s.runs other }

def State.moveTo (s : State) (point : Point) : State := { s with point := point }

/-! ## One execution -/

/-- What `execute` is called with, and the settings it reads. `continuation` is the result
contract of the continuation, `required` whether native structured output is. -/
structure Execution where
  methods : TextMethods
  digests : Digests
  contract : Contract
  continuation : Contract
  constraints : List ResultShapeConstraint
  permittedTools : List Text
  required : Bool
  expected_output_tokens : ℕ
  safety_ceiling : ℕ

/-- What the environment does. `reply` is the provider's to the run that waits for one, `fail`
any exception or failed check on the way. -/
inductive Action where
  | start (target : Target) (provider_require_parameters : Bool)
  | diagnose (native_structured_output provider_require_parameters response_healing : Bool)
      (known_model_maximum : Option ℕ)
  | reply (generation : Generation) (known_model_maximum : Option ℕ)
  | fail
  | propose (status : ToolExecutionStatus) (evidence registered response_healing : Bool)
  | approve (status : ToolExecutionStatus) (evidence registered response_healing : Bool)

def contractMismatch : Text := "tool_continuation_contract_mismatch".toList

section
variable (x : Execution)

/-- The strategy of a continuation that is given none: that of the tier the run records. -/
def recordedStrategy (run : ModelRun) (response_healing : Bool) : Option Strategy :=
  run.contract_strategy_tier.map fun tier =>
    ⟨tier, tier == .strictSchema, tier == .jsonObject, run.provider_require_parameters,
      response_healing⟩

/-- `continue_with_tool_evidence` up to its request: a refusal by its code, or the model run it
starts and what it requests. -/
def continue_with_tool_evidence (initial : ModelRun) (strategy : Option Strategy)
    (registered response_healing : Bool) :
    Except Text (ModelRun × CompletionRequest) := do
  let profile ← compile_contract x.digests x.continuation []
  let initial_profile ← compile_contract x.digests x.contract []
  if initial.contract_fingerprint ≠ .some initial_profile.fingerprint then .error contractMismatch
  else if !registered then .error "tool_continuation_provider_unavailable".toList
  else
    match strategy.orElse fun _ => recordedStrategy initial response_healing,
        initial.execution_max_output_tokens with
    | .some strategy, .some budget =>
      .ok (⟨initial.target, initial.provider_require_parameters, .some strategy.tier,
        .some profile.fingerprint,
          .some budget, .running, .none, .some strategy⟩,
        ⟨initial.target.providerId, initial.target.providerModelId, strategy, budget⟩)
    | _, _ => .error contractMismatch

/-- The continuation of a run. -/
def continueWith (s : State) (initial : ModelRun) (strategy : Option Strategy)
    (registered response_healing : Bool) : State :=
  match continue_with_tool_evidence x initial strategy registered response_healing with
  | .error code => { s with continued := .some (.error code), point := .ended }
  | .ok (run, request) =>
    { s.setRun .toolContinuation run with
      continued := .some (.ok request)
      resumed := if strategy.isNone then .some response_healing else .none
      point := .ended }

/-- A model run for an extra attempt on the same target. -/
def extraRun (initial : ModelRun) (budget : Option ℕ) : ModelRun :=
  { initial with execution_max_output_tokens := budget, status := .running, generation := .none }

/-- What follows the generation the execution goes on with. -/
def afterGeneration (s : State) (strategy : Strategy) (generation : Generation) (extraUsed : Bool) :
    State :=
  if generation.truncated x.methods then s.moveTo .ended
  else
    match generation.content with
    | .raises _ | .notJson => s.moveTo .ended
    | .json parsed =>
      match parsed.accepted with
      | .some (_, proposals) =>
        if proposals = 1 ∧ x.permittedTools ≠ [] then s.moveTo (.accepted strategy generation)
          else s.moveTo .ended
      | .none =>
        match s.runs .initial with
        | .some initial =>
          if x.permittedTools = [] ∧ extraUsed = false then
            (s.setRun .contractRepair (extraRun initial initial.execution_max_output_tokens)).moveTo
              .repairing
          else s.moveTo .ended
        | .none => s.moveTo .ended

def checked (initial : ModelRun) (generation : Generation) : Bool :=
  generation.identified initial.target &&
    upstreamConstraintMatches x.methods initial.target generation.upstreamProviderId

/-- `set_execution_diagnostics`, before the call with the strategy. -/
def set_execution_diagnostics (strategy : Strategy) (fingerprint : Text) (budget : ℕ)
    (run : ModelRun) : ModelRun :=
  { run with
    contract_strategy_tier := .some strategy.tier
    contract_fingerprint := .some fingerprint
    execution_max_output_tokens := .some budget
    strategy := .some strategy }

/-- `mark_succeeded`. -/
def succeed (generation : Generation) (run : ModelRun) : ModelRun :=
  { run with status := .succeeded, generation := .some generation }

/-- The reply to the first call. -/
def firstReply (s : State) (strategy : Strategy) (initial : ModelRun) (generation : Generation)
    (known_model_maximum : Option ℕ) : State :=
  if !checked x initial generation then
    (s.update .initial fun run => { run with status := .failed }).moveTo .ended
  else if generation.truncated x.methods then
    ((s.update .initial (succeed generation)).setRun .truncation
      (extraRun initial
        (.some (select_output_budget x.expected_output_tokens known_model_maximum x.safety_ceiling
        true)))).moveTo
        (.recovering strategy)
  else afterGeneration x (s.update .initial (succeed generation)) strategy generation false

/-- The reply to the recovery. A reply that is refused leaves the truncated one, which ends it. -/
def recoveryReply (s : State) (strategy : Strategy) (initial : ModelRun) (generation : Generation) :
    State :=
  if !checked x initial generation then
    (s.update .truncation fun run => { run with status := .failed }).moveTo .ended
  else afterGeneration x (s.update .truncation (succeed generation)) strategy generation true

/-- The repaired content is never acted on: its execution is permitted no tool. -/
def repairReply (s : State) (initial : ModelRun) (generation : Generation) : State :=
  if !checked x initial generation then
    (s.update .contractRepair fun run => { run with status := .failed }).moveTo .ended
  else (s.update .contractRepair (succeed generation)).moveTo .ended

/-- The row of the run that waits for a reply fails. -/
def failWaiting (s : State) : State :=
  match s.point with
  | .prepared | .calling _ =>
    (s.update .initial fun run => { run with status := .failed }).moveTo .ended
  | .recovering _ => (s.update .truncation fun run => { run with status := .failed }).moveTo .ended
  | .repairing => (s.update .contractRepair fun run => { run with status := .failed }).moveTo .ended
  | _ => s.moveTo .ended

/-- `execute_proposal` with `proposal_model_run_id=model_run.id`, and what follows it. -/
def propose (s : State) (strategy : Strategy) (generation : Generation) (initial : ModelRun)
    (status : ToolExecutionStatus) (evidence registered response_healing : Bool) : State :=
  let s := { s with call := .some ⟨.some .initial, status, generation⟩ }
  if status = .pendingApproval then s.moveTo .suspended
  else if status ≠ .succeeded ∨ evidence = false then s.moveTo .ended
  else continueWith x s initial (.some strategy) registered response_healing

/-- `approve_and_resume`, from the call it resumes. -/
def approve (s : State) (call : ToolCall) (status : ToolExecutionStatus)
    (evidence registered response_healing : Bool) : State :=
  let s := { s with call := .some { call with status := status } }
  if status ≠ .succeeded ∨ evidence = false then s.moveTo .ended
  else
    match call.proposal_model_run.bind s.runs with
    | .some run =>
      if run.status = .succeeded then continueWith x s run .none registered response_healing
        else s.moveTo .ended
    | .none => s.moveTo .ended

def step (s : State) : Action → Option State
  | .start target provider_require_parameters =>
    match s.point, compile_contract x.digests x.contract x.constraints with
    | .routed, .ok _ =>
      .some ((s.setRun .initial ⟨target, provider_require_parameters, .none, .none, .none, .running,
        .none, .none⟩).moveTo
        .prepared)
    | _, _ => .none
  | .diagnose native_structured_output provider_require_parameters response_healing
      known_model_maximum =>
    match s.point, compile_contract x.digests x.contract x.constraints, select_generation_strategy
        ⟨native_structured_output, false, provider_require_parameters, response_healing⟩
            x.required with
    | .prepared, .ok profile, .some strategy =>
      .some ((s.update .initial (set_execution_diagnostics strategy profile.fingerprint
        (select_output_budget x.expected_output_tokens known_model_maximum x.safety_ceiling
          false))).moveTo (.calling strategy))
    | _, _, _ => .none
  | .reply generation known_model_maximum =>
    match s.point, s.runs .initial with
    | .calling strategy, .some initial =>
      .some (firstReply x s strategy initial generation known_model_maximum)
    | .recovering strategy, .some initial => .some (recoveryReply x s strategy initial generation)
    | .repairing, .some initial => .some (repairReply x s initial generation)
    | _, _ => .none
  | .fail =>
    match s.point with
    | .routed | .suspended | .ended => .none
    | _ => .some (failWaiting s)
  | .propose status evidence registered response_healing =>
    match s.point, s.runs .initial with
    | .accepted strategy generation, .some initial =>
      .some (propose x s strategy generation initial status evidence registered response_healing)
    | _, _ => .none
  | .approve status evidence registered response_healing =>
    match s.point, s.call with
    | .suspended, .some call => .some (approve x s call status evidence registered response_healing)
    | _, _ => .none

/-- One execution, from its route on. -/
def execution : System State Action where
  Init := fun s => s = ⟨fun _ => .none, .none, .none, .none, .routed⟩
  step := step x

end

/-! ## What the states keep -/

section
variable (x : Execution)

/-- The recorded and the recomputed fingerprint are one. -/
def FingerprintsAgree : Prop :=
  ∀ profile initial_profile,
    compile_contract x.digests x.contract x.constraints = .ok profile →
  compile_contract x.digests x.contract [] = .ok initial_profile →
    profile.fingerprint = initial_profile.fingerprint

/-- The diagnostics of the first call, recorded, with its strategy. -/
structure Diagnosed (run : ModelRun) (strategy : Strategy) : Prop where
  tier : run.contract_strategy_tier = .some strategy.tier
  called : run.strategy = .some strategy
  selected : strategy.native_structured_output = (strategy.tier == .strictSchema) ∧
    strategy.json_object_output = (strategy.tier == .jsonObject)
  budget : run.execution_max_output_tokens.isSome = true
  fingerprint : ∃ profile, compile_contract x.digests x.contract x.constraints = .ok profile ∧
    run.contract_fingerprint = .some profile.fingerprint

/-- An accepted generation is the reply to the first call, or to the recovery from it. -/
structure Origin (runs : AttemptKind → Option ModelRun) (generation : Generation) : Prop where
  whole : generation.truncated x.methods = false
  replied : ∃ run first, runs .initial = .some run ∧ run.generation = .some first ∧
    (first = generation ∨ first.truncated x.methods = true)

/-- A request is made to the run's model, with the whole strategy of its call and its budget. -/
structure Uses (run : ModelRun) (request : CompletionRequest) : Prop where
  provider : request.provider_id = run.target.providerId
  model : request.provider_model_id = run.target.providerModelId
  strategy : run.strategy = .some request.strategy
  budget : run.execution_max_output_tokens = .some request.max_output_tokens

/-- A request that continues a diagnosed run: with the strategy of its call where that is passed
on, and after an approval with the one its columns and the provider make. -/
structure Continues (run : ModelRun) (strategy : Strategy) (resumed : Option Bool)
    (request : CompletionRequest) : Prop where
  provider : request.provider_id = run.target.providerId
  model : request.provider_model_id = run.target.providerModelId
  strategy : .some request.strategy = resumed.elim (.some strategy) (recordedStrategy run)
  budget : run.execution_max_output_tokens = .some request.max_output_tokens

/-- The locals agree with the rows. -/
def Standing (s : State) : Point → Prop
  | .calling strategy => ∃ run, s.runs .initial = .some run ∧ Diagnosed x run strategy
  | .recovering strategy => ∃ run first, s.runs .initial = .some run ∧ Diagnosed x run strategy ∧
      run.generation = .some first ∧
      first.truncated x.methods = true
  | .accepted strategy generation =>
    (∃ run, s.runs .initial = .some run ∧ Diagnosed x run strategy) ∧ Origin x s.runs generation
  | .suspended => ∃ run strategy, s.runs .initial = .some run ∧ Diagnosed x run strategy
  | .prepared => ∃ run, s.runs .initial = .some run
  | .routed | .repairing | .ended => True

/-- Before the call nothing is called or continued. -/
def Point.early : Point → Bool
  | .suspended | .ended => false
  | _ => true

structure Coherent (s : State) : Prop where
  standing : Standing x s s.point
  early : s.point.early = true → s.call = .none
  waiting : s.point ≠ .ended → s.continued = .none ∧ s.resumed = .none
  recorded : ∀ run fingerprint, s.runs .initial = .some run →
    run.contract_fingerprint = .some fingerprint →
    ∃ profile, compile_contract x.digests x.contract x.constraints = .ok profile ∧
      fingerprint = profile.fingerprint
  call : ∀ call, s.call = .some call → call.proposal_model_run = .some .initial ∧
    Origin x s.runs call.generation
  request : ∀ request, s.continued = .some (.ok request) → ∃ run strategy,
    s.runs .initial = .some run ∧
    Diagnosed x run strategy ∧ Continues run strategy s.resumed request
  resumed : s.resumed.isSome = true → s.call.isSome = true ∧ ∃ request,
    s.continued = .some (.ok request)
  refused : s.continued = .some (.error contractMismatch) → ¬FingerprintsAgree x

end

section
variable {x : Execution} {s : State} {strategy : Strategy} {run initial : ModelRun}
  {generation : Generation}

@[simp] theorem setRun_self (kind : AttemptKind) : (s.setRun kind run).runs kind = .some run := by
  simp [State.setRun]

theorem setRun_other {kind other : AttemptKind} (h : other ≠ kind) :
    (s.setRun kind run).runs other = s.runs other := by
  simp [State.setRun, h]

theorem update_self {kind : AttemptKind} (f : ModelRun → ModelRun) :
    (s.update kind f).runs kind = (s.runs kind).map f := by
  simp [State.update]

theorem update_other {kind other : AttemptKind} (f : ModelRun → ModelRun) (h : other ≠ kind) :
    (s.update kind f).runs other = s.runs other := by
  simp [State.update, h]

/-- A compilation without constraints is of the contract as it is. -/
theorem compile_nil (digests : Digests) (contract : Contract) : compile_contract digests contract
    [] =
    .ok ⟨contract.schema, [],
      (digests.sha256 (fingerprintText digests contract contract.schema [])).take 16⟩ := rfl

/-- What may be recorded as the fingerprint of the initial run. -/
def Recorded (x : Execution) (s : State) : Prop :=
  ∀ run fingerprint, s.runs .initial = .some run → run.contract_fingerprint = .some fingerprint →
    ∃ profile, compile_contract x.digests x.contract x.constraints = .ok profile ∧
      fingerprint = profile.fingerprint

/-- Before the call the locals and the fingerprint are all there is. -/
theorem Coherent.of_quiet (hcall : s.call = .none)
    (hcontinued : s.continued = .none ∧ s.resumed = .none) (hrecorded : Recorded x s)
    (hstanding : Standing x s s.point) : Coherent x s where
  standing := hstanding
  early := fun _ => hcall
  waiting := fun _ => hcontinued
  recorded := hrecorded
  call := by
    intro call h
    rw [hcall] at h
    cases h
  request := by
    intro request h
    rw [hcontinued.1] at h
    cases h
  resumed := by
    intro h
    rw [hcontinued.2] at h
    cases h
  refused := by
    intro h
    rw [hcontinued.1] at h
    cases h

theorem Recorded.update {kind : AttemptKind} {f : ModelRun → ModelRun} (h : Recorded x s)
    (hf : ∀ run, (f run).contract_fingerprint = run.contract_fingerprint) : Recorded x
    (s.update kind f) := by
  intro run fingerprint hrun hfingerprint
  by_cases hkind : AttemptKind.initial = kind
  · rw [← hkind, update_self, Option.map_eq_some_iff] at hrun
    obtain ⟨before, hbefore, rfl⟩ := hrun
    rw [hf] at hfingerprint
    exact h before fingerprint hbefore hfingerprint
  · rw [update_other f hkind] at hrun
    exact h run fingerprint hrun hfingerprint

theorem Recorded.setRun (h : Recorded x s) (kind : AttemptKind) (run : ModelRun)
    (hkind : AttemptKind.initial ≠ kind) :
    Recorded x (s.setRun kind run) := by
  intro other fingerprint hother
  rw [setRun_other hkind] at hother
  exact h other fingerprint hother

/-- A status leaves the diagnostics. -/
theorem Diagnosed.succeed (h : Diagnosed x run strategy) (generation : Generation) : Diagnosed x
    (succeed generation run) strategy :=
  ⟨h.tier, h.called, h.selected, h.budget, h.fingerprint⟩

theorem afterGeneration_coherent {extraUsed : Bool} (hcall : s.call = .none)
    (hcontinued : s.continued = .none ∧ s.resumed = .none) (hrecorded : Recorded x s)
    (hinitial : s.runs .initial = .some run) (hdiagnosed : Diagnosed x run strategy)
    (horigin : generation.truncated x.methods = false → Origin x s.runs generation) :
    Coherent x (afterGeneration x s strategy generation extraUsed) := by
  have hended : Coherent x (s.moveTo .ended) := Coherent.of_quiet hcall hcontinued hrecorded trivial
  rw [afterGeneration]
  split
  next => exact hended
  next hwhole =>
    split
    next => exact hended
    next => exact hended
    next parsed =>
      split
      next =>
        split
        next =>
          exact Coherent.of_quiet hcall hcontinued hrecorded ⟨⟨run, hinitial, hdiagnosed⟩, horigin (Bool.not_eq_true _ ▸ hwhole)⟩
        next => exact hended
      next =>
        rw [hinitial]
        dsimp only
        split
        next => exact Coherent.of_quiet hcall hcontinued (hrecorded.setRun .contractRepair (extraRun run run.execution_max_output_tokens) (by decide)) trivial
        next => exact hended

/-- Without JSON objects among the capabilities, the modes of a strategy are those of its tier. -/
theorem selected_modes {native provider_require_parameters response_healing required : Bool}
    (h : select_generation_strategy ⟨native, false, provider_require_parameters, response_healing⟩
      required = .some strategy) :
    strategy.native_structured_output = (strategy.tier == .strictSchema) ∧
      strategy.json_object_output = (strategy.tier == .jsonObject) := by
  unfold select_generation_strategy at h
  split at h
  · cases h
    exact ⟨rfl, rfl⟩
  · split at h
    · cases h
    · cases h
      exact ⟨rfl, rfl⟩

/-- What a continuation comes to: a request with what the run records, or a refusal that is a
mismatch of fingerprints only if they differ. -/
theorem continue_with_cases {passed : Option Strategy} {registered response_healing : Bool}
    (h : Diagnosed x run strategy) (hpassed : passed = .some strategy ∨ passed = .none) :
    (∀ started request, continue_with_tool_evidence x run passed registered response_healing =
      .ok (started, request) →
      Continues run strategy (if passed.isNone then .some response_healing else .none) request) ∧
      (continue_with_tool_evidence x run passed registered response_healing =
        .error contractMismatch → ¬FingerprintsAgree x) := by
  obtain ⟨budget, hbudget⟩ := Option.isSome_iff_exists.mp h.budget
  obtain ⟨profile, hprofile, hfingerprint⟩ := h.fingerprint
  obtain ⟨chosen, hchosen, hkept⟩ : ∃ chosen,
    (passed.orElse fun _ => recordedStrategy run response_healing) = .some chosen ∧
      .some chosen = (if passed.isNone then .some response_healing else .none : Option Bool).elim
        (.some strategy)
        (recordedStrategy run) := by
    rcases hpassed with rfl | rfl
    · exact ⟨strategy, rfl, rfl⟩
    · rw [Option.orElse_none, recordedStrategy, h.tier]
      refine ⟨_, rfl, ?_⟩
      rw [Option.isNone_none, if_pos rfl, Option.elim_some, recordedStrategy, h.tier]
      rfl
  rw [continue_with_tool_evidence, compile_nil, compile_nil, hchosen, hbudget]
  dsimp only [bind, Except.bind]
  split
  next hmismatch =>
    refine ⟨(fun _ _ h => by cases h), fun _ hagree => hmismatch ?_⟩
    rw [hfingerprint, hagree profile _ hprofile (compile_nil _ _)]
  next =>
    split
    next =>
      refine ⟨(fun _ _ h => by cases h), fun h => ?_⟩
      rw [Except.error.injEq] at h
      exact absurd h (by decide)
    next =>
      refine ⟨fun started request h => ?_, (fun h => by cases h)⟩
      rw [Except.ok.injEq, Prod.mk.injEq] at h
      obtain ⟨-, rfl⟩ := h
      exact ⟨rfl, rfl, hkept, hbudget⟩

/-- The continuation of a call keeps what holds. -/
theorem continueWith_coherent {passed : Option Strategy} {registered response_healing : Bool}
    (hrecorded : Recorded x s) (hinitial : s.runs .initial = .some run)
    (hdiagnosed : Diagnosed x run strategy) (hpassed : passed = .some strategy ∨ passed = .none)
    (hcalled : s.call.isSome = true) (hunresumed : s.resumed = .none)
    (hcall : ∀ call, s.call = .some call → call.proposal_model_run = .some .initial ∧
      Origin x s.runs call.generation) :
    Coherent x (continueWith x s run passed registered response_healing) := by
  obtain ⟨huses, hmismatch⟩ :=
    @continue_with_cases x strategy run passed registered response_healing hdiagnosed hpassed
  rw [continueWith]
  split
  next code hrefused =>
    refine ⟨trivial, (fun h => by cases h), (fun h => absurd rfl h), hrecorded, hcall,
      (fun _ h => by cases h), fun h => ?_, fun h => hmismatch ?_⟩
    · rw [show ({ s with continued := _, point := _ } : State).resumed = s.resumed from rfl,
        hunresumed] at h
      cases h
    · rw [hrefused]
      exact congrArg _ (Except.error.inj (Option.some.inj h))
  next started request hrequested =>
    have hkeeps : (s.setRun .toolContinuation started).runs .initial = s.runs .initial :=
      setRun_other (by decide)
    refine ⟨trivial, (fun h => by cases h), (fun h => absurd rfl h), ?_, ?_, ?_,
      fun _ => ⟨hcalled, request, rfl⟩, (fun h => by cases h)⟩
    · exact hrecorded.setRun .toolContinuation started (by decide)
    · intro call h
      obtain ⟨hnamed, hwhole, hreplied⟩ := hcall call h
      refine ⟨hnamed, hwhole, ?_⟩
      dsimp only
      rw [hkeeps]
      exact hreplied
    · intro other h
      dsimp only at h ⊢
      rw [Option.some.injEq, Except.ok.injEq] at h
      rw [← h, hkeeps]
      exact ⟨run, strategy, hinitial, hdiagnosed, huses _ _ hrequested⟩

/-- The failed row of the run that waited. -/
theorem fail_coherent {kind : AttemptKind} (h : Coherent x s) (hearly : s.point.early = true)
    (hpoint : s.point ≠ .ended) :
    Coherent x ((s.update kind fun run => { run with status := .failed }).moveTo .ended) :=
  Coherent.of_quiet (h.early hearly) (h.waiting hpoint) (Recorded.update h.recorded fun _ => rfl)
    trivial

/-- The reply to the first call. -/
theorem firstReply_coherent {known_model_maximum : Option ℕ} (h : Coherent x s)
    (hpoint : s.point = .calling strategy) (hinitial : s.runs .initial = .some initial) : Coherent x
    (firstReply x s strategy initial generation known_model_maximum) := by
  have hstanding := h.standing
  rw [hpoint] at hstanding
  obtain ⟨run, hrun, hdiagnosed⟩ := hstanding
  rw [hinitial, Option.some.injEq] at hrun
  subst hrun
  have hcall := h.early (by rw [hpoint]; rfl)
  have hcontinued := h.waiting (by rw [hpoint]; intro hp; cases hp)
  have hrecorded : Recorded x (s.update .initial (succeed generation)) :=
    Recorded.update h.recorded fun _ => rfl
  have hsucceeded : (s.update .initial (succeed generation)).runs .initial =
      .some (succeed generation initial) := by
    rw [update_self, hinitial]
    rfl
  rw [firstReply]
  split
  next => exact fail_coherent h (by rw [hpoint]; rfl) (by rw [hpoint]; intro hp; cases hp)
  next =>
    split
    next htruncated =>
      refine Coherent.of_quiet hcall hcontinued ?_ ⟨succeed generation initial, generation, ?_,
        hdiagnosed.succeed generation, rfl, htruncated⟩
      · exact hrecorded.setRun .truncation
          (extraRun initial
          (.some (select_output_budget x.expected_output_tokens known_model_maximum
          x.safety_ceiling true))) (by decide)
      · exact hsucceeded
    next =>
      refine afterGeneration_coherent hcall hcontinued hrecorded hsucceeded
        (hdiagnosed.succeed generation) fun hwhole => ?_
      exact ⟨hwhole, succeed generation initial, generation, hsucceeded, rfl, .inl rfl⟩

/-- The reply to the recovery. -/
theorem recoveryReply_coherent (h : Coherent x s) (hpoint : s.point = .recovering strategy) :
    Coherent x (recoveryReply x s strategy initial generation) := by
  have hstanding := h.standing
  rw [hpoint] at hstanding
  obtain ⟨run, first, hrun, hdiagnosed, hfirst, htruncated⟩ := hstanding
  have hcall := h.early (by rw [hpoint]; rfl)
  have hcontinued := h.waiting (by rw [hpoint]; intro hp; cases hp)
  rw [recoveryReply]
  split
  next => exact fail_coherent h (by rw [hpoint]; rfl) (by rw [hpoint]; intro hp; cases hp)
  next =>
    have hkeeps : (s.update .truncation (succeed generation)).runs .initial = .some run := by
      rw [update_other _ (by decide), hrun]
    refine afterGeneration_coherent hcall hcontinued (Recorded.update h.recorded fun _ => rfl)
      hkeeps hdiagnosed fun hwhole => ?_
    exact ⟨hwhole, run, first, hkeeps, hfirst, .inr htruncated⟩

/-- The call, and what follows it at once. -/
theorem propose_coherent {status : ToolExecutionStatus}
    {evidence registered response_healing : Bool} (h : Coherent x s)
    (hpoint : s.point = .accepted strategy generation)
    (hinitial : s.runs .initial = .some initial) :
    Coherent x (propose x s strategy generation initial status evidence registered
      response_healing) := by
  have hstanding := h.standing
  rw [hpoint] at hstanding
  obtain ⟨⟨run, hrun, hdiagnosed⟩, horigin⟩ := hstanding
  rw [hinitial, Option.some.injEq] at hrun
  subst hrun
  have hcontinued := h.waiting (by rw [hpoint]; intro hp; cases hp)
  have hcalled : ∀ call, Option.some (⟨.some .initial, status, generation⟩ : ToolCall) =
    .some call →
      call.proposal_model_run = .some .initial ∧ Origin x s.runs call.generation := by
    intro call hcall
    rw [← Option.some.inj hcall]
    exact ⟨rfl, horigin⟩
  have hunresumed : s.resumed.isSome = true →
      (Option.some (⟨.some .initial, status, generation⟩ : ToolCall)).isSome = true ∧
        ∃ request, s.continued = .some (.ok request) :=
          fun h => ⟨rfl, by rw [hcontinued.2] at h; cases h⟩
  rw [propose]
  split
  next =>
    exact ⟨⟨initial, strategy, hinitial, hdiagnosed⟩, (fun h => by cases h), fun _ => hcontinued,
      h.recorded, hcalled, h.request, hunresumed, h.refused⟩
  next =>
    split
    next =>
      exact ⟨trivial, (fun h => by cases h), fun _ => hcontinued, h.recorded, hcalled, h.request,
        hunresumed, h.refused⟩
    next => exact continueWith_coherent h.recorded hinitial hdiagnosed (.inl rfl) rfl hcontinued.2 hcalled

/-- The resumption of a call. -/
theorem approve_coherent {call : ToolCall} {status : ToolExecutionStatus}
    {evidence registered response_healing : Bool} (h : Coherent x s) (hpoint : s.point = .suspended)
    (hcall : s.call = .some call) :
    Coherent x (approve x s call status evidence registered response_healing) := by
  have hstanding := h.standing
  rw [hpoint] at hstanding
  obtain ⟨run, strategy, hrun, hdiagnosed⟩ := hstanding
  have hcontinued := h.waiting (by rw [hpoint]; intro hp; cases hp)
  obtain ⟨hnamed, horigin⟩ := h.call call hcall
  obtain ⟨named, before, generation⟩ := call
  dsimp only at hnamed horigin
  subst hnamed
  have hcalled : ∀ other, Option.some (⟨.some .initial, status, generation⟩ : ToolCall) =
    .some other →
      other.proposal_model_run = .some .initial ∧ Origin x s.runs other.generation := by
    intro other hother
    rw [← Option.some.inj hother]
    exact ⟨rfl, horigin⟩
  have hunresumed : s.resumed.isSome = true →
      (Option.some (⟨.some .initial, status, generation⟩ : ToolCall)).isSome = true ∧
        ∃ request, s.continued = .some (.ok request) :=
          fun h => ⟨rfl, by rw [hcontinued.2] at h; cases h⟩
  have hended : Coherent x ({ s with call := .some ⟨.some .initial, status, generation⟩ }.moveTo .ended) :=
    ⟨trivial, (fun h => by cases h), fun _ => hcontinued, h.recorded, hcalled, h.request,
      hunresumed, h.refused⟩
  rw [approve]
  dsimp only
  split
  next => exact hended
  next =>
    rw [Option.bind_some, hrun]
    dsimp only
    split
    next => exact continueWith_coherent h.recorded hrun hdiagnosed (.inr rfl) rfl hcontinued.2 hcalled
    next => exact hended

theorem step_coherent {t : State} {action : Action} (h : Coherent x s)
    (hstep : step x s action = .some t) : Coherent x t := by
  cases action with
  | start target provider_require_parameters =>
    rw [step] at hstep
    split at hstep
    next hpoint _ =>
      cases hstep
      refine Coherent.of_quiet (h.early (by rw [hpoint]; rfl))
        (h.waiting (by rw [hpoint]; intro hp; cases hp)) ?_ ⟨_, rfl⟩
      intro run fingerprint hrun hfingerprint
      cases hrun
      cases hfingerprint
    next => cases hstep
  | diagnose native_structured_output provider_require_parameters response_healing
      known_model_maximum =>
    rw [step] at hstep
    split at hstep
    next profile strategy hpoint hprofile hstrategy =>
      cases hstep
      have hcall := h.early (by rw [hpoint]; rfl)
      have hcontinued := h.waiting (by rw [hpoint]; intro hp; cases hp)
      have hfresh := h.standing
      rw [hpoint] at hfresh
      obtain ⟨run, hrun⟩ := hfresh
      set f := set_execution_diagnostics strategy profile.fingerprint
        (select_output_budget x.expected_output_tokens known_model_maximum x.safety_ceiling
          false) with hf
      have hupdated : (s.update .initial f).runs .initial = .some (f run) := by
        rw [update_self, hrun]
        rfl
      refine Coherent.of_quiet hcall hcontinued ?_ ⟨f run, hupdated,
        ⟨rfl, rfl, selected_modes hstrategy, rfl, profile, hprofile, rfl⟩⟩
      intro other fingerprint hother hfingerprint
      have hother : (s.update .initial f).runs .initial = .some other := hother
      rw [hupdated, Option.some.injEq] at hother
      rw [← hother, hf, set_execution_diagnostics, Option.some.injEq] at hfingerprint
      exact ⟨profile, hprofile, hfingerprint.symm⟩
    next => cases hstep
  | reply generation known_model_maximum =>
    rw [step] at hstep
    split at hstep
    next strategy initial hpoint hinitial =>
      cases hstep
      exact firstReply_coherent h hpoint hinitial
    next strategy initial hpoint hinitial =>
      cases hstep
      exact recoveryReply_coherent h hpoint
    next initial hpoint hinitial =>
      cases hstep
      have hearly : s.point.early = true := by rw [hpoint]; rfl
      have hwaiting : s.point ≠ .ended := by rw [hpoint]; intro hp; cases hp
      rw [repairReply]
      split
      next => exact fail_coherent h hearly hwaiting
      next =>
        have hrecorded :=
          @Recorded.update x s .contractRepair (succeed generation) h.recorded fun _ => rfl
        exact Coherent.of_quiet (h.early hearly) (h.waiting hwaiting) hrecorded trivial
    next => cases hstep
  | fail =>
    rw [step] at hstep
    split at hstep
    next => cases hstep
    next => cases hstep
    next => cases hstep
    next hrouted hsuspended hended =>
      cases hstep
      have hearly : s.point.early = true := by
        cases hpoint : s.point with
        | suspended => exact absurd hpoint hsuspended
        | ended => exact absurd hpoint hended
        | routed | prepared | calling | recovering | repairing | accepted => rfl
      rw [failWaiting]
      split
      next => exact fail_coherent h hearly hended
      next => exact fail_coherent h hearly hended
      next => exact fail_coherent h hearly hended
      next => exact fail_coherent h hearly hended
      next => exact Coherent.of_quiet (h.early hearly) (h.waiting hended) h.recorded trivial
  | propose status evidence registered response_healing =>
    rw [step] at hstep
    split at hstep
    next strategy generation initial hpoint hinitial =>
      cases hstep
      exact propose_coherent h hpoint hinitial
    next => cases hstep
  | approve status evidence registered response_healing =>
    rw [step] at hstep
    split at hstep
    next call hpoint hcall =>
      cases hstep
      exact approve_coherent h hpoint hcall
    next => cases hstep

theorem reachable_coherent (h : (execution x).Reachable s) : Coherent x s := by
  refine System.Reachable.invariant ?_ (fun s action t hs hstep => step_coherent hs hstep) h
  intro s hs
  rw [show s = ⟨fun _ => .none, .none, .none, .none, .routed⟩ from hs]
  exact Coherent.of_quiet rfl ⟨rfl, rfl⟩ (fun run fingerprint hrun => by cases hrun) trivial

/-! ## The run a call names -/

/-- A call names the run whose generation held its proposal, and its continuation requests
what that run records. -/
def Provenance (s : State) : Prop :=
  ∀ call, s.call = .some call → ∃ kind run, call.proposal_model_run = .some kind ∧
    s.runs kind = .some run ∧
    run.generation = .some call.generation ∧ ∀ request, s.continued = .some (.ok request) →
      Uses run request

/-- No call of the state follows a first reply that was cut off at its token limit. -/
def FirstReplyWhole (x : Execution) (s : State) : Prop :=
  ∀ call, s.call = .some call → ∀ run first, s.runs .initial = .some run →
    run.generation = .some first →
    first.truncated x.methods = false

/-- Where a continuation was requested after an approval, the strategy of the first call can be
made again: the route's column is the provider's option, and the provider's response healing is
what it was. -/
def StrategyKept (s : State) : Prop :=
  ∀ healing, s.resumed = .some healing → ∀ run strategy, s.runs .initial = .some run →
    run.strategy = .some strategy →
    run.provider_require_parameters = strategy.require_parameters ∧
      healing = strategy.response_healing

/-- The strategy is made again exactly of the same two options. -/
theorem recordedStrategy_iff {healing : Bool} (h : Diagnosed x run strategy) :
    recordedStrategy run healing = .some strategy ↔
      run.provider_require_parameters = strategy.require_parameters ∧
        healing = strategy.response_healing := by
  obtain ⟨hnative, hjson⟩ := h.selected
  rw [recordedStrategy, h.tier, Option.map_some, Option.some.injEq]
  obtain ⟨tier, native, json, parameters, strategyHealing⟩ := strategy
  dsimp only at hnative hjson ⊢
  subst hnative hjson
  simp

/-- A request continues a run with all it was called with, unless it is made after an approval
and the strategy cannot be made again. -/
theorem Continues.uses_iff {resumed : Option Bool} {request : CompletionRequest}
    (hdiagnosed : Diagnosed x run strategy) (h : Continues run strategy resumed request) :
    Uses run request ↔ ∀ healing, resumed = .some healing →
      run.provider_require_parameters = strategy.require_parameters ∧
        healing = strategy.response_healing := by
  have hsame : Uses run request ↔ .some request.strategy = Option.some strategy := by
    constructor
    · intro huses
      rw [← huses.strategy, hdiagnosed.called]
    · intro hstrategy
      exact ⟨h.provider, h.model, hdiagnosed.called.trans hstrategy.symm, h.budget⟩
  rw [hsame, h.strategy]
  cases resumed with
  | none => simp
  | some healing =>
    rw [Option.elim_some, recordedStrategy_iff hdiagnosed]
    simp

/-- **A tool call is traced to its own model run exactly without a recovery and with the strategy
kept over an approval**, in whatever way the execution came to it. -/
theorem provenance_iff (h : (execution x).Reachable s) : Provenance s ↔ FirstReplyWhole x s ∧
    StrategyKept s := by
  have hcoherent := reachable_coherent h
  constructor
  · intro hprovenance
    constructor
    · intro call hcall run first hrun hfirst
      obtain ⟨kind, named, hkind, hnamed, hgeneration, -⟩ := hprovenance call hcall
      obtain ⟨hinitial, hwhole, -⟩ := hcoherent.call call hcall
      rw [hinitial, Option.some.injEq] at hkind
      rw [← hkind, hrun, Option.some.injEq] at hnamed
      rw [← hnamed, hfirst, Option.some.injEq] at hgeneration
      rw [hgeneration]
      exact hwhole
    · intro healing hresumed run strategy hrun hstrategy
      obtain ⟨hcalled, request, hrequest⟩ := hcoherent.resumed (by rw [hresumed]; rfl)
      obtain ⟨call, hcall⟩ := Option.isSome_iff_exists.mp hcalled
      obtain ⟨kind, named, hkind, hnamed, -, huses⟩ := hprovenance call hcall
      rw [(hcoherent.call call hcall).1, Option.some.injEq] at hkind
      rw [← hkind, hrun, Option.some.injEq] at hnamed
      obtain ⟨other, chosen, hother, hdiagnosed, hcontinues⟩ := hcoherent.request request hrequest
      rw [hrun, Option.some.injEq] at hother
      subst hnamed hother
      rw [hdiagnosed.called, Option.some.injEq] at hstrategy
      rw [← hstrategy]
      exact (hcontinues.uses_iff hdiagnosed).mp (huses request hrequest) healing hresumed
  · intro ⟨hfirst, hkept⟩ call hcall
    obtain ⟨hinitial, -, run, first, hrun, hreply, hsame⟩ := hcoherent.call call hcall
    rcases hsame with rfl | htruncated
    · refine ⟨.initial, run, hinitial, hrun, hreply, fun request hrequest => ?_⟩
      obtain ⟨named, strategy, hnamed, hdiagnosed, hcontinues⟩ := hcoherent.request request hrequest
      rw [hrun, Option.some.injEq] at hnamed
      subst hnamed
      exact (hcontinues.uses_iff hdiagnosed).mpr fun healing hresumed =>
        hkept healing hresumed run strategy hrun hdiagnosed.called
    · rw [hfirst call hcall run first hrun hreply] at htruncated
      cases htruncated

end

/-! ## The fingerprint of a contract under constraints -/

theorem ensureAscii_append (u v : Text) : ensureAscii (u ++ v) = ensureAscii u ++ ensureAscii v :=
  List.flatMap_append ..

theorem ensureAscii_cons {c : Char} (hc : 32 ≤ c.toNat ∧ c.toNat < 127) (text : Text) : ensureAscii
    (c :: text) = c :: ensureAscii text := by
  rw [ensureAscii, List.flatMap_cons, if_pos hc]
  rfl

/-- The hashed text up to the constraints is that of the name. -/
theorem fingerprintText_eq (digests : Digests) (contract : Contract) : ∃ front, ∀ schema contextual,
    ∃ rest,
    fingerprintText digests contract schema contextual = front ++ '[' ::
      (ensureAscii ([','].intercalate (contextual.map fun constraint =>
        constraint.fingerprint_data.dumps)) ++ ']' :: rest) := by
  refine ⟨ensureAscii
    ('{' :: (JsonTree.quote "name".toList ++ ':' :: (JsonTree.quote contract.name ++ ',' ::
    (JsonTree.quote "result_shape_constraints".toList ++ [':'])))), fun schema contextual => ?_⟩
  have hsorted : ∀ a b c d : Text,
    [("name".toList, a), ("result_shape_constraints".toList, b), ("schema".toList, c),
      ("semantic_constraints".toList, d)].insertionSort (fun x y : Text × Text => x.1 ≤ y.1) =
        [("name".toList, a), ("result_shape_constraints".toList, b), ("schema".toList, c),
            ("semantic_constraints".toList, d)] := by
    intro a b c d
    refine List.Pairwise.insertionSort_eq ?_
    simp only [List.pairwise_cons, List.mem_cons, List.not_mem_nil, or_false, forall_eq_or_imp,
      forall_eq, false_implies, implies_true, List.Pairwise.nil, and_true]
    decide
  rw [fingerprintText, JsonTree.dumps, JsonTree.joinFields, JsonTree.dumpsFields_eq]
  simp only [List.map_cons, List.map_nil]
  rw [hsorted]
  simp only [List.map_cons, List.map_nil, List.intercalate_cons_cons, List.intercalate_singleton,
    JsonTree.dumps, JsonTree.dumpsItems_eq, List.map_map, List.cons_append, List.append_assoc,
      List.nil_append, Function.comp_def]
  refine ⟨ensureAscii
    (',' :: (JsonTree.quote "schema".toList ++ ':' :: ((digests.document schema).dumps ++ ',' ::
    (JsonTree.quote "semantic_constraints".toList ++ ':' :: '[' ::
      ([','].intercalate ((semanticConstraints contract).map JsonTree.dumps) ++ [']', '\x7d']))))),
        ?_⟩
  rw [← ensureAscii_cons (by decide), ← ensureAscii_append, ← ensureAscii_cons (by decide),
    ← ensureAscii_append]
  simp only [List.cons_append, List.append_assoc, List.nil_append]

/-- Two texts with one fingerprint. -/
def Collides (digests : Digests) (text other : Text) : Prop :=
  text ≠ other ∧ (digests.sha256 text).take 16 = (digests.sha256 other).take 16

/-- Constraints stand in the hashed text. -/
theorem fingerprintText_ne {digests : Digests} {contract : Contract} {schema : Schema}
    {contextual : List ResultShapeConstraint} (h : contextual ≠ []) :
    fingerprintText digests contract schema contextual ≠
    fingerprintText digests contract contract.schema [] := by
  obtain ⟨front, htext⟩ := fingerprintText_eq digests contract
  obtain ⟨rest, hwith⟩ := htext schema contextual
  obtain ⟨rest', hwithout⟩ := htext contract.schema []
  obtain ⟨constraint, others, rfl⟩ := List.exists_cons_of_ne_nil h
  have hbrace : ∃ body, [','].intercalate ((constraint :: others).map fun constraint =>
      constraint.fingerprint_data.dumps) = '{' :: body := by
    rw [List.map_cons, ResultShapeConstraint.fingerprint_data, JsonTree.dumps]
    cases others with
    | nil => exact ⟨_, List.intercalate_singleton⟩
    | cons next others =>
      rw [List.map_cons, List.intercalate_cons_cons]
      exact ⟨_, rfl⟩
  obtain ⟨body, hbody⟩ := hbrace
  rw [hwith, hwithout, hbody, ensureAscii_cons (by decide)]
  intro hsame
  have hrest := List.append_cancel_left hsame
  rw [List.cons.injEq] at hrest
  have hhead := (List.cons.inj hrest.2).1
  exact absurd hhead (by decide)

section
variable {x : Execution}

/-- What the constraints compile to is another fingerprint, but for a collision. -/
theorem fingerprintsAgree_iff : FingerprintsAgree x ↔
    ∀ schema, compileContract x.contract.schema
      (x.constraints.map ResultShapeConstraint.toShapeConstraint) = .ok schema →
      x.constraints = [] ∨ Collides x.digests
        (fingerprintText x.digests x.contract schema (x.constraints.take maxResultShapeConstraints))
        (fingerprintText x.digests x.contract x.contract.schema []) := by
  have hcompile : ∀ schema,
    compileContract x.contract.schema (x.constraints.map ResultShapeConstraint.toShapeConstraint) =
    .ok schema →
      compile_contract x.digests x.contract x.constraints =
        .ok ⟨schema, x.constraints.take maxResultShapeConstraints,
        (x.digests.sha256 (fingerprintText x.digests x.contract schema
            (x.constraints.take maxResultShapeConstraints))).take 16⟩ := by
    intro schema hschema
    rw [compile_contract, hschema]
    rfl
  constructor
  · intro hagree schema hschema
    by_cases hnone : x.constraints = []
    · exact .inl hnone
    · refine .inr ⟨fingerprintText_ne ?_, hagree _ _ (hcompile schema hschema) (compile_nil _ _)⟩
      rw [ne_eq, List.take_eq_nil_iff, not_or]
      exact ⟨by decide, hnone⟩
  · intro hsame profile initial_profile hprofile hinitial
    cases hschema : compileContract x.contract.schema
        (x.constraints.map ResultShapeConstraint.toShapeConstraint) with
    | error e =>
      rw [compile_contract, hschema] at hprofile
      cases hprofile
    | ok schema =>
      rcases hsame schema hschema with hnone | ⟨-, hcollide⟩
      · rw [hnone, hinitial] at hprofile
        cases hprofile
        rfl
      · rw [hcompile schema hschema] at hprofile
        rw [compile_nil] at hinitial
        cases hprofile
        cases hinitial
        exact hcollide

/-- The fingerprint the initial run records is the one its continuation recomputes, and no
continuation is refused for a mismatch. -/
structure Agreement (x : Execution) (s : State) : Prop where
  recorded : ∀ run fingerprint initial_profile, s.runs .initial = .some run →
    run.contract_fingerprint = .some fingerprint →
    compile_contract x.digests x.contract [] = .ok initial_profile →
      fingerprint = initial_profile.fingerprint
  accepted : s.continued ≠ .some (.error contractMismatch)

/-- Every execution whose contract compiles comes to record its fingerprint. -/
theorem diagnosed_reachable {profile : ContractExecutionProfile} (target : Target)
    (h : compile_contract x.digests x.contract x.constraints = .ok profile) :
    ∃ s run, (execution x).Reachable s ∧ s.runs .initial = .some run ∧
      run.contract_fingerprint = .some profile.fingerprint := by
  set routed : State := ⟨fun _ => .none, .none, .none, .none, .routed⟩ with hrouted
  set prepared :=
    (routed.setRun .initial ⟨target, false, .none, .none, .none, .running, .none, .none⟩).moveTo
    .prepared with hstarted
  have hstart : (execution x).step routed (.start target false) = .some prepared := by
    show step x routed (.start target false) = .some prepared
    rw [step, h]
  have hdiagnose : (execution x).step prepared (.diagnose true false false .none) =
    .some ((prepared.update .initial
      (set_execution_diagnostics ⟨.strictSchema, true, false, false, false⟩ profile.fingerprint
        (select_output_budget x.expected_output_tokens .none x.safety_ceiling false))).moveTo
            (.calling ⟨.strictSchema, true, false, false, false⟩)) := by
    show step x prepared (.diagnose true false false .none) = _
    rw [step, h]
    rfl
  have hreachable : (execution x).Reachable routed := ⟨routed, rfl, .refl⟩
  have hprepared : (execution x).Reachable prepared := hreachable.step hstart
  refine ⟨_, set_execution_diagnostics ⟨.strictSchema, true, false, false, false⟩
    profile.fingerprint
    (select_output_budget x.expected_output_tokens .none x.safety_ceiling false)
    ⟨target, false, .none, .none, .none, .running, .none, .none⟩, hprepared.step hdiagnose, ?_, rfl⟩
  rfl

/-- **The continuation recomputes the recorded fingerprint exactly without constraints**, but for
a collision of the digest. -/
theorem continuation_agrees_iff : (∀ s, (execution x).Reachable s → Agreement x s) ↔
    ∀ schema, compileContract x.contract.schema
      (x.constraints.map ResultShapeConstraint.toShapeConstraint) = .ok schema →
      x.constraints = [] ∨ Collides x.digests
        (fingerprintText x.digests x.contract schema (x.constraints.take maxResultShapeConstraints))
        (fingerprintText x.digests x.contract x.contract.schema []) := by
  rw [← fingerprintsAgree_iff]
  constructor
  · intro hagreement profile initial_profile hprofile hinitial
    obtain ⟨s, run, hreachable, hrun, hfingerprint⟩ := diagnosed_reachable ⟨[], [], .none⟩ hprofile
    exact (hagreement s hreachable).recorded run profile.fingerprint initial_profile hrun
      hfingerprint hinitial
  · intro hagree s hreachable
    have hcoherent := reachable_coherent hreachable
    refine ⟨?_, fun hrefused => hcoherent.refused hrefused hagree⟩
    intro run fingerprint initial_profile hrun hfingerprint hinitial
    obtain ⟨profile, hprofile, rfl⟩ := hcoherent.recorded run fingerprint hrun hfingerprint
    exact hagree profile initial_profile hprofile hinitial

end

/-! ## Executions -/

/-- A contract with one list, `items`. -/
def sampleContract : Contract :=
  ⟨['R'], ⟨[], fun node => if node = 0 then { properties := [("items".toList, 1)] } else {}⟩, []⟩

/-- The documents of its schemas, and the digests of the two texts they are hashed in. -/
def sampleDigests : Digests where
  document := fun schema =>
    .object [("properties".toList,
      .object [("items".toList, .object ((schema.node 1).bounds.minItems.elim []
      fun count => [("minItems".toList, .int count)]))])]
  sha256 := fun text =>
    if text.length = 105 then
      "0472b6468562d87b5c5629ec28e3883ab3f6f0630d5f92687ef3126bb2c5117c".toList
    else "fc3d4abc54b6cd252977034bf778f8984ec73078d31bc4e261155714137baf44".toList

def sampleExecution (constraints : List ResultShapeConstraint) : Execution :=
  ⟨⟨id, id, id⟩, sampleDigests, sampleContract, sampleContract, constraints, [['t']], false, 256,
    4096⟩

/-- At least one item. -/
def sampleConstraint : ResultShapeConstraint := ⟨⟨['c'], "items".toList, .minItems 1⟩, []⟩

/-- A reply with one tool proposal. -/
def sampleReply (finishReason : Text) : Generation :=
  ⟨['p'], ['m'], .none, .some finishReason,
    .json ⟨true, .some (⟨.completed, .none, .none⟩, 1), false⟩⟩

/-- The first reply is cut off or not; the tool then succeeds, at once or after an approval. -/
def sampleRun (replies : List Generation) (call : List Action) : List Action :=
  [.start ⟨['p'], ['m'], .none⟩ false, .diagnose true true false .none] ++
    replies.map (.reply · .none) ++ call

def atOnce : List Action := [.propose .succeeded true true false]

def approved : List Action :=
  [.propose .pendingApproval false true false, .approve .succeeded true true false]

/-- What is read of the states the runs end in. -/
structure Ending where
  named : Option AttemptKind
  proposed : Option Generation
  initial : Option Generation
  called : Option Strategy
  continued : Option (Except Text CompletionRequest)
  resumed : Option Bool
deriving DecidableEq

def State.ending (s : State) : Ending where
  named := s.call.bind (·.proposal_model_run)
  proposed := s.call.map (·.generation)
  initial := (s.runs .initial).bind (·.generation)
  called := (s.runs .initial).bind (·.strategy)
  continued := s.continued
  resumed := s.resumed

def ending (constraints : List ResultShapeConstraint) (replies : List Generation)
    (call : List Action) : Option Ending :=
  ((execution (sampleExecution constraints)).exec ⟨fun _ => .none, .none, .none, .none, .routed⟩
    (sampleRun replies call)).map
    State.ending

/-- The strategy of the first call, and the request of a continuation with one. -/
def sampleStrategy (require_parameters : Bool) : Strategy :=
  ⟨.strictSchema, true, false, require_parameters, false⟩

def sampleRequest (require_parameters : Bool) : CompletionRequest :=
  ⟨['p'], ['m'], sampleStrategy require_parameters, 384⟩

/-- One reply, and no constraint; one reply under a constraint; two replies; one reply, and an
approval. -/
theorem sample_endings :
    ending [] [sampleReply ['s']] atOnce =
        .some ⟨.some .initial, .some (sampleReply ['s']), .some (sampleReply ['s']),
          .some (sampleStrategy true), .some (.ok (sampleRequest true)), .none⟩ ∧
      ending [sampleConstraint] [sampleReply ['s']] atOnce =
        .some ⟨.some .initial, .some (sampleReply ['s']), .some (sampleReply ['s']),
          .some (sampleStrategy true), .some (.error contractMismatch), .none⟩ ∧
      ending [] [sampleReply "length".toList, sampleReply ['s']] atOnce =
        .some ⟨.some .initial, .some (sampleReply ['s']), .some (sampleReply "length".toList),
          .some (sampleStrategy true), .some (.ok (sampleRequest true)), .none⟩ ∧
      ending [] [sampleReply ['s']] approved =
        .some ⟨.some .initial, .some (sampleReply ['s']), .some (sampleReply ['s']),
          .some (sampleStrategy true), .some (.ok (sampleRequest false)),
            .some false⟩ := by decide +kernel

/-- A state an ending is read off. -/
theorem ending_reachable {constraints : List ResultShapeConstraint} {replies : List Generation}
    {call : List Action} {e : Ending} (h : ending constraints replies call = .some e) :
    ∃ s, (execution (sampleExecution constraints)).Reachable s ∧ s.ending = e := by
  rw [ending, Option.map_eq_some_iff] at h
  obtain ⟨s, hexec, hending⟩ := h
  exact ⟨s, System.exec_reachable rfl hexec, hending⟩

/-- With one reply, and no approval, the call is traced to the run of the reply. -/
theorem whole_reply_traced : ∃ s, (execution (sampleExecution [])).Reachable s ∧
    s.call.isSome = true ∧ Provenance s := by
  obtain ⟨s, hreachable, hending⟩ := ending_reachable sample_endings.1
  have hproposed : s.call.map (·.generation) = .some (sampleReply ['s']) :=
    congrArg Ending.proposed hending
  have hinitial : (s.runs .initial).bind (·.generation) = .some (sampleReply ['s']) :=
    congrArg Ending.initial hending
  have hresumed : s.resumed = .none := congrArg Ending.resumed hending
  refine ⟨s, hreachable, ?_, (provenance_iff hreachable).mpr ⟨?_, ?_⟩⟩
  · rw [← Option.isSome_map, hproposed]
    rfl
  · intro call _ run first hrun hfirst
    rw [hrun, Option.bind_some, hfirst, Option.some.injEq] at hinitial
    rw [hinitial]
    decide
  · intro healing h
    rw [hresumed] at h
    cases h

/-- After a recovery the call names the run that was cut off; after an approval the continuation
is requested with another strategy. -/
theorem recovered_call_misnamed :
    (∃ s, (execution (sampleExecution [])).Reachable s ∧ s.call.isSome = true ∧ ¬Provenance s) ∧
      ∃ s, (execution (sampleExecution [])).Reachable s ∧ FirstReplyWhole (sampleExecution []) s ∧
        ¬Provenance s := by
  constructor
  · obtain ⟨s, hreachable, hending⟩ := ending_reachable sample_endings.2.2.1
    have hnamed : s.call.bind (·.proposal_model_run) = .some .initial :=
      congrArg Ending.named hending
    have hproposed : s.call.map (·.generation) = .some (sampleReply ['s']) :=
      congrArg Ending.proposed hending
    have hinitial : (s.runs .initial).bind (·.generation) = .some (sampleReply "length".toList) :=
      congrArg Ending.initial hending
    obtain ⟨call, hcall, hgeneration⟩ := Option.map_eq_some_iff.mp hproposed
    refine ⟨s, hreachable, by rw [hcall]; rfl, fun hprovenance => ?_⟩
    obtain ⟨kind, run, hkind, hrun, hheld, -⟩ := hprovenance call hcall
    rw [hcall, Option.bind_some, hkind, Option.some.injEq] at hnamed
    rw [hnamed] at hrun
    rw [hrun, Option.bind_some, hheld, hgeneration, Option.some.injEq] at hinitial
    exact absurd hinitial (by decide)
  · obtain ⟨s, hreachable, hending⟩ := ending_reachable sample_endings.2.2.2
    have hnamed : s.call.bind (·.proposal_model_run) = .some .initial :=
      congrArg Ending.named hending
    have hproposed : s.call.map (·.generation) = .some (sampleReply ['s']) :=
      congrArg Ending.proposed hending
    have hinitial : (s.runs .initial).bind (·.generation) = .some (sampleReply ['s']) :=
      congrArg Ending.initial hending
    have hcalled : (s.runs .initial).bind (·.strategy) = .some (sampleStrategy true) :=
      congrArg Ending.called hending
    have hcontinued : s.continued = .some (.ok (sampleRequest false)) :=
      congrArg Ending.continued hending
    refine ⟨s, hreachable, ?_, fun hprovenance => ?_⟩
    · intro call _ run first hrun hfirst
      rw [hrun, Option.bind_some, hfirst, Option.some.injEq] at hinitial
      rw [hinitial]
      decide
    · obtain ⟨call, hcall, -⟩ := Option.map_eq_some_iff.mp hproposed
      obtain ⟨kind, run, hkind, hrun, -, huses⟩ := hprovenance call hcall
      rw [hcall, Option.bind_some, hkind, Option.some.injEq] at hnamed
      rw [hnamed] at hrun
      rw [hrun, Option.bind_some, (huses _ hcontinued).strategy, Option.some.injEq] at hcalled
      exact absurd hcalled (by decide)

/-- Under a constraint the continuation is refused, after its tool has succeeded. -/
theorem constrained_continuation_refused :
    ∃ s, (execution (sampleExecution [sampleConstraint])).Reachable s ∧
    s.continued = .some (.error contractMismatch) ∧ ¬Agreement
      (sampleExecution [sampleConstraint]) s := by
  obtain ⟨s, hreachable, hending⟩ := ending_reachable sample_endings.2.1
  have hcontinued : s.continued = .some (.error contractMismatch) :=
    congrArg Ending.continued hending
  exact ⟨s, hreachable, hcontinued, fun hagreement => hagreement.accepted hcontinued⟩

end Novalton.ToolContinuation
