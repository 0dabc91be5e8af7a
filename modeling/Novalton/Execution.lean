/-
One agent execution (`modules/agents/execution.py`): `execute`, with its first provider
call, its one extra attempt (truncation recovery or contract repair) and the proposal of
a tool, and `continue_with_tool_evidence`, which also runs when an approved mutation is
resumed.

What the providers, the router, the memory package, the tool gateway and the awaits of
the services do is the environment's: each returns or raises anything. A content is
given as what `json.loads` and the contract make of it.
-/
import Novalton.AgentServices

namespace Novalton

open Prog

/-! ## Generations -/

/-- The methods of `str` that depend on Unicode. -/
structure TextMethods where
  casefold : Text → Text
  lower : Text → Text
  strip : Text → Text

/-- A content that is JSON: whether it is an object that lists tool proposals, the result
the contract accepts with the number of its proposals, and whether `validate_result_shape`
finds failures in it. -/
structure Parsed where
  listsProposals : Bool
  result : Option (AgentResult × Nat)
  shapeFailures : Bool
deriving DecidableEq, Repr

/-- The result that satisfies the contract and its shape. -/
def Parsed.accepted (parsed : Parsed) : Option (AgentResult × Nat) :=
  if parsed.shapeFailures then .none else parsed.result

/-- `raises` is any exception of the parsing but a `JSONDecodeError` or a `ValidationError`
(the recursion limit of `json.loads`, say). -/
inductive Content where
  | notJson
  | json (parsed : Parsed)
  | raises (exn : Exn)
deriving DecidableEq, Repr

/-- A `GenerationResult`, as far as the execution reads it. -/
structure Generation where
  providerId : Text
  modelId : Text
  upstreamProviderId : Option Text
  finishReason : Option Text
  content : Content
deriving DecidableEq, Repr

/-- The routed target, or the model run that recorded it. -/
structure Target where
  providerId : Text
  providerModelId : Text
  upstreamConstraint : Option Text
deriving DecidableEq, Repr

inductive Truncation where
  | none | tokenLimit | other
deriving DecidableEq, Repr

/-- `classify_truncation`. -/
def classifyTruncation (methods : TextMethods) : Option Text → Truncation
  | .none => .none
  | .some reason =>
    let normalized := (methods.lower (methods.strip reason)).map fun c => if c = '-' ∨
      c = ' ' then '_' else c
    if normalized ∈ ["length".toList, "max_tokens".toList, "max_output_tokens".toList,
      "token_limit".toList,
        "token_length".toList] then .tokenLimit
    else .other

/-- `_upstream_constraint_matches`. -/
def upstreamConstraintMatches (methods : TextMethods) (target : Target) (upstream : Option Text) :
    Bool :=
  match target.upstreamConstraint, upstream with
  | .some constraint, .some id => methods.casefold id == methods.casefold constraint
  | _, _ => true

def Generation.identified (generation : Generation) (target : Target) : Bool :=
  (generation.providerId, generation.modelId) == (target.providerId, target.providerModelId)

def Generation.truncated (generation : Generation) (methods : TextMethods) : Bool :=
  classifyTruncation methods generation.finishReason == .tokenLimit

/-- `error.failure.value`. -/
def ProviderFailure.text : ProviderFailure → Text
  | .authentication => "authentication_configuration".toList
  | .rateLimit => "rate_limit".toList
  | .timeout => "timeout".toList
  | .transient => "transient_service_unavailable".toList
  | .invalidRequest => "invalid_request".toList
  | .malformedResponse => "malformed_response".toList
  | .refusal => "refusal_safety".toList
  | .cancellation => "cancellation".toList
  | .unknown => "unknown_provider_error".toList

/-! ## Endings -/

/-- `_fail_agent`, and the response that says so. -/
def failWith (o : Outcome) (code : Text) : Prog AgentDb Executed := do
  failAgentRun o code
  pure ⟨.failed, .some code, .none⟩

/-- `mark_failed` of the call's model run, then `_fail_agent`. -/
def failCall (oModel oAgent : Outcome) (slot : ModelSlot) (failure : ProviderFailure)
    (code : Text) :
    Prog AgentDb Executed := do
  markFailed oModel slot failure
  failWith oAgent code

/-- The handlers of a cancellation: both runs are cancelled and `raised` goes on. -/
def cancelCall (oModel oAgent : Outcome) (slot : ModelSlot) (raised : Exn) :
    Prog AgentDb Executed := do
  cancelModelRun oModel slot
  cancelAgentRun oAgent
  raise raised

/-- The end of a delivered result. -/
def finishWith (o : Outcome) (result : AgentResult) : Prog AgentDb Executed := do
  match mapResultStatus result.status with
  | (.succeeded, _) => succeedAgentRun o
  | (.cancelled, _) => cancelAgentRun o
  | (_, code) => failAgentRun o (code.getD "agent_result_failed".toList)
  pure (Executed.ofResult result)

/-! ## `continue_with_tool_evidence` -/

inductive ContinueAwait where
  | startModel | options | succeedModel | endModel | endAgent
deriving DecidableEq, Repr

/-- What one continuation meets. `strategyKnown` says that a strategy was passed or that
the model run records a tier, `budget` that it records an output budget. -/
structure ContinueEnv where
  outcome : ContinueAwait → Outcome
  methods : TextMethods
  initial : Target
  fingerprintMatches : Bool
  providerRegistered : Bool
  strategyKnown : Bool
  budget : Option Nat
  complete : Except Exn Generation

/-- What `_validate_tool_continuation_result` makes of a content. -/
inductive Continued where
  | roundLimit
  | invalid
  | final (result : AgentResult)
deriving DecidableEq, Repr

/-- `_validate_tool_continuation_result`. -/
def validateToolContinuationResult : Content → Except Exn Continued
  | .raises e => .error e
  | .notJson => .ok .invalid
  | .json parsed =>
    if parsed.listsProposals then .ok .roundLimit
    else
      match parsed.accepted with
      | .some (result, _) => .ok (.final result)
      | .none => .ok .invalid

section
variable (env : ContinueEnv)

/-- The checks before the continuation's model run is started. -/
def continuationFailure : Option Text :=
  if !env.fingerprintMatches then .some "tool_continuation_contract_mismatch".toList
  else if !env.providerRegistered then .some "tool_continuation_provider_unavailable".toList
  else if !env.strategyKnown then .some "tool_continuation_contract_mismatch".toList
  else if env.budget.isNone then .some "tool_continuation_contract_mismatch".toList
  else .none

/-- The `try` block. -/
def continueCall : Prog AgentDb Continued := do
  let continuation ← ofExcept env.complete
  if !(continuation.identified env.initial &&
      upstreamConstraintMatches env.methods env.initial continuation.upstreamProviderId) then
    raise (.provider .invalidRequest)
  else if continuation.truncated env.methods then raise (.provider .malformedResponse)
  else do
    markSucceeded (env.outcome .succeedModel) .continuation
    ofExcept (validateToolContinuationResult continuation.content)

/-- Its `except` clauses. Application errors and other exceptions match none of them. -/
def continueHandler : Exn → Option (Prog AgentDb Executed)
  | .providerCancelled => .some
    (cancelCall (env.outcome .endModel) (env.outcome .endAgent) .continuation .providerCancelled)
  | .taskCancelled =>
    .some (cancelCall (env.outcome .endModel) (env.outcome .endAgent) .continuation .taskCancelled)
  | .provider failure =>
    .some (failCall (env.outcome .endModel) (env.outcome .endAgent) .continuation failure
      "tool_continuation_failed".toList)
  | _ => .none

/-- The two exceptions of the validation, and what follows the `try`. -/
def continueEnd : Continued → Prog AgentDb Executed
  | .roundLimit => failWith (env.outcome .endAgent) "tool_round_limit_exceeded".toList
  | .invalid => failWith (env.outcome .endAgent) "invalid_agent_result".toList
  | .final result => finishWith (env.outcome .endAgent) result

/-- `continue_with_tool_evidence`. -/
def continueWithToolEvidence : Prog AgentDb Executed :=
  match continuationFailure env with
  | .some code => failWith (env.outcome .endAgent) code
  | .none => do
    startModelRun (env.outcome .startModel) .continuation
    await (env.outcome .options)
    tryReturn (continueCall env) (continueHandler env) (continueEnd env)

end

/-! ## `execute` -/

inductive ExecuteAwait where
  | createRun | startRun | projection | startModel | linkModel | linkCommit
  | refuseModel | refuse | diagnostics | succeedModel | endModel | endAgent
  | startExtra | succeedExtra | endExtra
  | suspend | refresh
deriving DecidableEq, Repr

inductive Route where
  | noSuitableModel (contractUnsatisfied : Bool)
  | selected (target : Target)
deriving DecidableEq, Repr

/-- What `execute_proposal` returns, with the row it leaves: its result's status is the
call's. A call may be left in any status when it raises. -/
inductive Gateway where
  | returned (status : ToolExecutionStatus) (evidence : Bool) (failureCode : Option Text)
  | raised (exn : Exn) (left : Option ToolExecutionStatus)
deriving DecidableEq, Repr

/-- What one execution meets. `definition` says whether the definition is enabled, `root`
whether the configured workspace root, if any, is approved, `memory` how the retrieval of
a requested package ends, `provider` the id of the provider in the registry, `strategy`
whether a generation strategy is selected. -/
structure ExecuteEnv where
  outcome : ExecuteAwait → Outcome
  methods : TextMethods
  definition : Except Exn Bool
  permittedTools : List Text
  permissions : List Text
  registered : List Text
  root : Except Exn (Option Bool)
  memory : Option Outcome
  route : Except Exn Route
  provider : Except Exn Text
  strategy : Except Exn Bool
  firstCall : Except Exn Generation
  recoveryCall : Except Exn Generation
  repairCall : Except Exn Generation
  gateway : Gateway
  continuation : ContinueEnv

section
variable (env : ExecuteEnv)

/-- `execute_proposal`, to what it returns or raises and the row it commits. -/
def executeProposal (gateway : Gateway) :
    Prog AgentDb (ToolExecutionStatus × Bool × Option Text) := do
  match gateway with
  | .returned status evidence failureCode => do
    store .ok fun db => { db with call := .some status }
    pure (status, evidence, failureCode)
  | .raised e left => do
    store .ok fun db => { db with call := left }
    raise e

/-- `gateway_result.failure_code or "tool_execution_failed"`. -/
def gatewayCode : Option Text → Text
  | .some (c :: rest) => c :: rest
  | _ => "tool_execution_failed".toList

/-- What follows an accepted result with `proposals` tool proposals. -/
def deliver (result : AgentResult) (proposals : Nat) : Prog AgentDb Executed :=
  if proposals = 0 then finishWith (env.outcome .endAgent) result
  else if proposals ≠ 1 ∨ env.permittedTools = [] then
    failWith (env.outcome .endAgent) "invalid_tool_proposal".toList
  else do
    let (status, evidence, failureCode) ← executeProposal env.gateway
    if status = .pendingApproval then do
      suspendAgentRun (env.outcome .suspend)
      pure ⟨.waitingForApproval, .some "tool_approval_required".toList, .some result⟩
    else if status ≠ .succeeded ∨ evidence = false then
      failWith (env.outcome .endAgent) (gatewayCode failureCode)
    else do
      await (env.outcome .refresh)
      continueWithToolEvidence env.continuation

/-- `result is None`. -/
def invalidResult : Prog AgentDb Executed :=
  failWith (env.outcome .endAgent) "invalid_agent_result".toList

/-- The check of a generation of the extra attempt, inside its `try`. -/
def completeExtra (target : Target) (call : Except Exn Generation) : Prog AgentDb Generation := do
  let generation ← ofExcept call
  if !(generation.identified target &&
    upstreamConstraintMatches env.methods target generation.upstreamProviderId) then
    raise (.provider .invalidRequest)
  else pure generation

/-- The `except` clauses of the extra attempt, before the execution goes on as `rest`. The
cancellation of the task matches none of them. -/
def extraHandler (rest : Prog AgentDb Executed) : Exn → Option (Prog AgentDb Executed)
  | .providerCancelled => .some
    (cancelCall (env.outcome .endExtra) (env.outcome .endAgent) .extra .providerCancelled)
  | .taskCancelled => .none
  | .provider failure => .some (markFailed (env.outcome .endExtra) .extra failure >>= fun _ => rest)
  | _ => .some (markFailed (env.outcome .endExtra) .extra .unknown >>= fun _ => rest)

/-- `mark_succeeded` of the repair is in a `try` of its own. -/
def repairUsageHandler : Exn → Option (Prog AgentDb Executed)
  | .application _ => .some
    (markFailed (env.outcome .endExtra) .extra .malformedResponse >>= fun _ => invalidResult env)
  | _ => .none

/-- The repaired content. -/
def repaired : Content → Prog AgentDb Executed
  | .raises e => raise e
  | .notJson => invalidResult env
  | .json parsed =>
    match parsed.accepted with
    | .some (result, proposals) => deliver env result proposals
    | .none => invalidResult env

/-- The contract repair. -/
def repairContract (target : Target) : Prog AgentDb Executed := do
  startModelRun (env.outcome .startExtra) .extra
  tryReturn (completeExtra env target env.repairCall) (extraHandler env (invalidResult env))
      fun generation =>
    tryReturn (markSucceeded (env.outcome .succeedExtra) .extra) (repairUsageHandler env) fun _ =>
      repaired env generation.content

/-- What follows the generation the execution goes on with. -/
def afterGeneration (target : Target) (generation : Generation) (extraUsed : Bool) :
    Prog AgentDb Executed :=
  if generation.truncated env.methods then
    failWith (env.outcome .endAgent) "provider_output_truncated".toList
  else
    match generation.content with
    | .raises e => raise e
    | .notJson => failWith (env.outcome .endAgent) "invalid_provider_json".toList
    | .json parsed =>
      match parsed.accepted with
      | .some (result, proposals) => deliver env result proposals
      | .none => if env.permittedTools = [] ∧ extraUsed = false then repairContract env target
          else invalidResult env

/-- The `try` block of the truncation recovery. -/
def recoveryCall (target : Target) : Prog AgentDb Generation := do
  let generation ← completeExtra env target env.recoveryCall
  markSucceeded (env.outcome .succeedExtra) .extra
  pure generation

/-- The truncation recovery. -/
def recoverTruncation (target : Target) (generation : Generation) : Prog AgentDb Executed := do
  startModelRun (env.outcome .startExtra) .extra
  tryReturn (recoveryCall env target)
    (extraHandler env (afterGeneration env target generation true))
    fun recovered => afterGeneration env target recovered true

/-- `except ApplicationError` around `mark_succeeded` of the first call. -/
def usageHandler : Exn → Option (Prog AgentDb Executed)
  | .application _ =>
    .some (failCall (env.outcome .endModel) (env.outcome .endAgent) .first .malformedResponse
      "invalid_provider_usage".toList)
  | _ => .none

/-- What follows the first call. -/
def afterFirstCall (target : Target) (generation : Generation) : Prog AgentDb Executed :=
  if !generation.identified target then
    failCall (env.outcome .endModel) (env.outcome .endAgent) .first .invalidRequest
      "provider_identity_mismatch".toList
  else if !upstreamConstraintMatches env.methods target generation.upstreamProviderId then
    failCall (env.outcome .endModel) (env.outcome .endAgent) .first .invalidRequest
      "provider_upstream_identity_mismatch".toList
  else
    tryReturn (markSucceeded (env.outcome .succeedModel) .first) (usageHandler env) fun _ =>
      if generation.truncated env.methods then recoverTruncation env target generation
      else afterGeneration env target generation false

/-- The `try` block of the first call: a response where no strategy suits the model, else
the generation. -/
def firstCall (target : Target) : Prog AgentDb (Executed ⊕ Generation) := do
  let providerId ← ofExcept env.provider
  if providerId ≠ target.providerId then raise (.provider .invalidRequest)
  else do
    let selected ← ofExcept env.strategy
    if selected then do
      setExecutionDiagnostics (env.outcome .diagnostics) .first
      let generation ← ofExcept env.firstCall
      pure (.inr generation)
    else do
      let response ← failCall (env.outcome .refuseModel) (env.outcome .refuse) .first
        .invalidRequest
        "native_structured_output_required".toList
      pure (.inl response)

/-- `identity_mismatch`. -/
def identityMismatch (target : Target) : Bool :=
  match env.provider with
  | .ok providerId => providerId != target.providerId
  | .error _ => false

/-- The `except` clauses of the first call. -/
def firstHandler (target : Target) : Exn → Option (Prog AgentDb Executed)
  | .providerCancelled => .some
    (cancelCall (env.outcome .endModel) (env.outcome .endAgent) .first .providerCancelled)
  | .taskCancelled =>
    .some (cancelCall (env.outcome .endModel) (env.outcome .endAgent) .first .taskCancelled)
  | .provider failure =>
    if failure = .cancellation then
      .some (cancelCall (env.outcome .endModel) (env.outcome .endAgent) .first .providerCancelled)
    else
      .some (failCall (env.outcome .endModel) (env.outcome .endAgent) .first failure
        (if identityMismatch env target then "provider_identity_mismatch".toList
          else "provider_".toList ++ failure.text))
  | _ =>
    .some (failCall (env.outcome .endModel) (env.outcome .endAgent) .first .unknown
      "provider_unknown_provider_error".toList)

/-- The execution on the routed target. -/
def runTarget (target : Target) : Prog AgentDb Executed := do
  await (env.outcome .projection)
  startModelRun (env.outcome .startModel) .first
  let linked ← linkModelRun (env.outcome .linkModel)
  if linked then do
    commit (env.outcome .linkCommit)
    tryReturn (firstCall env target) (firstHandler env target) fun
      | .inl response => pure response
      | .inr generation => afterFirstCall env target generation
  else
    failCall (env.outcome .endModel) (env.outcome .endAgent) .first .invalidRequest
      "agent_lifecycle_conflict".toList

/-- The routing. -/
def runRoute : Prog AgentDb Executed :=
  match env.route with
  | .error e => raise e
  | .ok (.noSuitableModel contractUnsatisfied) =>
    failWith (env.outcome .endAgent)
      (if contractUnsatisfied then "contract_enforcement_unsatisfied".toList
        else "no_suitable_model".toList)
  | .ok (.selected target) => runTarget env target

/-- `except Exception` around the retrieval of the memory package. -/
def memoryHandler (e : Exn) : Option (Prog AgentDb Executed) :=
  if e.cancelled then .none
  else .some (failWith (env.outcome .endAgent) "memory_context_unavailable".toList)

/-- The memory package, where one is requested. -/
def runMemory : Prog AgentDb Executed :=
  match env.memory with
  | .none => runRoute env
  | .some retrieval => tryReturn (await retrieval) (memoryHandler env) fun _ => runRoute env

/-- The checks of the permitted tools and of the workspace root they need. -/
def toolFailure : Except Exn (Option Text) :=
  if env.permittedTools = [] then .ok .none
  else if env.permittedTools.any fun tool => !env.permissions.contains tool then
    .ok (.some "tool_permission_denied".toList)
  else if env.permittedTools.any fun tool => !env.registered.contains tool then
    .ok (.some "unknown_tool_denied".toList)
  else
    match env.root with
    | .error e => .error e
    | .ok (.some true) => .ok .none
    | .ok _ => .ok (.some "workspace_root_unavailable".toList)

def definitionUnavailable : Exn := .application "agent_definition_unavailable".toList

/-- `execute`. -/
def execute : Prog AgentDb Executed := do
  let enabled ← ofExcept env.definition
  if enabled then do
    createAgentRun (env.outcome .createRun)
    startAgentRun (env.outcome .startRun)
    let denied ← ofExcept (toolFailure env)
    match denied with
    | .some code => failWith (env.outcome .endAgent) code
    | .none => runMemory env
  else raise definitionUnavailable

end

end Novalton
