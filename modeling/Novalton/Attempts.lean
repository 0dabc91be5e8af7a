/-
What one agent execution does outside of the database: the model runs it starts, the
completions it requests of providers, the tool proposals it executes or suspends, and the
agent runs it declares succeeded, with the generation each rests on
(`modules/agents/execution.py`).

The blocks are those of `Execution`, with the events put in; without them they are the
same programs (`execute_erase`). The continuation is that of the model run the execution
started, which has recorded the routed target.
-/
import Novalton.Execution
import Novalton.Trace

namespace Novalton.Attempts

/-- `recovery_attempt_kind` of a model run. -/
inductive AttemptKind where
  | initial | truncation | contractRepair | toolContinuation
deriving DecidableEq, Repr

/-- The column's value. -/
def AttemptKind.column : AttemptKind → Option Text
  | .initial => .none
  | .truncation => .some "TRUNCATION".toList
  | .contractRepair => .some "CONTRACT_REPAIR".toList
  | .toolContinuation => .some "TOOL_CONTINUATION".toList

/-- `started`: the row of a model run is committed. `requested`: `provider.complete` is called.
`proposes`, `suspends` and `succeeds`: `execute_proposal`, `suspend_run` and `succeed_run` are
called for the result of a generation. -/
inductive Event where
  | started (kind : AttemptKind)
  | requested (kind : AttemptKind)
  | proposes (generation : Generation)
  | suspends (generation : Generation)
  | succeeds (generation : Generation)
deriving DecidableEq

abbrev Run (α : Type) := Traced AgentDb Event α

open Traced

/-! ## The traced programs -/

/-- An event, when something is to happen. -/
def emitIf (happens : Bool) (event : Event) : Run Unit := if happens then emit event else pure ()

/-- `start_run` of the usage service. -/
def startAttempt (o : Outcome) (slot : ModelSlot) (kind : AttemptKind) : Run Unit := do
  emitIf o.commits (.started kind)
  lift (startModelRun o slot)

/-- `finishWith`, for the result of a generation. -/
def finishWith (o : Outcome) (generation : Generation) (result : AgentResult) : Run Executed := do
  emitIf ((mapResultStatus result.status).1 = .succeeded) (.succeeds generation)
  lift (Novalton.finishWith o result)

section
variable (env : ContinueEnv)

/-- The `try` block of the continuation, up to the generation it accepts. -/
def continueGeneration : Prog AgentDb (Generation × Continued) := do
  let continuation ← .ofExcept env.complete
  if !(continuation.identified env.initial &&
      upstreamConstraintMatches env.methods env.initial continuation.upstreamProviderId) then
    .raise (.provider .invalidRequest)
  else if continuation.truncated env.methods then .raise (.provider .malformedResponse)
  else do
    markSucceeded (env.outcome .succeedModel) .continuation
    let continued ← .ofExcept (validateToolContinuationResult continuation.content)
    pure (continuation, continued)

/-- What follows the `try`. -/
def continueEnd : Generation × Continued → Run Executed
  | (_, .roundLimit) => lift (failWith (env.outcome .endAgent) "tool_round_limit_exceeded".toList)
  | (_, .invalid) => lift (failWith (env.outcome .endAgent) "invalid_agent_result".toList)
  | (continuation, .final result) => finishWith (env.outcome .endAgent) continuation result

/-- `continue_with_tool_evidence`. -/
def continueWithToolEvidence : Run Executed :=
  match continuationFailure env with
  | .some code => lift (failWith (env.outcome .endAgent) code)
  | .none => do
    startAttempt (env.outcome .startModel) .continuation .toolContinuation
    lift (.await (env.outcome .options))
    emit (.requested .toolContinuation)
    tryReturn (lift (continueGeneration env)) (fun e => (continueHandler env e).map lift)
      (continueEnd env)

end

section
variable (env : ExecuteEnv)

/-- The continuation of a model run that was started for the target. -/
def continuationOf (target : Target) : ContinueEnv :=
  { env.continuation with initial := target, methods := env.methods }

/-- What follows an accepted result of a generation. -/
def deliver (target : Target) (generation : Generation) (result : AgentResult) (proposals : Nat) :
    Run Executed :=
  if proposals = 0 then finishWith (env.outcome .endAgent) generation result
  else if proposals ≠ 1 ∨ env.permittedTools = [] then
    lift (failWith (env.outcome .endAgent) "invalid_tool_proposal".toList)
  else do
    emit (.proposes generation)
    let (status, evidence, failureCode) ← lift (executeProposal env.gateway)
    if status = .pendingApproval then do
      emit (.suspends generation)
      lift (suspendAgentRun (env.outcome .suspend))
      pure ⟨.waitingForApproval, .some "tool_approval_required".toList, .some result⟩
    else if status ≠ .succeeded ∨ evidence = false then
      lift (failWith (env.outcome .endAgent) (gatewayCode failureCode))
    else do
      lift (.await (env.outcome .refresh))
      continueWithToolEvidence (continuationOf env target)

/-- The repaired content. -/
def repaired (target : Target) (generation : Generation) : Run Executed :=
  match generation.content with
  | .raises e => lift (.raise e)
  | .notJson => lift (invalidResult env)
  | .json parsed =>
    match parsed.accepted with
    | .some (result, proposals) => deliver env target generation result proposals
    | .none => lift (invalidResult env)

/-- The contract repair. -/
def repairContract (target : Target) : Run Executed := do
  startAttempt (env.outcome .startExtra) .extra .contractRepair
  emit (.requested .contractRepair)
  tryReturn (lift (completeExtra env target env.repairCall))
    (fun e => (extraHandler env (invalidResult env) e).map lift)
    fun generation =>
      tryReturn (lift (markSucceeded (env.outcome .succeedExtra) .extra))
        (fun e => (repairUsageHandler env e).map lift)
        fun _ => repaired env target generation

/-- What follows the generation the execution goes on with. -/
def afterGeneration (target : Target) (generation : Generation) (extraUsed : Bool) : Run Executed :=
  if generation.truncated env.methods then
    lift (failWith (env.outcome .endAgent) "provider_output_truncated".toList)
  else
    match generation.content with
    | .raises e => lift (.raise e)
    | .notJson => lift (failWith (env.outcome .endAgent) "invalid_provider_json".toList)
    | .json parsed =>
      match parsed.accepted with
      | .some (result, proposals) => deliver env target generation result proposals
      | .none =>
        if env.permittedTools = [] ∧ extraUsed = false then repairContract env target
          else lift (invalidResult env)

/-- The `except` clauses of the recovery, before the execution goes on as `rest`. -/
def recoveryHandler (rest : Run Executed) : Exn → Option (Run Executed)
  | .providerCancelled =>
    .some (lift (cancelCall (env.outcome .endExtra) (env.outcome .endAgent) .extra
      .providerCancelled))
  | .taskCancelled => .none
  | .provider failure =>
    .some (lift (markFailed (env.outcome .endExtra) .extra failure) >>= fun _ => rest)
  | _ => .some (lift (markFailed (env.outcome .endExtra) .extra .unknown) >>= fun _ => rest)

/-- The truncation recovery. -/
def recoverTruncation (target : Target) (generation : Generation) : Run Executed := do
  startAttempt (env.outcome .startExtra) .extra .truncation
  emit (.requested .truncation)
  tryReturn (lift (recoveryCall env target))
    (recoveryHandler env (afterGeneration env target generation true))
    fun recovered => afterGeneration env target recovered true

/-- What follows the first call. -/
def afterFirstCall (target : Target) (generation : Generation) : Run Executed :=
  if !generation.identified target then
    lift (failCall (env.outcome .endModel) (env.outcome .endAgent) .first .invalidRequest
      "provider_identity_mismatch".toList)
  else if !upstreamConstraintMatches env.methods target generation.upstreamProviderId then
    lift (failCall (env.outcome .endModel) (env.outcome .endAgent) .first .invalidRequest
      "provider_upstream_identity_mismatch".toList)
  else
    tryReturn (lift (markSucceeded (env.outcome .succeedModel) .first))
        (fun e => (usageHandler env e).map lift) fun _ =>
      if generation.truncated env.methods then recoverTruncation env target generation
      else afterGeneration env target generation false

/-- The `try` block of the first call. -/
def firstCall (target : Target) : Run (Executed ⊕ Generation) := do
  let providerId ← lift (.ofExcept env.provider)
  if providerId ≠ target.providerId then lift (.raise (.provider .invalidRequest))
  else do
    let selected ← lift (.ofExcept env.strategy)
    if selected then do
      lift (setExecutionDiagnostics (env.outcome .diagnostics) .first)
      emit (.requested .initial)
      let generation ← lift (.ofExcept env.firstCall)
      pure (.inr generation)
    else do
      let response ← lift
        (failCall (env.outcome .refuseModel) (env.outcome .refuse) .first .invalidRequest
        "native_structured_output_required".toList)
      pure (.inl response)

/-- What the first call's block ends in. -/
def afterFirst (target : Target) : Executed ⊕ Generation → Run Executed
  | .inl response => pure response
  | .inr generation => afterFirstCall env target generation

/-- The execution on the routed target. -/
def runTarget (target : Target) : Run Executed := do
  lift (.await (env.outcome .projection))
  startAttempt (env.outcome .startModel) .first .initial
  let linked ← lift (linkModelRun (env.outcome .linkModel))
  if linked then do
    lift (.commit (env.outcome .linkCommit))
    tryReturn (firstCall env target) (fun e => (firstHandler env target e).map lift)
      (afterFirst env target)
  else
    lift (failCall (env.outcome .endModel) (env.outcome .endAgent) .first .invalidRequest
      "agent_lifecycle_conflict".toList)

/-- The routing. -/
def runRoute : Run Executed :=
  match env.route with
  | .error e => lift (.raise e)
  | .ok (.noSuitableModel contractUnsatisfied) =>
    lift (failWith (env.outcome .endAgent)
      (if contractUnsatisfied then "contract_enforcement_unsatisfied".toList
        else "no_suitable_model".toList))
  | .ok (.selected target) => runTarget env target

/-- The memory package, where one is requested. -/
def runMemory : Run Executed :=
  match env.memory with
  | .none => runRoute env
  | .some retrieval =>
    tryReturn (lift (.await retrieval)) (fun e => (memoryHandler env e).map lift) fun _ =>
      runRoute env

/-- `execute`. -/
def execute : Run Executed := do
  let enabled ← lift (.ofExcept env.definition)
  if enabled then do
    lift (createAgentRun (env.outcome .createRun))
    lift (startAgentRun (env.outcome .startRun))
    let denied ← lift (.ofExcept (toolFailure env))
    match denied with
    | .some code => lift (failWith (env.outcome .endAgent) code)
    | .none => runMemory env
  else lift (.raise definitionUnavailable)

end

/-! ## Without the events -/

section
variable (env : ContinueEnv)

@[simp] theorem emitIf_erase (happens : Bool) (event : Event) : erase (emitIf happens event) = pure
    () := by
  cases happens <;> rfl

theorem startAttempt_erase (o : Outcome) (slot : ModelSlot) (kind : AttemptKind) :
    erase (startAttempt o slot kind) = startModelRun o slot := by
  rw [startAttempt, erase_bind, emitIf_erase]
  rfl

theorem finishWith_erase (o : Outcome) (generation : Generation) (result : AgentResult) :
    erase (finishWith o generation result) = Novalton.finishWith o result := by
  rw [finishWith, erase_bind, emitIf_erase]
  rfl

/-- `continueCall` is the block without the generation. -/
theorem tryReturn_continueGeneration (rest : Continued → Prog AgentDb Executed) :
    Prog.tryReturn (continueGeneration env) (continueHandler env)
      (fun continued => rest continued.2) =
      Prog.tryReturn (continueCall env) (continueHandler env) rest := by
  have hcall : continueCall env = continueGeneration env >>= fun continued => pure continued.2 := by
    funext s
    simp only [continueCall, continueGeneration, Prog.bind_assoc]
    cases env.complete with
    | error e => rfl
    | ok continuation =>
      simp only [Prog.bind_apply, Prog.ofExcept_apply]
      split
      next => rfl
      next =>
        split
        next => rfl
        next =>
          simp only [Prog.bind_apply]
          cases markSucceeded (env.outcome .succeedModel) .continuation s with
          | mk r s' =>
            cases r with
            | error e => rfl
            | ok u =>
              simp only [Prog.ofExcept_apply]
              cases validateToolContinuationResult continuation.content <;> rfl
  funext s
  rw [hcall, Prog.tryReturn, Prog.tryReturn, Prog.bind_apply]
  cases continueGeneration env s with
  | mk r s' => cases r <;> rfl

theorem continueWithToolEvidence_erase : erase
    (continueWithToolEvidence env) = Novalton.continueWithToolEvidence env := by
  rw [continueWithToolEvidence, Novalton.continueWithToolEvidence]
  cases continuationFailure env with
  | some code => rfl
  | none =>
    have hend : ∀ continued, erase (continueEnd env continued) =
        Novalton.continueEnd env continued.2 := by
      intro continued
      obtain ⟨continuation, continued⟩ := continued
      cases continued with
      | roundLimit => rfl
      | invalid => rfl
      | final result => exact finishWith_erase _ _ _
    have hhandle :
        (fun e => ((continueHandler env e).map (lift : Prog AgentDb Executed → Run Executed)).map
        erase) = continueHandler env := by
      funext e
      cases continueHandler env e <;> rfl
    simp only [erase_bind, startAttempt_erase, erase_lift, erase_emit, erase_tryReturn, hend,
      hhandle, Prog.pure_bind]
    rw [tryReturn_continueGeneration]

end

section
variable {env : ExecuteEnv} {target : Target} (h : continuationOf env target = env.continuation)
include h

theorem deliver_erase (generation : Generation) (result : AgentResult) (proposals : Nat) :
    erase (deliver env target generation result proposals) =
      Novalton.deliver env result proposals := by
  rw [deliver, Novalton.deliver]
  split
  next => exact finishWith_erase _ _ _
  next =>
    split
    next => rfl
    next =>
      simp only [erase_bind, erase_emit, erase_lift, Prog.pure_bind]
      congr 1
      funext returned
      obtain ⟨status, evidence, failureCode⟩ := returned
      simp only
      split
      next => simp only [erase_bind, erase_emit, erase_lift, erase_pure, Prog.pure_bind]
      next =>
        split
        next => rfl
        next => rw [erase_bind, erase_lift, h, continueWithToolEvidence_erase]

theorem repaired_erase (generation : Generation) :
    erase (repaired env target generation) = Novalton.repaired env generation.content := by
  rw [repaired]
  cases generation.content with
  | notJson => rfl
  | raises e => rfl
  | json parsed =>
    rw [Novalton.repaired]
    simp only
    cases parsed.accepted with
    | none => rfl
    | some accepted => exact deliver_erase h _ _ _

theorem repairContract_erase : erase
    (repairContract env target) = Novalton.repairContract env target := by
  have hextra :
    (fun e => ((extraHandler env (invalidResult env) e).map (lift : Prog AgentDb Executed →
    Run Executed)).map erase) =
      extraHandler env (invalidResult env) := by
    funext e
    cases extraHandler env (invalidResult env) e <;> rfl
  have husage :
    (fun e => ((repairUsageHandler env e).map (lift : Prog AgentDb Executed → Run Executed)).map
    erase) =
      repairUsageHandler env := by
    funext e
    cases repairUsageHandler env e <;> rfl
  simp only [repairContract, Novalton.repairContract, erase_bind, startAttempt_erase, erase_emit,
    erase_lift, erase_tryReturn, Prog.pure_bind, hextra, husage, repaired_erase h]

theorem afterGeneration_erase (generation : Generation) (extraUsed : Bool) :
    erase (afterGeneration env target generation extraUsed) =
      Novalton.afterGeneration env target generation extraUsed := by
  rw [afterGeneration, Novalton.afterGeneration]
  split
  next => rfl
  next =>
    cases generation.content with
    | notJson => rfl
    | raises e => rfl
    | json parsed =>
      simp only
      cases parsed.accepted with
      | some accepted => exact deliver_erase h _ _ _
      | none =>
        simp only
        split
        next => exact repairContract_erase h
        next => rfl

theorem recoverTruncation_erase (generation : Generation) :
    erase (recoverTruncation env target generation) =
      Novalton.recoverTruncation env target generation := by
  have hhandle :
    (fun e => (recoveryHandler env (afterGeneration env target generation true) e).map erase) =
      extraHandler env (Novalton.afterGeneration env target generation true) := by
    funext e
    rw [← afterGeneration_erase h]
    cases e with
    | taskCancelled => rfl
    | providerCancelled => rfl
    | provider failure => exact congrArg Option.some (erase_bind _ _)
    | application code => exact congrArg Option.some (erase_bind _ _)
    | other => exact congrArg Option.some (erase_bind _ _)
  simp only [recoverTruncation, Novalton.recoverTruncation, erase_bind, startAttempt_erase,
    erase_emit, erase_lift, erase_tryReturn, Prog.pure_bind, hhandle, afterGeneration_erase h]

theorem afterFirstCall_erase (generation : Generation) :
    erase (afterFirstCall env target generation) =
      Novalton.afterFirstCall env target generation := by
  rw [afterFirstCall, Novalton.afterFirstCall]
  split
  next => rfl
  next =>
    split
    next => rfl
    next =>
      have hhandle :
          (fun e => ((usageHandler env e).map (lift : Prog AgentDb Executed → Run Executed)).map
          erase) = usageHandler env := by
        funext e
        cases usageHandler env e <;> rfl
      rw [erase_tryReturn, hhandle, erase_lift]
      congr 1
      funext u
      split
      next => exact recoverTruncation_erase h generation
      next => exact afterGeneration_erase h generation false

theorem runTarget_erase : erase (runTarget env target) = Novalton.runTarget env target := by
  have hfirst : erase (firstCall env target) = Novalton.firstCall env target := by
    simp only [firstCall, Novalton.firstCall, erase_bind, erase_lift]
    congr 1
    funext providerId
    split
    next => rfl
    next =>
      rw [erase_bind, erase_lift]
      congr 1
      funext selected
      split
      next => simp only [erase_bind, erase_emit, erase_lift, erase_pure, Prog.pure_bind]
      next => simp only [erase_bind, erase_lift, erase_pure]
  have hafter : (fun a => erase (afterFirst env target a)) = (fun
      | .inl response => pure response
      | .inr generation => Novalton.afterFirstCall env target generation) := by
    funext a
    cases a with
    | inl response => rfl
    | inr generation => exact afterFirstCall_erase h generation
  have hhandle :
    (fun e => ((firstHandler env target e).map (lift : Prog AgentDb Executed → Run Executed)).map
    erase) =
      firstHandler env target := by
    funext e
    cases firstHandler env target e <;> rfl
  simp only [runTarget, Novalton.runTarget, erase_bind, erase_lift, startAttempt_erase]
  congr 1
  funext u
  congr 1
  funext u
  congr 1
  funext linked
  split
  next =>
    rw [erase_bind, erase_lift, erase_tryReturn, hfirst, hhandle]
    exact congrArg (fun rest => Prog.commit (env.outcome .linkCommit) >>= fun _ =>
      Prog.tryReturn (Novalton.firstCall env target) (firstHandler env target) rest) hafter
  next => rfl

end

/-- **The traced execution is the execution**, where its continuation reads the model run it
started. -/
theorem execute_erase {env : ExecuteEnv} (h : ∀ target, env.route = .ok (.selected target) →
    continuationOf env target = env.continuation) :
    erase (execute env) = Novalton.execute env := by
  have hroute : erase (runRoute env) = Novalton.runRoute env := by
    rw [runRoute, Novalton.runRoute]
    cases hr : env.route with
    | error e => rfl
    | ok route =>
      cases route with
      | noSuitableModel contractUnsatisfied => rfl
      | selected target => exact runTarget_erase (h target hr)
  have hmemory : erase (runMemory env) = Novalton.runMemory env := by
    rw [runMemory, Novalton.runMemory]
    cases env.memory with
    | none => exact hroute
    | some retrieval =>
      have hhandle :
        (fun e => ((memoryHandler env e).map (lift : Prog AgentDb Executed → Run Executed)).map
        erase) =
          memoryHandler env := by
        funext e
        cases memoryHandler env e <;> rfl
      simp only [erase_tryReturn, hhandle, hroute, erase_lift]
  simp only [execute, Novalton.execute, erase_bind, erase_lift]
  congr 1
  funext enabled
  split
  next =>
    simp only [erase_bind, erase_lift]
    congr 1
    funext u
    congr 1
    funext u
    congr 1
    funext denied
    cases denied with
    | some code => rfl
    | none => exact hmemory
  next => rfl

/-! ## What a run may say -/

/-- A generation that may be acted on: it is the target's own, and its content is accepted. -/
structure Basis (methods : TextMethods) (target : Target) (generation : Generation) : Prop where
  provider : generation.providerId = target.providerId
  model : generation.modelId = target.providerModelId
  upstream : ∀ constraint id, target.upstreamConstraint = .some constraint →
    generation.upstreamProviderId = .some id →
    methods.casefold id = methods.casefold constraint
  accepted : ∃ parsed result proposals, generation.content = .json parsed ∧
    parsed.accepted = .some (result, proposals)

/-- The checks of a call, passed. -/
def Checked (methods : TextMethods) (target : Target) (generation : Generation) : Prop :=
  generation.identified target = true ∧
    upstreamConstraintMatches methods target generation.upstreamProviderId = true

theorem Checked.basis {methods : TextMethods} {target : Target} {generation : Generation}
    {parsed : Parsed} {accepted : AgentResult × Nat} (h : Checked methods target generation)
    (hcontent : generation.content = .json parsed) (haccepted : parsed.accepted = .some accepted) :
    Basis methods target generation := by
  obtain ⟨hidentified, hupstream⟩ := h
  have hsame : (generation.providerId, generation.modelId) =
      (target.providerId, target.providerModelId) := by
    rw [Generation.identified] at hidentified
    exact eq_of_beq hidentified
  refine ⟨congrArg Prod.fst hsame, congrArg Prod.snd hsame, ?_, parsed, accepted.1, accepted.2,
    hcontent, haccepted⟩
  intro constraint id hconstraint hid
  rw [hid] at hupstream
  simp only [upstreamConstraintMatches, hconstraint] at hupstream
  exact eq_of_beq hupstream

/-- A continuation. -/
inductive ContinueLog (basis : Generation → Prop) : List Event → Prop where
  | refused : ContinueLog basis []
  | unrequested : ContinueLog basis [.started .toolContinuation]
  | requested : ContinueLog basis [.started .toolContinuation, .requested .toolContinuation]
  | succeeded {generation} (h : basis generation) :
    ContinueLog basis [.started .toolContinuation, .requested .toolContinuation,
      .succeeds generation]

/-- What follows an accepted result. -/
inductive DeliverLog (basis : Generation → Prop) : List Event → Prop where
  | nothing : DeliverLog basis []
  | succeeded {generation} (h : basis generation) : DeliverLog basis [.succeeds generation]
  | suspended {generation} (h : basis generation) :
      DeliverLog basis [.proposes generation, .suspends generation]
  | continued {generation log} (h : basis generation) (hlog : ContinueLog basis log) :
    DeliverLog basis (.proposes generation :: log)

/-- What an attempt may do. -/
inductive AttemptLog (basis : Generation → Prop) (kind : AttemptKind) : List Event → Prop where
  | nothing : AttemptLog basis kind []
  | unrequested : AttemptLog basis kind [.started kind]
  | requested {log} (h : DeliverLog basis log) :
      AttemptLog basis kind (.started kind :: .requested kind :: log)

/-- The kinds of the one extra attempt. -/
def Extra (env : ExecuteEnv) (kind : AttemptKind) : Prop :=
  kind = .truncation ∨ (kind = .contractRepair ∧ env.permittedTools = [])

/-- What follows the first call: a delivery, or an extra attempt. -/
inductive FollowLog (env : ExecuteEnv) (basis : Generation → Prop) : List Event → Prop where
  | delivered {log} (h : DeliverLog basis log) : FollowLog env basis log
  | extra {kind log} (h : Extra env kind) (hlog : AttemptLog basis kind log) :
      FollowLog env basis log

/-- An execution. -/
inductive ExecuteLog (env : ExecuteEnv) (basis : Generation → Prop) : List Event → Prop where
  | nothing : ExecuteLog env basis []
  | unrequested : ExecuteLog env basis [.started .initial]
  | requested {log} (h : FollowLog env basis log) :
      ExecuteLog env basis (.started .initial :: .requested .initial :: log)

/-! ## Its events -/

/-- An attempt starts, or the program raises, with the row or without. -/
theorem startAttempt_emits {β : Type} {P : List Event → Prop} {o : Outcome} {slot : ModelSlot}
    {kind : AttemptKind} {f : Unit → Run β} (hnil : P []) (hstarted : P [.started kind])
    (h : Emits (fun l => P (.started kind :: l)) (f ())) :
    Emits P (startAttempt o slot kind >>= f) := by
  cases o with
  | before e => exact fun _ => hnil
  | after e => exact fun _ => hstarted
  | ok => exact fun s => h ⟨_, _⟩

theorem finishWith_emits {P : List Event → Prop} {o : Outcome} {generation : Generation}
    {result : AgentResult} (hnil : P []) (hsucceeds : P [.succeeds generation]) : Emits P
    (finishWith o generation result) := by
  rw [finishWith, emitIf]
  split
  · exact Emits.emit_bind (Emits.lift hsucceeds)
  · exact fun _ => hnil

/-- What the continuation goes on with was checked. -/
theorem continueGeneration_checked {env : ContinueEnv} {s s' : Session AgentDb}
    {generation : Generation} {continued : Continued}
    (h : continueGeneration env s = (.ok (generation, continued), s')) :
    Checked env.methods env.initial generation ∧
      validateToolContinuationResult generation.content = .ok continued := by
  rw [continueGeneration, Prog.bind_apply, Prog.ofExcept_apply] at h
  cases hcomplete : env.complete with
  | error e =>
    rw [hcomplete] at h
    cases h
  | ok continuation =>
    rw [hcomplete] at h
    dsimp only at h
    split at h
    next => cases h
    next hchecked =>
      split at h
      next => cases h
      next =>
        rw [Prog.bind_apply] at h
        cases hsucceed : markSucceeded (env.outcome .succeedModel) .continuation s with
        | mk r t =>
          rw [hsucceed] at h
          cases r with
          | error e => cases h
          | ok u =>
            dsimp only at h
            rw [Prog.bind_apply, Prog.ofExcept_apply] at h
            cases hvalidate : validateToolContinuationResult continuation.content with
            | error e =>
              rw [hvalidate] at h
              cases h
            | ok c =>
              rw [hvalidate] at h
              cases h
              refine ⟨?_, hvalidate⟩
              simpa [Checked] using hchecked

theorem validateToolContinuationResult_final {content : Content} {result : AgentResult}
    (h : validateToolContinuationResult content = .ok (.final result)) :
    ∃ parsed proposals, content = .json parsed ∧ parsed.accepted = .some (result, proposals) := by
  cases content with
  | notJson => cases h
  | raises e => cases h
  | json parsed =>
    rw [validateToolContinuationResult] at h
    split at h
    next => cases h
    next =>
      cases haccepted : parsed.accepted with
      | none =>
        rw [haccepted] at h
        cases h
      | some accepted =>
        rw [haccepted] at h
        cases h
        exact ⟨parsed, accepted.2, rfl, haccepted⟩

theorem continueWithToolEvidence_emits (env : ContinueEnv) :
    Emits (ContinueLog (Basis env.methods env.initial)) (continueWithToolEvidence env) := by
  rw [continueWithToolEvidence]
  split
  · exact Emits.lift .refused
  · refine startAttempt_emits .refused .unrequested (Emits.lift_bind .unrequested fun _ =>
      Emits.emit_bind ?_)
    refine Emits.tryReturn_lift (R := fun returned => Checked env.methods env.initial returned.1 ∧
      validateToolContinuationResult returned.1.content = .ok returned.2) .requested ?_ ?_ ?_
    · intro s returned s' h
      exact continueGeneration_checked h
    · intro e p h
      cases hhandle : continueHandler env e with
      | none =>
        rw [hhandle] at h
        cases h
      | some q =>
        rw [hhandle] at h
        cases h
        exact Emits.lift .requested
    · intro returned hreturned
      obtain ⟨generation, continued⟩ := returned
      obtain ⟨hchecked, hvalidate⟩ := hreturned
      cases continued with
      | roundLimit => exact Emits.lift .requested
      | invalid => exact Emits.lift .requested
      | final result =>
        obtain ⟨parsed, proposals, hcontent, haccepted⟩ :=
          validateToolContinuationResult_final hvalidate
        exact finishWith_emits .requested (.succeeded (hchecked.basis hcontent haccepted))

section
variable {env : ExecuteEnv} {target : Target}

/-- The handlers of the blocks emit nothing. -/
theorem lifted_emits {P : List Event → Prop} {handle : Exn → Option (Prog AgentDb Executed)}
    (hnil : P []) (e : Exn) (p : Run Executed) (h : (handle e).map lift = .some p) : Emits P p := by
  cases hhandle : handle e with
  | none =>
    rw [hhandle] at h
    cases h
  | some q =>
    rw [hhandle] at h
    cases h
    exact Emits.lift hnil

theorem deliver_emits {generation : Generation} (hbasis : Basis env.methods target generation)
    (result : AgentResult) (proposals : Nat) : Emits (DeliverLog (Basis env.methods target))
    (deliver env target generation result proposals) := by
  rw [deliver]
  split
  · exact finishWith_emits .nothing (.succeeded hbasis)
  · split
    · exact Emits.lift .nothing
    · refine Emits.emit_bind (Emits.lift_bind (.continued hbasis .refused) fun returned => ?_)
      obtain ⟨status, evidence, failureCode⟩ := returned
      dsimp only
      split
      · exact Emits.emit_bind (Emits.lift_bind (.suspended hbasis) fun _ =>
          Emits.pure (.suspended hbasis))
      · split
        · exact Emits.lift (.continued hbasis .refused)
        · refine Emits.lift_bind (.continued hbasis .refused) fun _ => ?_
          exact (continueWithToolEvidence_emits (continuationOf env target)).mono fun _ h =>
            .continued hbasis h

theorem completeExtra_checked {call : Except Exn Generation} {s s' : Session AgentDb}
    {generation : Generation} (h : completeExtra env target call s = (.ok generation, s')) :
    Checked env.methods target generation := by
  rw [completeExtra, Prog.bind_apply, Prog.ofExcept_apply] at h
  cases call with
  | error e => cases h
  | ok returned =>
    dsimp only at h
    split at h
    next => cases h
    next hchecked =>
      cases h
      simpa [Checked] using hchecked

theorem recoveryCall_checked {s s' : Session AgentDb} {generation : Generation}
    (h : recoveryCall env target s = (.ok generation, s')) :
    Checked env.methods target generation := by
  rw [recoveryCall, Prog.bind_apply] at h
  cases hcall : completeExtra env target env.recoveryCall s with
  | mk r t =>
    rw [hcall] at h
    cases r with
    | error e => cases h
    | ok returned =>
      dsimp only at h
      rw [Prog.bind_apply] at h
      cases hsucceed : markSucceeded (env.outcome .succeedExtra) .extra t with
      | mk r u =>
        rw [hsucceed] at h
        cases r with
        | error e => cases h
        | ok a =>
          cases h
          exact completeExtra_checked hcall

theorem repaired_emits {generation : Generation} (h : Checked env.methods target generation) :
    Emits (DeliverLog (Basis env.methods target)) (repaired env target generation) := by
  rw [repaired]
  cases hcontent : generation.content with
  | raises e => exact Emits.lift .nothing
  | notJson => exact Emits.lift .nothing
  | json parsed =>
    cases haccepted : parsed.accepted with
    | none =>
      simp only [haccepted]
      exact Emits.lift .nothing
    | some accepted =>
      simp only [haccepted]
      exact deliver_emits (h.basis hcontent haccepted) _ _

theorem repairContract_emits :
    Emits (AttemptLog (Basis env.methods target) .contractRepair) (repairContract env target) := by
  refine startAttempt_emits .nothing .unrequested (Emits.emit_bind ?_)
  refine Emits.tryReturn_lift (R := Checked env.methods target) (.requested .nothing)
    (fun s generation s' h => completeExtra_checked h)
    (lifted_emits (.requested .nothing)) fun generation hchecked => ?_
  refine Emits.tryReturn_lift (R := fun _ => True) (.requested .nothing) (fun _ _ _ _ => trivial)
    (lifted_emits (.requested .nothing)) fun _ _ => ?_
  exact (repaired_emits hchecked).mono fun _ h => .requested h

/-- An accepted generation is delivered; another is repaired, at most. -/
theorem afterGeneration_emits {generation : Generation} (h : Checked env.methods target generation)
    (extraUsed : Bool) :
    Emits (fun log => DeliverLog (Basis env.methods target) log ∨
      (extraUsed = false ∧ env.permittedTools = [] ∧
      AttemptLog (Basis env.methods target) .contractRepair log)) (afterGeneration env target generation extraUsed) := by
  rw [afterGeneration]
  split
  · exact Emits.lift (.inl .nothing)
  · cases hcontent : generation.content with
    | raises e => exact Emits.lift (.inl .nothing)
    | notJson => exact Emits.lift (.inl .nothing)
    | json parsed =>
      cases haccepted : parsed.accepted with
      | some accepted =>
        simp only [haccepted]
        exact (deliver_emits (h.basis hcontent haccepted) _ _).mono fun _ => .inl
      | none =>
        simp only [haccepted]
        split
        next hrepair => exact repairContract_emits.mono fun _ hlog => .inr ⟨hrepair.2, hrepair.1, hlog⟩
        next => exact Emits.lift (.inl .nothing)

/-- The recovered generation is not repaired, nor the truncated one after it. -/
theorem afterGeneration_emits_used {generation : Generation}
    (h : Checked env.methods target generation) :
    Emits (DeliverLog (Basis env.methods target)) (afterGeneration env target generation true) := by
  refine (afterGeneration_emits h true).mono fun log hlog => ?_
  rcases hlog with hlog | ⟨hused, -⟩
  · exact hlog
  · cases hused

theorem recoverTruncation_emits {generation : Generation}
    (h : Checked env.methods target generation) :
    Emits (AttemptLog (Basis env.methods target) .truncation)
      (recoverTruncation env target generation) := by
  have hrest : ∀ next, Checked env.methods target next →
      Emits (fun log => AttemptLog (Basis env.methods target) .truncation
        (.started .truncation :: .requested .truncation :: log))
        (afterGeneration env target next true) := fun next hnext =>
    (afterGeneration_emits_used hnext).mono fun _ hlog => .requested hlog
  refine startAttempt_emits .nothing .unrequested (Emits.emit_bind ?_)
  refine Emits.tryReturn_lift (R := Checked env.methods target) (.requested .nothing)
    (fun s next s' hnext => recoveryCall_checked hnext)
    ?_ hrest
  intro e p hp
  cases e with
  | taskCancelled => cases hp
  | providerCancelled =>
    cases hp
    exact Emits.lift (.requested .nothing)
  | provider failure | application code | other =>
    cases hp
    exact Emits.lift_bind (.requested .nothing) fun _ => hrest generation h

theorem afterFirstCall_emits (generation : Generation) :
    Emits (FollowLog env (Basis env.methods target)) (afterFirstCall env target generation) := by
  rw [afterFirstCall]
  split
  · exact Emits.lift (.delivered .nothing)
  next hidentified =>
    split
    · exact Emits.lift (.delivered .nothing)
    next hupstream =>
      have hchecked : Checked env.methods target generation := by
        constructor
        · simpa using hidentified
        · simpa using hupstream
      refine Emits.tryReturn_lift (R := fun _ => True) (.delivered .nothing) (fun _ _ _ _ =>
        trivial)
        (lifted_emits (.delivered .nothing)) fun _ _ => ?_
      split
      · exact (recoverTruncation_emits hchecked).mono fun _ hlog => .extra (.inl rfl) hlog
      · refine (afterGeneration_emits hchecked false).mono fun log hlog => ?_
        rcases hlog with hlog | ⟨-, htools, hlog⟩
        · exact .delivered hlog
        · exact .extra (.inr ⟨rfl, htools⟩) hlog

/-- The events of the first call's block. -/
def FirstLog : List Event → Except Exn (Executed ⊕ Generation) → Prop
  | log, .ok (.inl _) => log = []
  | log, .ok (.inr _) => log = [.requested .initial]
  | log, .error _ => log = [] ∨ log = [.requested .initial]

theorem firstCall_logs : Logs FirstLog (firstCall env target) := by
  have hnil : ∀ e, FirstLog [] (.error e) := fun _ => .inl rfl
  refine Logs.lift_bind hnil fun providerId => ?_
  split
  · exact fun _ => .inl rfl
  · refine Logs.lift_bind hnil fun selected => ?_
    split
    · refine Logs.lift_bind hnil fun _ =>
        Logs.emit_bind (Logs.lift_bind (fun _ => .inr rfl) fun generation => ?_)
      exact Logs.pure rfl
    · exact Logs.lift_bind hnil fun response => Logs.pure rfl

theorem runTarget_emits : Emits (ExecuteLog env (Basis env.methods target))
    (runTarget env target) := by
  refine Emits.lift_bind .nothing fun _ =>
    startAttempt_emits .nothing .unrequested (Emits.lift_bind .unrequested fun linked => ?_)
  split
  · refine Emits.lift_bind .unrequested fun _ => ?_
    refine Emits.tryReturn firstCall_logs ?_ ?_ ?_
    · intro log e hlog p hp
      rcases hlog with hlog | hlog
      · rw [hlog]
        exact lifted_emits .unrequested e p hp
      · rw [hlog]
        exact lifted_emits (.requested (.delivered .nothing)) e p hp
    · intro log e hlog _
      rcases hlog with hlog | hlog
      · rw [hlog]
        exact .unrequested
      · rw [hlog]
        exact .requested (.delivered .nothing)
    · intro log a hlog
      cases a with
      | inl response =>
        rw [show log = [] from hlog]
        exact Emits.pure .unrequested
      | inr generation =>
        rw [show log = [.requested .initial] from hlog]
        exact (afterFirstCall_emits generation).mono fun _ h => .requested h
  · exact Emits.lift .unrequested

end

/-- The execution emits nothing before it has a target. -/
theorem execute_emits (env : ExecuteEnv) :
    Emits (fun log => log = [] ∨ ∃ target, env.route = .ok (.selected target) ∧
      ExecuteLog env (Basis env.methods target) log)
      (execute env) := by
  have hroute : Emits (fun log => log = [] ∨ ∃ target, env.route = .ok (.selected target) ∧
      ExecuteLog env (Basis env.methods target) log) (runRoute env) := by
    rw [runRoute]
    cases hr : env.route with
    | error e => exact Emits.lift (.inl rfl)
    | ok route =>
      cases route with
      | noSuitableModel contractUnsatisfied => exact Emits.lift (.inl rfl)
      | selected target => exact runTarget_emits.mono fun _ h => .inr ⟨target, rfl, h⟩
  refine Emits.lift_bind (.inl rfl) fun enabled => ?_
  split
  · refine Emits.lift_bind (.inl rfl) fun _ => Emits.lift_bind (.inl rfl) fun _ =>
      Emits.lift_bind (.inl rfl) fun denied => ?_
    cases denied with
    | some code => exact Emits.lift (.inl rfl)
    | none =>
      change Emits _ (runMemory env)
      rw [runMemory]
      cases env.memory with
      | none => exact hroute
      | some retrieval =>
        exact Emits.tryReturn_lift (R := fun _ => True) (.inl rfl) (fun _ _ _ _ => trivial)
          (lifted_emits (.inl rfl))
          fun _ _ => hroute
  · exact Emits.lift (.inl rfl)

end Novalton.Attempts
