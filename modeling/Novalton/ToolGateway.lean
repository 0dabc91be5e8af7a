/-
The tool gateway (`modules/tools/service.py`): `execute_proposal`, `resume_prepared_mutation`
and `reject_prepared_mutation` over the tool calls, with the policy and the approvals they ask
(`modules/policy/service.py`, `modules/approvals/service.py`) and the workspace they write to.

A request is followed from await to await. Between two of its steps any other request, a
decision on an approval, a change of the rules, a new agent definition, a move of an agent run
or an edit of the workspace may come, and a request may end at any point. Locks are left out:
where a request would wait for a row, here it may go on.

An executor runs in one step, from the read of its file to its replacement. `ReplaceText`
takes the steps of a mutation one by one; that a process dies between them, and leaves the
temporary file behind, is not followed here.
-/
import Novalton.PolicyAudit
import Novalton.Transition
import Novalton.WorkspaceFiles

namespace Novalton.ToolGateway

open Audit (TextLibrary)
open Contracts (WordClass)
open Policy (ScopedRequest ApprovalRequest PolicyEvaluationResult PolicyEvaluationContext RiskLevel
  ServiceError)
open WorkspaceFiles (WorkspaceListFilesInput WorkspaceReadFileInput WorkspaceSearchTextInput)

/-! ## The registry -/

/-- The ids of the trusted tools, which a proposal is confined to. -/
inductive ToolId where
  | listFiles | readFile | searchText | replaceText
deriving DecidableEq, Repr

def ToolId.value : ToolId → Text
  | .listFiles => "workspace.list_files".toList
  | .readFile => "workspace.read_file".toList
  | .searchText => "workspace.search_text".toList
  | .replaceText => "workspace.replace_text".toList

inductive SideEffectClass where
  | readOnly | mutation
deriving DecidableEq, Repr

/-- What the gateway reads of a `RegisteredTool`. -/
structure RegisteredTool where
  requiredPermission : Text
  policyAction : Text
  riskClass : RiskLevel
  sideEffectClass : SideEffectClass

/-- `_registered`. -/
def registered (tool : ToolId) (sideEffect : SideEffectClass) (risk : RiskLevel) :
    RegisteredTool where
  requiredPermission := tool.value
  policyAction := "tool.".toList ++ tool.value
  riskClass := risk
  sideEffectClass := sideEffect

/-- `TRUSTED_TOOL_REGISTRY.get`. -/
def trustedToolRegistry : ToolId → RegisteredTool
  | .listFiles => registered .listFiles .readOnly .low
  | .readFile => registered .readFile .readOnly .low
  | .searchText => registered .searchText .readOnly .low
  | .replaceText => registered .replaceText .mutation .medium

/-- The arguments of a proposal, those of the tool it names. -/
inductive ToolArguments where
  | listFiles (input : WorkspaceListFilesInput)
  | readFile (input : WorkspaceReadFileInput)
  | searchText (input : WorkspaceSearchTextInput)
  | replaceText (input : WorkspaceReplaceTextInput)

def ToolArguments.toolName : ToolArguments → ToolId
  | .listFiles _ => .listFiles
  | .readFile _ => .readFile
  | .searchText _ => .searchText
  | .replaceText _ => .replaceText

structure ToolProposal where
  callKey : Text
  arguments : ToolArguments

/-- What is kept of the arguments: texts that a model wrote by their hash and length. -/
inductive SafeInput where
  | listFiles (path : Text) (maxDepth maxResults : ℕ)
  | readFile (path : Text) (maxBytes : ℕ)
  | searchText (path : Text) (maxResults : ℕ) (querySha256 : Text) (queryLength : ℕ)
  | replaceText (path : Text) (expectedMatches : ℕ) (searchSha256 : Text) (searchLength : ℕ)
      (replacementSha256 : Text)
      (replacementLength : ℕ)
deriving DecidableEq

/-- `_safe_input_metadata`. -/
def safeInputMetadata (lib : Library) : ToolArguments → SafeInput
  | .listFiles input => .listFiles input.path input.max_depth input.max_results
  | .readFile input => .readFile input.path input.max_bytes
  | .searchText input =>
    .searchText input.path input.max_results (lib.sha256 (encode input.query)) input.query.length
  | .replaceText input =>
    .replaceText input.path input.expectedMatches (lib.sha256 (encode input.search))
      input.search.length
      (lib.sha256 (encode input.replacement)) input.replacement.length

/-! ## The rows -/

/-- `ToolCall.prepared_mutation`: what `prepare` returned, or the code it failed with. -/
inductive PreparedRecord where
  | failure (code : Text)
  | mutation (prepared : PreparedMutation)
deriving DecidableEq

/-- `prepared.get(..)` of a key of the metadata. -/
def PreparedRecord.get (prepared : Option PreparedRecord) (key : PreparedMutation → Text) :
    Option Text :=
  match prepared with
  | .some (.mutation recorded) => .some (key recorded)
  | _ => .none

/-- The columns `repository.create` writes and nothing writes again. -/
structure ProposedCall where
  id : Uuid
  tenantId : Uuid
  workspaceId : Uuid
  projectId : Option Uuid
  taskId : Option Uuid
  agentRunId : Uuid
  proposalModelRunId : Option Uuid
  callKey : Text
  toolId : ToolId
  safeInputMetadata : SafeInput
  sideEffectClass : SideEffectClass
  mutationFingerprint : Option Text
  preimageSha256 : Option Text
  candidateSha256 : Option Text
  preparedMutation : Option PreparedRecord

/-- `ToolCall.result_metadata` without its duration. -/
inductive ResultMetadata where
  | applied (path : Text) (alreadyApplied : Bool) (mutationFingerprint : Option Text)
  | executed
  | failed

structure ToolCall extends ProposedCall where
  status : ToolExecutionStatus
  policyEffect : Option PolicyEffect
  matchedRuleIds : List Uuid
  approvalRequestId : Option Uuid
  resultMetadata : Option ResultMetadata
  failureCode : Option Text
  started : Bool
  completed : Bool

/-- The CHECK constraints on what `set_state` writes. -/
def ToolCall.admitted (call : ToolCall) : Bool :=
  call.matchedRuleIds.length ≤ 64 &&
    call.failureCode.all (fun code => 1 ≤ code.length && code.length ≤ 64) &&
    match call.status with
    | .proposed | .pendingApproval => !call.started && !call.completed
    | .running => call.started && !call.completed
    | .succeeded | .failed => call.started && call.completed
    | .blocked => call.completed

/-- An agent run; the task of a run is in a project. -/
structure AgentRun where
  id : Uuid
  tenantId : Uuid
  workspaceId : Uuid
  projectId : Option Uuid
  taskId : Option Uuid
  agentDefinitionId : Uuid
  agentVersion : ℕ
  status : AgentRunStatus
  task_requires_project : taskId.isSome = true → projectId.isSome = true

/-- A version of an agent's definition. -/
structure AgentDefinition where
  id : Uuid
  tenantId : Uuid
  workspaceId : Uuid
  version : ℕ
  permissions : List Text

structure ModelRun where
  id : Uuid
  tenantId : Uuid
  workspaceId : Uuid
  agentRunId : Uuid

/-! ## The request to the policy -/

/-- `_policy_resource`. -/
def policyResource (run : AgentRun) : Option Text × Option Uuid :=
  match run.taskId, run.projectId with
  | .some task, _ => (.some "task".toList, .some task)
  | .none, .some project => (.some "project".toList, .some project)
  | .none, .none => (.none, .none)

/-- The id under which a call asks the policy and is given approvals. -/
def callActor (callId : Uuid) : Text := "toolcall:".toList ++ callId.str

theorem policyAction_valid (tool : ToolId) :
    3 ≤ (trustedToolRegistry tool).policyAction.length ∧
      (trustedToolRegistry tool).policyAction.length ≤ 100 ∧
      Policy.ACTION.fullmatch (trustedToolRegistry tool).policyAction = true := by
  cases tool <;> decide

/-- The policy accepts the request of every run. -/
theorem policyRequest_valid (run : AgentRun) (tool : ToolId) (callId : Uuid) :
    Policy.validateRequest (trustedToolRegistry tool).policyAction (.some "agent".toList)
      (.some (callActor callId)) (policyResource run).1
      (policyResource run).2 run.projectId run.taskId = true := by
  obtain ⟨hmin, hmax, hmatch⟩ := policyAction_valid tool
  have hrequires := run.task_requires_project
  cases htaskId : run.taskId with
  | some task =>
    rw [htaskId] at hrequires
    obtain ⟨project, hprojectId⟩ := Option.isSome_iff_exists.mp (hrequires rfl)
    simp [Policy.validateRequest, policyResource, htaskId, hprojectId, hmin, hmax, hmatch]
    decide
  | none =>
    cases hprojectId : run.projectId with
    | some project =>
      simp [Policy.validateRequest, policyResource, htaskId, hprojectId, hmin, hmax, hmatch]
      decide
    | none =>
      simp [Policy.validateRequest, policyResource, htaskId, hprojectId, hmin, hmax, hmatch]
      decide

/-- `_policy_request`. -/
def policyRequest (environment : Text) (run : AgentRun) (tool : ToolId) (callId : Uuid) :
    ScopedRequest where
  tenantId := run.tenantId
  workspaceId := run.workspaceId
  action := (trustedToolRegistry tool).policyAction
  actorType := .some "agent".toList
  actorId := .some (callActor callId)
  resourceType := (policyResource run).1
  resourceId := (policyResource run).2
  projectId := run.projectId
  taskId := run.taskId
  context := ⟨.some (trustedToolRegistry tool).riskClass, .some environment, .some true⟩
  valid := policyRequest_valid run tool callId

/-! ## Approvals -/

/-- `_exact_scope_matches`. -/
def exactScopeMatches (approval : ApprovalRequest) (request : ScopedRequest)
    (fingerprint : Option Text) : Bool :=
  approval.request.tenantId = request.tenantId &&
    approval.request.workspaceId = request.workspaceId &&
    approval.request.action = request.action && approval.request.actorType = request.actorType &&
    approval.request.actorId = request.actorId && approval.request.resourceType =
      request.resourceType &&
    approval.request.resourceId = request.resourceId &&
      approval.request.projectId = request.projectId &&
    approval.request.taskId = request.taskId && approval.scopeType = "ONE_ACTION".toList &&
      approval.mutationFingerprint = fingerprint

/-- `get_scoped_approval`. -/
def getScopedApproval (db : Policy.Database) (tenantId workspaceId approvalId : Uuid) :
    Option ApprovalRequest :=
  db.approvals.find? fun approval =>
    approval.id = approvalId && approval.request.tenantId = tenantId &&
      approval.request.workspaceId = workspaceId

/-- `is_approval_satisfied` up to its evaluation: the approval is given, for exactly the request. -/
def approvalGiven (db : Policy.Database) (approvalId : Uuid) (request : ScopedRequest)
    (fingerprint : Option Text) : Bool :=
  match getScopedApproval db request.tenantId request.workspaceId approvalId with
  | .none => false
  | .some approval => approval.status = "APPROVED".toList &&
      exactScopeMatches approval request fingerprint

inductive DecisionError where
  | service (error : ServiceError)
  | conflict
deriving DecidableEq, Repr

def statusText : Decision → Text
  | .approve => "APPROVED".toList
  | .reject => "REJECTED".toList

def decisionAction : Decision → Text
  | .approve => "approval.approve".toList
  | .reject => "approval.reject".toList

/-- The row of an approval, decided. -/
def decided (target : Decision) (id : Uuid) (approval : ApprovalRequest) : ApprovalRequest :=
  if approval.id = id then { approval with status := statusText target } else approval

/-- `_decide`. -/
def decideApproval (text : TextLibrary) (w : WordClass) (db : Policy.Database)
    (tenantId workspaceId approvalId : Uuid) (target : Decision) :
    Except DecisionError ApprovalRequest × Policy.Database :=
  if !db.workspaces.contains (tenantId, workspaceId) then (.error (.service .notFound), db)
  else
    match getScopedApproval db tenantId workspaceId approvalId with
    | .none => (.error (.service .notFound), db)
    | .some approval =>
      if approval.status = statusText target then (.ok approval, db)
      else if approval.status ≠ "PENDING".toList then (.error .conflict, db)
      else
        let approval := { approval with status := statusText target }
        match Policy.appendRecord text w { db with approvals := db.approvals.map (decided target approvalId) }
            (Policy.auditData approval (decisionAction target)) with
        | .ok db' => (.ok approval, db')
        | .error e => (.error (.service e), db)

/-! ## The requests -/

inductive Evidence where
  | mutation (path : Text) (alreadyApplied : Bool)
  | reading

structure ToolGatewayResult where
  toolCallId : Uuid
  status : ToolExecutionStatus
  policyEffect : Option PolicyEffect
  approvalId : Option Uuid
  evidence : Option Evidence
  failureCode : Option Text

/-- `_result`. -/
def resultOf (value : ToolCall) (evidence : Option Evidence) (failureCode : Option Text) :
    ToolGatewayResult where
  toolCallId := value.id
  status := value.status
  policyEffect := value.policyEffect
  approvalId := value.approvalRequestId
  evidence := evidence
  failureCode := failureCode.or value.failureCode

/-- How a request ends. -/
inductive Response where
  | result (result : ToolGatewayResult)
  | applicationError (code : Text)
  | serviceError (error : ServiceError)
  | integrityError
  | uncaught (error : PyError)
  | rejected

/-- The arguments of `execute_proposal`. -/
structure Proposal where
  tenantId : Uuid
  workspaceId : Uuid
  agentRunId : Uuid
  proposal : ToolProposal
  permittedTools : List Text
  proposalModelRunId : Option Uuid
  approvalId : Option Uuid

/-- An approval by its scope, as the two requests that decide a suspended call name it. -/
structure ScopedApproval where
  tenantId : Uuid
  workspaceId : Uuid
  approvalId : Uuid

inductive GatewayRequest where
  | executeProposal (proposal : Proposal)
  | resumePreparedMutation (approval : ScopedApproval)
  | rejectPreparedMutation (approval : ScopedApproval)

/-- On what a call is to be executed: its own proposal, the proposal made again with an
approval, or the resumption of the prepared mutation. -/
inductive Way where
  | first
  | again (approvalId : Uuid)
  | resumed (approvalId : Uuid)
deriving DecidableEq

/-- A call that has passed the checks before the policy. -/
structure Work where
  call : ToolCall
  run : AgentRun
  definition : AgentDefinition
  arguments : ToolArguments
  request : ScopedRequest

inductive Outcome where
  | succeeded (evidence : Evidence)
  | failed (code : Text)

def Outcome.evidence : Outcome → Option Evidence
  | .succeeded evidence => .some evidence
  | .failed _ => .none

/-- Where a request is. -/
inductive Pc where
  | idle
  | authorize (proposal : Proposal)
  | lookUp (proposal : Proposal) (run : AgentRun) (definition : AgentDefinition)
  | prepare (proposal : Proposal) (run : AgentRun) (definition : AgentDefinition)
  | create (proposal : Proposal) (run : AgentRun) (definition : AgentDefinition)
      (prepared : Option PreparedRecord)
  | lockCall (approval : ScopedApproval)
  | lockRun (approval : ScopedApproval) (call : ToolCall)
  | rejectCall (approval : ScopedApproval)
  | rejectRun (approval : ScopedApproval) (call : ToolCall)
  | evaluate (work : Work) (way : Way)
  | createApproval (work : Work) (decision : PolicyEvaluationResult)
  | suspend (work : Work) (decision : PolicyEvaluationResult) (approvalId : Uuid)
  | readApproval (work : Work) (way : Way) (approvalId : Uuid) (decision : PolicyEvaluationResult)
  | reevaluate (work : Work) (way : Way) (approvalId : Uuid) (decision : PolicyEvaluationResult)
  | start (work : Work) (way : Way) (decision : PolicyEvaluationResult)
  | execute (work : Work) (way : Way) (decision : PolicyEvaluationResult)
  | finish (work : Work) (way : Way) (decision : PolicyEvaluationResult) (outcome : Outcome)
  | deny (call : ToolCall) (code : Text) (decision : Option PolicyEvaluationResult)
  | done (response : Response)

structure State where
  policy : Policy.Database
  calls : List ToolCall
  runs : List AgentRun
  definitions : List AgentDefinition
  modelRuns : List ModelRun
  root : Node
  requests : ℕ → Pc

def State.goto (s : State) (i : ℕ) (pc : Pc) : State :=
  { s with requests := fun j => if j = i then pc else s.requests j }

/-- What the surroundings answer: a new id, whether the disk fails, what a reading tool returns. -/
structure Answer where
  id : Uuid
  diskFails : Bool
  reading : Except Text Unit

/-- A part of a row that `set_state` writes over where it is given. -/
def overwrite {α : Type} (old : Option α) (new : Option α) : Option α := new.or old

/-- What `set_state` makes of a row. -/
structure StateChange where
  status : ToolExecutionStatus
  decision : Option PolicyEvaluationResult
  approvalRequestId : Option Uuid
  resultMetadata : Option ResultMetadata
  failureCode : Option Text
  starts : Bool
  completes : Bool

def StateChange.apply (change : StateChange) (call : ToolCall) : ToolCall :=
  { call with
    status := change.status
    policyEffect := overwrite call.policyEffect (change.decision.map (·.effect))
    matchedRuleIds := (change.decision.map (·.matchedRuleIds)).getD call.matchedRuleIds
    approvalRequestId := overwrite call.approvalRequestId change.approvalRequestId
    resultMetadata := overwrite call.resultMetadata change.resultMetadata
    failureCode := change.failureCode
    started := call.started || change.starts
    completed := call.completed || change.completes }

/-- The row of a call, by its id. -/
def State.call? (s : State) (id : Uuid) : Option ToolCall := s.calls.find? (·.id = id)

def State.replaceCall (s : State) (id : Uuid) (change : StateChange) : State :=
  { s with calls := s.calls.map fun call => if call.id = id then change.apply call else call }

/-- `set_state` with its commit, and where the request goes with the row: a row that the
constraints do not admit is an `IntegrityError`. -/
def State.setState (s : State) (id : Uuid) (change : StateChange) (then_ : ToolCall → Pc) :
    State × Pc :=
  match s.call? id with
  | .none => (s, .done .integrityError)
  | .some call =>
    if (change.apply call).admitted then (s.replaceCall id change, then_ (change.apply call))
      else (s, .done .integrityError)

/-- `_load_authority`. -/
def loadAuthority (s : State) (p : Proposal) : Except Text (AgentRun × AgentDefinition) :=
  match s.runs.find? fun run => run.id = p.agentRunId && run.tenantId = p.tenantId &&
      run.workspaceId = p.workspaceId with
  | .none => .error "resource_not_found".toList
  | .some run =>
    if run.status ≠ .running then .error "tool_agent_run_inactive".toList
    else
      match s.definitions.find? fun definition =>
          definition.id = run.agentDefinitionId && definition.tenantId = p.tenantId &&
              definition.workspaceId = p.workspaceId with
      | .none => .error "tool_agent_authority_invalid".toList
      | .some definition =>
        if definition.version ≠ run.agentVersion then .error "tool_agent_authority_invalid".toList
        else if p.proposalModelRunId.all fun id => s.modelRuns.any fun modelRun =>
            modelRun.id = id && modelRun.tenantId = p.tenantId &&
              modelRun.workspaceId = p.workspaceId && modelRun.agentRunId = run.id
        then .ok (run, definition)
        else .error "tool_model_linkage_invalid".toList

/-- `repository.get_by_key`. -/
def State.getByKey (s : State) (p : Proposal) : Option ToolCall :=
  s.calls.find? fun call =>
    call.tenantId = p.tenantId && call.workspaceId = p.workspaceId &&
      call.agentRunId = p.agentRunId && call.callKey = p.proposal.callKey

/-- `repository.get_for_approval`. -/
def State.getForApproval (s : State) (a : ScopedApproval) : Option ToolCall :=
  s.calls.find? fun call =>
    call.tenantId = a.tenantId && call.workspaceId = a.workspaceId &&
      call.approvalRequestId = .some a.approvalId

/-- The agent run of a call. -/
def State.runOf (s : State) (a : ScopedApproval) (call : ToolCall) : Option AgentRun :=
  s.runs.find? fun run => run.id = call.agentRunId && run.tenantId = a.tenantId &&
    run.workspaceId = a.workspaceId

/-- What is prepared for a new call. -/
def prepareProposal (lib : Library) (root : Node) : ToolArguments → Py (Option PreparedRecord)
  | .replaceText input =>
    match ReplaceTextExecutor.prepare lib root input with
    | .ok prepared => .ok (.some (.mutation prepared))
    | .error (.tool code) => .ok (.some (.failure code.toList))
    | .error e => .error e
  | _ => .ok .none

/-- The row `repository.create` adds. -/
def newCall (lib : Library) (id : Uuid) (p : Proposal) (run : AgentRun)
    (prepared : Option PreparedRecord) : ToolCall where
  id := id
  tenantId := p.tenantId
  workspaceId := p.workspaceId
  projectId := run.projectId
  taskId := run.taskId
  agentRunId := run.id
  proposalModelRunId := p.proposalModelRunId
  callKey := p.proposal.callKey
  toolId := p.proposal.arguments.toolName
  safeInputMetadata := safeInputMetadata lib p.proposal.arguments
  sideEffectClass := (trustedToolRegistry p.proposal.arguments.toolName).sideEffectClass
  mutationFingerprint := PreparedRecord.get prepared (·.mutationFingerprint)
  preimageSha256 := PreparedRecord.get prepared (·.preimageSha256)
  candidateSha256 := PreparedRecord.get prepared (·.candidateSha256)
  preparedMutation := prepared
  status := .proposed
  policyEffect := .none
  matchedRuleIds := []
  approvalRequestId := .none
  resultMetadata := .none
  failureCode := .none
  started := false
  completed := false

/-- The work of a proposal on its call. -/
def proposedWork (environment : Text) (p : Proposal) (run : AgentRun) (definition : AgentDefinition)
    (value : ToolCall) : Work where
  call := value
  run := run
  definition := definition
  arguments := p.proposal.arguments
  request := policyRequest environment run p.proposal.arguments.toolName value.id

/-- The checks of `execute_proposal` between the row and the policy. -/
def admission (environment : Text) (p : Proposal) (run : AgentRun) (definition : AgentDefinition)
    (value : ToolCall) (prepared : Option PreparedRecord) : Pc :=
  match prepared with
  | .some (.failure code) => .deny value code .none
  | _ =>
    if !p.permittedTools.contains p.proposal.arguments.toolName.value ||
        !definition.permissions.contains (trustedToolRegistry
          p.proposal.arguments.toolName).requiredPermission then
      .deny value "tool_permission_denied".toList .none
    else if value.status = .pendingApproval then
      match p.approvalId with
      | .some approvalId =>
        if value.approvalRequestId = .some approvalId then
          .evaluate (proposedWork environment p run definition value) (.again approvalId)
        else .done (.result (resultOf value .none (.some "approval_not_satisfied".toList)))
      | .none => .done (.result (resultOf value .none (.some "approval_not_satisfied".toList)))
    else .evaluate (proposedWork environment p run definition value) .first

/-- `execute_proposal` on a call that its key finds. -/
def replay (lib : Library) (environment : Text) (p : Proposal) (run : AgentRun)
    (definition : AgentDefinition) (existing : ToolCall) : Pc :=
  if existing.toolId ≠ p.proposal.arguments.toolName ∨
    existing.safeInputMetadata ≠ safeInputMetadata lib p.proposal.arguments then
    .done (.result (resultOf existing .none (.some "tool_call_replay_mismatch".toList)))
  else if existing.status ≠ .pendingApproval then .done (.result (resultOf existing .none .none))
  else admission environment p run definition existing .none

/-- `WorkspaceReplaceTextInput.model_validate` of a prepared mutation. -/
def mutationInput (prepared : PreparedMutation) : Option WorkspaceReplaceTextInput :=
  if h : (1 ≤ prepared.path.length ∧ prepared.path.length ≤ 300) ∧
    relativePathAccepted prepared.path = true ∧
      (1 ≤ prepared.search.length ∧ prepared.search.length ≤ 16384) ∧
        prepared.replacement.length ≤ 16384 ∧
      (textAccepted prepared.search = true ∧ textAccepted prepared.replacement = true) ∧
      1 ≤ prepared.expectedMatches ∧ prepared.expectedMatches ≤ 8 then
    .some ⟨prepared.path, prepared.search, prepared.replacement, prepared.expectedMatches, h.1,
      h.2.1, h.2.2.1, h.2.2.2.1, h.2.2.2.2.1, h.2.2.2.2.2⟩
  else .none

/-- `resume_prepared_mutation` with the call and its run, up to the policy. -/
def resumeChecks (lib : Library) (environment : Text) (s : State) (a : ScopedApproval)
    (value : ToolCall) (run : AgentRun) : Pc :=
  if value.status = .succeeded then
    .done (.result (resultOf value (.some (.mutation (match value.resultMetadata with
      | .some (.applied path _ _) => path
      | _ => []) true)) .none))
  else if value.status ≠ .pendingApproval ∨ run.status ≠ .waitingForApproval then
    .done (.result (resultOf value .none (.some "approval_resume_invalid_state".toList)))
  else if value.toolId ≠ .replaceText then .deny value "unknown_tool_denied".toList .none
  else
    match s.definitions.find? fun definition =>
        definition.id = run.agentDefinitionId && definition.tenantId = a.tenantId &&
          definition.workspaceId = a.workspaceId &&
          definition.version = run.agentVersion with
    | .none => .deny value "tool_permission_denied".toList .none
    | .some definition =>
      if !definition.permissions.contains (trustedToolRegistry value.toolId).requiredPermission then
        .deny value "tool_permission_denied".toList .none
      else if PreparedRecord.get value.preparedMutation (·.mutationFingerprint) ≠
        value.mutationFingerprint ∨
          PreparedRecord.get value.preparedMutation (·.preimageSha256) ≠ value.preimageSha256 ∨
          PreparedRecord.get value.preparedMutation (·.candidateSha256) ≠ value.candidateSha256 then
        .deny value "mutation_fingerprint_mismatch".toList .none
      else
        match value.preparedMutation with
        | .some (.mutation prepared) =>
          match mutationInput prepared with
          | .none => .deny value "prepared_mutation_invalid".toList .none
          | .some input =>
            if safeInputMetadata lib (.replaceText input) ≠ value.safeInputMetadata then
              .deny value "mutation_fingerprint_mismatch".toList .none
            else
              .evaluate ⟨value, run, definition, .replaceText input,
                policyRequest environment run value.toolId value.id⟩
                (.resumed a.approvalId)
        -- A missing key of the record.
        | _ => .deny value "prepared_mutation_invalid".toList .none

/-- What follows on a decision of the policy. -/
def judged (work : Work) (way : Way) (decision : PolicyEvaluationResult) : Pc :=
  if decision.effect = .block then .deny work.call "tool_policy_blocked".toList (.some decision)
  else
    match way with
    | .resumed approvalId =>
      if decision.effect ≠ .requireConfirmation then
        .deny work.call "approval_not_satisfied".toList .none
      else .readApproval work way approvalId decision
    | .again approvalId =>
      if work.arguments.toolName = .replaceText ∧ decision.effect ≠ .requireConfirmation then
        .deny work.call "mutation_confirmation_required".toList (.some decision)
      else .readApproval work way approvalId decision
    | .first =>
      if work.arguments.toolName = .replaceText ∧ decision.effect ≠ .requireConfirmation then
        .deny work.call "mutation_confirmation_required".toList (.some decision)
      else if decision.effect = .requireConfirmation then .createApproval work decision
      else .start work way decision

/-- What follows where `is_approval_satisfied` is false. -/
def unsatisfied (work : Work) : Way → Pc
  | .resumed _ => .deny work.call "approval_not_satisfied".toList .none
  | _ => .done (.result (resultOf work.call .none (.some "approval_not_satisfied".toList)))

/-- `set_state` to RUNNING. -/
def running (decision : PolicyEvaluationResult) : StateChange where
  status := .running
  decision := .some decision
  approvalRequestId := .none
  resultMetadata := .none
  failureCode := .none
  starts := true
  completes := false

/-- `_deny`. -/
def blocked (code : Text) (decision : Option PolicyEvaluationResult) : StateChange where
  status := .blocked
  decision := decision
  approvalRequestId := .none
  resultMetadata := .none
  failureCode := .some code
  starts := false
  completes := true

/-- `set_state` to PENDING_APPROVAL. -/
def suspended (decision : PolicyEvaluationResult) (approvalId : Uuid) : StateChange where
  status := .pendingApproval
  decision := .some decision
  approvalRequestId := .some approvalId
  resultMetadata := .none
  failureCode := .none
  starts := false
  completes := false

/-- The last `set_state` of an execution. A resumption has not committed RUNNING before, so this
carries its decision, too. -/
def ended (work : Work) (way : Way) (decision : PolicyEvaluationResult) (outcome : Outcome) :
    StateChange where
  status := match outcome with
    | .succeeded _ => .succeeded
    | .failed _ => .failed
  decision := match way with
    | .resumed _ => .some decision
    | _ => .none
  approvalRequestId := .none
  resultMetadata := .some (match outcome with
    | .succeeded (.mutation path already) => .applied path already work.call.mutationFingerprint
    | .succeeded .reading => .executed
    | .failed _ => .failed)
  failureCode := match outcome with
    | .succeeded _ => .none
    | .failed code => .some code
  starts := match way with
    | .resumed _ => true
    | _ => false
  completes := true

/-- `apply` of what a call has prepared; the record of a failure lacks the key it reads first. -/
def applyPrepared (lib : Library) (root : Node) (input : WorkspaceReplaceTextInput)
    (prepared : Option PreparedRecord) (diskFails : Bool) :
    Py (Bool × Node) :=
  match prepared with
  | .some (.mutation recorded) => ReplaceTextExecutor.apply lib root input recorded diskFails
  | _ => do
    let parts ← resolve lib root input.path false
    let _ ← orRaise (readFile root parts) (.tool "workspace_read_failed")
    .error (.keyError "candidate_sha256")

/-- The executor of a call: the workspace after it, and where the request goes. -/
def runExecutor (lib : Library) (root : Node) (answer : Answer) (work : Work) (way : Way)
    (decision : PolicyEvaluationResult) : Node × Pc :=
  match work.arguments with
  | .replaceText input =>
    match applyPrepared lib root input work.call.preparedMutation answer.diskFails with
    | .ok (already, root') =>
      (root', .finish work way decision
      (.succeeded (.mutation (relativeText (pureParts input.path)) already)))
    | .error (.tool code) => (root, .finish work way decision (.failed code.toList))
    | .error e => (root, .done (.uncaught e))
  | _ =>
    match answer.reading with
    | .ok () => (root, .finish work way decision (.succeeded .reading))
    | .error code => (root, .finish work way decision (.failed code))

/-- Where a request begins. -/
def GatewayRequest.start : GatewayRequest → Pc
  | .executeProposal proposal => .authorize proposal
  | .resumePreparedMutation approval => .lockCall approval
  | .rejectPreparedMutation approval => .rejectCall approval

/-- The state before the first call. -/
def State.initial (rules : List Policy.PolicyRule) (workspaces projects tasks : List (Uuid × Uuid))
    (runs : List AgentRun) (definitions : List AgentDefinition) (modelRuns : List ModelRun)
    (root : Node) : State where
  policy := { rules := rules, workspaces := workspaces, projects := projects, tasks := tasks, audit := [], approvals := [] }
  calls := []
  runs := runs
  definitions := definitions
  modelRuns := modelRuns
  root := root
  requests := fun _ => .idle

section
variable (lib : Library) (text : TextLibrary) (w : WordClass) (environment : Text)

/-- One step of a request; `none` where an id it is given is taken. -/
def next (s : State) (answer : Answer) : Pc → Option (State × Pc)
  | .idle | .done _ => .none
  | .authorize p =>
    match loadAuthority s p with
    | .error code => .some (s, .done (.applicationError code))
    | .ok (run, definition) => .some (s, .lookUp p run definition)
  | .lookUp p run definition =>
    match s.getByKey p with
    | .some existing => .some (s, replay lib environment p run definition existing)
    | .none => .some (s, .prepare p run definition)
  | .prepare p run definition =>
    match prepareProposal lib s.root p.proposal.arguments with
    | .ok prepared => .some (s, .create p run definition prepared)
    | .error e => .some (s, .done (.uncaught e))
  | .create p run definition prepared =>
    if s.calls.any (·.id = answer.id) then .none
    -- `uq_tool_calls_agent_run_call_key`
    else if s.calls.any (fun call => call.agentRunId = run.id &&
      call.callKey = p.proposal.callKey) then
      .some (s, .done .integrityError)
    else
      let value := newCall lib answer.id p run prepared
      .some ({ s with calls := s.calls ++ [value] },
        admission environment p run definition value prepared)
  | .lockCall a =>
    match s.getForApproval a with
    | .none => .some (s, .done (.applicationError "resource_not_found".toList))
    | .some call => .some (s, .lockRun a call)
  | .lockRun a call =>
    match s.runOf a call with
    | .none => .some (s, .done (.applicationError "resource_not_found".toList))
    | .some run => .some (s, resumeChecks lib environment s a call run)
  | .rejectCall a =>
    match s.getForApproval a with
    | .none => .some (s, .done (.applicationError "resource_not_found".toList))
    | .some call => .some (s, .rejectRun a call)
  | .rejectRun a call =>
    match s.runOf a call with
    | .none => .some (s, .done (.applicationError "resource_not_found".toList))
    | .some _ =>
      if call.status = .pendingApproval then .some (s, .deny call "approval_rejected".toList .none)
      else if call.status ≠ .blocked ∨ call.failureCode ≠ .some "approval_rejected".toList then
        .some (s, .done (.applicationError "approval_resume_invalid_state".toList))
      else .some (s, .done .rejected)
  | .evaluate work way =>
    match Policy.evaluate text w s.policy work.request with
    | (.error e, db) => .some ({ s with policy := db }, .done (.serviceError e))
    | (.ok decision, db) => .some ({ s with policy := db }, judged work way decision)
  | .createApproval work decision =>
    if s.policy.approvals.any (·.id = answer.id) then .none
    else
      match Policy.createApproval text w s.policy answer.id work.request
          work.call.mutationFingerprint with
      | (.error e, db) => .some ({ s with policy := db }, .done (.serviceError e))
      | (.ok approval, db) => .some ({ s with policy := db }, .suspend work decision approval.id)
  | .suspend work decision approvalId =>
    .some (s.setState work.call.id (suspended decision approvalId) fun value =>
      .done (.result (resultOf value .none .none)))
  | .readApproval work way approvalId decision =>
    if approvalGiven s.policy approvalId work.request work.call.mutationFingerprint then
      .some (s, .reevaluate work way approvalId decision)
    else .some (s, unsatisfied work way)
  | .reevaluate work way _ decision =>
    match Policy.evaluate text w s.policy work.request with
    | (.error e, db) => .some ({ s with policy := db }, .done (.serviceError e))
    | (.ok current, db) =>
      if current.effect ≠ .block then .some ({ s with policy := db }, .start work way decision)
      else .some ({ s with policy := db }, unsatisfied work way)
  | .start work way decision =>
    match way with
    | .resumed _ =>
      -- Not committed before the end: only the constraints can tell.
      if (s.call? work.call.id).any fun call => ((running decision).apply call).admitted then
        .some (s, .execute work way decision)
      else .some (s, .done .integrityError)
    | _ => .some (s.setState work.call.id (running decision) fun _ => .execute work way decision)
  | .execute work way decision =>
    let (root, pc) := runExecutor lib s.root answer work way decision
    .some ({ s with root := root }, pc)
  | .finish work way decision outcome =>
    .some (s.setState work.call.id (ended work way decision outcome) fun value =>
      .done (.result (resultOf value outcome.evidence .none)))
  | .deny call code decision =>
    .some (s.setState call.id (blocked code decision) fun value =>
      .done (.result (resultOf value .none .none)))

/-- What happens to the system, one step at a time. -/
inductive Label where
  | begin (i : ℕ) (request : GatewayRequest)
  | step (i : ℕ) (answer : Answer)
  | abort (i : ℕ)
  | decide (tenantId workspaceId approvalId : Uuid) (target : Decision)
  | requestApproval (id : Uuid) (request : ScopedRequest) (fingerprint : Option Text)
  | administer (rules : List Policy.PolicyRule) (workspaces projects tasks : List (Uuid × Uuid))
  | define (definition : AgentDefinition)
  | startRun (run : AgentRun)
  | moveRun (id : Uuid) (status : AgentRunStatus)
  | recordModelRun (modelRun : ModelRun)
  | edit (root : Node)

/-- The step of a label. -/
def step (s : State) : Label → Option State
  | .begin i request =>
    match s.requests i with
    | .idle => .some (s.goto i request.start)
    | _ => .none
  | .step i answer =>
    match next lib text w environment s answer (s.requests i) with
    | .none => .none
    | .some (s', pc) => .some (s'.goto i pc)
  | .abort i => .some (s.goto i .idle)
  | .decide tenantId workspaceId approvalId target =>
    .some { s with policy :=
      (decideApproval text w s.policy tenantId workspaceId approvalId target).2 }
  | .requestApproval id request fingerprint =>
    if s.policy.approvals.any (·.id = id) then .none
    else .some { s with policy := (Policy.createApproval text w s.policy id request fingerprint).2 }
  | .administer rules workspaces projects tasks =>
    .some { s with policy := { s.policy with rules := rules, workspaces := workspaces, projects := projects, tasks := tasks } }
  | .define definition =>
    if s.definitions.any (·.id = definition.id) then .none
      else .some { s with definitions := s.definitions ++ [definition] }
  | .startRun run => if s.runs.any (·.id = run.id) then .none
      else .some { s with runs := s.runs ++ [run] }
  | .moveRun id status => .some { s with runs := s.runs.map fun run => if run.id = id then
      { run with status := status } else run }
  | .recordModelRun modelRun => .some { s with modelRuns := s.modelRuns ++ [modelRun] }
  | .edit root => .some { s with root := root }

/-- Any workspace, agents and rules, before the first call. -/
def system : System State Label where
  Init s := s.calls = [] ∧ s.policy.approvals = [] ∧ ∀ i, s.requests i = .idle
  step := step lib text w environment

end

end Novalton.ToolGateway
