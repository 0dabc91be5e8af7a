/-
The hand-offs of a development workflow: what `DevelopmentWorkflowCreate` admits
(`modules/workflows/schemas.py`), what `persist_next_handoff` stores for the next step of
the fixed graph, and the request `dispatch` builds from a stored hand-off
(`modules/orchestrator/specializations.py`).
-/
import Novalton.RoleContracts
import Novalton.Session

namespace Novalton.Specializations
open Contracts

/-- `DevelopmentWorkflowCreate`. -/
structure DevelopmentWorkflowCreate where
  objective : Text
  acceptanceCriteria : List Text
deriving DecidableEq, Repr

def DevelopmentWorkflowCreate.validate (w : WordClass) (data : DevelopmentWorkflowCreate) :
    Py DevelopmentWorkflowCreate := do
  let objective ← boundedText 1 1500 data.objective
  raiseIf ((UNSAFE_TEXT w).search objective) .valueError
  countBetween 1 24 data.acceptanceCriteria
  let acceptanceCriteria ← data.acceptanceCriteria.mapM (boundedText 1 1000)
  distinct acceptanceCriteria
  raiseIf (acceptanceCriteria.any fun value => (UNSAFE_TEXT w).search value) .valueError
  return { objective := objective, acceptanceCriteria := acceptanceCriteria }

inductive HandoffType where
  | developmentRequest | managerAssignment | workerEvidence
deriving DecidableEq, Repr

/-- A `WorkflowStepHandoff`, with the fields `dispatch` reads. -/
structure WorkflowStepHandoff where
  id : Uuid
  workflowPlanId : Uuid
  handoffType : HandoffType
  objective : Text
  acceptanceCriteria : List Text
  evidenceItems : List Text
deriving DecidableEq, Repr

/-- A `WorkflowRun`, with the fields `dispatch` reads. -/
structure WorkflowRun where
  projectId : Uuid
  taskId : Uuid
  workflowPlanId : Uuid
deriving DecidableEq, Repr

/-- The hand-off `create_development_workflow` stores for the manager. -/
def developmentRequest (run : WorkflowRun) (id : Uuid) (data : DevelopmentWorkflowCreate) :
    WorkflowStepHandoff where
  id := id
  workflowPlanId := run.workflowPlanId
  handoffType := .developmentRequest
  objective := data.objective
  acceptanceCriteria := data.acceptanceCriteria
  evidenceItems := []

/-- `_input_handoff`. -/
def inputHandoff (run : WorkflowRun) (stored : Option WorkflowStepHandoff)
    (expected : HandoffType) :
    Except Exn WorkflowStepHandoff :=
  match stored with
  | .some handoff =>
    if handoff.workflowPlanId = run.workflowPlanId ∧ handoff.handoffType = expected then .ok handoff
    else .error (.application "workflow_handoff_invalid".toList)
  | .none => .error (.application "workflow_handoff_invalid".toList)

/-! ## persist_next_handoff -/

/-- The result of a specialized step. -/
inductive SpecializedResult where
  | manager (result : DeveloperManagerResult)
  | developer (result : DeveloperWorkerResult)
  | qa (result : QAWorkerResult)
deriving DecidableEq, Repr

/-- The evidence lines of a proposed task. -/
def assignmentEvidence (proposal : ProposedWorkerTask) : List Text :=
  ["task:".toList ++ proposal.taskKey, "output:".toList ++ proposal.expectedOutput] ++
    proposal.requiredCapabilities.map ("capability:".toList ++ ·)

/-- The evidence lines of an implementation result. -/
def workerEvidence (result : DeveloperWorkerResult) : List Text :=
  result.acceptanceChecks.map (fun item => "acceptance:".toList ++
    (item.criterionId ++ (":".toList ++ item.status.value))) ++
    result.changes.map fun item => "change:".toList ++
      (item.kind.value ++ (":".toList ++ item.path))

/-- `persist_next_handoff` in the fixed graph, where `stored` is the step's own hand-off
and `id` the new one's. -/
def persistNextHandoff (run : WorkflowRun) (id : Uuid) (stored : Option WorkflowStepHandoff) :
    SpecializedResult → Except Exn (Option WorkflowStepHandoff)
  | .manager result => do
    let current ← inputHandoff run stored .developmentRequest
    match result.proposedTasks with
    | [proposal] =>
      if proposal.dependsOn.isEmpty then
        return .some { current with
          id := id
          handoffType := .managerAssignment
          evidenceItems := (assignmentEvidence proposal).take 29 }
      else .error (.application "manager_plan_incompatible".toList)
    | _ => .error (.application "manager_plan_incompatible".toList)
  | .developer result => do
    let current ← inputHandoff run stored .managerAssignment
    return .some { current with
      id := id
      handoffType := .workerEvidence
      evidenceItems := (workerEvidence result).take 29 }
  | .qa _ => return .none

/-! ## dispatch -/

/-- `_DEVELOPMENT_WORKFLOW_DEVELOPER_TOOLS`. -/
def DEVELOPMENT_WORKFLOW_DEVELOPER_TOOLS : List Text :=
  ["workspace.read_file", "workspace.replace_text"].map String.toList

/-- `DEVELOPER_WORKER_TOOLS`. -/
def DEVELOPER_WORKER_TOOLS : List Text :=
  ["workspace.list_files", "workspace.read_file", "workspace.search_text",
    "workspace.replace_text"].map String.toList

/-- `_development_workflow_tools`, where `workspaceRoot` says that one is configured. -/
def developmentWorkflowTools (workspaceRoot : Bool) : List Text :=
  if workspaceRoot then DEVELOPMENT_WORKFLOW_DEVELOPER_TOOLS else []

/-- The `assigned_capability` of a role's step in the fixed graph. -/
def assignedCapability : SpecializationRole → Text
  | .developerManager => "implementation_planning".toList
  | .developerWorker => "software_implementation".toList
  | .qaWorker => "acceptance_validation".toList

/-- The `expected_output_type` of a role's request. -/
def expectedOutputType : SpecializationRole → Text
  | .developerManager => "development.plan_proposal".toList
  | .developerWorker => "development.implementation_result".toList
  | .qaWorker => "quality.qa_assessment".toList

/-- The tools a role's request may permit. -/
def maxTools : SpecializationRole → ℕ
  | .developerWorker => 4
  | _ => 0

def permittedTools (workspaceRoot : Bool) : SpecializationRole → List Text
  | .developerWorker => developmentWorkflowTools workspaceRoot
  | _ => []

/-- How a piece of evidence stands among the constraints. -/
def metadataLine (item : Text) : Text := "Trusted handoff metadata: ".toList ++ item

/-- The constraints of the request. -/
def constraintLines (tools evidence : List Text) : List Text :=
  ["Requested actions are proposals only".toList,
    (if tools.isEmpty then "Do not use tools or execute external actions"
      else "Use only the explicitly permitted read-only workspace tools").toList,
    "Remain within the fixed persisted workflow step".toList] ++ evidence.map metadataLine

/-- The `common` fields of the request. -/
def common (workspaceRoot : Bool) (run : WorkflowRun) (role : SpecializationRole)
    (handoff : WorkflowStepHandoff) : AgentInput where
  objective := handoff.objective
  constraints := constraintLines (permittedTools workspaceRoot role) handoff.evidenceItems
  projectId := .some run.projectId.str
  taskId := .some run.taskId.str
  priorResultReferences := [handoff.id.str]
  expectedOutputType := expectedOutputType role
  permittedTools := permittedTools workspaceRoot role
  requiredCapabilities := [assignedCapability role]

/-- `f"{index:02d}"`. -/
def twoDigits (index : ℕ) : Text := (if index < 10 then ['0'] else []) ++ (toString index).toList

/-- The criteria of the request to quality assurance, numbered from one. -/
def requestedCriteria (criteria : List Text) : List ValidationCriterion :=
  criteria.zipIdx.map fun entry => {
    criterionId := "criterion_".toList ++ twoDigits (entry.2 + 1)
    description := entry.1 }

/-- A validated request: an `AgentInput`, for quality assurance with its criteria. -/
structure RoleRequest where
  input : AgentInput
  acceptanceCriteria : List ValidationCriterion
deriving DecidableEq, Repr

/-- Only the request to quality assurance has criteria. -/
def roleCriteria (w : WordClass) (values : List ValidationCriterion) : SpecializationRole →
    Py (List ValidationCriterion)
  | .qaWorker => validateCriteria w values
  | _ => .ok []

/-- The validation of `DeveloperManagerPlanningRequest`, `DeveloperWorkerExecutionRequest`
or `QAWorkerValidationRequest`. -/
def RoleRequest.validate (w : WordClass) (role : SpecializationRole) (data : RoleRequest) :
    Py RoleRequest := do
  let input ← validateInput w (maxTools role) data.input
  let acceptanceCriteria ← roleCriteria w data.acceptanceCriteria role
  raiseIf (input.expectedOutputType != expectedOutputType role) .valueError
  raiseIf (input.permittedTools.any fun tool => !DEVELOPER_WORKER_TOOLS.contains tool) .valueError
  return { input := input, acceptanceCriteria := acceptanceCriteria }

/-- The request `dispatch` builds for a role from its hand-off. -/
def dispatchRequest (w : WordClass) (workspaceRoot : Bool) (run : WorkflowRun)
    (role : SpecializationRole) (handoff : WorkflowStepHandoff) : Py RoleRequest :=
  RoleRequest.validate w role {
    input := common workspaceRoot run role handoff
    acceptanceCriteria := requestedCriteria handoff.acceptanceCriteria }

end Novalton.Specializations
