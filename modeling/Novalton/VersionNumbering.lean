/-
Versions of workflow plans and of agent definitions: `create_plan` and `create_version` of
`modules/workflows/service.py`, and `create_definition` and `create_version` of
`modules/agents/service.py`, with their unique constraints (`modules/workflows/models.py`,
`modules/agents/models.py`).

Both services number their rows in one way: the plans of a task and the definitions of a slug
are a series each, and a request takes the number after the latest it reads. Steps, edges and
the audit record are written after the numbered row, in its transaction, so that a request
whose number is taken has nothing of them to leave.
-/
import Novalton.NumberedSeries
import Novalton.PlanRows
import Novalton.PolicyAudit

namespace Novalton.VersionNumbering

open Series WorkflowPlans
open Audit (TextLibrary safeMetadata)
open Contracts (WordClass)
open Policy (AuditRecord)

/-- The columns of a unique constraint but for the version. -/
inductive Scope where
  | task (tenantId workspaceId taskId : Uuid)
  | slug (tenantId workspaceId : Uuid) (slug : Text)
deriving DecidableEq

/-- The other columns of a `WorkflowPlan`. -/
structure PlanColumns where
  projectId : Uuid
  title : Text
  summary : Option Text
  changeReason : Option Text
deriving DecidableEq

inductive AgentDefinitionStatus where
  | enabled | disabled | archived
deriving DecidableEq, Repr

/-- `DefinitionFields`, validated: the other columns of an `AgentDefinition`. -/
structure DefinitionFields where
  name : Text
  status : AgentDefinitionStatus
  category : Option Text
  mission : Text
  capabilities : List Text
  permissions : List Text
deriving DecidableEq

inductive StoredRow where
  | plan (columns : PlanColumns)
  | definition (columns : DefinitionFields)
  | step (row : WorkflowStep)
  | dependency (row : WorkflowStepDependency)
  | audit (record : AuditRecord)

/-! ## Requests -/

/-- A request on the plans of a task. `projectId` is what `_task_scope` answers, `definitions` what
`_validate_assignments` finds, and `id` and `stepIds` are drawn. -/
structure PlanCall where
  tenantId : Uuid
  workspaceId : Uuid
  taskId : Uuid
  projectId : Uuid
  definitions : Uuid → Bool
  id : Uuid
  stepIds : ℕ → Uuid
  data : WorkflowPlanCreate

/-- A request on the definitions of a workspace. -/
structure DefinitionCall where
  tenantId : Uuid
  workspaceId : Uuid
  id : Uuid
  data : DefinitionFields

inductive Call where
  | createPlan (call : PlanCall)
  | createPlanVersion (call : PlanCall) (planId : Uuid) (changeReason : Text)
  | createDefinition (call : DefinitionCall) (slug : Text)
  | createDefinitionVersion (call : DefinitionCall) (definitionId : Uuid)

section
variable (lib : TextLibrary) (w : WordClass)

/-- `append_record`, in the transaction of the request. -/
def appendRecord (record : AuditRecord) : Batch StoredRow :=
  match safeMetadata lib w record.metadata with
  | .ok metadata => .ok [.audit { record with metadata := metadata }]
  | .error _ => .error .invalid

namespace PlanCall
variable (call : PlanCall)

def scope : Scope := .task call.tenantId call.workspaceId call.taskId

def columns (changeReason : Option Text) : PlanColumns :=
  ⟨call.projectId, call.data.title, call.data.summary, changeReason⟩

def auditRecord (auditAction : String) (version : ℕ) : AuditRecord where
  tenantId := call.tenantId
  workspaceId := call.workspaceId
  projectId := .some call.projectId
  taskId := .some call.taskId
  resourceType := .some "task".toList
  resourceId := .some call.taskId
  action := auditAction.toList
  actorType := "service".toList
  outcome := "success".toList
  metadata := .object [("workflow_plan_id".toList, .string call.id.str),
    ("plan_version".toList, .int version)]

/-- The edges of the plan, whose keys `validate_graph` has looked up. -/
def dependencies : Batch StoredRow :=
  match call.data.steps.mapM
      (edgeRows call.id (idsByKey (stepRows call.id call.stepIds 0 call.data.steps))) with
  | .ok edges => .ok (edges.flatten.map .dependency)
  | .error _ => .error .failed

/-- `_create_plan`: the graph, the assignments, and the rows after that of the plan. -/
def batches (auditAction : String) (version : ℕ) : Except Refusal (List (Batch StoredRow)) :=
  match checkedGraph call.data.steps with
  | .error (.graph (.application _)) => .error .invalid
  | .error _ => .error .failed
  | .ok () =>
    if call.data.steps.any fun item => item.agentDefinitionId.any fun definition =>
      !call.definitions definition then .error .notFound
    else
      .ok [
        .ok ((stepRows call.id call.stepIds 0 call.data.steps).map .step),
        call.dependencies,
        appendRecord lib w (call.auditRecord auditAction version)]

end PlanCall

namespace DefinitionCall
variable (call : DefinitionCall)

def auditRecord (action : String) (metadata : List (Text × JsonTree)) : AuditRecord where
  tenantId := call.tenantId
  workspaceId := call.workspaceId
  projectId := .none
  taskId := .none
  resourceType := .none
  resourceId := .none
  action := action.toList
  actorType := "service".toList
  outcome := "success".toList
  metadata := .object metadata

/-- What the metadata of both actions say of the definition. -/
def metadata (slug : Text) (version : ℕ) : List (Text × JsonTree) := [
  ("agent_definition_id".toList, .string call.id.str),
  ("agent_slug".toList, .string slug),
  ("agent_version".toList, .int version)]

end DefinitionCall

/-- The slug of a series of definitions. -/
def Scope.slugText : Scope → Text
  | .slug _ _ text => text
  | .task _ _ _ => []

namespace Call

/-- What a call is on the series. -/
def request : Call → Request Scope Uuid StoredRow
  | .createPlan call => {
      kind := .create call.scope
      id := call.id
      row := .plan (call.columns .none)
      batches := fun _ version => call.batches lib w "workflow.plan.created" version }
  | .createPlanVersion call planId changeReason => {
      kind := .version (fun scope => scope = call.scope) planId
      id := call.id
      row := .plan (call.columns (.some changeReason))
      batches := fun _ version => call.batches lib w "workflow.plan.versioned" version }
  | .createDefinition call slug => {
      kind := .create (.slug call.tenantId call.workspaceId slug)
      id := call.id
      row := .definition call.data
      batches := fun _ version =>
        .ok [appendRecord lib w
          (call.auditRecord "agent.definition.created" (call.metadata slug version))] }
  | .createDefinitionVersion call definitionId => {
      kind := .version (fun scope => scope = .slug call.tenantId call.workspaceId scope.slugText)
        definitionId
      id := call.id
      row := .definition call.data
      batches := fun scope version =>
        .ok [appendRecord lib w (call.auditRecord "agent.definition.versioned"
          (call.metadata scope.slugText version ++
            [("previous_version".toList, .int (version - 1))]))] }

/-- The errors of a number that is taken. -/
def conflictResponse : Call → Refusal → Option ApplicationError
  | .createPlan _, .present => .some
    ⟨"workflow_plan_exists", "Create a new explicit plan version", 409⟩
  | .createPlan _, .conflict =>
    .some ⟨"workflow_plan_conflict", "Workflow plan creation conflicted", 409⟩
  | .createPlanVersion _ _ _, .conflict =>
    .some ⟨"workflow_plan_conflict", "Workflow plan version creation conflicted", 409⟩
  | .createDefinition _ _, .present => .some ⟨"agent_slug_exists", "Agent slug already exists", 409⟩
  | .createDefinition _ _, .conflict =>
    .some ⟨"agent_slug_exists", "Agent slug already exists", 409⟩
  | .createDefinitionVersion _ _, .conflict =>
    .some ⟨"agent_version_conflict", "Agent version creation conflicted", 409⟩
  | _, _ => .none

end Call

/-- The requests of a run are calls of the two services. -/
def served (_ : State Scope Uuid StoredRow) (a : Action Scope Uuid StoredRow) : Prop :=
  ∀ i request, a = .begin i request → ∃ call : Call, request = call.request lib w

/-! ## Conflicts -/

variable {lib : TextLibrary} {w : WordClass}

theorem conflictResponse_of_losesBy {call : Call} {refusal : Refusal}
    (h : (call.request lib w).LosesBy refusal) :
    ∃ error, call.conflictResponse refusal = .some error ∧ error.statusCode = 409 := by
  rcases h with rfl | ⟨rfl, series, hkind⟩
  · cases call with
    | createPlan => exact ⟨_, rfl, rfl⟩
    | createPlanVersion => exact ⟨_, rfl, rfl⟩
    | createDefinition => exact ⟨_, rfl, rfl⟩
    | createDefinitionVersion => exact ⟨_, rfl, rfl⟩
  · cases call with
    | createPlan => exact ⟨_, rfl, rfl⟩
    | createPlanVersion => cases hkind
    | createDefinition => exact ⟨_, rfl, rfl⟩
    | createDefinitionVersion => cases hkind

/-- **Version numbering.** In every state that calls of the two services reach, the versions of each
series are 1 to n; a call that has not returned has left no row; and one whose number is another's
ends with a conflict. -/
theorem versions_gapless {s : State Scope Uuid StoredRow}
    (h : system.ReachableUnder (served lib w) s) :
    (∀ scope, ∃ n, ∀ version, (s.table.committed (scope, version)).isSome ↔ 1 ≤ version ∧
      version ≤ n) ∧
      (∀ i request phase, s.calls i = .some (request, phase) →
        (∀ scope version, phase ≠ .returned scope version) → LeavesNothing s i) ∧
      ∀ i (call : Call), Lost s i (call.request lib w) → ∀ t, system.Run
        (fun s a => served lib w s a ∧ a ≠ .fail i) s t →
        Lost t i (call.request lib w) ∨ ∃ refusal error, t.calls i = .some
          (call.request lib w, .refused refusal) ∧
          call.conflictResponse refusal = .some error ∧ error.statusCode = 409 := by
  refine ⟨numbered h.reachable, fun i request phase hcall hphase =>
    leavesNothing h.reachable hcall hphase, fun i call hlost t hrun => ?_⟩
  have hgoes : system.Run (fun _ a => a ≠ .fail i) s t := hrun.mono fun _ _ hcond => hcond.2
  rcases lost_run h.reachable hlost hgoes with hlost | ⟨refusal, hcall, hloses⟩
  · exact .inl hlost
  · obtain ⟨error, hresponse, hstatus⟩ := conflictResponse_of_losesBy hloses
    exact .inr ⟨refusal, error, hcall, hresponse, hstatus⟩

end

/-- A definition in the workspace 2 of the tenant 1. -/
def plannerCall (id : Uuid) : DefinitionCall :=
  ⟨1, 2, id, ⟨"Planner".toList, .enabled, .none, "Plan".toList, [], []⟩⟩

/-- The call that creates it under the slug "planner". -/
def createPlanner (id : Uuid) : Request Scope Uuid StoredRow :=
  (Call.createDefinition (plannerCall id) "planner".toList).request Policy.asciiLibrary
    Contracts.asciiWord

theorem createPlanner_batches : ∃ rows, (createPlanner 3).batches
    (.slug 1 2 "planner".toList) 1 = .ok [.ok rows] := by
  have hok : (appendRecord Policy.asciiLibrary Contracts.asciiWord
      ((plannerCall 3).auditRecord "agent.definition.created"
          ((plannerCall 3).metadata "planner".toList 1))).isOk = true := by
    decide +kernel
  cases hrows : appendRecord Policy.asciiLibrary Contracts.asciiWord
      ((plannerCall 3).auditRecord "agent.definition.created"
          ((plannerCall 3).metadata "planner".toList 1)) with
  | ok rows =>
    refine ⟨rows, ?_⟩
    rw [← hrows]
    rfl
  | error refusal =>
    rw [hrows] at hok
    cases hok

/-- Two calls race for the first version of a slug: the first has it, and the second leaves nothing.
-/
theorem planner_race : ∃ s : State Scope Uuid StoredRow, Lost s 1 (createPlanner 4) ∧
    (∃ n, ∀ version, (s.table.committed (.slug 1 2 "planner".toList, version)).isSome ↔
      1 ≤ version ∧ version ≤ n) ∧ LeavesNothing s 1 := by
  obtain ⟨rows, hrows⟩ := createPlanner_batches
  obtain ⟨s, hexec, hlost⟩ :=
    @racing_lost _ _ _ _ _ (createPlanner 3) (createPlanner 4) _ rows _ rfl rfl hrows rfl
  have hserved : ∀ a ∈ racing (createPlanner 3) (createPlanner 4), ∀ s,
      served Policy.asciiLibrary Contracts.asciiWord s a := by
    intro a ha s i request hbegin
    rw [hbegin] at ha
    simp only [racing, List.mem_cons, List.not_mem_nil, Action.begin.injEq, reduceCtorEq,
      or_false] at ha
    rcases ha with ⟨-, rfl⟩ | ⟨-, rfl⟩
    · exact ⟨_, rfl⟩
    · exact ⟨_, rfl⟩
  have hreach : system.ReachableUnder (served Policy.asciiLibrary Contracts.asciiWord) s :=
    ⟨_, rfl, System.exec_runUnder hserved hexec⟩
  obtain ⟨hgapless, hleaves, -⟩ := versions_gapless hreach
  refine ⟨s, hlost, hgapless _, ?_⟩
  rcases hlost with ⟨_, _, hcall, _⟩ | ⟨_, _, _, hcall, _⟩
  · exact hleaves 1 _ _ hcall fun _ _ heq => by cases heq
  · exact hleaves 1 _ _ hcall fun _ _ heq => by cases heq

end Novalton.VersionNumbering
