/-
`create_development_workflow` of `modules/workflows/service.py`, with the two services it
composes: `create_plan` and `create_run` each commit on their own before the hand-off of
the manager is written.

The hand-off is the first place where the texts of the request reach the database, and a
task that has a plan takes no second one from `create_plan`.
-/
import Novalton.HandoffDispatch
import Novalton.Session

namespace Novalton.DevelopmentWorkflow

open Prog
open Specializations (DevelopmentWorkflowCreate HandoffType)

/-! ## Rows -/

/-- The scope of a task. -/
structure Scope where
  tenantId : Uuid
  workspaceId : Uuid
  projectId : Uuid
  taskId : Uuid
deriving DecidableEq

structure WorkflowPlan where
  id : Uuid
  scope : Scope
  version : ℕ
  title : Text
  summary : Option Text
deriving DecidableEq

structure WorkflowStep where
  id : Uuid
  workflowPlanId : Uuid
  stepKey : Text
  title : Text
  assignedCapability : Text
  agentDefinitionId : Uuid
  position : ℕ
deriving DecidableEq

structure WorkflowStepDependency where
  workflowPlanId : Uuid
  workflowStepId : Uuid
  dependsOnStepId : Uuid
deriving DecidableEq

structure WorkflowRun where
  id : Uuid
  scope : Scope
  workflowPlanId : Uuid
  planVersion : ℕ
  status : WorkflowRunStatus
deriving DecidableEq

structure WorkflowStepRun where
  id : Uuid
  workflowRunId : Uuid
  workflowPlanId : Uuid
  workflowStepId : Uuid
  status : WorkflowStepRunStatus
deriving DecidableEq

structure WorkflowStepHandoff where
  id : Uuid
  workflowRunId : Uuid
  workflowPlanId : Uuid
  sourceStepRunId : Option Uuid
  destinationStepRunId : Uuid
  handoffType : HandoffType
  objective : Text
  acceptanceCriteria : List Text
  evidenceItems : List Text
deriving DecidableEq

/-- The tables. The steps of a plan stand in the order of their positions. -/
structure Store where
  plans : List WorkflowPlan
  steps : List WorkflowStep
  dependencies : List WorkflowStepDependency
  runs : List WorkflowRun
  stepRuns : List WorkflowStepRun
  handoffs : List WorkflowStepHandoff

/-- `latest_plan` finds one. -/
def Store.hasPlan (store : Store) (scope : Scope) : Bool :=
  store.plans.any fun plan =>
    plan.scope.tenantId = scope.tenantId && plan.scope.workspaceId = scope.workspaceId &&
      plan.scope.taskId = scope.taskId

/-- `ordered_step_runs`. -/
def Store.orderedStepRuns (store : Store) (runId : Uuid) : List (WorkflowStepRun × WorkflowStep) :=
  store.steps.flatMap fun step =>
    (store.stepRuns.filter fun stepRun => stepRun.workflowRunId = runId &&
      stepRun.workflowStepId = step.id).map (·, step)

/-- What the columns and constraints of a hand-off take: no NUL, and the lengths and counts of the
texts. -/
def WorkflowStepHandoff.storable (handoff : WorkflowStepHandoff) : Bool :=
  !handoff.objective.contains '\x00' && 1 ≤ handoff.objective.length &&
    handoff.objective.length ≤ 2000 &&
    1 ≤ handoff.acceptanceCriteria.length && handoff.acceptanceCriteria.length ≤ 24 &&
      handoff.evidenceItems.length ≤ 64 &&
      handoff.acceptanceCriteria.all fun text => !text.contains '\x00' && text.length ≤ 1000

/-! ## The fixed graph -/

structure WorkflowStepCreate where
  stepKey : Text
  title : Text
  assignedCapability : Text
  agentDefinitionId : Uuid
  dependsOn : List Text

/-- The ids of the trusted definitions. -/
structure Definitions where
  manager : Uuid
  developer : Uuid
  qa : Uuid

def managerPlan : Text := "manager_plan".toList

def developerExecute : Text := "developer_execute".toList

def qaValidate : Text := "qa_validate".toList

/-- The steps of the plan. -/
def Definitions.steps (definitions : Definitions) : List WorkflowStepCreate :=
  [⟨managerPlan, "Plan development assignment".toList, "implementation_planning".toList,
    definitions.manager, []⟩, ⟨developerExecute, "Execute development assignment".toList,
      "software_implementation".toList, definitions.developer,
      [managerPlan]⟩,
    ⟨qaValidate, "Validate development result".toList, "acceptance_validation".toList,
      definitions.qa, [developerExecute]⟩]

/-- The ids the rows of a request get. -/
structure Ids where
  plan : Uuid
  step : Text → Uuid
  run : Uuid
  stepRun : Uuid → Uuid
  handoff : Uuid

/-- The step rows of a plan. -/
def stepRows (ids : Ids) (steps : List WorkflowStepCreate) : List WorkflowStep :=
  steps.mapIdx fun position step =>
    ⟨ids.step step.stepKey, ids.plan, step.stepKey, step.title, step.assignedCapability,
      step.agentDefinitionId, position⟩

/-- Its dependency rows. -/
def dependencyRows (ids : Ids) (steps : List WorkflowStepCreate) : List WorkflowStepDependency :=
  steps.flatMap fun step => step.dependsOn.map fun dependency =>
    ⟨ids.plan, ids.step step.stepKey, ids.step dependency⟩

/-! ## The services -/

/-- How the awaits of `create_plan` end. -/
structure PlanAwaits where
  scope : Outcome
  latest : Outcome
  assignments : Outcome
  flushPlan : Outcome
  flushSteps : Outcome
  audit : Outcome
  commit : Outcome
  refresh : Outcome

/-- How those of `create_run` end. -/
structure RunAwaits where
  plan : Outcome
  graph : Outcome
  flush : Outcome
  commit : Outcome
  refresh : Outcome

/-- How those of `create_development_workflow` end. -/
structure Awaits where
  plan : PlanAwaits
  run : RunAwaits
  ordered : Outcome
  handoff : Outcome
  commit : Outcome

/-- The `try` of `create_plan`: `_create_plan`. -/
def planBody (o : PlanAwaits) (ids : Ids) (scope : Scope) (steps : List WorkflowStepCreate) :
    Prog Store WorkflowPlan := do
  await o.assignments
  let plan : WorkflowPlan := ⟨ids.plan, scope, 1, "Development workflow".toList,
    .some "Fixed governed Manager to Developer Worker to QA Worker workflow".toList⟩
  write fun store => { store with plans := store.plans ++ [plan] }
  await o.flushPlan
  write fun store => { store with steps := store.steps ++ stepRows ids steps }
  await o.flushSteps
  write fun store => { store with dependencies := store.dependencies ++ dependencyRows ids steps }
  await o.audit
  commit o.commit
  await o.refresh
  pure plan

/-- `except IntegrityError`, here `other`. -/
def onIntegrityError : Exn → Option (Prog Store WorkflowPlan)
  | .other => .some (rollbackRaise (.application "workflow_plan_conflict".toList))
  | _ => .none

/-- `create_plan`. -/
def createPlan (o : PlanAwaits) (ids : Ids) (scope : Scope) (steps : List WorkflowStepCreate) :
    Prog Store WorkflowPlan := do
  await o.scope
  await o.latest
  let store ← read
  if store.hasPlan scope then raise (.application "workflow_plan_exists".toList)
  else tryReturn (planBody o ids scope steps) onIntegrityError pure

/-- The step runs of a run: READY without dependencies, else PENDING. -/
def stepRunRows (ids : Ids) (planId : Uuid) (steps : List WorkflowStep)
    (dependencies : List WorkflowStepDependency) :
    List WorkflowStepRun :=
  steps.map fun step =>
    ⟨ids.stepRun step.id, ids.run, planId, step.id,
      if (dependencies.map WorkflowStepDependency.workflowStepId).contains step.id then .pending
        else .ready⟩

/-- The rows of a run of a plan with these steps and dependencies, and their commit. -/
def storeRun (o : RunAwaits) (ids : Ids) (plan : WorkflowPlan) (steps : List WorkflowStep)
    (dependencies : List WorkflowStepDependency) : Prog Store WorkflowRun := do
  write fun store =>
    { store with runs := store.runs ++ [⟨ids.run, plan.scope, plan.id, plan.version, .created⟩] }
  await o.flush
  write fun store =>
    { store with stepRuns := store.stepRuns ++ stepRunRows ids plan.id steps dependencies }
  commit o.commit
  await o.refresh
  pure ⟨ids.run, plan.scope, plan.id, plan.version, .created⟩

/-- `create_run`. The graph of a stored plan was validated when it was created. -/
def createRun (o : RunAwaits) (ids : Ids) (planId : Uuid) : Prog Store WorkflowRun := do
  await o.plan
  let store ← read
  match store.plans.find? (·.id = planId) with
  | .none => raise (.application "resource_not_found".toList)
  | .some plan => do
    await o.graph
    if (store.steps.filter (·.workflowPlanId = planId)).isEmpty then
      raise (.application "invalid_workflow_graph".toList)
    else
      storeRun o ids plan (store.steps.filter (·.workflowPlanId = planId))
        (store.dependencies.filter (·.workflowPlanId = planId))

/-- The hand-off of the first step run, after the two services. -/
def addHandoff (o : Awaits) (ids : Ids) (data : DevelopmentWorkflowCreate) (plan : WorkflowPlan)
    (run : WorkflowRun) :
    Prog Store (WorkflowPlan × WorkflowRun) := do
  await o.ordered
  let store ← read
  match store.orderedStepRuns run.id with
  | [] => raise .other
  | (managerStepRun, _) :: _ => do
    let handoff : WorkflowStepHandoff :=
      ⟨ids.handoff, run.id, plan.id, .none, managerStepRun.id, .developmentRequest, data.objective,
        data.acceptanceCriteria, []⟩
    write fun store => { store with handoffs := store.handoffs ++ [handoff] }
    -- the flush: the database takes the row, or rejects it
    if handoff.storable then do
      await o.handoff
      commit o.commit
      pure (plan, run)
    else raise .other

/-- `create_development_workflow`: `trusted` is what the scope, the three definitions and their
check end in. -/
def createDevelopmentWorkflow (o : Awaits) (trusted : Except Exn Definitions) (ids : Ids)
    (scope : Scope) (data : DevelopmentWorkflowCreate) :
    Prog Store (WorkflowPlan × WorkflowRun) := do
  let definitions ← ofExcept trusted
  let plan ← createPlan o.plan ids scope definitions.steps
  let run ← createRun o.run ids plan.id
  addHandoff o ids data plan run

/-! ## What a request stores -/

/-- A row of the request is stored: its plan, its run, a step run or a hand-off. -/
def Store.Holds (ids : Ids) (store : Store) : Prop :=
  (∃ plan ∈ store.plans, plan.id = ids.plan) ∨ (∃ run ∈ store.runs, run.id = ids.run) ∨
    (∃ stepRun ∈ store.stepRuns, stepRun.workflowRunId = ids.run) ∨ ∃ handoff ∈ store.handoffs,
      handoff.workflowRunId = ids.run

/-- The manager's step run of the request is READY and has its hand-off. -/
def Store.ManagerReady (ids : Ids) (store : Store) : Prop :=
  ∃ stepRun ∈ store.stepRuns, stepRun.workflowRunId = ids.run ∧
    stepRun.workflowStepId = ids.step managerPlan ∧
    stepRun.status = .ready ∧ ∃ handoff ∈ store.handoffs, handoff.workflowRunId = ids.run ∧
      handoff.destinationStepRunId = stepRun.id ∧ handoff.handoffType = .developmentRequest

/-- The ids are new, and those of the steps distinct. -/
structure Fresh (ids : Ids) (store : Store) : Prop where
  plan : ∀ plan ∈ store.plans, plan.id ≠ ids.plan
  planOfStep : ∀ step ∈ store.steps, step.workflowPlanId ≠ ids.plan
  step : ∀ step ∈ store.steps, ∀ key, step.id ≠ ids.step key
  dependency : ∀ dependency ∈ store.dependencies, dependency.workflowPlanId ≠ ids.plan
  run : ∀ run ∈ store.runs, run.id ≠ ids.run
  stepRun : ∀ stepRun ∈ store.stepRuns, stepRun.workflowRunId ≠ ids.run
  handoff : ∀ handoff ∈ store.handoffs, handoff.workflowRunId ≠ ids.run
  distinct : ids.step developerExecute ≠ ids.step managerPlan ∧
    ids.step qaValidate ≠ ids.step managerPlan

variable {ids : Ids} {store : Store} {scope : Scope} {definitions : Definitions}
  {data : DevelopmentWorkflowCreate}

theorem Fresh.not_holds (h : Fresh ids store) : ¬ store.Holds ids := by
  intro hholds
  obtain ⟨plan, hmem, hid⟩ | ⟨run, hmem, hid⟩ | ⟨stepRun, hmem, hid⟩ | ⟨handoff, hmem, hid⟩ :=
    hholds
  · exact h.plan plan hmem hid
  · exact h.run run hmem hid
  · exact h.stepRun stepRun hmem hid
  · exact h.handoff handoff hmem hid

/-- Nothing the programs write removes a row. -/
theorem Store.Holds.grow {store' : Store} (h : store.Holds ids)
    (hplans : store.plans ⊆ store'.plans) (hruns : store.runs ⊆ store'.runs)
    (hstepRuns : store.stepRuns ⊆ store'.stepRuns) (hhandoffs : store.handoffs ⊆ store'.handoffs) :
    store'.Holds ids := by
  obtain ⟨plan, hmem, hid⟩ | ⟨run, hmem, hid⟩ | ⟨stepRun, hmem, hid⟩ | ⟨handoff, hmem, hid⟩ := h
  · exact .inl ⟨plan, hplans hmem, hid⟩
  · exact .inr (.inl ⟨run, hruns hmem, hid⟩)
  · exact .inr (.inr (.inl ⟨stepRun, hstepRuns hmem, hid⟩))
  · exact .inr (.inr (.inr ⟨handoff, hhandoffs hmem, hid⟩))

theorem storeRun_leaves {o : RunAwaits} {plan : WorkflowPlan} {steps : List WorkflowStep}
    {dependencies : List WorkflowStepDependency} : Leaves (Store.Holds ids)
    (storeRun o ids plan steps dependencies) := by
  refine Leaves.bind (Leaves.write ?_) fun _ => (Leaves.await _).bind fun _ =>
      Leaves.bind (Leaves.write ?_) fun _ =>
    (Leaves.commit _).bind fun _ => (Leaves.await _).bind fun _ => .pure _
  · intro store h
    exact h.grow (List.Subset.refl _) (List.subset_append_left _ _) (List.Subset.refl _)
      (List.Subset.refl _)
  · intro store h
    exact h.grow (List.Subset.refl _) (List.Subset.refl _) (List.subset_append_left _ _)
      (List.Subset.refl _)

theorem createRun_leaves {o : RunAwaits} {planId : Uuid} : Leaves (Store.Holds ids)
    (createRun o ids planId) := by
  refine (Leaves.await _).bind fun _ => Leaves.read.bind fun _ => ?_
  split
  next => exact .raise _
  next =>
    refine (Leaves.await _).bind fun _ => ?_
    split
    next => exact .raise _
    next => exact storeRun_leaves

theorem addHandoff_leaves {o : Awaits} {plan : WorkflowPlan} {run : WorkflowRun} :
    Leaves (Store.Holds ids) (addHandoff o ids data plan run) := by
  refine (Leaves.await _).bind fun _ => Leaves.read.bind fun _ => ?_
  split
  next => exact .raise _
  next =>
    refine Leaves.bind (Leaves.write ?_) fun _ => ?_
    · intro store h
      exact h.grow (List.Subset.refl _) (List.Subset.refl _) (List.Subset.refl _)
        (List.subset_append_left _ _)
    · split
      next => exact (Leaves.await _).bind fun _ => (Leaves.commit _).bind fun _ => .pure _
      next => exact .raise _

/-! ## The stores a request passes through -/

/-- The plan row. -/
def planRow (ids : Ids) (scope : Scope) : WorkflowPlan :=
  ⟨ids.plan, scope, 1, "Development workflow".toList,
    .some "Fixed governed Manager to Developer Worker to QA Worker workflow".toList⟩

/-- Once the plan is stored. -/
def Store.planned (store : Store) (ids : Ids) (scope : Scope) (steps : List WorkflowStepCreate) :
    Store :=
  { store with
    plans := store.plans ++ [planRow ids scope]
    steps := store.steps ++ stepRows ids steps
    dependencies := store.dependencies ++ dependencyRows ids steps }

/-- The run row. -/
def runRow (ids : Ids) (scope : Scope) : WorkflowRun := ⟨ids.run, scope, ids.plan, 1, .created⟩

/-- Once the run is stored. -/
def Store.started (store : Store) (ids : Ids) (scope : Scope) (steps : List WorkflowStepCreate) :
    Store :=
  { store.planned ids scope steps with
    runs := store.runs ++ [runRow ids scope]
    stepRuns := store.stepRuns ++
      stepRunRows ids ids.plan (stepRows ids steps) (dependencyRows ids steps) }

/-- Once the hand-off of the manager is stored. -/
def Store.handed (store : Store) (ids : Ids) (scope : Scope) (steps : List WorkflowStepCreate)
    (data : DevelopmentWorkflowCreate) : Store :=
  { store.started ids scope steps with
    handoffs := store.handoffs ++
      [⟨ids.handoff, ids.run, ids.plan, .none, ids.stepRun (ids.step managerPlan),
      .developmentRequest,
      data.objective, data.acceptanceCriteria, []⟩] }

theorem planned_holds (steps : List WorkflowStepCreate) :
    (store.planned ids scope steps).Holds ids :=
  .inl ⟨planRow ids scope, List.mem_append_right _ (List.mem_singleton.mpr rfl), rfl⟩

theorem filter_append_fresh {α : Type} {p : α → Bool} {old new : List α}
    (hold : ∀ a ∈ old, p a = false) (hnew : ∀ a ∈ new, p a = true) :
    (old ++ new).filter p = new := by
  rw [List.filter_append,
    List.filter_eq_nil_iff.mpr (fun a ha => by rw [hold a ha]; exact Bool.false_ne_true),
      List.filter_eq_self.mpr hnew, List.nil_append]

theorem planned_steps (h : Fresh ids store) :
    (store.planned ids scope definitions.steps).steps.filter
    (·.workflowPlanId = ids.plan) = stepRows ids definitions.steps := by
  refine filter_append_fresh (fun step hstep => ?_) fun step hstep => ?_
  · exact decide_eq_false (h.planOfStep step hstep)
  · obtain ⟨i, hi, rfl⟩ := List.mem_mapIdx.mp hstep
    exact decide_eq_true rfl

theorem planned_dependencies (h : Fresh ids store) :
    (store.planned ids scope definitions.steps).dependencies.filter (·.workflowPlanId = ids.plan) =
      dependencyRows ids definitions.steps := by
  refine filter_append_fresh (fun dependency hdependency => ?_) fun dependency hdependency => ?_
  · exact decide_eq_false (h.dependency dependency hdependency)
  · obtain ⟨step, -, hdependency⟩ := List.mem_flatMap.mp hdependency
    obtain ⟨key, -, rfl⟩ := List.mem_map.mp hdependency
    exact decide_eq_true rfl

theorem planned_plan (h : Fresh ids store) (steps : List WorkflowStepCreate) :
    (store.planned ids scope steps).plans.find? (·.id = ids.plan) = .some (planRow ids scope) := by
  have hold : store.plans.find? (·.id = ids.plan) = .none := by
    rw [List.find?_eq_none]
    intro plan hplan
    simpa using h.plan plan hplan
  show (store.plans ++ [planRow ids scope]).find? _ = _
  rw [List.find?_append, hold]
  simp [planRow]

/-- The first of the ordered step runs is the manager's, and it is READY. -/
theorem started_ordered (scope : Scope) (definitions : Definitions) (h : Fresh ids store) :
    ∃ rest, (store.started ids scope definitions.steps).orderedStepRuns ids.run =
      (⟨ids.stepRun (ids.step managerPlan), ids.run, ids.plan, ids.step managerPlan, .ready⟩,
        ⟨ids.step managerPlan, ids.plan, managerPlan, "Plan development assignment".toList,
          "implementation_planning".toList, definitions.manager, 0⟩) :: rest := by
  have hrows : (store.started ids scope definitions.steps).stepRuns =
      store.stepRuns ++ stepRunRows ids ids.plan (stepRows ids definitions.steps)
        (dependencyRows ids definitions.steps) := rfl
  have hfilter : ∀ stepId,
      ((store.started ids scope definitions.steps).stepRuns.filter fun stepRun =>
      stepRun.workflowRunId = ids.run && stepRun.workflowStepId = stepId) =
        (stepRunRows ids ids.plan (stepRows ids definitions.steps)
            (dependencyRows ids definitions.steps)).filter fun stepRun =>
          stepRun.workflowRunId = ids.run && stepRun.workflowStepId = stepId := by
    intro stepId
    rw [hrows, List.filter_append, List.filter_eq_nil_iff.mpr, List.nil_append]
    intro stepRun hstepRun
    simp [h.stepRun stepRun hstepRun]
  have hold : ∀ step ∈ store.steps,
      ((store.started ids scope definitions.steps).stepRuns.filter fun stepRun =>
      stepRun.workflowRunId = ids.run && stepRun.workflowStepId = step.id) = [] := by
    intro step hstep
    rw [hfilter, List.filter_eq_nil_iff]
    have hfresh := h.step step hstep
    simp [stepRunRows, stepRows, Definitions.steps, List.mapIdx_cons, Ne.symm (hfresh _)]
  have hsteps : (store.started ids scope definitions.steps).steps = store.steps ++
    stepRows ids definitions.steps := rfl
  have hnil : store.steps.flatMap (fun step =>
      ((store.started ids scope definitions.steps).stepRuns.filter fun stepRun =>
      stepRun.workflowRunId = ids.run && stepRun.workflowStepId = step.id).map (·, step)) = [] := by
    rw [List.flatMap_eq_nil_iff]
    intro step hstep
    rw [hold step hstep]
    rfl
  rw [Store.orderedStepRuns, hsteps, List.flatMap_append, hnil, List.nil_append]
  simp only [hfilter]
  have hdistinct := h.distinct
  simp [stepRunRows, stepRows, dependencyRows, Definitions.steps, List.mapIdx_cons, hdistinct.1,
    hdistinct.2, Ne.symm hdistinct.1, Ne.symm hdistinct.2]

/-! ## When a request returns -/

/-- No text of the request has a NUL. -/
def NulFree (data : DevelopmentWorkflowCreate) : Prop :=
  '\x00' ∉ data.objective ∧ ∀ text ∈ data.acceptanceCriteria, '\x00' ∉ text

/-- A validated request is rejected by the database for a NUL, or not at all. -/
theorem storable_iff {w : Contracts.WordClass} {raw : DevelopmentWorkflowCreate}
    (h : raw.validate w = .ok data) (id runId planId destination : Uuid) :
    (⟨id, runId, planId, .none, destination, .developmentRequest, data.objective,
      data.acceptanceCriteria, []⟩ :
      WorkflowStepHandoff).storable = true ↔ NulFree data := by
  have hvalid := Specializations.DevelopmentWorkflowCreate_validate_ok h
  obtain ⟨hlow, hhigh⟩ := hvalid.objective
  obtain ⟨hleast, hmost⟩ := hvalid.count
  have hlength : data.objective.length ≤ 2000 := by omega
  simp only [WorkflowStepHandoff.storable, NulFree, hlow, hlength, hleast, hmost, decide_true,
    Bool.and_true, Bool.and_eq_true, Bool.not_eq_true', List.contains_eq_mem,
      decide_eq_false_iff_not, List.length_nil, Nat.zero_le, List.all_eq_true, decide_eq_true_eq]
  refine and_congr_right fun _ =>
    ⟨fun hall text htext => (hall text htext).1, fun hall text htext => ?_⟩
  exact ⟨hall text htext, (hvalid.lengths text htext).2⟩

/-- The plan is committed: none was there, and its awaits return up to the commit, which takes
effect. -/
def PlanAwaits.Stores (o : PlanAwaits) (store : Store) (scope : Scope) : Prop :=
  o.scope = .ok ∧ o.latest = .ok ∧ store.hasPlan scope = false ∧ o.assignments = .ok ∧
    o.flushPlan = .ok ∧ o.flushSteps = .ok ∧
    o.audit = .ok ∧ o.commit.commits = true

def RunAwaits.Quiet (o : RunAwaits) : Prop :=
  o.plan = .ok ∧ o.graph = .ok ∧ o.flush = .ok ∧ o.commit = .ok ∧ o.refresh = .ok

/-- Nothing fails from the commit of the plan on. -/
def Awaits.Completes (o : Awaits) (data : DevelopmentWorkflowCreate) : Prop :=
  o.plan.commit = .ok ∧ o.plan.refresh = .ok ∧ o.run.Quiet ∧ o.ordered = .ok ∧ NulFree data ∧
    o.handoff = .ok ∧ o.commit = .ok

theorem stepRows_ne_nil : (stepRows ids definitions.steps).isEmpty = false := rfl

/-- `create_run` of the plan the request has stored. -/
theorem createRun_returns_iff {β : Type} {o : RunAwaits} (h : Fresh ids store)
    {g : WorkflowRun → Prog Store β} :
    Returns ((createRun o ids ids.plan >>= g) ⟨store.planned ids scope definitions.steps,
      store.planned ids scope definitions.steps⟩) ↔
      o.Quiet ∧ Returns
        (g (runRow ids scope) ⟨store.started ids scope definitions.steps,
        store.started ids scope definitions.steps⟩) := by
  rw [createRun]
  simp only [bind_assoc]
  rw [await_returns_iff, read_bind]
  simp only [planned_plan h, bind_assoc, planned_steps h, planned_dependencies h, stepRows_ne_nil]
  rw [await_returns_iff]
  simp only [Bool.false_eq_true, if_false, storeRun, bind_assoc]
  rw [write_bind, await_returns_iff, write_bind, commit_returns_iff, await_returns_iff, pure_bind]
  simp only [RunAwaits.Quiet, and_assoc]
  rfl

/-- The hand-off of a run the request has started. -/
theorem addHandoff_returns_iff {o : Awaits} (h : Fresh ids store) {w : Contracts.WordClass}
    {raw : DevelopmentWorkflowCreate} (hdata : raw.validate w = .ok data) :
    Returns (addHandoff o ids data (planRow ids scope) (runRow ids scope)
      ⟨store.started ids scope definitions.steps, store.started ids scope definitions.steps⟩) ↔
      o.ordered = .ok ∧ NulFree data ∧ o.handoff = .ok ∧ o.commit = .ok := by
  obtain ⟨rest, hordered⟩ := started_ordered scope definitions h
  have hrun : (runRow ids scope).id = ids.run := rfl
  rw [addHandoff, await_returns_iff, read_bind]
  simp only [hrun, hordered]
  rw [write_bind]
  have hstorable := storable_iff hdata ids.handoff ids.run (planRow ids scope).id
    (ids.stepRun (ids.step managerPlan))
  by_cases hnul : NulFree data
  · rw [if_pos (hstorable.mpr hnul), await_returns_iff, commit_returns_iff]
    simp only [hnul, true_and]
    refine and_congr_right fun _ => and_congr_right fun _ => and_iff_left ?_
    exact ⟨_, rfl⟩
  · rw [if_neg fun h => hnul (hstorable.mp h)]
    simp [Returns, hnul]

theorem onIntegrityError_reraises : Reraises onIntegrityError := by
  intro e p h s
  cases e with
  | other =>
    cases h
    exact ⟨_, _, rfl, rfl, .inr rfl⟩
  | application | provider | providerCancelled | taskCancelled => cases h

/-- What follows the stored plan. -/
theorem planned_returns_iff (scope : Scope) (definitions : Definitions) (h : Fresh ids store)
    {w : Contracts.WordClass} {raw : DevelopmentWorkflowCreate} (hdata : raw.validate w = .ok data)
    (o : Awaits) :
    Returns ((await o.plan.refresh >>= fun _ => createRun o.run ids ids.plan >>= fun run =>
      addHandoff o ids data (planRow ids scope) run)
      ⟨store.planned ids scope definitions.steps, store.planned ids scope definitions.steps⟩) ↔
      o.plan.refresh = .ok ∧ o.run.Quiet ∧ o.ordered = .ok ∧ NulFree data ∧ o.handoff = .ok ∧
        o.commit = .ok := by
  rw [await_returns_iff, createRun_returns_iff h, addHandoff_returns_iff h hdata]

/-- **When a request is clean**, for what the stored plan makes true: the plan is not committed, or
nothing fails from there on. -/
theorem create_clean_iff {Q : Store → Prop} (hQ : ∀ d, Store.Holds ids d → Q d) (hnot : ¬ Q store)
    (h : Fresh ids store) {w : Contracts.WordClass} {raw : DevelopmentWorkflowCreate}
    (hdata : raw.validate w = .ok data) (o : Awaits) :
    Clean Q (createDevelopmentWorkflow o (.ok definitions) ids scope data ⟨store, store⟩) ↔
      (o.plan.Stores store scope → o.Completes data) := by
  have hrun : createDevelopmentWorkflow o (.ok definitions) ids scope data ⟨store, store⟩ =
      (createPlan o.plan ids scope definitions.steps >>= fun plan => createRun o.run ids plan.id >>=
          fun run =>
        addHandoff o ids data plan run) ⟨store, store⟩ := rfl
  have hleaves :
    Leaves (Store.Holds ids) (await o.plan.refresh >>= fun _ => createRun o.run ids ids.plan >>=
      fun run => addHandoff o ids data (planRow ids scope) run) :=
    (Leaves.await _).bind fun _ => createRun_leaves.bind fun _ => addHandoff_leaves
  have hcommit := commit_clean_iff (s := ⟨store, store.planned ids scope definitions.steps⟩) (o :=
    o.plan.commit)
    (f := fun _ => await o.plan.refresh >>= fun _ => createRun o.run ids ids.plan >>=
      fun run => addHandoff o ids data (planRow ids scope) run) hQ hnot (planned_holds _) hleaves
  have htail := planned_returns_iff scope definitions h hdata o
  rw [hrun, createPlan]
  simp only [bind_assoc]
  rw [await_clean_mk hnot, await_clean_mk hnot, read_bind]
  cases hplan : store.hasPlan scope with
  | true =>
    simp only [if_true]
    exact iff_of_true (fun _ _ => clean_of_uncommitted hnot) fun hstores => by
      simp [PlanAwaits.Stores, hplan] at hstores
  | false =>
    simp only [Bool.false_eq_true, if_false]
    rw [try_clean_iff onIntegrityError_reraises, planBody]
    simp only [bind_assoc]
    rw [await_clean_mk hnot, write_bind, await_clean_mk hnot, write_bind, await_clean_mk hnot,
      write_bind, await_clean_mk hnot]
    have hbody := hcommit.trans (forall_congr' fun _ => and_congr_right fun _ => htail)
    constructor
    · intro hclean hstores
      obtain ⟨hscope, hlatest, -, hassignments, hflush, hsteps, haudit, hcommits⟩ := hstores
      exact hbody.mp (hclean hscope hlatest hassignments hflush hsteps haudit) hcommits
    · intro hcompletes hscope hlatest hassignments hflush hsteps haudit
      refine hbody.mpr fun hcommits => ?_
      exact hcompletes ⟨hscope, hlatest, hplan, hassignments, hflush, hsteps, haudit, hcommits⟩

/-! ## All or nothing -/

/-- Every await returns. -/
def quiet : Awaits :=
  ⟨⟨.ok, .ok, .ok, .ok, .ok, .ok, .ok, .ok⟩, ⟨.ok, .ok, .ok, .ok, .ok⟩, .ok, .ok, .ok⟩

/-- A request that returns met no failure. -/
theorem quiet_of_returns (h : Fresh ids store) {w : Contracts.WordClass}
    {raw : DevelopmentWorkflowCreate} (hdata : raw.validate w = .ok data) {o : Awaits}
    (hreturns : Returns
      (createDevelopmentWorkflow o (.ok definitions) ids scope data ⟨store, store⟩)) :
    o = quiet ∧ store.hasPlan scope = false ∧ NulFree data := by
  have hrun : createDevelopmentWorkflow o (.ok definitions) ids scope data ⟨store, store⟩ =
      (createPlan o.plan ids scope definitions.steps >>= fun plan => createRun o.run ids plan.id >>=
          fun run =>
        addHandoff o ids data plan run) ⟨store, store⟩ := rfl
  rw [hrun, createPlan] at hreturns
  simp only [bind_assoc] at hreturns
  rw [await_returns_iff, await_returns_iff, read_bind] at hreturns
  obtain ⟨hscope, hlatest, hreturns⟩ := hreturns
  cases hplan : store.hasPlan scope with
  | true =>
    simp only [hplan, if_true] at hreturns
    simp [Returns] at hreturns
  | false =>
    simp only [hplan, Bool.false_eq_true, if_false] at hreturns
    rw [try_returns_iff onIntegrityError_reraises, planBody] at hreturns
    simp only [bind_assoc] at hreturns
    rw [await_returns_iff, write_bind, await_returns_iff, write_bind, await_returns_iff, write_bind,
      await_returns_iff, commit_returns_iff] at hreturns
    obtain ⟨hassignments, hflush, hsteps, haudit, hcommit, hreturns⟩ := hreturns
    have htail := (planned_returns_iff scope definitions h hdata o).mp hreturns
    obtain ⟨hrefresh, ⟨hget, hgraph, hinsert, hstored, hreloaded⟩, hordered, hnul, hhandoff,
      hlast⟩ := htail
    refine ⟨?_, rfl, hnul⟩
    obtain ⟨⟨_, _, _, _, _, _, _, _⟩, ⟨_, _, _, _, _⟩, _, _, _⟩ := o
    simp only at *
    subst_vars
    rfl

/-- The tables after a request that returns. -/
theorem create_ok (h : Fresh ids store) {w : Contracts.WordClass} {raw : DevelopmentWorkflowCreate}
    (hdata : raw.validate w = .ok data) (hplan : store.hasPlan scope = false)
    (hnul : NulFree data) :
    createDevelopmentWorkflow quiet (.ok definitions) ids scope data ⟨store, store⟩ =
      (.ok (planRow ids scope, runRow ids scope),
        ⟨store.handed ids scope definitions.steps data,
          store.handed ids scope definitions.steps data⟩) := by
  have hcreated : createPlan quiet.plan ids scope definitions.steps ⟨store, store⟩ =
      (.ok (planRow ids scope), ⟨store.planned ids scope definitions.steps,
          store.planned ids scope definitions.steps⟩) := by
    have hchecked : createPlan quiet.plan ids scope definitions.steps ⟨store, store⟩ =
        (if store.hasPlan scope then raise (.application "workflow_plan_exists".toList)
          else tryReturn (planBody quiet.plan ids scope definitions.steps) onIntegrityError pure :
            Prog Store WorkflowPlan) ⟨store, store⟩ := rfl
    rw [hchecked, hplan]
    rfl
  have hstarted : createRun quiet.run ids ids.plan ⟨store.planned ids scope definitions.steps,
    store.planned ids scope definitions.steps⟩ =
      (.ok (runRow ids scope), ⟨store.started ids scope definitions.steps,
          store.started ids scope definitions.steps⟩) := by
    have hget : quiet.run.plan = .ok := rfl
    rw [createRun, hget, bind_ok (await_ok _), read_bind]
    simp only [planned_plan h, planned_steps h, planned_dependencies h, stepRows_ne_nil]
    rfl
  obtain ⟨rest, hordered⟩ := started_ordered scope definitions h
  have hrun : (runRow ids scope).id = ids.run := rfl
  have hhanded : addHandoff quiet ids data (planRow ids scope) (runRow ids scope)
      ⟨store.started ids scope definitions.steps, store.started ids scope definitions.steps⟩ =
      (.ok (planRow ids scope, runRow ids scope),
        ⟨store.handed ids scope definitions.steps data,
            store.handed ids scope definitions.steps data⟩) := by
    have hread : quiet.ordered = .ok := rfl
    rw [addHandoff, hread, bind_ok (await_ok _), read_bind]
    simp only [hrun, hordered]
    rw [write_bind, if_pos ((storable_iff hdata _ _ _ _).mpr hnul)]
    rfl
  have hall : createDevelopmentWorkflow quiet (.ok definitions) ids scope data ⟨store, store⟩ =
      (createPlan quiet.plan ids scope definitions.steps >>=
          fun plan => createRun quiet.run ids plan.id >>= fun run =>
        addHandoff quiet ids data plan run) ⟨store, store⟩ := rfl
  rw [hall, bind_ok hcreated]
  exact (bind_ok hstarted).trans hhanded

/-- What a request is to leave. A failed one leaves none of its rows, and the same request can
be repeated as if it had not been made; one that returns leaves a manager's step that can run. -/
structure AllOrNothing (o : Awaits) (trusted : Except Exn Definitions) (ids : Ids) (scope : Scope)
    (data : DevelopmentWorkflowCreate) (store : Store) : Prop where
  nothing : Clean (Store.Holds ids)
    (createDevelopmentWorkflow o trusted ids scope data ⟨store, store⟩)
  repeatable : ∀ e stored, createDevelopmentWorkflow o trusted ids scope data ⟨store, store⟩ =
    (.error e, stored) →
    ∀ o' trusted' ids',
      Returns (createDevelopmentWorkflow o' trusted' ids' scope data ⟨store, store⟩) →
      Returns (createDevelopmentWorkflow o' trusted' ids' scope data ⟨stored.committed,
        stored.committed⟩)
  ready : ∀ created stored, createDevelopmentWorkflow o trusted ids scope data ⟨store, store⟩ =
    (.ok created, stored) →
    stored.committed.ManagerReady ids

/-- **When creating a development workflow is all or nothing**: exactly when its plan is not
committed, or nothing fails from that commit on. -/
theorem development_workflow_iff (w : Contracts.WordClass) (raw data : DevelopmentWorkflowCreate)
    (hdata : raw.validate w = .ok data) (o : Awaits) (trusted : Except Exn Definitions) (ids : Ids)
    (scope : Scope) (store : Store) (h : Fresh ids store) :
    AllOrNothing o trusted ids scope data store ↔
      ∀ definitions, trusted = .ok definitions → o.plan.Stores store scope → o.Completes data := by
  constructor
  · intro hall definitions htrusted
    have hnothing := hall.nothing
    rw [htrusted] at hnothing
    exact (create_clean_iff (fun _ hd => hd) h.not_holds h hdata o).mp hnothing
  · intro hcompletes
    have hsame : Clean (· ≠ store)
        (createDevelopmentWorkflow o trusted ids scope data ⟨store, store⟩) := by
      cases trusted with
      | error e => exact clean_of_uncommitted fun hne => hne rfl
      | ok definitions =>
        refine (create_clean_iff ?_ (fun hne => hne rfl) h hdata o).mpr (hcompletes definitions rfl)
        intro d hd hstore
        rw [hstore] at hd
        exact h.not_holds hd
    refine ⟨fun he => ?_, fun e stored hrun o' trusted' ids' hreturns => ?_,
      fun created stored hrun => ?_⟩
    · rw [not_not.mp (hsame he)]
      exact h.not_holds
    · rw [hrun] at hsame
      rw [not_not.mp (hsame ⟨e, rfl⟩)]
      exact hreturns
    · cases trusted with
      | error e => cases hrun
      | ok definitions =>
        obtain ⟨hquiet, hplan, hnul⟩ := quiet_of_returns h hdata ⟨created, by rw [hrun]⟩
        rw [hquiet, create_ok h hdata hplan hnul] at hrun
        cases hrun
        refine ⟨⟨ids.stepRun (ids.step managerPlan), ids.run, ids.plan, ids.step managerPlan,
          .ready⟩, ?_, rfl, rfl, rfl, _, List.mem_append_right _ (List.mem_singleton.mpr rfl), rfl,
            rfl, rfl⟩
        refine List.mem_append_right _ ?_
        simp [stepRunRows, stepRows, dependencyRows, Definitions.steps, List.mapIdx_cons,
          Ne.symm h.distinct.1, Ne.symm h.distinct.2]

/-! ## Inputs -/

/-- A request with a NUL in its criterion. -/
def nulRequest : DevelopmentWorkflowCreate := ⟨"Fix it".toList, [['\x00']]⟩

def exampleIds : Ids :=
  ⟨1, fun key => BitVec.ofNat 128 (100 + key.length), 2, fun id => id + 1000, 3⟩

theorem exampleIds_fresh : Fresh exampleIds ⟨[], [], [], [], [], []⟩ := by
  refine ⟨?_, ?_, ?_, ?_, ?_, ?_, ?_, by decide⟩ <;> simp

/-- The database rejects a NUL in the hand-off: the request raises, and its plan and run stay
behind. -/
theorem development_workflow_half_created :
    ¬ ∀ (w : Contracts.WordClass) (raw data : DevelopmentWorkflowCreate) (o : Awaits)
    (trusted : Except Exn Definitions) (ids : Ids) (scope : Scope) (store : Store),
    raw.validate w = .ok data → Fresh ids store →
      AllOrNothing o trusted ids scope data store := by
  intro hall
  have hnothing :=
    (hall Contracts.asciiWord nulRequest nulRequest quiet (.ok ⟨7, 8, 9⟩) exampleIds ⟨1, 2, 3, 4⟩
    ⟨[], [], [], [], [], []⟩
    (by decide) exampleIds_fresh).nothing
  have hvalid : nulRequest.validate Contracts.asciiWord = .ok nulRequest := by decide
  have hcompletes :=
    (create_clean_iff (fun _ hd => hd) exampleIds_fresh.not_holds exampleIds_fresh hvalid quiet).mp
    hnothing
    ⟨rfl, rfl, rfl, rfl, rfl, rfl, rfl, rfl⟩
  have hnul : NulFree nulRequest := hcompletes.2.2.2.2.1
  exact hnul.2 ['\x00'] (List.mem_singleton.mpr rfl) (List.mem_singleton.mpr rfl)

theorem development_workflow_example :
    AllOrNothing quiet (.ok ⟨7, 8, 9⟩) exampleIds ⟨1, 2, 3, 4⟩
      ⟨"Fix it".toList, ["It works".toList]⟩ ⟨[], [], [], [], [], []⟩ :=
  (development_workflow_iff Contracts.asciiWord ⟨"Fix it".toList, ["It works".toList]⟩
    ⟨"Fix it".toList, ["It works".toList]⟩ (by decide)
    quiet (.ok ⟨7, 8, 9⟩) exampleIds ⟨1, 2, 3, 4⟩ ⟨[], [], [], [], [], []⟩ exampleIds_fresh).mpr
    fun _ _ _ => ⟨rfl, rfl, ⟨rfl, rfl, rfl, rfl, rfl⟩, rfl, ⟨by decide, by decide⟩, rfl, rfl⟩

end Novalton.DevelopmentWorkflow
