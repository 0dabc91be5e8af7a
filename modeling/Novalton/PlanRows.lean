/-
The rows of a workflow plan: what `_create_plan` stores of a definition, and what `create_run`
rebuilds from the rows and validates again (`modules/workflows/schemas.py`,
`modules/workflows/service.py`, `modules/workflows/repository.py`).

The graph of a definition is one of keys; its rows are one of ids, with the position of each
step. What is rebuilt is the definition, up to the order of the prerequisites of a step, and
the validators, which have seen it before, let it pass.
-/
import Novalton.PlanProposals

namespace Novalton

def Workflow.WorkflowStepType.value : Workflow.WorkflowStepType → Text
  | .agentTask => "AGENT_TASK".toList
  | .manualReview => "MANUAL_REVIEW".toList
  | .system => "SYSTEM".toList

namespace WorkflowPlans

open Workflow Contracts
open Policy (RiskLevel)

/-! ## Schemas -/

section
variable (upper : Text → Text)

/-- `WorkflowStepType(value.upper())` -/
def parseStepType (value : Text) : Py WorkflowStepType :=
  orRaise ([.agentTask, .manualReview, .system].find? fun stepType => stepType.value == upper value)
    .valueError

/-- `RiskLevel(value.upper())` -/
def parseRiskLevel (value : Text) : Py RiskLevel :=
  orRaise ([.low, .medium, .high, .critical].find? fun riskLevel => riskLevel.value == upper value)
    .valueError

/-- The values a step is made of. -/
structure StepInput where
  stepKey : Text
  title : Text
  stepType : Text
  assignedCapability : Option Text
  agentDefinitionId : Option Uuid
  riskLevel : Option Text
  dependsOn : List Text

/-- A text of `StepKey`, which is also that of a `Capability`. -/
def stepKeyItem (value : Text) : Py Text := do
  raiseIf (!TASK_KEY.fullmatch value) .valueError
  return value

/-- A validator on a value that may be missing. -/
def optional {α β : Type} (validate : α → Py β) : Option α → Py (Option β)
  | .none => .ok .none
  | .some value => do
    let value ← validate value
    return .some value

def StepInput.validate (data : StepInput) : Py WorkflowStepCreate := do
  let stepKey ← stepKeyItem data.stepKey
  let title ← boundedText 1 200 data.title
  let stepType ← parseStepType upper data.stepType
  let assignedCapability ← optional stepKeyItem data.assignedCapability
  let riskLevel ← optional (parseRiskLevel upper) data.riskLevel
  countBetween 0 MAX_PLAN_STEPS data.dependsOn
  let dependsOn ← data.dependsOn.mapM stepKeyItem
  distinct dependsOn
  return {
    stepKey := stepKey
    title := title
    stepType := stepType
    assignedCapability := assignedCapability
    agentDefinitionId := data.agentDefinitionId
    riskLevel := riskLevel
    dependsOn := dependsOn }

structure PlanInput where
  title : Text
  summary : Option Text
  steps : List StepInput

structure WorkflowPlanCreate where
  title : Text
  summary : Option Text
  steps : List WorkflowStepCreate
deriving DecidableEq

def PlanInput.validate (data : PlanInput) : Py WorkflowPlanCreate := do
  let title ← boundedText 1 200 data.title
  let summary ← optional (boundedText 1 2000) data.summary
  countBetween 1 MAX_PLAN_STEPS data.steps
  let steps ← data.steps.mapM (StepInput.validate upper)
  graphBounds steps
  return { title := title, summary := summary, steps := steps }

end

/-! ## Rows -/

structure WorkflowPlan where
  id : Uuid
  tenantId : Uuid
  workspaceId : Uuid
  projectId : Uuid
  taskId : Uuid
  version : ℕ
  title : Text
  summary : Option Text
  changeReason : Option Text
deriving DecidableEq

structure WorkflowStep where
  id : Uuid
  workflowPlanId : Uuid
  stepKey : Text
  title : Text
  stepType : Text
  assignedCapability : Option Text
  agentDefinitionId : Option Uuid
  position : ℕ
  riskLevel : Option Text
deriving DecidableEq

structure WorkflowStepDependency where
  workflowPlanId : Uuid
  workflowStepId : Uuid
  dependsOnStepId : Uuid
deriving DecidableEq

structure PlanTables where
  definitions : List Uuid
  plans : List WorkflowPlan
  steps : List WorkflowStep
  dependencies : List WorkflowStepDependency

/-- The keys and the unique constraints of the tables, and the references between them. -/
structure PlanTables.Constraints (tables : PlanTables) : Prop where
  plan : (tables.plans.map (·.id)).Nodup
  version : (tables.plans.map fun plan =>
    (plan.tenantId, plan.workspaceId, plan.taskId, plan.version)).Nodup
  step : (tables.steps.map (·.id)).Nodup
  key : (tables.steps.map fun step => (step.workflowPlanId, step.stepKey)).Nodup
  position : (tables.steps.map fun step => (step.workflowPlanId, step.position)).Nodup
  owner : ∀ step ∈ tables.steps, step.workflowPlanId ∈ tables.plans.map (·.id)
  dependency : tables.dependencies.Nodup
  irreflexive : ∀ edge ∈ tables.dependencies, edge.workflowStepId ≠ edge.dependsOnStepId
  dependent : ∀ edge ∈ tables.dependencies, (edge.workflowStepId, edge.workflowPlanId) ∈
    tables.steps.map fun step => (step.id, step.workflowPlanId)
  prerequisite : ∀ edge ∈ tables.dependencies, (edge.dependsOnStepId, edge.workflowPlanId) ∈
    tables.steps.map fun step => (step.id, step.workflowPlanId)

instance (tables : PlanTables) : Decidable tables.Constraints :=
  decidable_of_iff
    ((tables.plans.map (·.id)).Nodup ∧
      (tables.plans.map fun plan =>
        (plan.tenantId, plan.workspaceId, plan.taskId, plan.version)).Nodup ∧
      (tables.steps.map (·.id)).Nodup ∧
        (tables.steps.map fun step => (step.workflowPlanId, step.stepKey)).Nodup ∧
      (tables.steps.map fun step => (step.workflowPlanId, step.position)).Nodup ∧
      (∀ step ∈ tables.steps, step.workflowPlanId ∈ tables.plans.map (·.id)) ∧
        tables.dependencies.Nodup ∧
      (∀ edge ∈ tables.dependencies, edge.workflowStepId ≠ edge.dependsOnStepId) ∧
      (∀ edge ∈ tables.dependencies, (edge.workflowStepId, edge.workflowPlanId) ∈
        tables.steps.map fun step => (step.id, step.workflowPlanId)) ∧
      ∀ edge ∈ tables.dependencies, (edge.dependsOnStepId, edge.workflowPlanId) ∈
        tables.steps.map fun step => (step.id, step.workflowPlanId))
    ⟨fun ⟨plan, version, step, key, position, owner, dependency, irreflexive, dependent,
        prerequisite⟩ =>
        ⟨plan, version, step, key, position, owner, dependency, irreflexive, dependent,
          prerequisite⟩,
      fun h => ⟨h.plan, h.version, h.step, h.key, h.position, h.owner, h.dependency, h.irreflexive,
        h.dependent, h.prerequisite⟩⟩

/-- Tables as the database holds them. -/
structure PlanStore extends PlanTables where
  constraints : toPlanTables.Constraints

/-- What ends a request on a plan. -/
inductive PlanError where
  | graph (error : GraphError)
  | unending
  | notFound
  | raised (error : PyError)
  | integrity
deriving DecidableEq, Repr

/-- An answer of `validate_graph`. -/
def checkedGraph (steps : List WorkflowStepCreate) : Except PlanError Unit :=
  match validateGraph steps with
  | .ok (.some _) => .ok ()
  | .ok .none => .error .unending
  | .error error => .error (.graph error)

/-- A call that no handler is around. -/
def uncaught {α : Type} : Py α → Except PlanError α
  | .ok value => .ok value
  | .error error => .error (.raised error)

/-! ## `_create_plan` -/

/-- The row of a step, with the id that is drawn for its position. -/
def stepRow (planId : Uuid) (ids : ℕ → Uuid) (position : ℕ) (item : WorkflowStepCreate) :
    WorkflowStep where
  id := ids position
  workflowPlanId := planId
  stepKey := item.stepKey
  title := item.title
  stepType := item.stepType.value
  assignedCapability := item.assignedCapability
  agentDefinitionId := item.agentDefinitionId
  position := position
  riskLevel := item.riskLevel.map (·.value)

/-- `for position, item in enumerate(steps)`. -/
def stepRows (planId : Uuid) (ids : ℕ → Uuid) : ℕ → List WorkflowStepCreate → List WorkflowStep
  | _, [] => []
  | position, item :: items =>
    stepRow planId ids position item :: stepRows planId ids (position + 1) items

/-- `by_key`, as the ids of the rows. -/
def idsByKey (rows : List WorkflowStep) : Dict Text Uuid :=
  rows.foldl (fun byKey row => byKey.set row.stepKey row.id) []

/-- The edges of one step. -/
def edgeRows (planId : Uuid) (byKey : Dict Text Uuid) (item : WorkflowStepCreate) :
    Py (List WorkflowStepDependency) :=
  (sorted item.dependsOn).mapM fun dependencyKey => do
    let stepId ← PlanProposals.item byKey item.stepKey
    let dependsOnId ← PlanProposals.item byKey dependencyKey
    return ⟨planId, stepId, dependsOnId⟩

/-- `_create_plan`: `plan` is the row of the plan but for the definition's own columns. -/
def PlanStore.createPlan (store : PlanStore) (plan : WorkflowPlan) (ids : ℕ → Uuid)
    (data : WorkflowPlanCreate) : Except PlanError PlanStore := do
  checkedGraph data.steps
  if data.steps.any fun item => item.agentDefinitionId.any fun definition =>
    !store.definitions.contains definition then .error .notFound
  else
    let rows := stepRows plan.id ids 0 data.steps
    let edges ← uncaught (data.steps.mapM (edgeRows plan.id (idsByKey rows)))
    let tables : PlanTables :=
      { definitions := store.definitions
        plans := store.plans ++ [{ plan with title := data.title, summary := data.summary }]
        steps := store.steps ++ rows
        dependencies := store.dependencies ++ edges.flatten }
    if constraints : tables.Constraints then .ok ⟨tables, constraints⟩ else .error .integrity

/-! ## `create_run` -/

/-- The order of `steps_for_plan`. -/
def WorkflowStep.before (a b : WorkflowStep) : Prop :=
  a.position < b.position ∨ (a.position = b.position ∧ a.id.toNat ≤ b.id.toNat)

instance : DecidableRel WorkflowStep.before := fun _ _ => inferInstanceAs (Decidable (_ ∨ _))

/-- `steps_for_plan`. -/
def PlanStore.stepsForPlan (store : PlanStore) (planId : Uuid) : List WorkflowStep :=
  (store.steps.filter fun step => step.workflowPlanId = planId).insertionSort WorkflowStep.before

/-- The order of `dependencies_for_plan`. -/
def WorkflowStepDependency.before (a b : WorkflowStepDependency) : Prop :=
  a.workflowStepId.toNat < b.workflowStepId.toNat ∨
    (a.workflowStepId = b.workflowStepId ∧ a.dependsOnStepId.toNat ≤ b.dependsOnStepId.toNat)

instance : DecidableRel WorkflowStepDependency.before := fun _ _ => inferInstanceAs
    (Decidable (_ ∨ _))

/-- `dependencies_for_plan`. -/
def PlanStore.dependenciesForPlan (store : PlanStore) (planId : Uuid) :
    List WorkflowStepDependency :=
  (store.dependencies.filter fun edge => edge.workflowPlanId = planId).insertionSort
    WorkflowStepDependency.before

/-- `{step.id: step.step_key for step in steps}` -/
def keysById (steps : List WorkflowStep) : Dict Uuid Text :=
  steps.foldl (fun keys step => keys.set step.id step.stepKey) []

/-- The values of a step that are read off its row and its edges. -/
def stepInput (keys : Dict Uuid Text) (dependencies : List WorkflowStepDependency)
    (step : WorkflowStep) : Py StepInput := do
  let dependsOn ← (dependencies.filter fun edge => edge.workflowStepId = step.id).mapM fun edge =>
    PlanProposals.item keys edge.dependsOnStepId
  return {
    stepKey := step.stepKey
    title := step.title
    stepType := step.stepType
    assignedCapability := step.assignedCapability
    agentDefinitionId := step.agentDefinitionId
    riskLevel := step.riskLevel
    dependsOn := dependsOn }

structure WorkflowStepRun where
  workflowStepId : Uuid
  status : WorkflowStepRunStatus
deriving DecidableEq

section
variable (upper : Text → Text)

/-- The plan that is rebuilt from its rows. -/
def PlanStore.rebuild (store : PlanStore) (plan : WorkflowPlan) :
    Except PlanError WorkflowPlanCreate := do
  let steps := store.stepsForPlan plan.id
  let dependencies := store.dependenciesForPlan plan.id
  if steps.isEmpty then
    .error (.graph (invalidGraph "Workflow plan must contain at least one step"))
  else
    let inputs ← uncaught (steps.mapM (stepInput (keysById steps) dependencies))
    uncaught (PlanInput.validate upper ⟨plan.title, plan.summary, inputs⟩)

/-- `get_plan` in a scope. -/
def PlanStore.getPlan (store : PlanStore) (tenantId workspaceId planId : Uuid) :
    Except PlanError WorkflowPlan :=
  match store.plans.find? fun plan => plan.tenantId = tenantId && plan.workspaceId = workspaceId &&
      plan.id = planId with
  | .some plan => .ok plan
  | .none => .error .notFound

/-- `create_run`: the step runs it stores. -/
def PlanStore.createRun (store : PlanStore) (tenantId workspaceId planId : Uuid) :
    Except PlanError (List WorkflowStepRun) := do
  let plan ← store.getPlan tenantId workspaceId planId
  let spec ← store.rebuild upper plan
  checkedGraph spec.steps
  let dependentIds := (store.dependenciesForPlan plan.id).map (·.workflowStepId)
  return (store.stepsForPlan plan.id).map fun step =>
    ⟨step.id, if step.id ∈ dependentIds then .pending else .ready⟩

end

/-! ## What is validated again -/

/-- `str.upper` leaves what is in capitals already. -/
def KeepsCapitals (upper : Text → Text) : Prop :=
  ∀ text : Text, (text.all fun c => ('A' ≤ c && c ≤ 'Z') || c == '_') = true → upper text = text

section
variable {upper : Text → Text}

theorem parseStepType_value (hupper : KeepsCapitals upper) (stepType : WorkflowStepType) :
    parseStepType upper stepType.value = .ok stepType := by
  have hsame : upper stepType.value = stepType.value := hupper _ (by cases stepType <;> decide)
  rw [parseStepType, hsame]
  cases stepType with
  | agentTask => decide
  | manualReview => decide
  | system => decide

theorem parseRiskLevel_value (hupper : KeepsCapitals upper) (riskLevel : RiskLevel) :
    parseRiskLevel upper riskLevel.value = .ok riskLevel := by
  have hsame : upper riskLevel.value = riskLevel.value := hupper _ (by cases riskLevel <;> decide)
  rw [parseRiskLevel, hsame]
  cases riskLevel with
  | low => decide
  | medium => decide
  | high => decide
  | critical => decide

theorem boundedText_again {least most : ℕ} {value text : Text}
    (h : boundedText least most value = .ok text) :
    boundedText least most text = .ok text := by
  simp only [boundedText, Py.bind_eq_ok] at h
  obtain ⟨u, hlength, heq⟩ := h
  cases heq
  have htight : trim (trim value) = trim value := (stripped_tight value).stripped_eq
  rw [boundedText, htight, hlength]
  rfl

theorem stepKeyItem_again {value text : Text} (h : stepKeyItem value = .ok text) :
    stepKeyItem text = .ok text := by
  simp only [stepKeyItem, Py.bind_eq_ok, raiseIf_eq_ok] at h
  obtain ⟨-, hfull, heq⟩ := h
  cases heq
  rw [stepKeyItem, hfull]
  rfl

theorem optional_again {α β : Type} {validate : α → Py β} {given : β → α}
    (hagain : ∀ {value kept}, validate value = .ok kept → validate (given kept) = .ok kept)
    {value : Option α} {kept : Option β} (h : optional validate value = .ok kept) :
    optional validate (kept.map given) = .ok kept := by
  cases value with
  | none =>
    cases h
    rfl
  | some value =>
    rw [optional, Py.bind_eq_ok] at h
    obtain ⟨text, htext, heq⟩ := h
    cases heq
    rw [Option.map_some, optional, hagain htext]
    rfl

/-- The values of a step, as its row has them, with prerequisites in any order. -/
def WorkflowStepCreate.input (item : WorkflowStepCreate) (dependsOn : List Text) : StepInput where
  stepKey := item.stepKey
  title := item.title
  stepType := item.stepType.value
  assignedCapability := item.assignedCapability
  agentDefinitionId := item.agentDefinitionId
  riskLevel := item.riskLevel.map (·.value)
  dependsOn := dependsOn

theorem step_again (hupper : KeepsCapitals upper) {data : StepInput} {item : WorkflowStepCreate}
    (h : data.validate upper = .ok item) {dependsOn : List Text}
    (hperm : dependsOn.Perm item.dependsOn) :
    (item.input dependsOn).validate upper = .ok { item with dependsOn := dependsOn } ∧
    item.dependsOn.Nodup := by
  simp only [StepInput.validate, Py.bind_eq_ok, countBetween_ok] at h
  obtain ⟨stepKey, hkey, title, htitle, stepType, -, capability, hcapability, risk, hrisk, -,
    hcount, prerequisites, hprerequisites, _, hdistinct, heq⟩ := h
  cases heq
  rw [PlanProposals.distinct_ok] at hdistinct
  have hcapability' : optional stepKeyItem capability = .ok capability := by
    have hagain :=
      @optional_again _ _ stepKeyItem id (fun hvalue => stepKeyItem_again hvalue) _ _ hcapability
    rw [Option.map_id] at hagain
    exact hagain
  have hrisk' : optional (parseRiskLevel upper) (risk.map (·.value)) = .ok risk :=
    optional_again (fun _ => parseRiskLevel_value hupper _) hrisk
  have hcount' : countBetween 0 MAX_PLAN_STEPS dependsOn = .ok () :=
    countBetween_ok.mpr (by rw [hperm.length_eq, mapM_ok_length hprerequisites]; exact hcount)
  have hkept : dependsOn.mapM stepKeyItem = .ok dependsOn := by
    refine mapM_self fun value hvalue => ?_
    obtain ⟨raw, -, hraw⟩ := mem_of_mapM hprerequisites value (hperm.mem_iff.mp hvalue)
    exact stepKeyItem_again hraw
  have hdistinct' : distinct dependsOn = .ok () :=
    PlanProposals.distinct_ok.mpr (hperm.nodup_iff.mpr hdistinct)
  refine ⟨?_, hdistinct⟩
  simp only [StepInput.validate, WorkflowStepCreate.input, stepKeyItem_again hkey,
    boundedText_again htitle, parseStepType_value hupper, hcapability', hrisk', hcount', hkept,
      hdistinct', Py.ok_bind]
  rfl

/-- A definition that was validated, with the prerequisites of its steps in other orders, is
validated again. -/
theorem plan_again (hupper : KeepsCapitals upper) {input : PlanInput} {data : WorkflowPlanCreate}
    (h : input.validate upper = .ok data) {prerequisites : WorkflowStepCreate → List Text}
    (hperm : ∀ item ∈ data.steps, (prerequisites item).Perm item.dependsOn) :
    PlanInput.validate upper
      ⟨data.title, data.summary, data.steps.map fun item => item.input (prerequisites item)⟩ =
      .ok { data with steps :=
        data.steps.map fun item => { item with dependsOn := prerequisites item } } := by
  simp only [PlanInput.validate, Py.bind_eq_ok, countBetween_ok] at h
  obtain ⟨title, htitle, summary, hsummary, -, hcount, steps, hsteps, u, hbounds, heq⟩ := h
  cases heq
  have hsummary' : optional (boundedText 1 2000) summary = .ok summary := by
    have hagain :=
      @optional_again _ _ (boundedText 1 2000) id (fun hvalue => boundedText_again hvalue) _ _
      hsummary
    rw [Option.map_id] at hagain
    exact hagain
  have hcount' : countBetween 1 MAX_PLAN_STEPS (steps.map fun item =>
      item.input (prerequisites item)) = .ok () :=
    countBetween_ok.mpr (by rw [List.length_map, mapM_ok_length hsteps]; exact hcount)
  have hkept : (steps.map fun item => item.input (prerequisites item)).mapM
    (StepInput.validate upper) =
      .ok (steps.map fun item => { item with dependsOn := prerequisites item }) := by
    rw [List.mapM_map]
    refine mapM_eq_map fun item hitem => ?_
    obtain ⟨raw, -, hraw⟩ := mem_of_mapM hsteps item hitem
    exact (step_again hupper hraw (hperm item hitem)).1
  have hbounds' :
      graphBounds (steps.map fun item => { item with dependsOn := prerequisites item }) =
      .ok () := by
    have hlengths :
      (steps.map fun item =>
      ({ item with dependsOn := prerequisites item } : WorkflowStepCreate)).map
      (·.dependsOn.length) =
        steps.map (·.dependsOn.length) := by
      rw [List.map_map]
      exact List.map_congr_left fun item hitem => (hperm item hitem).length_eq
    have hkeys : (steps.map fun item =>
      ({ item with dependsOn := prerequisites item } : WorkflowStepCreate)).map (·.stepKey) =
        steps.map (·.stepKey) := by
      rw [List.map_map]
      rfl
    rw [graphBounds, hlengths, hkeys]
    exact hbounds
  simp only [PlanInput.validate, boundedText_again htitle, hsummary', hcount', hkept, hbounds',
    Py.ok_bind]
  rfl

end

/-! ## The rows of the steps -/

section
variable {planId : Uuid} {ids : ℕ → Uuid}

theorem mem_stepRows {position : ℕ} {items : List WorkflowStepCreate} {row : WorkflowStep}
    (h : row ∈ stepRows planId ids position items) :
    ∃ item ∈ items, ∃ place, position ≤ place ∧ row = stepRow planId ids place item := by
  induction items generalizing position with
  | nil => cases h
  | cons item items ih =>
    rcases List.mem_cons.mp h with rfl | h
    · exact ⟨item, List.mem_cons_self, position, le_rfl, rfl⟩
    · obtain ⟨other, hother, place, hplace, hrow⟩ := ih h
      exact ⟨other, List.mem_cons_of_mem item hother, place, Nat.le_of_succ_le hplace, hrow⟩

theorem stepRows_forall₂ (position : ℕ) (items : List WorkflowStepCreate) :
    List.Forall₂ (fun row item => row ∈ stepRows planId ids position items ∧ item ∈ items ∧
      ∃ ids place, row = stepRow planId ids place item)
      (stepRows planId ids position items) items := by
  induction items generalizing position with
  | nil => exact .nil
  | cons item items ih =>
    refine .cons ⟨List.mem_cons_self, List.mem_cons_self, ids, position, rfl⟩ ?_
    exact (ih (position + 1)).imp fun row other h =>
      ⟨List.mem_cons_of_mem _ h.1, List.mem_cons_of_mem _ h.2.1, h.2.2⟩

theorem stepRows_keys (position : ℕ) (items : List WorkflowStepCreate) :
    (stepRows planId ids position items).map (·.stepKey) = items.map (·.stepKey) := by
  induction items generalizing position with
  | nil => rfl
  | cons item items ih =>
    rw [stepRows, List.map_cons, List.map_cons, ih]
    rfl

theorem stepRows_positions (position : ℕ) (items : List WorkflowStepCreate) :
    (stepRows planId ids position items).Pairwise fun a b => a.position < b.position := by
  induction items generalizing position with
  | nil => exact .nil
  | cons item items ih =>
    refine .cons (fun row hrow => ?_) (ih (position + 1))
    obtain ⟨other, -, place, hplace, rfl⟩ := mem_stepRows hrow
    exact hplace

/-- Rows in the order of their positions are read in this order, whatever the order they are in. -/
theorem sorted_stepRows {found items : List WorkflowStep} (hperm : found.Perm items)
    (hpositions : items.Pairwise fun a b => a.position < b.position) :
    found.insertionSort WorkflowStep.before = items := by
  have : Std.Total WorkflowStep.before := ⟨fun a b => by unfold WorkflowStep.before; omega⟩
  have : IsTrans WorkflowStep WorkflowStep.before :=
    ⟨fun a b c => by unfold WorkflowStep.before; omega⟩
  have hbefore : items.Pairwise WorkflowStep.before := hpositions.imp fun h => .inl h
  have hsorted : (found.insertionSort WorkflowStep.before).Pairwise WorkflowStep.before :=
    List.pairwise_insertionSort _ _
  refine ((List.perm_insertionSort _ found).trans hperm).eq_of_pairwise (fun a b ha hb hab hba =>
    ?_) hsorted hbefore
  have hplace : a.position = b.position := by
    unfold WorkflowStep.before at hab hba
    omega
  have hinj : (items.map (·.position)).Nodup := by
    rw [List.nodup_iff_pairwise_ne, List.pairwise_map]
    exact hpositions.imp fun h => Nat.ne_of_lt h
  exact List.inj_on_of_nodup_map hinj (hperm.mem_iff.mp ((List.mem_insertionSort _).mp ha)) hb
    hplace

end

/-! ## The edges -/

theorem mapM_of_forall₂ {α β γ : Type} {f : α → Py β} {g : γ → β} {values : List α}
    {others : List γ}
    (h : List.Forall₂ (fun value other => f value = .ok (g other)) values others) :
    values.mapM f = .ok (others.map g) := by
  induction h with
  | nil => rfl
  | cons hvalue _ ih =>
    rw [List.mapM_cons, hvalue, Py.ok_bind, ih]
    rfl

/-- What `_create_plan` has stored of a definition, under distinct keys and ids. -/
structure Stored (planId : Uuid) (items : List WorkflowStepCreate) (rows : List WorkflowStep)
    (edges : List WorkflowStepDependency) : Prop where
  keys : (rows.map (·.stepKey)).Nodup
  ids : (rows.map (·.id)).Nodup
  plan : ∀ row ∈ rows, row.workflowPlanId = planId
  aligned : List.Forall₂ (fun row item => row ∈ rows ∧ item ∈ items ∧ ∃ ids place,
    row = stepRow planId ids place item) rows items
  positions : rows.Pairwise fun a b => a.position < b.position
  distinct : edges.Nodup
  edge : ∀ edge, edge ∈ edges ↔ edge.workflowPlanId = planId ∧ ∃ item ∈ items,
    ∃ key ∈ item.dependsOn,
    (idsByKey rows).get? item.stepKey = .some edge.workflowStepId ∧
      (idsByKey rows).get? key = .some edge.dependsOnStepId

theorem idsByKey_get? {rows : List WorkflowStep} (hkeys : (rows.map (·.stepKey)).Nodup) {key : Text}
    {id : Uuid} :
    (idsByKey rows).get? key = .some id ↔ ∃ row ∈ rows, row.stepKey = key ∧ row.id = id := by
  obtain ⟨hnodup, hmem⟩ :=
    keys_foldl_set (fun row : WorkflowStep => row.stepKey) (fun row => row.id) rows
  constructor
  · intro hget
    have hentry : key ∈ (idsByKey rows).keys :=
      List.mem_map.mpr ⟨(key, id), Dict.mem_of_get? hget, rfl⟩
    obtain ⟨row, hrow, rfl⟩ := List.mem_map.mp ((hmem key).mp hentry)
    have hrowGet :=
      get?_foldl_set (fun row : WorkflowStep => row.stepKey) (fun row => row.id) hkeys hrow
    exact ⟨row, hrow, rfl, Option.some.inj (hrowGet.symm.trans hget)⟩
  · rintro ⟨row, hrow, rfl, rfl⟩
    exact get?_foldl_set (fun row : WorkflowStep => row.stepKey) (fun row => row.id) hkeys hrow

theorem keysById_get? {rows : List WorkflowStep} (hids : (rows.map (·.id)).Nodup)
    {row : WorkflowStep} (hrow : row ∈ rows) :
    (keysById rows).get? row.id = .some row.stepKey :=
  get?_foldl_set (fun row : WorkflowStep => row.id) (fun row => row.stepKey) hids hrow

/-- The edges of validated steps are those of their prerequisites. -/
theorem mem_edgeRows {planId : Uuid} {rows : List WorkflowStep} {items : List WorkflowStepCreate}
    (hkeys : (rows.map (·.stepKey)).Nodup) (hsame : rows.map (·.stepKey) = items.map (·.stepKey))
    (hreferences : References items) {edges : List (List WorkflowStepDependency)}
    (hedges : items.mapM (edgeRows planId (idsByKey rows)) = .ok edges)
    (edge : WorkflowStepDependency) :
    edge ∈ edges.flatten ↔ edge.workflowPlanId = planId ∧ ∃ item ∈ items, ∃ key ∈ item.dependsOn,
      (idsByKey rows).get? item.stepKey = .some edge.workflowStepId ∧
      (idsByKey rows).get? key = .some edge.dependsOnStepId := by
  let idOf : Text → Uuid := fun key => ((idsByKey rows).get? key).getD 0
  have hidOf : ∀ key ∈ items.map (·.stepKey), (idsByKey rows).get? key = .some (idOf key) := by
    intro key hkey
    rw [← hsame] at hkey
    obtain ⟨row, hrow, rfl⟩ := List.mem_map.mp hkey
    have hget := (idsByKey_get? hkeys).mpr ⟨row, hrow, rfl, rfl⟩
    show _ = Option.some (((idsByKey rows).get? row.stepKey).getD 0)
    rw [hget]
    rfl
  have hedgesOf : ∀ item ∈ items, edgeRows planId (idsByKey rows) item =
      .ok ((sorted item.dependsOn).map fun key => ⟨planId, idOf item.stepKey, idOf key⟩) := by
    intro item hitem
    refine mapM_eq_map fun key hkey => ?_
    rw [PlanProposals.item, hidOf _ (List.mem_map_of_mem hitem), orRaise_some, Py.ok_bind,
      PlanProposals.item, hidOf key (hreferences item hitem key (mem_sorted.mp hkey))]
    rfl
  rw [mapM_eq_map hedgesOf] at hedges
  cases hedges
  rw [List.mem_flatten]
  constructor
  · rintro ⟨list, hlist, hedge⟩
    obtain ⟨item, hitem, rfl⟩ := List.mem_map.mp hlist
    obtain ⟨key, hkey, rfl⟩ := List.mem_map.mp hedge
    have hkey := mem_sorted.mp hkey
    exact ⟨rfl, item, hitem, key, hkey, hidOf _ (List.mem_map_of_mem hitem),
      hidOf key (hreferences item hitem key hkey)⟩
  · rintro ⟨hplan, item, hitem, key, hkey, hstep, hdepends⟩
    refine ⟨_, List.mem_map_of_mem hitem, List.mem_map.mpr ⟨key, mem_sorted.mpr hkey, ?_⟩⟩
    rw [hidOf _ (List.mem_map_of_mem hitem), Option.some.injEq] at hstep
    rw [hidOf key (hreferences item hitem key hkey), Option.some.injEq] at hdepends
    rw [hstep, hdepends, ← hplan]

/-- The keys that the edges of a step lead to, as `create_run` reads them. -/
def prerequisiteKeys (rows : List WorkflowStep) (edges : List WorkflowStepDependency)
    (item : WorkflowStepCreate) : List Text :=
  (edges.filter fun edge => (idsByKey rows).get? item.stepKey = .some edge.workflowStepId).map
      fun edge =>
    ((keysById rows).get? edge.dependsOnStepId).getD []

section
variable {planId : Uuid} {items : List WorkflowStepCreate} {rows : List WorkflowStep}
  {edges found : List WorkflowStepDependency}

/-- The row of the step an edge is of, and the key at its other end. -/
theorem Stored.edge_ends (h : Stored planId items rows edges)
    (hdistinct : (items.map (·.stepKey)).Nodup) {item : WorkflowStepCreate} (hitem : item ∈ items)
    {edge : WorkflowStepDependency} (hedge : edge ∈ edges)
    (hstep : (idsByKey rows).get? item.stepKey = .some edge.workflowStepId) :
    ∃ key ∈ item.dependsOn, (idsByKey rows).get? key = .some edge.dependsOnStepId ∧
      (keysById rows).get? edge.dependsOnStepId = .some key := by
  obtain ⟨-, other, hother, key, hkey, hotherStep, hdepends⟩ := (h.edge edge).mp hedge
  obtain ⟨row, hrow, hrowKey, hrowId⟩ := (idsByKey_get? h.keys).mp hstep
  obtain ⟨row', hrow', hrowKey', hrowId'⟩ := (idsByKey_get? h.keys).mp hotherStep
  have hsame : row = row' := List.inj_on_of_nodup_map h.ids hrow hrow' (hrowId.trans hrowId'.symm)
  have hitems : other = item :=
    List.inj_on_of_nodup_map hdistinct hother hitem (by rw [← hrowKey, ← hrowKey', hsame])
  rw [hitems] at hkey
  refine ⟨key, hkey, hdepends, ?_⟩
  obtain ⟨last, hlast, hlastKey, hlastId⟩ := (idsByKey_get? h.keys).mp hdepends
  rw [← hlastId, keysById_get? h.ids hlast, hlastKey]

theorem Stored.prerequisiteKeys_perm (h : Stored planId items rows edges)
    (hdistinct : (items.map (·.stepKey)).Nodup) (hreferences : References items)
    (hsame : rows.map (·.stepKey) = items.map (·.stepKey)) (hfound : found.Perm edges)
    {item : WorkflowStepCreate} (hitem : item ∈ items) (hnodup : item.dependsOn.Nodup) :
    (prerequisiteKeys rows found item).Perm item.dependsOn := by
  have hends : ∀ edge ∈ found.filter (fun edge => (idsByKey rows).get? item.stepKey =
    .some edge.workflowStepId),
      ∃ key ∈ item.dependsOn, (idsByKey rows).get? key = .some edge.dependsOnStepId ∧
          (keysById rows).get? edge.dependsOnStepId = .some key := by
    intro edge hedge
    obtain ⟨hedge, hstep⟩ := List.mem_filter.mp hedge
    exact h.edge_ends hdistinct hitem (hfound.mem_iff.mp hedge) (of_decide_eq_true hstep)
  have hid : ∀ key ∈ items.map (·.stepKey), ∃ id, (idsByKey rows).get? key = .some id := by
    intro key hkey
    rw [← hsame] at hkey
    obtain ⟨row, hrow, rfl⟩ := List.mem_map.mp hkey
    exact ⟨row.id, (idsByKey_get? h.keys).mpr ⟨row, hrow, rfl, rfl⟩⟩
  rw [List.perm_ext_iff_of_nodup ?_ hnodup]
  · intro key
    rw [prerequisiteKeys, List.mem_map]
    constructor
    · rintro ⟨edge, hedge, hkey⟩
      obtain ⟨found, hmem, -, hget⟩ := hends edge hedge
      rw [hget, Option.getD_some] at hkey
      exact hkey ▸ hmem
    · intro hkey
      obtain ⟨stepId, hstepId⟩ := hid item.stepKey (List.mem_map_of_mem hitem)
      obtain ⟨dependsOnId, hdependsOnId⟩ := hid key (hreferences item hitem key hkey)
      have hedge : (⟨planId, stepId, dependsOnId⟩ : WorkflowStepDependency) ∈ edges :=
        (h.edge _).mpr ⟨rfl, item, hitem, key, hkey, hstepId, hdependsOnId⟩
      refine ⟨_, List.mem_filter.mpr ⟨hfound.mem_iff.mpr hedge, decide_eq_true hstepId⟩, ?_⟩
      obtain ⟨row, hrow, hrowKey, hrowId⟩ := (idsByKey_get? h.keys).mp hdependsOnId
      show ((keysById rows).get? dependsOnId).getD [] = key
      rw [← hrowId, keysById_get? h.ids hrow, hrowKey]
      rfl
  · -- edges of one step that lead to one key are one edge
    have hdistinctEdges : (found.filter fun edge => (idsByKey rows).get? item.stepKey =
        .some edge.workflowStepId).Nodup :=
      (hfound.nodup_iff.mpr h.distinct).filter _
    refine hdistinctEdges.map_on fun a ha b hb heq => ?_
    obtain ⟨key, -, haId, haKey⟩ := hends a ha
    obtain ⟨key', -, hbId, hbKey⟩ := hends b hb
    rw [haKey, hbKey, Option.getD_some, Option.getD_some] at heq
    obtain ⟨ha, haStep⟩ := List.mem_filter.mp ha
    obtain ⟨hb, hbStep⟩ := List.mem_filter.mp hb
    have hstep : a.workflowStepId = b.workflowStepId :=
      Option.some.inj ((of_decide_eq_true haStep).symm.trans (of_decide_eq_true hbStep))
    have hdepends : a.dependsOnStepId = b.dependsOnStepId := by
      rw [heq] at haId
      exact Option.some.inj (haId.symm.trans hbId)
    have hplan : a.workflowPlanId = b.workflowPlanId :=
      ((h.edge a).mp (hfound.mem_iff.mp ha)).1.trans ((h.edge b).mp (hfound.mem_iff.mp hb)).1.symm
    cases a
    cases b
    simp only at hstep hdepends hplan
    rw [hstep, hdepends, hplan]

/-- The values read off the rows are those of the steps. -/
theorem Stored.inputs (h : Stored planId items rows edges)
    (hdistinct : (items.map (·.stepKey)).Nodup) (hfound : found.Perm edges) :
    rows.mapM (stepInput (keysById rows) found) = .ok
      (items.map fun item => item.input (prerequisiteKeys rows found item)) := by
  have hone : ∀ row item, row ∈ rows → item ∈ items →
    (∃ ids place, row = stepRow planId ids place item) →
      stepInput (keysById rows) found row =
          .ok (item.input (prerequisiteKeys rows found item)) := by
    rintro row item hrow hitem ⟨ids, place, heq⟩
    have hkey : row.stepKey = item.stepKey := by
      rw [heq]
      rfl
    have hget : (idsByKey rows).get? item.stepKey = .some row.id :=
      (idsByKey_get? h.keys).mpr ⟨row, hrow, hkey, rfl⟩
    have hfilter : (found.filter fun edge => edge.workflowStepId = row.id) =
        found.filter fun edge => (idsByKey rows).get? item.stepKey = .some edge.workflowStepId := by
      refine List.filter_congr fun edge _ => decide_eq_decide.mpr ?_
      rw [hget, Option.some.injEq]
      exact eq_comm
    have hread : (found.filter fun edge => edge.workflowStepId = row.id).mapM
        (fun edge => PlanProposals.item (keysById rows) edge.dependsOnStepId) =
            .ok (prerequisiteKeys rows found item) := by
      rw [hfilter]
      refine mapM_eq_map fun edge hedge => ?_
      obtain ⟨hedge, hstep⟩ := List.mem_filter.mp hedge
      obtain ⟨key, -, -, hkey⟩ :=
        h.edge_ends hdistinct hitem (hfound.mem_iff.mp hedge) (of_decide_eq_true hstep)
      rw [PlanProposals.item, hkey]
      rfl
    rw [stepInput, hread, Py.ok_bind, heq]
    rfl
  exact mapM_of_forall₂ (h.aligned.imp fun row item hrow => hone row item hrow.1 hrow.2.1 hrow.2.2)

end

/-! ## The round trip -/

/-- The row that is stored of a plan. -/
def planRow (plan : WorkflowPlan) (data : WorkflowPlanCreate) : WorkflowPlan :=
  { plan with title := data.title, summary := data.summary }

theorem createPlan_ok {store created : PlanStore} {plan : WorkflowPlan} {ids : ℕ → Uuid}
    {data : WorkflowPlanCreate} (h : store.createPlan plan ids data = .ok created) :
    (∃ order, validateGraph data.steps = .ok (.some order)) ∧
      ∃ edges, data.steps.mapM (edgeRows plan.id (idsByKey (stepRows plan.id ids 0 data.steps))) =
        .ok edges ∧
        created.plans = store.plans ++ [planRow plan data] ∧
          created.steps = store.steps ++ stepRows plan.id ids 0 data.steps ∧
        created.dependencies = store.dependencies ++ edges.flatten := by
  have hgraph : ∃ order, validateGraph data.steps = .ok (.some order) := by
    rw [PlanStore.createPlan, checkedGraph] at h
    split at h
    next order horder => exact ⟨order, horder⟩
    next => cases h
    next => cases h
  obtain ⟨order, horder⟩ := hgraph
  have hchecked : checkedGraph data.steps = .ok () := by rw [checkedGraph, horder]
  rw [PlanStore.createPlan, hchecked] at h
  replace h : (if (data.steps.any fun item => item.agentDefinitionId.any fun definition =>
    !store.definitions.contains definition) = true then
      Except.error PlanError.notFound else _) = Except.ok created := h
  split at h
  · cases h
  · cases hedges :
        data.steps.mapM (edgeRows plan.id (idsByKey (stepRows plan.id ids 0 data.steps))) with
    | error error =>
      rw [hedges] at h
      cases h
    | ok edges =>
      rw [hedges] at h
      simp only [uncaught, bind, Except.bind] at h
      split at h
      · cases h
        exact ⟨⟨order, horder⟩, edges, rfl, rfl, rfl, rfl⟩
      · cases h

/-- The rows of a plan are still there, in whatever order a table has them. -/
structure PlanStore.Keeps (created later : PlanStore) (planId : Uuid) : Prop where
  plan : ∀ plan ∈ created.plans, plan.id = planId → plan ∈ later.plans
  steps : (later.steps.filter fun step => step.workflowPlanId = planId).Perm
    (created.steps.filter fun step => step.workflowPlanId = planId)
  dependencies : (later.dependencies.filter fun edge => edge.workflowPlanId = planId).Perm
    (created.dependencies.filter fun edge => edge.workflowPlanId = planId)

theorem graphBounds_keys {steps : List WorkflowStepCreate} {u : Unit}
    (h : graphBounds steps = .ok u) : (steps.map (·.stepKey)).Nodup := by
  simp only [graphBounds, Py.bind_eq_ok, raiseIf_eq_ok, Bool.not_eq_false', decide_eq_true_eq] at h
  obtain ⟨-, hkeys, -⟩ := h
  exact hkeys

theorem validated_plan {upper : Text → Text} (hupper : KeepsCapitals upper) {input : PlanInput}
    {data : WorkflowPlanCreate} (h : input.validate upper = .ok data) :
    (data.steps.map (·.stepKey)).Nodup ∧ data.steps ≠ [] ∧ ∀ item ∈ data.steps,
    item.dependsOn.Nodup := by
  simp only [PlanInput.validate, Py.bind_eq_ok, countBetween_ok] at h
  obtain ⟨title, -, summary, -, -, hcount, steps, hsteps, u, hbounds, heq⟩ := h
  cases heq
  refine ⟨graphBounds_keys hbounds, fun hnil => ?_, fun item hitem => ?_⟩
  · have hlength := mapM_ok_length hsteps
    have hnil : steps = [] := hnil
    rw [hnil, List.length_nil] at hlength
    omega
  · obtain ⟨raw, -, hraw⟩ := mem_of_mapM hsteps item hitem
    exact (step_again hupper hraw (List.Perm.refl _)).2

section
variable {store created later : PlanStore} {plan : WorkflowPlan} {ids : ℕ → Uuid}
  {data : WorkflowPlanCreate}

/-- What is found of a plan that was created. -/
theorem createPlan_stored (hkeys : (data.steps.map (·.stepKey)).Nodup)
    (hcreate : store.createPlan plan ids data = .ok created)
    (hlater : created.Keeps later plan.id) :
    ∃ edges, Stored plan.id data.steps (stepRows plan.id ids 0 data.steps) edges ∧
      later.stepsForPlan plan.id = stepRows plan.id ids 0 data.steps ∧
        (later.dependenciesForPlan plan.id).Perm edges := by
  obtain ⟨⟨order, horder⟩, edges, hedges, hplans, hsteps, hdependencies⟩ := createPlan_ok hcreate
  have haccept := (validateGraph_eq_iff hkeys order).mp horder
  have hrowKeys : (stepRows plan.id ids 0 data.steps).map (·.stepKey) =
    data.steps.map (·.stepKey) := stepRows_keys 0 data.steps
  have hnodup := created.constraints
  -- the id of the plan is new, and so nothing refers to it yet
  have hfresh : plan.id ∉ store.plans.map (·.id) := by
    have hids := hnodup.plan
    rw [hplans, List.map_append, List.nodup_append] at hids
    exact fun hmem => hids.2.2 _ hmem _ (List.mem_singleton_self _) rfl
  have hold : store.steps.filter (fun step => step.workflowPlanId = plan.id) = [] := by
    rw [List.filter_eq_nil_iff]
    intro step hstep heq
    exact hfresh (of_decide_eq_true heq ▸ store.constraints.owner step hstep)
  have holdEdges : store.dependencies.filter (fun edge => edge.workflowPlanId = plan.id) = [] := by
    rw [List.filter_eq_nil_iff]
    intro edge hedge heq
    obtain ⟨step, hstep, hend⟩ := List.mem_map.mp (store.constraints.dependent edge hedge)
    have howner := store.constraints.owner step hstep
    rw [(Prod.mk.inj hend).2, of_decide_eq_true heq] at howner
    exact hfresh howner
  have hrowPlan : ∀ row ∈ stepRows plan.id ids 0 data.steps, row.workflowPlanId = plan.id := by
    intro row hrow
    obtain ⟨item, -, place, -, rfl⟩ := mem_stepRows hrow
    rfl
  have hmem := mem_edgeRows (hrowKeys ▸ hkeys) hrowKeys haccept.1.references hedges
  have hstored : Stored plan.id data.steps (stepRows plan.id ids 0 data.steps) edges.flatten :=
    { keys := hrowKeys ▸ hkeys
      ids := by
        have hids := hnodup.step
        rw [hsteps, List.map_append, List.nodup_append] at hids
        exact hids.2.1
      plan := hrowPlan
      aligned := stepRows_forall₂ 0 data.steps
      positions := stepRows_positions 0 data.steps
      distinct := by
        have hdistinct := hnodup.dependency
        rw [hdependencies, List.nodup_append] at hdistinct
        exact hdistinct.2.1
      edge := hmem }
  refine ⟨edges.flatten, hstored, sorted_stepRows ?_ hstored.positions, ?_⟩
  · have hrows : created.steps.filter (fun step => step.workflowPlanId = plan.id) =
        stepRows plan.id ids 0 data.steps := by
      rw [hsteps, List.filter_append, hold, List.nil_append, List.filter_eq_self]
      exact fun row hrow => decide_eq_true (hrowPlan row hrow)
    exact hrows ▸ hlater.steps
  · have hnew : created.dependencies.filter (fun edge => edge.workflowPlanId = plan.id) =
        edges.flatten := by
      rw [hdependencies, List.filter_append, holdEdges, List.nil_append, List.filter_eq_self]
      exact fun edge hedge => decide_eq_true ((hmem edge).mp hedge).1
    exact (List.perm_insertionSort _ _).trans (hnew ▸ hlater.dependencies)

theorem getPlan_created (hcreate : store.createPlan plan ids data = .ok created)
    (hlater : created.Keeps later plan.id) :
    later.getPlan plan.tenantId plan.workspaceId plan.id = .ok (planRow plan data) := by
  obtain ⟨-, edges, -, hplans, -⟩ := createPlan_ok hcreate
  have hmem : planRow plan data ∈ later.plans :=
    hlater.plan _ (by rw [hplans]; exact List.mem_append_right _ (List.mem_singleton_self _)) rfl
  rw [PlanStore.getPlan]
  cases hfind : later.plans.find? fun other =>
      other.tenantId = plan.tenantId && other.workspaceId = plan.workspaceId &&
          other.id = plan.id with
  | none =>
    have hnot := List.find?_eq_none.mp hfind _ hmem
    simp [planRow] at hnot
  | some other =>
    have hother := List.find?_some hfind
    simp only [Bool.and_eq_true, decide_eq_true_eq] at hother
    have heq : other = planRow plan data :=
      List.inj_on_of_nodup_map later.constraints.plan (List.mem_of_find?_eq_some hfind) hmem
        hother.2
    rw [heq]

/-- A step that is rebuilt: its fields are the same, and its prerequisites too but for their order.
-/
def SameStep (item again : WorkflowStepCreate) : Prop :=
  again = { item with dependsOn := again.dependsOn } ∧ again.dependsOn.Perm item.dependsOn

/-- The step runs of a plan: one for each step, READY if the step has no prerequisites. -/
def startedRuns (rows : List WorkflowStep) (items : List WorkflowStepCreate) :
    List WorkflowStepRun :=
  List.zipWith (fun row item => ⟨row.id, if item.dependsOn.isEmpty then .ready else .pending⟩) rows
    items

theorem Stored.started {planId : Uuid} {items : List WorkflowStepCreate} {rows : List WorkflowStep}
    {edges found : List WorkflowStepDependency} (h : Stored planId items rows edges)
    (hdistinct : (items.map (·.stepKey)).Nodup) (hreferences : References items)
    (hsame : rows.map (·.stepKey) = items.map (·.stepKey)) (hfound : found.Perm edges) :
    (rows.map fun step =>
      (⟨step.id, if step.id ∈ found.map (·.workflowStepId) then .pending else .ready⟩ :
      WorkflowStepRun)) =
      startedRuns rows items := by
  have hid : ∀ key ∈ items.map (·.stepKey), ∃ id, (idsByKey rows).get? key = .some id := by
    intro key hkey
    rw [← hsame] at hkey
    obtain ⟨row, hrow, rfl⟩ := List.mem_map.mp hkey
    exact ⟨row.id, (idsByKey_get? h.keys).mpr ⟨row, hrow, rfl, rfl⟩⟩
  have hone : ∀ row item, row ∈ rows → item ∈ items →
    (∃ ids place, row = stepRow planId ids place item) →
      (row.id ∈ found.map (·.workflowStepId) ↔ item.dependsOn.isEmpty = false) := by
    rintro row item hrow hitem ⟨ids, place, heq⟩
    have hkey : row.stepKey = item.stepKey := by
      rw [heq]
      rfl
    have hget : (idsByKey rows).get? item.stepKey = .some row.id :=
      (idsByKey_get? h.keys).mpr ⟨row, hrow, hkey, rfl⟩
    rw [List.mem_map, List.isEmpty_eq_false_iff_exists_mem]
    constructor
    · rintro ⟨edge, hedge, hstep⟩
      obtain ⟨key, hkey, -⟩ := h.edge_ends hdistinct hitem (hfound.mem_iff.mp hedge) (hstep ▸ hget)
      exact ⟨key, hkey⟩
    · rintro ⟨key, hkey⟩
      obtain ⟨dependsOnId, hdependsOnId⟩ := hid key (hreferences item hitem key hkey)
      exact ⟨⟨planId, row.id, dependsOnId⟩,
        hfound.mem_iff.mpr ((h.edge _).mpr ⟨rfl, item, hitem, key, hkey, hget, hdependsOnId⟩), rfl⟩
  have hzip : ∀ {rows' : List WorkflowStep} {items' : List WorkflowStepCreate},
      List.Forall₂ (fun row item => row ∈ rows ∧ item ∈ items ∧ ∃ ids place,
        row = stepRow planId ids place item) rows' items' →
      (rows'.map fun step =>
        (⟨step.id, if step.id ∈ found.map (·.workflowStepId) then .pending else .ready⟩ :
        WorkflowStepRun)) =
        startedRuns rows' items' := by
    intro rows' items' hall
    induction hall with
    | nil => rfl
    | cons hrow _ ih =>
      rw [List.map_cons, ih, startedRuns, startedRuns, List.zipWith_cons_cons]
      have hiff := hone _ _ hrow.1 hrow.2.1 hrow.2.2
      congr 2
      split
      next hmem => rw [hiff.mp hmem, if_neg (by decide)]
      next hnot => rw [if_pos ((Bool.eq_false_or_eq_true _).resolve_right fun hfalse =>
        hnot (hiff.mpr hfalse))]
  exact hzip h.aligned

/-- **A plan survives its rows**: it is found again, what is rebuilt of it is the definition with
the prerequisites of its steps in some order, and a run of it is created, with a run of each
step. -/
theorem plan_round_trip {upper : Text → Text} (hupper : KeepsCapitals upper) {input : PlanInput}
    (hdata : input.validate upper = .ok data)
    (hcreate : store.createPlan plan ids data = .ok created)
    (hlater : created.Keeps later plan.id) :
    later.getPlan plan.tenantId plan.workspaceId plan.id = .ok (planRow plan data) ∧
      (∃ spec, later.rebuild upper (planRow plan data) = .ok spec ∧ spec.title = data.title ∧
        spec.summary = data.summary ∧
        List.Forall₂ SameStep data.steps spec.steps) ∧
      later.createRun upper plan.tenantId plan.workspaceId plan.id = .ok
        (startedRuns (later.stepsForPlan plan.id) data.steps) ∧
      (later.stepsForPlan plan.id).map (·.stepKey) = data.steps.map (·.stepKey) ∧
      ((later.stepsForPlan plan.id).map (·.id)).Nodup := by
  obtain ⟨hkeys, hnonempty, hprerequisites⟩ := validated_plan hupper hdata
  obtain ⟨edges, hstored, hsteps, hdependencies⟩ := createPlan_stored hkeys hcreate hlater
  obtain ⟨⟨order, horder⟩, -⟩ := createPlan_ok hcreate
  have hreferences := ((validateGraph_eq_iff hkeys order).mp horder).1.references
  have hget := getPlan_created hcreate hlater
  have hsame : (stepRows plan.id ids 0 data.steps).map (·.stepKey) = data.steps.map (·.stepKey) :=
    stepRows_keys 0 data.steps
  set rows := stepRows plan.id ids 0 data.steps with hrows
  set found := later.dependenciesForPlan plan.id with hfound
  have hperm : ∀ item ∈ data.steps, (prerequisiteKeys rows found item).Perm item.dependsOn :=
      fun item hitem =>
    hstored.prerequisiteKeys_perm hkeys hreferences hsame hdependencies hitem
      (hprerequisites item hitem)
  let spec : WorkflowPlanCreate :=
    { data with steps :=
    data.steps.map fun item => { item with dependsOn := prerequisiteKeys rows found item } }
  have hrebuild : later.rebuild upper (planRow plan data) = .ok spec := by
    have hempty : rows.isEmpty = false := by
      rw [Bool.eq_false_iff, ne_eq, List.isEmpty_iff]
      intro hnil
      rw [hnil, List.map_nil, eq_comm, List.map_eq_nil_iff] at hsame
      exact hnonempty hsame
    have hinputs := hstored.inputs hkeys hdependencies
    have hagain := plan_again hupper hdata hperm
    have hplan : (planRow plan data).id = plan.id := rfl
    rw [PlanStore.rebuild, hplan, hsteps, ← hfound, hempty, hinputs]
    simp only [uncaught, bind, Except.bind, planRow, hagain]
    rfl
  have hagain : List.Forall₂ SameStep data.steps spec.steps := by
    rw [List.forall₂_map_right_iff, List.forall₂_same]
    exact fun item hitem => ⟨rfl, hperm item hitem⟩
  have hchecked : checkedGraph spec.steps = .ok () := by
    have hrelisted : Relisted data.steps spec.steps :=
      ⟨spec.steps, List.Perm.refl _, hagain.imp fun item again hsame => ⟨by rw [hsame.1], hsame.2⟩⟩
    rw [checkedGraph, (validateGraph_relisted hkeys hrelisted order).mpr horder]
  refine ⟨hget, ⟨spec, hrebuild, rfl, rfl, hagain⟩, ?_, ?_, ?_⟩
  · have hplan : (planRow plan data).id = plan.id := rfl
    rw [PlanStore.createRun, hget]
    simp only [bind, Except.bind, hrebuild, hchecked, hplan, hsteps, ← hfound]
    rw [hstored.started hkeys hreferences hsame hdependencies]
    rfl
  · rw [hsteps, hsame]
  · rw [hsteps]
    exact hstored.ids

end

/-- `str.upper` on ASCII. -/
def asciiUpper (text : Text) : Text := text.map Char.toUpper

theorem asciiUpper_keeps : KeepsCapitals asciiUpper := by
  intro text htext
  refine (List.map_congr_left fun c hc => ?_).trans (List.map_id' text)
  have hc := List.all_eq_true.mp htext c hc
  refine dif_neg fun hlower => ?_
  simp only [Bool.or_eq_true, Bool.and_eq_true, decide_eq_true_eq, beq_iff_eq] at hc
  rcases hc with ⟨-, hle⟩ | rfl
  · have hle : c.val ≤ 90 := hle
    have hge : 97 ≤ c.val := hlower.1
    have := UInt32.le_iff_toNat_le.mp hle
    have := UInt32.le_iff_toNat_le.mp hge
    simp at *
    omega
  · revert hlower
    decide

def emptyTables : PlanTables where
  definitions := []
  plans := []
  steps := []
  dependencies := []

def emptyStore : PlanStore where
  toPlanTables := emptyTables
  constraints :=
    { plan := List.nodup_nil
      version := List.nodup_nil
      step := List.nodup_nil
      key := List.nodup_nil
      position := List.nodup_nil
      owner := fun _ hstep => absurd hstep List.not_mem_nil
      dependency := List.nodup_nil
      irreflexive := fun _ hedge => absurd hedge List.not_mem_nil
      dependent := fun _ hedge => absurd hedge List.not_mem_nil
      prerequisite := fun _ hedge => absurd hedge List.not_mem_nil }

def firstPlan : WorkflowPlan where
  id := 1
  tenantId := 2
  workspaceId := 3
  projectId := 4
  taskId := 5
  version := 1
  title := []
  summary := .none
  changeReason := .none

def pairInput : PlanInput where
  title := "t ".toList
  summary := .none
  steps := [⟨['b'], ['t'], "system".toList, .none, .none, .some "low".toList, [['a']]⟩,
    ⟨['a'], ['t'], "SYSTEM".toList, .none, .none, .none, []⟩]

def pairSteps : List WorkflowStepCreate :=
  [⟨['b'], ['t'], .system, .none, .none, .some .low, [['a']]⟩,
    ⟨['a'], ['t'], .system, .none, .none, .none, []⟩]

def pairPlan : WorkflowPlanCreate := ⟨['t'], .none, pairSteps⟩

/-- The ids of the steps of `firstPlan`. -/
def countedIds (position : ℕ) : Uuid := BitVec.ofNat 128 (position + 6)

theorem PlanStore.Keeps.refl (store : PlanStore) (planId : Uuid) : store.Keeps store planId :=
  ⟨fun _ hplan _ => hplan, .refl _, .refl _⟩

theorem pair_round_trip :
    ∃ created, emptyStore.createPlan firstPlan countedIds pairPlan = .ok created ∧
    created.getPlan 2 3 1 = .ok (planRow firstPlan pairPlan) ∧
      (∃ spec, created.rebuild asciiUpper (planRow firstPlan pairPlan) = .ok spec ∧
        spec.title = pairPlan.title ∧
        spec.summary = pairPlan.summary ∧ List.Forall₂ SameStep pairSteps spec.steps) ∧
      created.createRun asciiUpper 2 3 1 = .ok (startedRuns (created.stepsForPlan 1) pairSteps) ∧
      (created.stepsForPlan 1).map (·.stepKey) = pairSteps.map (·.stepKey) ∧
      ((created.stepsForPlan 1).map (·.id)).Nodup := by
  have hvalid : pairInput.validate asciiUpper = .ok pairPlan := by decide +kernel
  have hok : (emptyStore.createPlan firstPlan countedIds pairPlan).toBool = true := by
    decide +kernel
  cases hcreate : emptyStore.createPlan firstPlan countedIds pairPlan with
  | error error =>
    rw [hcreate] at hok
    cases hok
  | ok created =>
    exact ⟨created, rfl, plan_round_trip asciiUpper_keeps hvalid hcreate (.refl created 1)⟩

end WorkflowPlans

end Novalton
