/-
The contracts of the three roles of a development workflow, as far as hand-offs and
verdicts carry their data: the manager's proposed tasks
(`modules/developer_manager/contracts.py`), the developer's changes and acceptance checks
(`modules/developer_worker/contracts.py`), and the criteria, acceptance results and
verdict of quality assurance (`modules/qa_worker/contracts.py`).

A result's other fields have checks of their own, which read none of the fields here.
-/
import Novalton.AgentContracts
import Novalton.Workspace

namespace Novalton.Contracts

/-- A string stripped by its schema, and its length. -/
def boundedText (least most : ℕ) (value : Text) : Py Text := do
  let value := trim value
  lengthBetween least most value
  return value

/-- `min_length` and `max_length` of a list. -/
def countBetween {α} (least most : ℕ) (values : List α) : Py Unit :=
  raiseIf (!(least ≤ values.length && values.length ≤ most)) .valueError

/-- No value occurs twice. -/
def distinct {α} [DecidableEq α] (values : List α) : Py Unit :=
  raiseIf (!decide values.Nodup) .valueError

/-! ## Developer manager -/

/-- An item of type `TaskKey`, and `normalize_task_key` on it. -/
def taskKeyItem (value : Text) : Py Text := do
  let value ← boundedText 1 64 value
  raiseIf (!TASK_KEY.fullmatch value) .valueError
  let value := (strip value).map Char.toLower
  raiseIf (!TASK_KEY.fullmatch value) .valueError
  return value

structure ProposedWorkerTask where
  taskKey : Text
  requiredCapabilities : List Text
  dependsOn : List Text
  expectedOutput : Text
deriving DecidableEq, Repr

def ProposedWorkerTask.validate (data : ProposedWorkerTask) : Py ProposedWorkerTask := do
  let taskKey ← taskKeyItem data.taskKey
  countBetween 1 12 data.requiredCapabilities
  let requiredCapabilities ← data.requiredCapabilities.mapM identifierItem
  countBetween 0 15 data.dependsOn
  let dependsOn ← data.dependsOn.mapM taskKeyItem
  distinct dependsOn
  let expectedOutput ← identifierItem data.expectedOutput
  return {
    taskKey := taskKey
    requiredCapabilities := uniqueSorted requiredCapabilities
    dependsOn := dependsOn.insertionSort (· ≤ ·)
    expectedOutput := expectedOutput }

structure DeveloperManagerResult where
  status : AgentResultStatus
  proposedTasks : List ProposedWorkerTask
deriving DecidableEq, Repr

/-- `validate_dependency_graph` refuses more plans, and puts the tasks of the others in
order; a plan of one task, the only one that is handed on, stays as it is. -/
def DeveloperManagerResult.validate (data : DeveloperManagerResult) :
    Py DeveloperManagerResult := do
  countBetween 1 16 data.proposedTasks
  let proposedTasks ← data.proposedTasks.mapM ProposedWorkerTask.validate
  distinct (proposedTasks.map (·.taskKey))
  return { data with proposedTasks := proposedTasks }

/-! ## Developer worker -/

inductive ChangeKind where
  | create | modify | delete | config | test
deriving DecidableEq, Repr

def ChangeKind.value : ChangeKind → Text
  | .create => "CREATE".toList
  | .modify => "MODIFY".toList
  | .delete => "DELETE".toList
  | .config => "CONFIG".toList
  | .test => "TEST".toList

inductive AcceptanceStatus where
  | satisfied | notSatisfied | notVerified | notApplicable
deriving DecidableEq, Repr

def AcceptanceStatus.value : AcceptanceStatus → Text
  | .satisfied => "SATISFIED".toList
  | .notSatisfied => "NOT_SATISFIED".toList
  | .notVerified => "NOT_VERIFIED".toList
  | .notApplicable => "NOT_APPLICABLE".toList

/-- `_relative_path` of the developer's contract. -/
def relativePath (w : WordClass) (value : Text) : Py Text := do
  let value ← safeText w value
  let value := replace ['\\'] ['/'] value
  raiseIf (['/'].isPrefixOf value || hasDrivePrefix value || occursIn "://".toList value ||
    (splitSlash value).any [[], ['.'], ['.', '.']].contains) .valueError
  let normalized := relativeText (pureParts value)
  raiseIf (normalized != value || 300 < normalized.length) .valueError
  return normalized

structure ProposedChange where
  path : Text
  kind : ChangeKind
deriving DecidableEq, Repr

def ProposedChange.validate (w : WordClass) (data : ProposedChange) : Py ProposedChange := do
  lengthBetween 1 300 data.path
  let path ← relativePath w data.path
  return { data with path := path }

/-- The order of the changes, by `(path, kind)`. -/
def ProposedChange.before (a b : ProposedChange) : Prop :=
  a.path < b.path ∨ (a.path = b.path ∧ a.kind.value ≤ b.kind.value)

instance : DecidableRel ProposedChange.before := fun _ _ => inferInstanceAs (Decidable (_ ∨ _))

structure AcceptanceCheck where
  criterionId : Text
  status : AcceptanceStatus
deriving DecidableEq, Repr

def AcceptanceCheck.validate (data : AcceptanceCheck) : Py AcceptanceCheck := do
  let criterionId ← identifierItem data.criterionId
  return { data with criterionId := criterionId }

structure DeveloperWorkerResult where
  status : AgentResultStatus
  changes : List ProposedChange
  acceptanceChecks : List AcceptanceCheck
deriving DecidableEq, Repr

def DeveloperWorkerResult.validate (w : WordClass) (data : DeveloperWorkerResult) :
    Py DeveloperWorkerResult := do
  countBetween 0 32 data.changes
  let changes ← data.changes.mapM (ProposedChange.validate w)
  countBetween 0 24 data.acceptanceChecks
  let acceptanceChecks ← data.acceptanceChecks.mapM AcceptanceCheck.validate
  distinct changes
  distinct (acceptanceChecks.map (·.criterionId))
  return { data with
    changes := changes.insertionSort ProposedChange.before
    acceptanceChecks := acceptanceChecks.insertionSort fun a b => a.criterionId ≤ b.criterionId }

/-! ## Quality assurance -/

/-- `_bounded_qa_text`. -/
def boundedQaText (w : WordClass) (value : Text) : Py Text := do
  let value ← safeText w value
  raiseIf ((UNSAFE_TEXT w).search value) .valueError
  return value

/-- A `ValidationCriterion` without evidence references. -/
structure ValidationCriterion where
  criterionId : Text
  description : Text
deriving DecidableEq, Repr

def ValidationCriterion.validate (w : WordClass) (data : ValidationCriterion) :
    Py ValidationCriterion := do
  let criterionId ← identifierItem data.criterionId
  lengthBetween 1 1000 data.description
  let description ← boundedQaText w data.description
  return { criterionId := criterionId, description := description }

/-- `normalize_criteria` of a `QAValidationInput`. -/
def validateCriteria (w : WordClass) (values : List ValidationCriterion) :
    Py (List ValidationCriterion) := do
  countBetween 1 24 values
  let values ← values.mapM (ValidationCriterion.validate w)
  distinct (values.map (·.criterionId))
  return values.insertionSort fun a b => a.criterionId ≤ b.criterionId

inductive AcceptanceResultStatus where
  | pass | fail | notVerified
deriving DecidableEq, Repr

structure AcceptanceResult where
  criterionId : Text
  status : AcceptanceResultStatus
deriving DecidableEq, Repr

def AcceptanceResult.validate (data : AcceptanceResult) : Py AcceptanceResult := do
  let criterionId ← identifierItem data.criterionId
  return { data with criterionId := criterionId }

structure DefectDescriptor where
  defectKey : Text
  affectedCriteria : List Text
deriving DecidableEq, Repr

def DefectDescriptor.validate (data : DefectDescriptor) : Py DefectDescriptor := do
  let defectKey ← identifierItem data.defectKey
  countBetween 0 12 data.affectedCriteria
  let affectedCriteria ← data.affectedCriteria.mapM identifierItem
  distinct affectedCriteria
  return { defectKey := defectKey, affectedCriteria := affectedCriteria.insertionSort (· ≤ ·) }

structure QAWorkerResult where
  status : AgentResultStatus
  challenge : ChallengeLevel
  verdict : QAVerdict
  acceptanceResults : List AcceptanceResult
  defects : List DefectDescriptor
  blockers : List Text
deriving DecidableEq, Repr

/-- What a verdict asks of the rest of the result. -/
def QAWorkerResult.verdictSupported (data : QAWorkerResult) : Bool :=
  match data.verdict with
  | .pass => data.status = .completed && data.acceptanceResults.all (·.status = .pass) &&
      data.defects.isEmpty &&
      data.blockers.isEmpty && data.challenge = .none
  | .passWithWarnings => true
  | .fail => data.acceptanceResults.any (·.status = .fail)
  | .inconclusive => data.acceptanceResults.any (·.status = .notVerified) ||
      !data.blockers.isEmpty || data.challenge ≠ .none

/-- The validation of a `QAWorkerResult`: it reads the result and nothing else. -/
def QAWorkerResult.validate (w : WordClass) (data : QAWorkerResult) : Py QAWorkerResult := do
  countBetween 1 24 data.acceptanceResults
  let acceptanceResults ← data.acceptanceResults.mapM AcceptanceResult.validate
  countBetween 0 32 data.defects
  let defects ← data.defects.mapM DefectDescriptor.validate
  countBetween 0 16 data.blockers
  let blockers ← data.blockers.mapM fun value => do
    let value ← boundedText 1 500 value
    boundedQaText w value
  distinct blockers
  let criterionIds := acceptanceResults.map (·.criterionId)
  distinct criterionIds
  distinct (defects.map (·.defectKey))
  raiseIf (defects.any fun defect => defect.affectedCriteria.any fun criterion =>
    !criterionIds.contains criterion) .valueError
  let result := { data with
    acceptanceResults := acceptanceResults.insertionSort fun a b => a.criterionId ≤ b.criterionId
    defects := defects.insertionSort fun a b => a.defectKey ≤ b.defectKey
    blockers := blockers.insertionSort (· ≤ ·) }
  raiseIf (!result.verdictSupported) .valueError
  return result

end Novalton.Contracts
