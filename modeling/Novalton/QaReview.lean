/-
The human review summary of quality assurance (`modules/qa_worker/contracts.py`): the
validation of a `QAWorkerResult` with the texts the summary takes from it, the summary, the
constraint of the challenge row that keeps it (`modules/orchestrator/models.py`), and what
the operator view reads of the row (`modules/workflows/operator_view.py`).

Fields of a result that no summary takes have checks of their own and are left out. The row
holds the summary as a JSON value, whose objects are read by their keys.
-/
import Novalton.JsonSize
import Novalton.RoleContracts

namespace Novalton.QaReview

open Contracts

/-! ## Values -/

def verdictValue : QAVerdict → Text
  | .pass => "PASS".toList
  | .passWithWarnings => "PASS_WITH_WARNINGS".toList
  | .fail => "FAIL".toList
  | .inconclusive => "INCONCLUSIVE".toList

def statusValue : AcceptanceResultStatus → Text
  | .pass => "PASS".toList
  | .fail => "FAIL".toList
  | .notVerified => "NOT_VERIFIED".toList

inductive DefectSeverity where
  | low | medium | high | critical
deriving DecidableEq, Repr

def severityValue : DefectSeverity → Text
  | .low => "LOW".toList
  | .medium => "MEDIUM".toList
  | .high => "HIGH".toList
  | .critical => "CRITICAL".toList

/-- The levels of a summary. -/
inductive ReviewLevel where
  | humanReviewRecommended | blockRecommended
deriving DecidableEq, Repr

def levelValue : ReviewLevel → Text
  | .humanReviewRecommended => "HUMAN_REVIEW_RECOMMENDED".toList
  | .blockRecommended => "BLOCK_RECOMMENDED".toList

inductive WarningCategory where
  | regressionRisk | blocker
deriving DecidableEq, Repr

def warningValue : WarningCategory → Text
  | .regressionRisk => "REGRESSION_RISK".toList
  | .blocker => "BLOCKER".toList

inductive RecommendationCategory where
  | test | securityReview | manualReview
deriving DecidableEq, Repr

def recommendationValue : RecommendationCategory → Text
  | .test => "TEST".toList
  | .securityReview => "SECURITY_REVIEW".toList
  | .manualReview => "MANUAL_REVIEW".toList

/-! ## Contracts -/

structure AcceptanceResult where
  criterionId : Text
  status : AcceptanceResultStatus
  rationale : Text
  evidenceReferences : List Text
deriving DecidableEq, Repr

structure DefectDescriptor where
  defectKey : Text
  title : Text
  severity : DefectSeverity
  componentPath : Option Text
  description : Text
  affectedCriteria : List Text
  remediationSummary : Text
deriving DecidableEq, Repr

structure Challenge where
  level : ChallengeLevel
  reason : Option Text
  evidenceSourceReferences : List Text
  suggestedAction : Option Text
deriving DecidableEq, Repr

structure QAWorkerResult where
  status : AgentResultStatus
  challenge : Challenge
  validationSummary : Text
  verdict : QAVerdict
  acceptanceResults : List AcceptanceResult
  defects : List DefectDescriptor
  testRecommendations : List Text
  regressionRisks : List Text
  securityReviewRecommendations : List Text
  manualReviewRecommendations : List Text
  blockers : List Text
deriving DecidableEq, Repr

structure QAHumanReviewWarning where
  category : WarningCategory
  message : Text
deriving DecidableEq, Repr

structure QAHumanReviewRecommendation where
  category : RecommendationCategory
  message : Text
deriving DecidableEq, Repr

structure QAHumanReviewSummary where
  verdict : QAVerdict
  challengeLevel : ReviewLevel
  challengeReason : Text
  challengeEvidenceReferences : List Text
  suggestedAction : Option Text
  validationSummary : Text
  warnings : List QAHumanReviewWarning
  recommendations : List QAHumanReviewRecommendation
  acceptanceResults : List AcceptanceResult
  concerns : List DefectDescriptor
deriving DecidableEq, Repr

/-! ## Dumps -/

def textOrNull : Option Text → JsonTree
  | .none => .null
  | .some value => .string value

def texts (values : List Text) : JsonTree := .array (values.map .string)

def AcceptanceResult.modelDump (item : AcceptanceResult) : JsonTree :=
  .object
    [("criterion_id".toList, .string item.criterionId),
      ("status".toList, .string (statusValue item.status)),
        ("rationale".toList, .string item.rationale),
        ("evidence_references".toList, texts item.evidenceReferences)]

def DefectDescriptor.modelDump (defect : DefectDescriptor) : JsonTree :=
  .object
    [("defect_key".toList, .string defect.defectKey), ("title".toList, .string defect.title),
      ("severity".toList, .string (severityValue defect.severity)),
        ("component_path".toList, textOrNull defect.componentPath),
      ("description".toList, .string defect.description),
        ("affected_criteria".toList, texts defect.affectedCriteria),
      ("remediation_summary".toList, .string defect.remediationSummary)]

def QAHumanReviewWarning.modelDump (warning : QAHumanReviewWarning) : JsonTree :=
  .object [("category".toList, .string (warningValue warning.category)),
    ("message".toList, .string warning.message)]

def QAHumanReviewRecommendation.modelDump (recommendation : QAHumanReviewRecommendation) :
    JsonTree :=
  .object
    [("category".toList, .string (recommendationValue recommendation.category)),
      ("message".toList, .string recommendation.message)]

/-- With `schema_version`, which is always 1. -/
def QAHumanReviewSummary.modelDump (summary : QAHumanReviewSummary) : JsonTree :=
  .object
    [("schema_version".toList, .int 1),
      ("verdict".toList, .string (verdictValue summary.verdict)),
      ("challenge_level".toList, .string (levelValue summary.challengeLevel)),
      ("challenge_reason".toList, .string summary.challengeReason),
      ("challenge_evidence_references".toList, texts summary.challengeEvidenceReferences),
      ("suggested_action".toList, textOrNull summary.suggestedAction),
      ("validation_summary".toList, .string summary.validationSummary),
      ("warnings".toList, .array (summary.warnings.map QAHumanReviewWarning.modelDump)),
      ("recommendations".toList,
        .array (summary.recommendations.map QAHumanReviewRecommendation.modelDump)),
      ("acceptance_results".toList,
        .array (summary.acceptanceResults.map AcceptanceResult.modelDump)),
      ("concerns".toList, .array (summary.concerns.map DefectDescriptor.modelDump))]

def challengeLevelValue : ChallengeLevel → Text
  | .none => "NONE".toList
  | .warning => "WARNING".toList
  | .humanReviewRecommended => "HUMAN_REVIEW_RECOMMENDED".toList
  | .blockRecommended => "BLOCK_RECOMMENDED".toList

def Challenge.modelDump (challenge : Challenge) : JsonTree :=
  .object
    [("level".toList, .string (challengeLevelValue challenge.level)),
      ("reason".toList, textOrNull challenge.reason),
        ("evidence_source_references".toList, texts challenge.evidenceSourceReferences),
      ("suggested_action".toList, textOrNull challenge.suggestedAction)]

def QAWorkerResult.modelDump (result : QAWorkerResult) : JsonTree :=
  .object
    [("challenge".toList, result.challenge.modelDump),
      ("validation_summary".toList, .string result.validationSummary),
      ("verdict".toList, .string (verdictValue result.verdict)),
      ("acceptance_results".toList,
        .array (result.acceptanceResults.map AcceptanceResult.modelDump)),
      ("defects".toList, .array (result.defects.map DefectDescriptor.modelDump)),
      ("test_recommendations".toList, texts result.testRecommendations),
      ("regression_risks".toList, texts result.regressionRisks),
      ("security_review_recommendations".toList, texts result.securityReviewRecommendations),
      ("manual_review_recommendations".toList, texts result.manualReviewRecommendations),
      ("blockers".toList, texts result.blockers)]

/-! ## Validation -/

section
variable (w : WordClass)

/-- The strings of a value, its keys apart. -/
def rejected : JsonTree → Bool
  | .string value => (UNSAFE_TEXT w).search value
  | .array items => rejectedItems items
  | .object fields => rejectedFields fields
  | _ => false
where
  rejectedItems : List JsonTree → Bool
    | [] => false
    | item :: items => rejected item || rejectedItems items
  rejectedFields : List (Text × JsonTree) → Bool
    | [] => false
    | (_, value) :: fields => rejected value || rejectedFields fields

/-- `_reject_unsafe_content` -/
def rejectUnsafeContent (value : JsonTree) : Py Unit := raiseIf (rejected w value) .valueError

/-- A text between one and `most` characters, and `_bounded_qa_text`. -/
def qaText (most : ℕ) (value : Text) : Py Text := do
  lengthBetween 1 most value
  boundedQaText w value

/-- A `ShortText`, and `_bounded_qa_text`. -/
def qaShortText (value : Text) : Py Text := do
  let value ← boundedText 1 500 value
  boundedQaText w value

/-- A validator of a value that may be missing. -/
def whenGiven (validate : Text → Py Text) : Option Text → Py (Option Text)
  | .none => return .none
  | .some value => do
    let value ← validate value
    return .some value

/-- At most `most` values, each of them validated, none of them twice, in order. -/
def sortedTexts (most : ℕ) (validate : Text → Py Text) (values : List Text) : Py (List Text) := do
  countBetween 0 most values
  let values ← values.mapM validate
  distinct values
  return values.insertionSort (· ≤ ·)

/-- `_relative_path` -/
def qaRelativePath (value : Text) : Py Text := do
  let value ← boundedQaText w value
  let value := replace ['\\'] ['/'] value
  raiseIf (['/'].isPrefixOf value || hasDrivePrefix value ||
    (splitSlash value).any [[], ['.'], ['.', '.']].contains) .valueError
  let normalized := relativeText (pureParts value)
  raiseIf (normalized != value || 300 < normalized.length) .valueError
  return normalized

def validatePath (value : Text) : Py Text := do
  lengthBetween 1 300 value
  qaRelativePath w value

def AcceptanceResult.validate (data : AcceptanceResult) : Py AcceptanceResult := do
  let criterionId ← identifierItem data.criterionId
  let rationale ← qaText w 1000 data.rationale
  let evidenceReferences ← sortedTexts 16 (reference w) data.evidenceReferences
  return { data with criterionId := criterionId, rationale := rationale, evidenceReferences :=
    evidenceReferences }

def DefectDescriptor.validate (data : DefectDescriptor) : Py DefectDescriptor := do
  let defectKey ← identifierItem data.defectKey
  let title ← qaText w 300 data.title
  let path ← whenGiven (validatePath w) data.componentPath
  let description ← qaText w 2000 data.description
  let affectedCriteria ← sortedTexts 12 identifierItem data.affectedCriteria
  let remediationSummary ← qaText w 1000 data.remediationSummary
  return {
    defectKey := defectKey
    title := title
    severity := data.severity
    componentPath := path
    description := description
    affectedCriteria := affectedCriteria
    remediationSummary := remediationSummary }

def Challenge.validate (data : Challenge) : Py Challenge := do
  let reason ← whenGiven (fun value => do lengthBetween 1 2000 value; safeText w value) data.reason
  atMost 16 data.evidenceSourceReferences
  let evidence ← data.evidenceSourceReferences.mapM (referenceItem w)
  let suggestedAction ← whenGiven (fun value => do lengthBetween 1 500 value; safeText w value)
    data.suggestedAction
  let challenge : Challenge := ⟨data.level, reason, uniqueSorted evidence, suggestedAction⟩
  raiseIf (challenge.level = .none &&
    (reason.isSome || !challenge.evidenceSourceReferences.isEmpty || suggestedAction.isSome))
    .valueError
  raiseIf (challenge.level ≠ .none && reason.isNone) .valueError
  return challenge

/-- What a verdict asks of the rest of the result. -/
def QAWorkerResult.verdictSupported (data : QAWorkerResult) : Bool :=
  match data.verdict with
  | .pass => data.status = .completed && data.acceptanceResults.all (·.status = .pass) &&
      data.defects.isEmpty &&
      data.blockers.isEmpty && data.challenge.level = .none
  | .passWithWarnings => true
  | .fail => data.acceptanceResults.any (·.status = .fail)
  | .inconclusive =>
    data.acceptanceResults.any (·.status = .notVerified) || !data.blockers.isEmpty ||
      data.challenge.level ≠ .none

def QAWorkerResult.validate (data : QAWorkerResult) : Py QAWorkerResult := do
  let challenge ← data.challenge.validate w
  let validationSummary ← qaText w 3000 data.validationSummary
  countBetween 1 24 data.acceptanceResults
  let acceptanceResults ← data.acceptanceResults.mapM (AcceptanceResult.validate w)
  countBetween 0 32 data.defects
  let defects ← data.defects.mapM (DefectDescriptor.validate w)
  let testRecommendations ← sortedTexts 24 (qaShortText w) data.testRecommendations
  let regressionRisks ← sortedTexts 24 (qaShortText w) data.regressionRisks
  let securityReviewRecommendations ← sortedTexts 24 (qaShortText w)
    data.securityReviewRecommendations
  let manualReviewRecommendations ← sortedTexts 24 (qaShortText w) data.manualReviewRecommendations
  let blockers ← sortedTexts 16 (qaShortText w) data.blockers
  let result : QAWorkerResult :=
    ⟨data.status, challenge, validationSummary, data.verdict, acceptanceResults, defects,
      testRecommendations, regressionRisks, securityReviewRecommendations,
        manualReviewRecommendations, blockers⟩
  rejectUnsafeContent w result.modelDump
  let criterionIds := acceptanceResults.map (·.criterionId)
  distinct criterionIds
  distinct (defects.map (·.defectKey))
  raiseIf (defects.any fun defect => defect.affectedCriteria.any fun criterion =>
    !criterionIds.contains criterion) .valueError
  raiseIf (!result.verdictSupported) .valueError
  return { result with
    acceptanceResults := acceptanceResults.insertionSort fun a b => a.criterionId ≤ b.criterionId
    defects := defects.insertionSort fun a b => a.defectKey ≤ b.defectKey }

def QAHumanReviewWarning.validate (data : QAHumanReviewWarning) : Py QAHumanReviewWarning := do
  let message ← qaShortText w data.message
  return { data with message := message }

def QAHumanReviewRecommendation.validate (data : QAHumanReviewRecommendation) :
    Py QAHumanReviewRecommendation := do
  let message ← qaShortText w data.message
  return { data with message := message }

/-- The class with its nested values made already: instances are not validated again. -/
def QAHumanReviewSummary.validate (data : QAHumanReviewSummary) : Py QAHumanReviewSummary := do
  let challengeReason ← qaText w 2000 data.challengeReason
  let evidence ← sortedTexts 16 (reference w) data.challengeEvidenceReferences
  let suggestedAction ← whenGiven (qaShortText w) data.suggestedAction
  let validationSummary ← qaText w 3000 data.validationSummary
  countBetween 0 40 data.warnings
  countBetween 0 72 data.recommendations
  countBetween 1 24 data.acceptanceResults
  countBetween 0 32 data.concerns
  let summary : QAHumanReviewSummary := { data with
    challengeReason := challengeReason
    challengeEvidenceReferences := evidence
    suggestedAction := suggestedAction
    validationSummary := validationSummary }
  rejectUnsafeContent w summary.modelDump
  return summary

/-- The levels that a summary is made for. -/
def reviewLevel : ChallengeLevel → Option ReviewLevel
  | .humanReviewRecommended => .some .humanReviewRecommended
  | .blockRecommended => .some .blockRecommended
  | _ => .none

/-- `human_review_summary` -/
def humanReviewSummary (result : QAWorkerResult) : Py QAHumanReviewSummary := do
  let level ← orRaise (reviewLevel result.challenge.level) .valueError
  let reason ← orRaise result.challenge.reason .assertionError
  let risks ← result.regressionRisks.mapM fun value =>
    QAHumanReviewWarning.validate w ⟨.regressionRisk, value⟩
  let blockers ← result.blockers.mapM fun value => QAHumanReviewWarning.validate w ⟨.blocker, value⟩
  let tests ← result.testRecommendations.mapM fun value =>
    QAHumanReviewRecommendation.validate w ⟨.test, value⟩
  let security ← result.securityReviewRecommendations.mapM fun value =>
    QAHumanReviewRecommendation.validate w ⟨.securityReview, value⟩
  let manual ← result.manualReviewRecommendations.mapM fun value =>
    QAHumanReviewRecommendation.validate w ⟨.manualReview, value⟩
  QAHumanReviewSummary.validate w {
    verdict := result.verdict
    challengeLevel := level
    challengeReason := reason
    challengeEvidenceReferences := result.challenge.evidenceSourceReferences
    suggestedAction := result.challenge.suggestedAction
    validationSummary := result.validationSummary
    warnings := risks ++ blockers
    recommendations := tests ++ security ++ manual
    acceptanceResults := result.acceptanceResults
    concerns := result.defects }

/-! ## The row -/

/-- `octet_length(safe_review_summary::text) <= 524288` -/
def storable (summary : QAHumanReviewSummary) : Bool :=
  decide ((encode (summary.modelDump.write JsonTree.jsonbStyle)).length ≤ 524288)

/-! ## The operator view -/

/-- The fields of an object, which are among those of its class. -/
def fieldsOf (known : List Text) : JsonTree → Py (List (Text × JsonTree))
  | .object fields => do
    raiseIf (!fields.all fun field => known.contains field.1) .valueError
    return fields
  | _ => .error .valueError

/-- A field of an object. -/
def given {α} (fields : List (Text × JsonTree)) (key : Text) (read : JsonTree → Py α) : Py α :=
  match fields.lookup key with
  | .some value => read value
  | .none => .error .valueError

/-- A field with a default. -/
def givenOr {α} (fields : List (Text × JsonTree)) (key : Text) (value : α)
    (read : JsonTree → Py α) : Py α :=
  match fields.lookup key with
  | .some tree => read tree
  | .none => .ok value

def readText : JsonTree → Py Text
  | .string value => .ok value
  | _ => .error .valueError

def readOptional : JsonTree → Py (Option Text)
  | .null => .ok .none
  | .string value => .ok (.some value)
  | _ => .error .valueError

def readList {α} (read : JsonTree → Py α) : JsonTree → Py (List α)
  | .array items => items.mapM read
  | _ => .error .valueError

/-- A member of an enumeration, or a literal. -/
def readMember {α} (members : List α) (value : α → Text) (tree : JsonTree) : Py α := do
  let text ← readText tree
  orRaise (members.find? fun member => value member == text) .valueError

def readOne : JsonTree → Py Unit
  | .number ['1'] => .ok ()
  | _ => .error .valueError

def readAcceptanceResult (tree : JsonTree) : Py AcceptanceResult := do
  let fields ← fieldsOf ["criterion_id".toList, "status".toList, "rationale".toList,
    "evidence_references".toList] tree
  let criterionId ← given fields "criterion_id".toList readText
  let status ← given fields "status".toList (readMember [.pass, .fail, .notVerified] statusValue)
  let rationale ← given fields "rationale".toList readText
  let evidenceReferences ← givenOr fields "evidence_references".toList [] (readList readText)
  AcceptanceResult.validate w ⟨criterionId, status, rationale, evidenceReferences⟩

def readDefect (tree : JsonTree) : Py DefectDescriptor := do
  let fields ← fieldsOf ["defect_key".toList, "title".toList, "severity".toList,
    "component_path".toList, "description".toList, "affected_criteria".toList,
      "remediation_summary".toList] tree
  let defectKey ← given fields "defect_key".toList readText
  let title ← given fields "title".toList readText
  let severity ← given fields "severity".toList
    (readMember [.low, .medium, .high, .critical] severityValue)
  let path ← givenOr fields "component_path".toList .none readOptional
  let description ← given fields "description".toList readText
  let affectedCriteria ← givenOr fields "affected_criteria".toList [] (readList readText)
  let remediationSummary ← given fields "remediation_summary".toList readText
  DefectDescriptor.validate w ⟨defectKey, title, severity, path, description, affectedCriteria,
    remediationSummary⟩

def readWarning (tree : JsonTree) : Py QAHumanReviewWarning := do
  let fields ← fieldsOf ["category".toList, "message".toList] tree
  let category ← given fields "category".toList
    (readMember [.regressionRisk, .blocker] warningValue)
  let message ← given fields "message".toList readText
  QAHumanReviewWarning.validate w ⟨category, message⟩

def readRecommendation (tree : JsonTree) : Py QAHumanReviewRecommendation := do
  let fields ← fieldsOf ["category".toList, "message".toList] tree
  let category ← given fields "category".toList
    (readMember [.test, .securityReview, .manualReview] recommendationValue)
  let message ← given fields "message".toList readText
  QAHumanReviewRecommendation.validate w ⟨category, message⟩

def summaryKeys : List Text :=
  ["schema_version".toList, "verdict".toList, "challenge_level".toList, "challenge_reason".toList,
    "challenge_evidence_references".toList, "suggested_action".toList, "validation_summary".toList,
      "warnings".toList,
    "recommendations".toList, "acceptance_results".toList, "concerns".toList]

/-- `QAHumanReviewSummary.model_validate_json(json.dumps(row.safe_review_summary))` -/
def operatorSummary (row : JsonTree) : Py QAHumanReviewSummary := do
  let fields ← fieldsOf summaryKeys row
  givenOr fields "schema_version".toList () readOne
  let verdict ← given fields "verdict".toList
    (readMember [.pass, .passWithWarnings, .fail, .inconclusive] verdictValue)
  let level ← given fields "challenge_level".toList
    (readMember [.humanReviewRecommended, .blockRecommended] levelValue)
  let reason ← given fields "challenge_reason".toList readText
  let evidence ← givenOr fields "challenge_evidence_references".toList [] (readList readText)
  let suggestedAction ← givenOr fields "suggested_action".toList .none readOptional
  let validationSummary ← given fields "validation_summary".toList readText
  let warnings ← given fields "warnings".toList (readList (readWarning w))
  let recommendations ← given fields "recommendations".toList (readList (readRecommendation w))
  let acceptanceResults ← given fields "acceptance_results".toList
    (readList (readAcceptanceResult w))
  let concerns ← given fields "concerns".toList (readList (readDefect w))
  QAHumanReviewSummary.validate w
    ⟨verdict, level, reason, evidence, suggestedAction, validationSummary, warnings,
      recommendations, acceptanceResults, concerns⟩

end

end Novalton.QaReview
