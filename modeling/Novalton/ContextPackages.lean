/-
Context packages of memories (`modules/memories/context_packages.py`, `disclosure.py` and
`schemas.py`): what a retrieval returns is assembled in its order, under bounds, into groups
of a package that records the size of its own text, and a package is filtered for the target
it goes to.

How a float is written is a parameter. Fields of a retrieval result that no package holds
are left out.
-/
import Novalton.JsonSize
import Novalton.ModelCatalog

namespace Novalton.ContextPackages

open Catalog (ExecutionTargetClass)

/-! ## Values -/

inductive MemoryKind where
  | fact | decision | preference | constraint | event | note
deriving DecidableEq, Repr

def MemoryKind.value : MemoryKind → Text
  | .fact => "FACT".toList
  | .decision => "DECISION".toList
  | .preference => "PREFERENCE".toList
  | .constraint => "CONSTRAINT".toList
  | .event => "EVENT".toList
  | .note => "NOTE".toList

inductive KnowledgeState where
  | confirmedFact | observedFact | inference | hypothesis | disputed | obsolete
deriving DecidableEq, Repr

def KnowledgeState.value : KnowledgeState → Text
  | .confirmedFact => "CONFIRMED_FACT".toList
  | .observedFact => "OBSERVED_FACT".toList
  | .inference => "INFERENCE".toList
  | .hypothesis => "HYPOTHESIS".toList
  | .disputed => "DISPUTED".toList
  | .obsolete => "OBSOLETE".toList

inductive MemoryLifecycle where
  | active | archived
deriving DecidableEq, Repr

def MemoryLifecycle.value : MemoryLifecycle → Text
  | .active => "ACTIVE".toList
  | .archived => "ARCHIVED".toList

inductive MemoryModelAccess where
  | localOnly | localAndRemote
deriving DecidableEq, Repr

def MemoryModelAccess.value : MemoryModelAccess → Text
  | .localOnly => "LOCAL_ONLY".toList
  | .localAndRemote => "LOCAL_AND_REMOTE".toList

inductive ProvenanceSourceType where
  | userStatement | toolObservation | document | agentResult | systemEvent | derivedFromMemory
  | manualEdit
deriving DecidableEq, Repr

def ProvenanceSourceType.value : ProvenanceSourceType → Text
  | .userStatement => "USER_STATEMENT".toList
  | .toolObservation => "TOOL_OBSERVATION".toList
  | .document => "DOCUMENT".toList
  | .agentResult => "AGENT_RESULT".toList
  | .systemEvent => "SYSTEM_EVENT".toList
  | .derivedFromMemory => "DERIVED_FROM_MEMORY".toList
  | .manualEdit => "MANUAL_EDIT".toList

/-- The text of a float in pydantic's JSON and in Python's. -/
structure FloatText (F : Type) where
  json : F → Text
  repr : F → Text

/-- The last `width` decimal digits of a number. -/
def padded : ℕ → ℕ → Text
  | 0, _ => []
  | width + 1, n => padded width (n / 10) ++ [Nat.digitChar (n % 10)]

/-- `datetime`, with `utcoffset()` in seconds. -/
structure Datetime where
  year : ℕ
  month : ℕ
  day : ℕ
  hour : ℕ
  minute : ℕ
  second : ℕ
  microsecond : ℕ
  offset : Option Int
  date_valid : 1 ≤ year ∧ year ≤ 9999 ∧ 1 ≤ month ∧ month ≤ 12 ∧ 1 ≤ day ∧ day ≤ 31
  time_valid : hour < 24 ∧ minute < 60 ∧ second < 60 ∧ microsecond < 1000000
  offset_valid : ∀ seconds ∈ offset, seconds.natAbs < 86400
deriving DecidableEq

namespace Datetime

/-- Date and time, with the microseconds unless they are zero. -/
def stem (d : Datetime) : Text :=
  padded 4 d.year ++ '-' ::
    (padded 2 d.month ++ '-' :: (padded 2 d.day ++ 'T' :: (padded 2 d.hour ++
    ':' :: (padded 2 d.minute ++ ':' :: (padded 2 d.second ++
    if d.microsecond = 0 then [] else '.' :: padded 6 d.microsecond)))))

/-- The sign, hours and minutes of an offset. -/
def offsetText (seconds : Int) : Text :=
  (if seconds < 0 then '-' else '+') ::
    (padded 2 (seconds.natAbs / 3600) ++ ':' :: padded 2 (seconds.natAbs / 60 % 60))

/-- `d.isoformat()`: the seconds of an offset are written unless they are zero. -/
def isoformat (d : Datetime) : Text :=
  d.stem ++
    match d.offset with
    | .none => []
    | .some seconds =>
      offsetText seconds ++ if seconds.natAbs % 60 = 0 then []
        else ':' :: padded 2 (seconds.natAbs % 60)

/-- What pydantic's JSON holds: UTC is `Z`, and an offset has no seconds. -/
def json (d : Datetime) : Text :=
  d.stem ++
    match d.offset with
    | .none => []
    | .some seconds => if seconds = 0 then ['Z'] else offsetText seconds

end Datetime

/-- A value or `null`. -/
def orNull {α} (dump : α → JsonTree) : Option α → JsonTree
  | .none => .null
  | .some value => dump value

/-- The longest list Python holds (`sys.maxsize`). -/
def maxsize : ℕ := 2 ^ 63 - 1

/-- A Python sequence. -/
structure Sequence (α : Type) where
  items : List α
  length_le : items.length ≤ maxsize

/-! ## Contracts -/

structure ContextPackageBounds where
  maxItems : ℕ
  maxSerializedBytes : ℕ
  maxProvenancePerItem : ℕ
  maxProvenanceReferences : ℕ
  maxItems_valid : 1 ≤ maxItems ∧ maxItems ≤ 50
  maxSerializedBytes_valid : 1024 ≤ maxSerializedBytes ∧ maxSerializedBytes ≤ 262144
  maxProvenancePerItem_valid : 1 ≤ maxProvenancePerItem ∧ maxProvenancePerItem ≤ 16
  maxProvenanceReferences_valid : 1 ≤ maxProvenanceReferences ∧ maxProvenanceReferences ≤ 800

def defaultContextPackageBounds : ContextPackageBounds :=
  ⟨12, 16384, 4, 32, by decide, by decide, by decide, by decide⟩

def ContextPackageBounds.modelDump (bounds : ContextPackageBounds) : JsonTree :=
  .object
    [("max_items".toList, .int bounds.maxItems),
      ("max_serialized_bytes".toList, .int bounds.maxSerializedBytes),
      ("max_provenance_per_item".toList, .int bounds.maxProvenancePerItem),
      ("max_provenance_references".toList, .int bounds.maxProvenanceReferences)]

/-- `MemoryProvenanceResponse` -/
structure MemoryProvenance where
  id : Uuid
  sourceType : ProvenanceSourceType
  sourceReferenceId : Option Text
  createdAt : Datetime

structure MemoryRetrievalResult (F : Type) where
  id : Uuid
  workspaceId : Uuid
  projectId : Option Uuid
  taskId : Option Uuid
  workflowRunId : Option Uuid
  kind : MemoryKind
  knowledgeState : KnowledgeState
  statement : Text
  confidence : F
  importance : Int
  validFrom : Datetime
  validTo : Option Datetime
  lifecycle : MemoryLifecycle
  modelAccess : MemoryModelAccess
  provenance : List MemoryProvenance
  lexicalRelevance : Option F

/-- The scope of a `MemoryRetrievalRequest`. -/
structure MemoryRetrievalRequest where
  projectId : Option Uuid
  taskId : Option Uuid
  workflowRunId : Option Uuid

structure ContextPackageProvenance where
  id : Uuid
  sourceType : Text
  sourceReferenceId : Option Text
  createdAt : Datetime

def ContextPackageProvenance.modelDump (provenance : ContextPackageProvenance) : JsonTree :=
  .object
    [("id".toList, .string provenance.id.str),
      ("source_type".toList, .string provenance.sourceType),
      ("source_reference_id".toList, orNull .string provenance.sourceReferenceId),
      ("created_at".toList, .string provenance.createdAt.json)]

structure ContextPackageItem (F : Type) where
  memoryId : Uuid
  statement : Text
  kind : MemoryKind
  knowledgeState : KnowledgeState
  lifecycle : MemoryLifecycle
  confidence : F
  importance : Int
  validFrom : Datetime
  validTo : Option Datetime
  provenance : List ContextPackageProvenance
  provenanceOmittedCount : ℕ
  lexicalRelevance : Option F
  modelAccess : MemoryModelAccess

/-- The groups of a package, by their names. -/
inductive Group where
  | facts | decisions | preferences | constraints | relevantEvents | relevantNotes | disputed
deriving DecidableEq, Repr

def Group.name : Group → Text
  | .facts => "facts".toList
  | .decisions => "decisions".toList
  | .preferences => "preferences".toList
  | .constraints => "constraints".toList
  | .relevantEvents => "relevant_events".toList
  | .relevantNotes => "relevant_notes".toList
  | .disputed => "disputed".toList

/-- `_GROUP_BY_KIND` -/
def groupByKind : MemoryKind → Group
  | .fact => .facts
  | .decision => .decisions
  | .preference => .preferences
  | .constraint => .constraints
  | .event => .relevantEvents
  | .note => .relevantNotes

/-- `_GROUP_NAMES` -/
def groupNames : List Group :=
  [.facts, .decisions, .preferences, .constraints, .relevantEvents, .relevantNotes, .disputed]

abbrev Groups (F : Type) := Group → List (ContextPackageItem F)

/-- `ContextPackage`: its seven groups are fields of it, read by their names. -/
structure ContextPackage (F : Type) where
  workspaceId : Uuid
  projectId : Option Uuid
  taskId : Option Uuid
  workflowRunId : Option Uuid
  assembledAt : Datetime
  asOf : Datetime
  groups : Groups F
  includedCount : ℕ
  omittedCount : ℕ
  provenanceOmittedCount : ℕ
  policyOmittedCount : ℕ
  serializedBytes : ℕ
  bounds : ContextPackageBounds

/-- What assembling and filtering raise. -/
inductive Raised where
  | valueError (message : String)
  | validationError (message : String)
  | runtimeError (message : String)
deriving DecidableEq

section
variable {F : Type} (lib : FloatText F)

def ContextPackageItem.modelDump (item : ContextPackageItem F) : JsonTree :=
  .object
    [("memory_id".toList, .string item.memoryId.str),
      ("statement".toList, .string item.statement),
      ("kind".toList, .string item.kind.value),
      ("knowledge_state".toList, .string item.knowledgeState.value),
      ("lifecycle".toList, .string item.lifecycle.value),
      ("confidence".toList, .number (lib.json item.confidence)),
      ("importance".toList, .int item.importance),
      ("valid_from".toList, .string item.validFrom.json),
      ("valid_to".toList, orNull (fun d => .string d.json) item.validTo),
      ("provenance".toList, .array (item.provenance.map ContextPackageProvenance.modelDump)),
      ("provenance_omitted_count".toList, .int item.provenanceOmittedCount),
      ("lexical_relevance".toList, orNull (fun x => .number (lib.json x)) item.lexicalRelevance),
      ("model_access".toList, .string item.modelAccess.value)]

def ContextPackage.modelDump (package : ContextPackage F) : JsonTree :=
  .object
    ([("workspace_id".toList, .string package.workspaceId.str),
        ("project_id".toList, orNull (fun id => .string id.str) package.projectId),
        ("task_id".toList, orNull (fun id => .string id.str) package.taskId),
        ("workflow_run_id".toList, orNull (fun id => .string id.str) package.workflowRunId),
        ("assembled_at".toList, .string package.assembledAt.json),
        ("as_of".toList, .string package.asOf.json)] ++
      groupNames.map (fun name =>
        (name.name, .array ((package.groups name).map fun item => item.modelDump lib))) ++
      [("included_count".toList, .int package.includedCount),
        ("omitted_count".toList, .int package.omittedCount),
        ("provenance_omitted_count".toList, .int package.provenanceOmittedCount),
        ("policy_omitted_count".toList, .int package.policyOmittedCount),
        ("serialized_bytes".toList, .int package.serializedBytes),
        ("bounds".toList, package.bounds.modelDump)])

/-- `package.model_dump_json()`: the fields in the order of the class, without blanks. -/
def ContextPackage.modelDumpJson (package : ContextPackage F) : Text :=
  (package.modelDump lib).compact

/-- `_serialized_bytes` -/
def serializedBytes (package : ContextPackage F) : Except Raised ℕ :=
  match settle (fun size =>
    (encode ({ package with serializedBytes := size }.modelDumpJson lib)).length) 4
      package.serializedBytes with
  | .some size => .ok size
  | .none => .error (.runtimeError "context package serialized size did not converge")

/-! ## Assembly -/

/-- What `assemble_context_package` is given beside the results. -/
structure AssemblyArguments where
  workspaceId : Uuid
  request : MemoryRetrievalRequest
  asOf : Datetime
  assembledAt : Datetime
  bounds : ContextPackageBounds

variable (call : AssemblyArguments)

/-- `sum(len(group) for group in groups.values())` -/
def countItems (groups : Groups F) : ℕ := (groupNames.map fun name => (groups name).length).sum

/-- The fields `_package` gives its class. -/
def draft (groups : Groups F) (totalResults provenanceOmittedCount : ℕ) : ContextPackage F where
  workspaceId := call.workspaceId
  projectId := call.request.projectId
  taskId := call.request.taskId
  workflowRunId := call.request.workflowRunId
  assembledAt := call.assembledAt
  asOf := call.asOf
  groups := groups
  includedCount := countItems groups
  omittedCount := totalResults - countItems groups
  provenanceOmittedCount := provenanceOmittedCount
  policyOmittedCount := 0
  serializedBytes := 0
  bounds := call.bounds

/-- `_package`, with the checks of its class: no count is negative, and a task comes with
its project. -/
def package (groups : Groups F) (totalResults provenanceOmittedCount : ℕ) :
    Except Raised (ContextPackage F) :=
  if totalResults < countItems groups then
    .error (.validationError "Input should be greater than or equal to 0")
  else if call.request.taskId.isSome && call.request.projectId.isNone then
    .error (.validationError "task_id requires project_id")
  else .ok (draft call groups totalResults provenanceOmittedCount)

/-- `ContextPackageProvenance.model_validate(provenance, from_attributes=True)` -/
def MemoryProvenance.retained (provenance : MemoryProvenance) : ContextPackageProvenance :=
  ⟨provenance.id, provenance.sourceType.value, provenance.sourceReferenceId, provenance.createdAt⟩

/-- `_item` -/
def item (bounds : ContextPackageBounds) (remainingProvenance : ℕ)
    (result : MemoryRetrievalResult F) : ContextPackageItem F :=
  let provenanceLimit := min bounds.maxProvenancePerItem remainingProvenance
  let retained := (result.provenance.take provenanceLimit).map MemoryProvenance.retained
  { memoryId := result.id
    statement := result.statement
    kind := result.kind
    knowledgeState := result.knowledgeState
    lifecycle := result.lifecycle
    confidence := result.confidence
    importance := result.importance
    validFrom := result.validFrom
    validTo := result.validTo
    provenance := retained
    provenanceOmittedCount := result.provenance.length - retained.length
    lexicalRelevance := result.lexicalRelevance
    modelAccess := result.modelAccess }

/-- A scope value that is asked for is that of the result. -/
def scopeAllows (requested value : Option Uuid) : Bool := requested.isNone || value == requested

/-- `_validate_result_scope` -/
def validateResultScope (result : MemoryRetrievalResult F) : Except Raised Unit :=
  if result.workspaceId ≠ call.workspaceId then
    .error (.valueError "retrieval results must belong to the requested workspace")
  else if scopeAllows call.request.projectId result.projectId &&
    scopeAllows call.request.taskId result.taskId &&
      scopeAllows call.request.workflowRunId result.workflowRunId then .ok ()
  else .error (.valueError "retrieval result does not satisfy the requested scope")

def groupOf (result : MemoryRetrievalResult F) : Group :=
  if result.knowledgeState = .disputed then .disputed else groupByKind result.kind

/-- `groups[name].append(item)` -/
def Groups.append (groups : Groups F) (name : Group) (item : ContextPackageItem F) : Groups F :=
  fun other => if other = name then groups other ++ [item] else groups other

/-- `groups[name].pop()` -/
def Groups.pop (groups : Groups F) (name : Group) : Groups F :=
  fun other => if other = name then (groups other).dropLast else groups other

/-- The variables of the loop of `assemble_context_package`. -/
structure Assembling (F : Type) where
  groups : Groups F
  retainedProvenance : ℕ
  omittedProvenance : ℕ

/-- One round of the loop. -/
def consider (totalResults : ℕ) (loop : Assembling F) (result : MemoryRetrievalResult F) :
    Except Raised (Assembling F) :=
  if call.bounds.maxItems ≤ countItems loop.groups then .ok loop
  else do
    let candidateItem :=
      item call.bounds (call.bounds.maxProvenanceReferences - loop.retainedProvenance) result
    let group := groupOf result
    let groups := loop.groups.append group candidateItem
    let candidate ← package call groups totalResults (loop.omittedProvenance +
      candidateItem.provenanceOmittedCount)
    let size ← serializedBytes lib candidate
    if call.bounds.maxSerializedBytes < size then .ok { loop with groups := groups.pop group }
    else
      .ok {
        groups := groups
        retainedProvenance := loop.retainedProvenance + candidateItem.provenance.length
        omittedProvenance := loop.omittedProvenance + candidateItem.provenanceOmittedCount }

def assembleContextPackage (results : Sequence (MemoryRetrievalResult F)) :
    Except Raised (ContextPackage F) := do
  let totalResults := results.items.length
  results.items.forM (validateResultScope call)
  let loop ← results.items.foldlM (consider lib call totalResults) ⟨fun _ => [], 0, 0⟩
  let package ← package call loop.groups totalResults loop.omittedProvenance
  let size ← serializedBytes lib package
  if call.bounds.maxSerializedBytes < size then
    .error (.runtimeError "context package bounds cannot encode package metadata")
  else .ok { package with serializedBytes := size }

/-! ## Filtering -/

structure MemoryDisclosureDecision where
  eligible : Bool
  reasonCode : Option Text

def evaluateMemoryDisclosure (modelAccess : MemoryModelAccess) (target : ExecutionTargetClass) :
    MemoryDisclosureDecision :=
  if target = .local then ⟨true, .none⟩
  else if modelAccess = .localAndRemote then ⟨true, .none⟩
  else ⟨false, .some "local_only".toList⟩

def eligible (target : ExecutionTargetClass) (item : ContextPackageItem F) : Bool :=
  (evaluateMemoryDisclosure item.modelAccess target).eligible

def filterContextPackageForTarget (package : ContextPackage F) (target : ExecutionTargetClass) :
    Except Raised (ContextPackage F) := do
  let policyOmittedCount :=
    (groupNames.map fun name => (package.groups name).countP fun item => !eligible target item).sum
  let filtered : ContextPackage F :=
    { package with
      groups := fun name => (package.groups name).filter (eligible target)
      includedCount := package.includedCount - policyOmittedCount
      omittedCount := package.omittedCount + policyOmittedCount
      policyOmittedCount := package.policyOmittedCount + policyOmittedCount
      serializedBytes := 0 }
  let size ← serializedBytes lib filtered
  if filtered.bounds.maxSerializedBytes < size then
    .error (.runtimeError "filtered context package exceeds the frozen package bound")
  else .ok { filtered with serializedBytes := size }

end

/-! ## Sizes -/

section
open JsonTree

theorem padded_length : ∀ width n : ℕ, (padded width n).length = width
  | 0, _ => rfl
  | width + 1, n => by rw [padded, List.length_append, padded_length width, List.length_singleton]

theorem padded_verbatim : ∀ width n : ℕ, (padded width n).all verbatim = true
  | 0, _ => rfl
  | width + 1, n => by
    have hdigit : ∀ k : Fin 10, verbatim (Nat.digitChar k.val) = true := by decide
    have hlast := hdigit ⟨n % 10, Nat.mod_lt n (by decide)⟩
    rw [padded, List.all_append, padded_verbatim width, List.all_cons, List.all_nil, hlast]
    rfl

namespace Datetime

theorem stem_verbatim (d : Datetime) : d.stem.all verbatim = true := by
  have hmark : verbatim '-' = true ∧ verbatim 'T' = true ∧ verbatim ':' = true ∧
    verbatim '.' = true := by decide
  rw [stem]
  split <;> simp [padded_verbatim, hmark]

theorem stem_length (d : Datetime) : d.stem.length ≤ 26 := by
  rw [stem]
  split <;> simp [padded_length]

theorem offsetText_verbatim (seconds : Int) : (offsetText seconds).all verbatim = true := by
  have hmark : verbatim '-' = true ∧ verbatim '+' = true ∧ verbatim ':' = true := by decide
  rw [offsetText]
  split <;> simp [padded_verbatim, hmark]

theorem offsetText_length (seconds : Int) : (offsetText seconds).length = 6 := by
  simp [offsetText, padded_length]

theorem json_verbatim (d : Datetime) : d.json.all verbatim = true := by
  have hz : verbatim 'Z' = true := by decide
  rw [json, List.all_append, stem_verbatim]
  cases d.offset with
  | none => rfl
  | some seconds =>
    by_cases h : seconds = 0
    · simp [h, hz]
    · simp [h, offsetText_verbatim]

theorem json_length (d : Datetime) : d.json.length ≤ 32 := by
  have hstem := stem_length d
  rw [json, List.length_append]
  cases d.offset with
  | none =>
    show d.stem.length + 0 ≤ 32
    omega
  | some seconds =>
    have htail : (if seconds = 0 then ['Z'] else offsetText seconds).length ≤ 6 := by
      split
      · exact (by decide : 1 ≤ 6)
      · rw [offsetText_length]
    show d.stem.length + (if seconds = 0 then ['Z'] else offsetText seconds).length ≤ 32
    omega

theorem size_json (d : Datetime) : (string d.json).size = d.json.length + 2 :=
  size_verbatim d.json_verbatim

end Datetime

theorem size_uuid (id : Uuid) : (string id.str).size = 38 := by
  rw [size_verbatim (uuid_verbatim id), Uuid.length_str]

theorem size_optional_uuid (id : Option Uuid) :
    (orNull (fun id => string id.str) id).size ≤ 38 := by
  cases id with
  | none => exact (by decide : 4 ≤ 38)
  | some id => exact (size_uuid id).le

theorem size_bounds (bounds : ContextPackageBounds) :
    bounds.modelDump.size = 94 + numeralLength bounds.maxItems +
      numeralLength bounds.maxSerializedBytes +
      numeralLength bounds.maxProvenancePerItem + numeralLength bounds.maxProvenanceReferences := by
  have hframe :
    frame ["max_items".toList, "max_serialized_bytes".toList, "max_provenance_per_item".toList,
      "max_provenance_references".toList] = 94 := by
    rw [frame_verbatim (by decide)]
    rfl
  rw [ContextPackageBounds.modelDump, size_object]
  simp only [List.map_cons, List.map_nil, List.sum_cons, List.sum_nil, size_int]
  omega

def packageKeys : List Text :=
  ["workspace_id".toList, "project_id".toList, "task_id".toList, "workflow_run_id".toList,
    "assembled_at".toList, "as_of".toList] ++ groupNames.map Group.name ++
    ["included_count".toList, "omitted_count".toList, "provenance_omitted_count".toList,
      "policy_omitted_count".toList, "serialized_bytes".toList, "bounds".toList]

theorem frame_packageKeys : frame packageKeys = 304 := by
  rw [frame_verbatim (by decide)]
  rfl

variable {F : Type} (lib : FloatText F)

/-- The bytes of the groups of a package. -/
def content (groups : Groups F) : ℕ :=
  (groupNames.map fun name => (array ((groups name).map fun item => item.modelDump lib)).size).sum

/-- The bytes of a package beside its groups and the digits of its own size. -/
def ContextPackage.envelope (package : ContextPackage F) : ℕ :=
  frame packageKeys + (string package.workspaceId.str).size +
    (orNull (fun id => string id.str) package.projectId).size +
    (orNull (fun id => string id.str) package.taskId).size +
      (orNull (fun id => string id.str) package.workflowRunId).size +
    (string package.assembledAt.json).size + (string package.asOf.json).size +
      numeralLength package.includedCount +
    numeralLength package.omittedCount + numeralLength package.provenanceOmittedCount +
      numeralLength package.policyOmittedCount +
    package.bounds.modelDump.size

theorem size_modelDump (package : ContextPackage F) :
    (package.modelDump lib).size = package.envelope + content lib package.groups +
    numeralLength package.serializedBytes := by
  have hkeys : ∀ groups : Groups F,
      (groupNames.map fun name =>
        (name.name, JsonTree.array ((groups name).map fun item => item.modelDump lib))).map
        Prod.fst =
        groupNames.map Group.name := fun groups => by
    rw [List.map_map]
    rfl
  have hgroups : ∀ groups : Groups F,
      ((groupNames.map fun name =>
        (name.name, JsonTree.array ((groups name).map fun item => item.modelDump lib))).map
        fun field => field.2.size).sum = content lib groups := fun groups => by
    rw [List.map_map]
    rfl
  rw [ContextPackage.modelDump, size_object, List.map_append, List.map_append, List.map_append,
    List.map_append, hkeys, List.sum_append, List.sum_append, hgroups]
  simp only [List.map_cons, List.map_nil, List.sum_cons, List.sum_nil, size_int]
  rw [ContextPackage.envelope, packageKeys]
  omega

/-- The size that a package settles on. -/
def ContextPackage.settledSize (package : ContextPackage F) : ℕ :=
  settled (package.envelope + content lib package.groups)

/-- A package that holds no size yet is measured without fail. -/
theorem serializedBytes_eq (package : ContextPackage F) (h : package.serializedBytes = 0) :
    serializedBytes lib package = .ok (package.settledSize lib) := by
  have hmeasure :
    (fun size => (encode ({ package with serializedBytes := size }.modelDumpJson lib)).length) =
      fun size => package.envelope + content lib package.groups + numeralLength size := by
    funext size
    exact size_modelDump lib { package with serializedBytes := size }
  rw [serializedBytes, h, hmeasure, settle_eq]
  rfl

/-- A package holds the size of its own text. -/
theorem settled_recorded {package : ContextPackage F}
    (h : package.serializedBytes = package.settledSize lib) :
    package.serializedBytes = (encode (package.modelDumpJson lib)).length := by
  have hfixed := settled_fixed (package.envelope + content lib package.groups)
  have hsize : (encode (package.modelDumpJson lib)).length =
      package.envelope + content lib package.groups + numeralLength package.serializedBytes :=
        size_modelDump lib package
  rw [hsize, h]
  exact hfixed.symm

end

end Novalton.ContextPackages
