/-
The policy service's `evaluate` and the approvals service's `create_approval`
(`modules/policy/service.py`, `modules/approvals/service.py`): a decision, the audit
record of it, and the approval a decision to confirm lets be requested.

Both audit records carry the ids of all the rules that matched, in an object whose values
are counted. `evaluate` writes five values beside the ids and `create_approval` seven, so
a decision is lost to its audit record from 60 matching rules on, and an approval from 58.
-/
import Novalton.AuditMetadata
import Novalton.PolicyLaws

namespace Novalton.Policy

open Audit
open Contracts (WordClass)
open JsonTree
  (measure measure_cons measure_quote measure_array measure_object utf8Width utf8Width_ascii
  length_encode)

/-- `^[a-z][a-z0-9_]*(?:\.[a-z][a-z0-9_]*)+$` -/
def ACTION : Regex := .seq segment (.plus (.seq (.literal ".".toList) segment))

/-- `PolicyEvaluationRequest.validate_request`, with the length of the action. -/
def validateRequest (action : Text) (actorType actorId resourceType : Option Text)
    (resourceId projectId taskId : Option Uuid) :
    Bool :=
  3 ≤ action.length && action.length ≤ 100 && ACTION.fullmatch action && validType actorType &&
    validType resourceType &&
    resourceType.isNone == resourceId.isNone && !(actorId.isSome && actorType.isNone) &&
      !(taskId.isSome && projectId.isNone) &&
    !(resourceType == .some "project".toList && resourceId != projectId) &&
    !(resourceType == .some "task".toList && resourceId != taskId)

/-- A valid `PolicyEvaluationRequest`. -/
structure ScopedRequest where
  tenantId : Uuid
  workspaceId : Uuid
  action : Text
  actorType : Option Text
  actorId : Option Text
  resourceType : Option Text
  resourceId : Option Uuid
  projectId : Option Uuid
  taskId : Option Uuid
  context : PolicyEvaluationContext
  valid : validateRequest action actorType actorId resourceType resourceId projectId taskId = true

/-- What evaluation reads of the request. -/
def ScopedRequest.evaluated (request : ScopedRequest) : PolicyEvaluationRequest :=
  ⟨request.action, request.actorType, request.resourceType, request.context⟩

/-- A `PolicyRule` row. -/
structure PolicyRule where
  tenantId : Uuid
  workspaceId : Option Uuid
  enabled : Bool
  rule : EvaluationRule

structure AuditRecord where
  tenantId : Uuid
  workspaceId : Uuid
  projectId : Option Uuid
  taskId : Option Uuid
  resourceType : Option Text
  resourceId : Option Uuid
  action : Text
  actorType : Text
  outcome : Text
  metadata : JsonTree

structure ApprovalRequest where
  id : Uuid
  request : ScopedRequest
  status : Text
  scopeType : Text
  policyEffect : PolicyEffect
  matchedRuleIds : List Uuid
  policyReasons : List Text
  mutationFingerprint : Option Text

/-- The rows the two services read and write; `rules` in the order of `created_at` and id. -/
structure Database where
  rules : List PolicyRule
  workspaces : List (Uuid × Uuid)
  projects : List (Uuid × Uuid)
  tasks : List (Uuid × Uuid)
  audit : List AuditRecord
  approvals : List ApprovalRequest

inductive ServiceError where
  | notFound
  | invalidAudit (message : String)
  | invalidApproval (message : String)
  | persistenceFailed
deriving DecidableEq, Repr

/-- The scope of a request exists: its workspace, and its project and task if it has them. -/
def Database.hasScope (db : Database) (tenantId workspaceId : Uuid)
    (projectId taskId : Option Uuid) : Bool :=
  db.workspaces.contains (tenantId, workspaceId) &&
    projectId.all (fun project => db.projects.contains (workspaceId, project)) &&
    taskId.all fun task => projectId.any fun project => db.tasks.contains (project, task)

/-- `list_applicable_rules`. -/
def Database.applicableRules (db : Database) (tenantId workspaceId : Uuid) : List EvaluationRule :=
  (db.rules.filter fun row =>
    row.tenantId = tenantId && row.enabled &&
      (row.workspaceId = .none || row.workspaceId = .some workspaceId)).map PolicyRule.rule

/-- The decision of `evaluate_rules` on the rules that apply to a request. -/
def Database.decision (db : Database) (request : ScopedRequest) : PolicyEvaluationResult :=
  evaluateRules request.evaluated (db.applicableRules request.tenantId request.workspaceId)

/-- `evaluate_decision`. -/
def evaluateDecision (db : Database) (request : ScopedRequest) :
    Except ServiceError PolicyEvaluationResult :=
  if db.hasScope request.tenantId request.workspaceId request.projectId request.taskId then
    .ok (db.decision request)
  else .error .notFound

section
variable (lib : TextLibrary) (w : WordClass)

/-- `append_record`: the metadata, then the scope and the resource, then the row. -/
def appendRecord (db : Database) (data : AuditRecord) : Except ServiceError Database :=
  match safeMetadata lib w data.metadata with
  | .error message => .error (.invalidAudit message)
  | .ok metadata =>
    if !db.workspaces.contains (data.tenantId, data.workspaceId) then .error .notFound
    else if data.resourceType.isNone != data.resourceId.isNone then
      .error (.invalidAudit "resource_type and resource_id must be supplied together")
    else if data.taskId.isSome && data.projectId.isNone then
      .error (.invalidAudit "task_id requires project_id")
    else if !db.hasScope data.tenantId data.workspaceId data.projectId data.taskId then
      .error .notFound
    else if data.resourceType == .some "project".toList && data.resourceId != data.projectId then
      .error (.invalidAudit "project resource must match project_id")
    else if data.resourceType == .some "task".toList && data.resourceId != data.taskId then
      .error (.invalidAudit "task resource must match task_id")
    else .ok { db with audit := db.audit ++ [{ data with metadata := metadata }] }

/-- The ids of the rules as the metadata carries them. -/
def ruleIds (ids : List Uuid) : JsonTree := .array ((ids.map Uuid.str).map .string)

/-- The audit record of a decision. -/
def evaluationRecord (request : ScopedRequest) (result : PolicyEvaluationResult) : AuditRecord where
  tenantId := request.tenantId
  workspaceId := request.workspaceId
  projectId := request.projectId
  taskId := request.taskId
  resourceType := .none
  resourceId := .none
  action := "policy.evaluate".toList
  actorType := "service".toList
  outcome := if result.effect = .block then "blocked".toList else "success".toList
  metadata := .object [
    ("action".toList, .string request.action),
    ("final_effect".toList, .string result.effect.value),
    ("matched_rule_ids".toList, ruleIds result.matchedRuleIds),
    ("matched_rule_count".toList, .int result.matchedRuleIds.length)]

/-- `evaluate`. -/
def evaluate (db : Database) (request : ScopedRequest) :
    Except ServiceError PolicyEvaluationResult × Database :=
  match evaluateDecision db request with
  | .error e => (.error e, db)
  | .ok result =>
    if result.auditRequired then
      match appendRecord lib w db (evaluationRecord request result) with
      | .ok db' => (.ok result, db')
      | .error e => (.error e, db)
    else (.ok result, db)

/-- `_audit_data`. -/
def auditData (approval : ApprovalRequest) (action : Text) : AuditRecord where
  tenantId := approval.request.tenantId
  workspaceId := approval.request.workspaceId
  projectId := approval.request.projectId
  taskId := approval.request.taskId
  resourceType :=
    if approval.request.resourceType = .some "project".toList ∨
      approval.request.resourceType = .some "task".toList then
      approval.request.resourceType
    else .none
  resourceId :=
    if approval.request.resourceType = .some "project".toList ∨
      approval.request.resourceType = .some "task".toList then
      approval.request.resourceId
    else .none
  action := action
  actorType := if action = "approval.request".toList then "service".toList else "local_user".toList
  outcome := "success".toList
  metadata := .object [
    ("approval_id".toList, .string approval.id.str),
    ("action".toList, .string approval.request.action),
    ("scope_type".toList, .string approval.scopeType),
    ("status".toList, .string approval.status),
    ("matched_rule_count".toList, .int approval.matchedRuleIds.length),
    ("matched_rule_ids".toList, ruleIds approval.matchedRuleIds)]

/-- The row `create_approval` adds. -/
def newApproval (id : Uuid) (request : ScopedRequest) (fingerprint : Option Text)
    (result : PolicyEvaluationResult) :
    ApprovalRequest where
  id := id
  request := request
  status := "PENDING".toList
  scopeType := "ONE_ACTION".toList
  policyEffect := result.effect
  matchedRuleIds := result.matchedRuleIds
  policyReasons := result.reasons
  mutationFingerprint := fingerprint

/-- `create_approval`, of the request `_evaluation_request` makes of its data. -/
def createApproval (db : Database) (id : Uuid) (request : ScopedRequest)
    (fingerprint : Option Text) :
    Except ServiceError ApprovalRequest × Database :=
  match evaluate lib w db request with
  | (.error e, db) => (.error e, db)
  | (.ok result, db) =>
    if result.effect = .block then
      (.error (.invalidApproval "Blocked actions cannot request approval"), db)
    else if result.effect ≠ .requireConfirmation then
      (.error (.invalidApproval "Approval requires a confirmation-required policy decision"), db)
    -- the row's constraints on the lengths of the two lists
    else if 64 < result.matchedRuleIds.length ∨ 64 < result.reasons.length then
      (.error .persistenceFailed, db)
    else
      let approval := newApproval id request fingerprint result
      match appendRecord lib w { db with approvals := db.approvals ++ [approval] }
          (auditData approval "approval.request".toList) with
      | .ok db' => (.ok approval, db')
      | .error e => (.error e, db)

end

/-! ## The metadata of the two records -/

section
variable {lib : TextLibrary} {w : WordClass}

/-- The keys of the metadata pass. -/
theorem forbiddenKey_of_word {key : Text}
    (h : (key.all fun c => 'a' ≤ c && c ≤ 'z' || c == '_') = true)
    (hclean : (FORBIDDEN_KEYS.any fun marker => occursIn marker (key.filter (· != '_'))) = false) :
    forbiddenKey lib key = false := by
  have hnormal : normalizedKey lib key = key.filter (· != '_') := by
    clear hclean
    induction key with
    | nil => rfl
    | cons c key ih =>
      rw [List.all_cons, Bool.and_eq_true] at h
      obtain ⟨hc, hrest⟩ := h
      have hkey := ih hrest
      rw [normalizedKey] at hkey ⊢
      rw [List.flatMap_cons, List.filter_append, hkey, List.filter_cons]
      simp only [Bool.or_eq_true, Bool.and_eq_true, decide_eq_true_eq, beq_iff_eq] at hc
      rcases hc with ⟨hlow, hhigh⟩ | hc
      · have hne : c ≠ '_' := by
          intro hc
          rw [hc] at hlow
          revert hlow
          decide
        rw [lib.casefold_lower c hlow hhigh, List.filter_cons, lib.isalnum_lower c hlow hhigh,
          bne_iff_ne.mpr hne]
        rfl
      · rw [hc, lib.casefold_underscore, List.filter_cons, lib.isalnum_underscore]
        rfl
  rw [forbiddenKey, hnormal]
  exact hclean

/-- The keys of the two records are words, none of them forbidden, of at most 18 characters. -/
theorem keys_checked : ∀ key ∈ ["action", "final_effect", "matched_rule_ids", "matched_rule_count",
    "approval_id", "scope_type", "status"],
    ((key.toList.all fun c => 'a' ≤ c && c ≤ 'z' || c == '_') = true ∧
      (FORBIDDEN_KEYS.any fun marker => occursIn marker (key.toList.filter (· != '_'))) = false) ∧
      measure utf8Width (JsonTree.quote key.toList) ≤ 20 := by
  decide

theorem keys_pass : ∀ key ∈ ["action", "final_effect", "matched_rule_ids", "matched_rule_count",
    "approval_id", "scope_type", "status"],
    forbiddenKey lib key.toList = false :=
  fun key hkey => forbiddenKey_of_word (keys_checked key hkey).1.1 (keys_checked key hkey).1.2

/-- The action of a valid request is short and of word characters. -/
theorem ScopedRequest.action_plain (request : ScopedRequest) : request.action.length ≤ 100 ∧
    Plain lib w request.action := by
  have hvalid := request.valid
  simp only [validateRequest, Bool.and_eq_true, decide_eq_true_eq] at hvalid
  obtain ⟨⟨⟨⟨⟨⟨⟨⟨⟨-, hlength⟩, hmatch⟩, -⟩, -⟩, -⟩, -⟩, -⟩, -⟩, -⟩ := hvalid
  have hbound : (100 : ℕ) ≤ MAX_STRING_LENGTH := by decide
  refine ⟨hlength, .of_words (hlength.trans hbound) fun c hc => ?_⟩
  have hreads := Regex.fullmatch_reads hmatch c hc
  have hdot : Regex.reads c (.literal ".".toList) = (c == '.') := Bool.or_false _
  simp only [ACTION, segment, Regex.plus, hdot, Regex.reads, Bool.or_eq_true, lowercase,
    identifierChar, Bool.and_eq_true, decide_eq_true_eq, beq_iff_eq] at hreads
  simp only [wordChar, Contracts.alphanumeric, Contracts.lowercase, Contracts.digit,
    Bool.or_eq_true, Bool.and_eq_true, decide_eq_true_eq, beq_iff_eq]
  grind

theorem effect_plain (effect : PolicyEffect) : Plain lib w effect.value := by
  have hall : ∀ effect : PolicyEffect, effect.value.length ≤ MAX_STRING_LENGTH ∧
      (effect.value.all wordChar) = true := by
    intro effect
    cases effect <;> decide
  exact .of_words (hall effect).1 fun c hc => List.all_eq_true.mp (hall effect).2 c hc

theorem ruleIds_plain (ids : List Uuid) : ∀ text ∈ ids.map Uuid.str, Plain lib w text := by
  intro text htext
  obtain ⟨id, -, rfl⟩ := List.mem_map.mp htext
  exact .of_uuid id

/-- The fields of a record's metadata stand at depth one, behind the object itself. -/
theorem validate_object (fields : List (Text × JsonTree)) :
    validateMetadataValue lib w 0 0 (.object fields) = validateFields lib w 1 1 fields := rfl

section
variable {key : Text} {count : ℕ} {fields : List (Text × JsonTree)}

/-- A field with a plain string adds one value. -/
theorem validate_text (hkey : forbiddenKey lib key = false) {text : Text} (htext : Plain lib w text)
    (hcount : count < MAX_METADATA_ITEMS) :
    validateFields lib w 1 count ((key, .string text) :: fields) = validateFields lib w 1
      (count + 1) fields := by
  rw [validateFields_cons hkey, validate_plain htext, counted_eq (by decide), if_pos hcount]
  rfl

/-- So does a field with a number, while there is room. -/
theorem validate_number (hkey : forbiddenKey lib key = false) (value : Int) :
    validateFields lib w 1 count ((key, .int value) :: fields) =
      if count < MAX_METADATA_ITEMS then validateFields lib w 1 (count + 1) fields
      else .error "Audit metadata contains too many values" := by
  rw [validateFields_cons hkey, JsonTree.int, validateMetadataValue, counted_eq (by decide)]
  split <;> rfl

/-- The field with the ids adds one value for each, and one for the list. -/
theorem validate_ruleIds (hkey : forbiddenKey lib key = false) (ids : List Uuid)
    (hcount : count < MAX_METADATA_ITEMS) :
    validateFields lib w 1 count ((key, ruleIds ids) :: fields) =
      if count + 1 + ids.length ≤ MAX_METADATA_ITEMS then validateFields lib w 1
        (count + 1 + ids.length) fields
      else .error "Audit metadata contains too many values" := by
  rw [validateFields_cons hkey, ruleIds, validateMetadataValue, counted_eq (by decide),
    if_pos hcount]
  have hplain : ∀ text ∈ ids.map Uuid.str, Plain lib w text := ruleIds_plain ids
  have hitems :=
    validateItems_plain (show 2 ≤ MAX_METADATA_DEPTH by decide) (Nat.succ_le_of_lt hcount) hplain
  rw [List.length_map] at hitems
  show (validateItems lib w 2 (count + 1) ((ids.map Uuid.str).map .string) >>= _) = _
  rw [hitems]
  split <;> rfl

end

/-- The record of a decision has five values beside the ids. -/
theorem validate_evaluation (request : ScopedRequest) (result : PolicyEvaluationResult) :
    validateMetadataValue lib w 0 0 (evaluationRecord request result).metadata =
      if result.matchedRuleIds.length ≤ 59 then .ok (result.matchedRuleIds.length + 5)
      else .error "Audit metadata contains too many values" := by
  have hitems : MAX_METADATA_ITEMS = 64 := rfl
  rw [evaluationRecord, validate_object,
    validate_text (keys_pass "action" (by decide)) request.action_plain.2 (by decide),
      validate_text (keys_pass "final_effect" (by decide)) (effect_plain _) (by decide),
    validate_ruleIds (keys_pass "matched_rule_ids" (by decide)) _ (by decide),
    validate_number (keys_pass "matched_rule_count" (by decide)), validateFields, hitems]
  by_cases hlength : result.matchedRuleIds.length ≤ 59
  · rw [if_pos (by omega), if_pos (by omega), if_pos hlength]
    congr 1
    omega
  · rw [if_neg hlength]
    by_cases hlist : 1 + 1 + 1 + 1 + result.matchedRuleIds.length ≤ 64
    · rw [if_pos hlist, if_neg (by omega)]
    · rw [if_neg hlist]

/-- The record of an approval has seven. -/
theorem validate_approval (approval : ApprovalRequest) (action : Text)
    (hscope : Plain lib w approval.scopeType) (hstatus : Plain lib w approval.status) :
    validateMetadataValue lib w 0 0 (auditData approval action).metadata =
      if approval.matchedRuleIds.length ≤ 57 then .ok (approval.matchedRuleIds.length + 7)
      else .error "Audit metadata contains too many values" := by
  have hitems : MAX_METADATA_ITEMS = 64 := rfl
  rw [auditData, validate_object,
    validate_text (keys_pass "approval_id" (by decide)) (.of_uuid _) (by decide),
      validate_text (keys_pass "action" (by decide)) approval.request.action_plain.2 (by decide),
    validate_text (keys_pass "scope_type" (by decide)) hscope (by decide),
    validate_text (keys_pass "status" (by decide)) hstatus (by decide),
    validate_number (keys_pass "matched_rule_count" (by decide)), if_pos (by decide),
    validate_ruleIds (keys_pass "matched_rule_ids" (by decide)) _ (by decide), validateFields,
      hitems]
  by_cases hlength : approval.matchedRuleIds.length ≤ 57
  · rw [if_pos (by omega), if_pos hlength]
    congr 1
    omega
  · rw [if_neg (by omega), if_neg hlength]

/-! ## The bytes of the metadata -/

theorem string_bytes {text : Text} (h : ∀ c ∈ text, JsonTree.escapeChar c = [c] ∧ c.toNat < 128) :
    measure utf8Width (JsonTree.string text).dumps = text.length + 2 := by
  have hwidth : measure utf8Width text = text.length := by
    induction text with
    | nil => rfl
    | cons c text ih =>
      rw [measure_cons, utf8Width_ascii c (h c List.mem_cons_self).2, ih fun d hd =>
        h d (List.mem_cons_of_mem c hd), List.length_cons]
      omega
  rw [JsonTree.dumps, measure_quote utf8Width utf8Width_ascii fun c hc => (h c hc).1, hwidth]

theorem plain_bytes {text : Text} (h : Plain lib w text) : measure utf8Width
    (JsonTree.string text).dumps = text.length + 2 :=
  string_bytes fun c hc => ⟨h.escape c hc, h.ascii c hc⟩

/-- A list of ids: 36 characters, two quotes and a comma for each. -/
theorem ruleIds_bytes (ids : List Uuid) : measure utf8Width
    (ruleIds ids).dumps ≤ 39 * ids.length + 2 := by
  have hsum : ((ids.map fun id => measure utf8Width (JsonTree.string id.str).dumps)).sum = 38 *
      ids.length := by
    induction ids with
    | nil => rfl
    | cons id ids ih =>
      rw [List.map_cons, List.sum_cons, ih, string_bytes (Uuid_written id), Uuid.length_str,
        List.length_cons]
      omega
  have hmap : ((ids.map Uuid.str).map JsonTree.string).map (fun item =>
    measure utf8Width item.dumps) =
      ids.map fun id => measure utf8Width (JsonTree.string id.str).dumps := by
    rw [List.map_map, List.map_map]
    rfl
  rw [ruleIds, measure_array utf8Width utf8Width_ascii, hmap, hsum, List.length_map,
    List.length_map]
  omega

/-- A count of at most two digits. -/
theorem count_bytes {n : ℕ} (h : n ≤ 59) : measure utf8Width (JsonTree.int n).dumps ≤ 2 := by
  have hall : ((List.range 60).all fun n => measure utf8Width (JsonTree.int n).dumps ≤ 2) =
    true := by decide
  exact of_decide_eq_true (List.all_eq_true.mp hall n (List.mem_range.mpr (by omega)))

theorem key_bytes : ∀ key ∈ ["action", "final_effect", "matched_rule_ids", "matched_rule_count",
    "approval_id", "scope_type", "status"],
    measure utf8Width (JsonTree.quote key.toList) ≤ 20 :=
  fun key hkey => (keys_checked key hkey).2

/-- Within the count, the metadata of a decision is within the bytes. -/
theorem evaluation_safe (request : ScopedRequest) (result : PolicyEvaluationResult) :
    safeMetadata lib w (evaluationRecord request result).metadata =
      if result.matchedRuleIds.length ≤ 59 then .ok (evaluationRecord request result).metadata
      else .error "Audit metadata contains too many values" := by
  have hvalid : validateMetadataValue lib w 0 0 (evaluationRecord request result).metadata = _ :=
    validate_evaluation request result
  by_cases hlength : result.matchedRuleIds.length ≤ 59
  · have hbytes :
        (encode (evaluationRecord request result).metadata.dumps).length ≤ MAX_METADATA_BYTES := by
      have haction : _ ∧ Plain lib w request.action := request.action_plain
      have heffectPlain : Plain lib w result.effect.value := effect_plain _
      have heffect : result.effect.value.length ≤ 20 := by cases result.effect <;> decide
      have hkeys := key_bytes
      simp only [List.forall_mem_cons] at hkeys
      have hids := ruleIds_bytes result.matchedRuleIds
      have hcount := count_bytes hlength
      rw [length_encode, evaluationRecord, measure_object utf8Width utf8Width_ascii]
      simp only [List.map_cons, List.map_nil, List.sum_cons, List.sum_nil, List.length_cons,
        List.length_nil, plain_bytes haction.2, plain_bytes heffectPlain]
      have hmax : MAX_METADATA_BYTES = 4096 := rfl
      omega
    rw [if_pos hlength] at hvalid ⊢
    exact safeMetadata_ok hvalid hbytes
  · rw [if_neg hlength] at hvalid ⊢
    exact safeMetadata_error hvalid

/-- So is that of an approval. -/
theorem approval_safe (approval : ApprovalRequest) (action : Text)
    (hscope : Plain lib w approval.scopeType) (hstatus : Plain lib w approval.status) :
    safeMetadata lib w (auditData approval action).metadata =
      if approval.matchedRuleIds.length ≤ 57 then .ok (auditData approval action).metadata
      else .error "Audit metadata contains too many values" := by
  have hvalid : validateMetadataValue lib w 0 0 (auditData approval action).metadata = _ :=
    validate_approval approval action hscope hstatus
  by_cases hlength : approval.matchedRuleIds.length ≤ 57
  · have hbytes :
        (encode (auditData approval action).metadata.dumps).length ≤ MAX_METADATA_BYTES := by
      have haction : _ ∧ Plain lib w approval.request.action := approval.request.action_plain
      have hidPlain : Plain lib w approval.id.str := .of_uuid _
      have hid : approval.id.str.length = 36 := Uuid.length_str _
      have hscopeLength := hscope.length
      have hstatusLength := hstatus.length
      have hkeys := key_bytes
      simp only [List.forall_mem_cons] at hkeys
      have hids := ruleIds_bytes approval.matchedRuleIds
      have hcount := count_bytes (show approval.matchedRuleIds.length ≤ 59 by omega)
      rw [length_encode, auditData, measure_object utf8Width utf8Width_ascii]
      simp only [List.map_cons, List.map_nil, List.sum_cons, List.sum_nil, List.length_cons,
        List.length_nil, plain_bytes haction.2, plain_bytes hscope, plain_bytes hstatus,
        plain_bytes hidPlain]
      have hmax : MAX_METADATA_BYTES = 4096 := rfl
      have hstring : MAX_STRING_LENGTH = 256 := rfl
      omega
    rw [if_pos hlength] at hvalid ⊢
    exact safeMetadata_ok hvalid hbytes
  · rw [if_neg hlength] at hvalid ⊢
    exact safeMetadata_error hvalid

/-! ## The two services -/

/-- The scope checks of a record pass for the scope of a valid request that exists. -/
theorem appendRecord_eq {db : Database} {data : AuditRecord}
    (hscope : db.hasScope data.tenantId data.workspaceId data.projectId data.taskId = true)
    (hpair : data.resourceType.isNone = data.resourceId.isNone)
    (htask : data.taskId.isSome = true → data.projectId.isNone = false)
    (hproject : data.resourceType = .some "project".toList → data.resourceId = data.projectId)
    (htaskResource : data.resourceType = .some "task".toList → data.resourceId = data.taskId) :
    appendRecord lib w db data =
      match safeMetadata lib w data.metadata with
      | .error message => .error (.invalidAudit message)
      | .ok metadata =>
        .ok { db with audit := db.audit ++ [{ data with metadata := metadata }] } := by
  have hworkspace : db.workspaces.contains (data.tenantId, data.workspaceId) = true := by
    rw [Database.hasScope, Bool.and_eq_true, Bool.and_eq_true] at hscope
    exact hscope.1.1
  have htaskNone : (data.taskId.isSome && data.projectId.isNone) = false := by
    cases htaskId : data.taskId.isSome with
    | false => rfl
    | true => exact htask htaskId
  have hprojectNone : (data.resourceType == .some "project".toList &&
      data.resourceId != data.projectId) = false := by
    by_cases hresource : data.resourceType = .some "project".toList
    · rw [hproject hresource, bne_self_eq_false, Bool.and_false]
    · rw [beq_eq_false_iff_ne.mpr hresource, Bool.false_and]
  have htaskResourceNone :
      (data.resourceType == .some "task".toList && data.resourceId != data.taskId) = false := by
    by_cases hresource : data.resourceType = .some "task".toList
    · rw [htaskResource hresource, bne_self_eq_false, Bool.and_false]
    · rw [beq_eq_false_iff_ne.mpr hresource, Bool.false_and]
  rw [appendRecord, hworkspace, hpair, bne_self_eq_false, htaskNone, hscope, hprojectNone,
    htaskResourceNone]
  cases safeMetadata lib w data.metadata <;> rfl

/-- What the validation of a request gives on its scope and its resource. -/
theorem ScopedRequest.resource (request : ScopedRequest) :
    request.resourceType.isNone = request.resourceId.isNone ∧
      (request.taskId.isSome = true → request.projectId.isNone = false) ∧
      (request.resourceType = .some "project".toList → request.resourceId = request.projectId) ∧
      (request.resourceType = .some "task".toList → request.resourceId = request.taskId) := by
  have hvalid := request.valid
  simp only [validateRequest, Bool.and_eq_true, Bool.not_eq_true', Bool.and_eq_false_iff,
    beq_iff_eq, bne_eq_false_iff_eq, beq_eq_false_iff_ne] at hvalid
  obtain ⟨⟨⟨⟨⟨-, hpair⟩, -⟩, htask⟩, hproject⟩, htaskResource⟩ := hvalid
  refine ⟨hpair, fun hsome => ?_, fun hresource => ?_, fun hresource => ?_⟩
  · rcases htask with hnone | hnone
    · rw [hsome] at hnone
      cases hnone
    · exact hnone
  · exact hproject.resolve_left fun hne => hne hresource
  · exact htaskResource.resolve_left fun hne => hne hresource

/-- **`evaluate`**: the decision, with its record where one is required, or a refusal of the record.
-/
theorem evaluate_spec {db : Database} {request : ScopedRequest}
    (hscope : db.hasScope request.tenantId request.workspaceId request.projectId request.taskId =
      true) :
    evaluate lib w db request =
      if (db.decision request).auditRequired then
        if (db.decision request).matchedRuleIds.length ≤ 59 then
          (.ok (db.decision request),
            { db with audit := db.audit ++ [evaluationRecord request (db.decision request)] })
        else (.error (.invalidAudit "Audit metadata contains too many values"), db)
      else (.ok (db.decision request), db) := by
  have happend : appendRecord lib w db (evaluationRecord request (db.decision request)) = _ :=
    appendRecord_eq hscope rfl request.resource.2.1 (fun h => by cases h) (fun h => by cases h)
  rw [evaluation_safe] at happend
  rw [evaluate, evaluateDecision, if_pos hscope]
  cases hrequired : (db.decision request).auditRequired with
  | false => simp only [hrequired, Bool.false_eq_true, if_false]
  | true =>
    simp only [hrequired, if_true, happend]
    by_cases hlength : (db.decision request).matchedRuleIds.length ≤ 59
    · simp only [if_pos hlength]
    · simp only [if_neg hlength]

/-- Well-formed rules are all read: the ids are those of the rules that contribute. -/
theorem matchedRuleIds_length {request : PolicyEvaluationRequest} {rules : List EvaluationRule}
    (hwell : ∀ rule ∈ rules, WellFormed rule) :
    (evaluateRules request rules).matchedRuleIds.length =
    (rules.filterMap (contribution request)).length := by
  have hlength : ∀ found : List (EvaluationRule × PolicyEffect),
      found = rules.filterMap (fun rule => (contribution request rule).map (Prod.mk rule)) →
        (rules.filterMap (contribution request)).length = found.length := by
    intro found hfound
    have hmap := congrArg (List.map Prod.snd) hfound
    rw [List.map_filterMap] at hmap
    have hsnd : rules.filterMap (contribution request) = found.map Prod.snd := by
      rw [hmap]
      simp [Function.comp_def]
    rw [hsnd, List.length_map]
  rw [evaluateRules]
  cases hread : matchingRules request rules with
  | error rule =>
    obtain ⟨hmem, hrejected⟩ := matchingRules_error hread
    exact absurd hrejected (hwell rule hmem).not_rejected
  | ok found =>
    rw [hlength found (matchingRules_ok hread).2]
    cases found with
    | nil => rfl
    | cons item found =>
      show ((List.mergeSort (item :: found) byId).map _).length = _
      rw [List.length_map, List.length_mergeSort]

/-- A decision gives a reason for each id, or one for all. -/
theorem reasons_length (request : PolicyEvaluationRequest) (rules : List EvaluationRule) :
    (evaluateRules request rules).reasons.length ≤
    (evaluateRules request rules).matchedRuleIds.length + 1 := by
  rw [evaluateRules]
  split
  next => exact Nat.le_succ 1
  next => exact Nat.le_refl 1
  next found _ _ =>
    show ((found.mergeSort byId).map _).length ≤ ((found.mergeSort byId).map _).length + 1
    rw [List.length_map, List.length_map]
    omega

/-- Only an ALLOW decision goes without a record. -/
theorem auditRequired_eq (request : PolicyEvaluationRequest) (rules : List EvaluationRule) :
    (evaluateRules request rules).auditRequired = true ↔
    (evaluateRules request rules).effect ≠ .allow := by
  rw [evaluateRules]
  split
  next => exact iff_of_true rfl (fun h => by cases h)
  next => exact iff_of_true rfl (fun h => by cases h)
  next => exact decide_eq_true_iff

/-- The record of an approval whose scope exists is refused for its count, or not at all. -/
theorem append_approval {db : Database} {approval : ApprovalRequest} (action : Text)
    (hscope : db.hasScope approval.request.tenantId approval.request.workspaceId
      approval.request.projectId approval.request.taskId =
      true)
    (htype : Plain lib w approval.scopeType) (hstatus : Plain lib w approval.status) :
    appendRecord lib w db (auditData approval action) =
      if approval.matchedRuleIds.length ≤ 57 then .ok
        { db with audit := db.audit ++ [auditData approval action] }
      else .error (.invalidAudit "Audit metadata contains too many values") := by
  obtain ⟨hpair, htask, hproject, htaskResource⟩ := approval.request.resource
  rw [appendRecord_eq hscope ?_ htask ?_ ?_, approval_safe _ _ htype hstatus]
  · by_cases hlength : approval.matchedRuleIds.length ≤ 57
    · rw [if_pos hlength, if_pos hlength]
    · rw [if_neg hlength, if_neg hlength]
  · simp only [auditData]
    split
    next => exact hpair
    next => rfl
  · intro hresource
    simp only [auditData] at hresource ⊢
    split at hresource
    next hcase =>
      rw [if_pos hcase]
      exact hproject hresource
    next => cases hresource
  · intro hresource
    simp only [auditData] at hresource ⊢
    split at hresource
    next hcase =>
      rw [if_pos hcase]
      exact htaskResource hresource
    next => cases hresource

theorem approval_words : Plain lib w "ONE_ACTION".toList ∧ Plain lib w "PENDING".toList := by
  have hall : ("ONE_ACTION".toList.all wordChar) = true ∧
    ("PENDING".toList.all wordChar) = true := by decide
  exact ⟨.of_words (by decide) fun c hc => List.all_eq_true.mp hall.1 c hc,
    .of_words (by decide) fun c hc => List.all_eq_true.mp hall.2 c hc⟩

/-- **`create_approval`** where a decision asks for confirmation. -/
theorem createApproval_spec {db : Database} {request : ScopedRequest} (id : Uuid)
    (fingerprint : Option Text)
    (hscope : db.hasScope request.tenantId request.workspaceId request.projectId request.taskId =
    true)
    (heffect : (db.decision request).effect = .requireConfirmation) :
    (∃ approval, (createApproval lib w db id request fingerprint).1 = .ok approval) ↔
      (db.decision request).matchedRuleIds.length ≤ 57 := by
  have hrequired : (db.decision request).auditRequired = true :=
    (auditRequired_eq _ _).mpr
      (by rw [Database.decision] at heffect; rw [heffect]; exact fun h => by cases h)
  rw [createApproval, evaluate_spec hscope, if_pos hrequired]
  by_cases hevaluated : (db.decision request).matchedRuleIds.length ≤ 59
  · have hreasons :=
      reasons_length request.evaluated (db.applicableRules request.tenantId request.workspaceId)
    have hlists : ¬ (64 < (db.decision request).matchedRuleIds.length ∨
        64 < (db.decision request).reasons.length) := by
      rw [Database.decision] at hevaluated ⊢
      omega
    have hnotBlock : ¬ (db.decision request).effect = .block := by
      rw [heffect]
      intro h
      cases h
    have happend : appendRecord lib w
        { db with
          audit := db.audit ++ [evaluationRecord request (db.decision request)]
          approvals := db.approvals ++ [newApproval id request fingerprint (db.decision request)] }
        (auditData (newApproval id request fingerprint (db.decision request))
            "approval.request".toList) = _ :=
      append_approval _ hscope approval_words.1 approval_words.2
    have hids : (newApproval id request fingerprint (db.decision request)).matchedRuleIds =
      (db.decision request).matchedRuleIds := rfl
    simp only [if_pos hevaluated, if_neg hnotBlock, if_neg (not_not.mpr heffect), if_neg hlists,
      happend, hids]
    by_cases hlength : (db.decision request).matchedRuleIds.length ≤ 57
    · rw [if_pos hlength]
      exact iff_of_true ⟨_, rfl⟩ hlength
    · rw [if_neg hlength]
      refine iff_of_false ?_ hlength
      intro h
      obtain ⟨approval, h⟩ := h
      cases h
  · rw [if_neg hevaluated]
    refine iff_of_false ?_ (by omega)
    intro h
    obtain ⟨approval, h⟩ := h
    cases h

end

/-- `evaluate` returns the decision `evaluate_decision` computes, with its record stored where
one is required, and an approval can be created where the decision asks for confirmation. -/
def Kept (lib : TextLibrary) (w : WordClass) (db : Database) (request : ScopedRequest) : Prop :=
  ∃ result, evaluateDecision db request = .ok result ∧ (evaluate lib w db request).1 = .ok result ∧
    (result.auditRequired = true →
      (evaluate lib w db request).2 =
        { db with audit := db.audit ++ [evaluationRecord request result] }) ∧
    (result.effect = .requireConfirmation →
      ∀ (id : Uuid) (fingerprint : Option Text), ∃ approval,
        (createApproval lib w db id request fingerprint).1 = .ok approval)

/-- The effects of the matching rules fit in the audit records: at most 57 of them, at most 59
where none is asked to confirm, or any number that all allow. -/
def Recordable (effects : List PolicyEffect) : Prop :=
  effects.length ≤ 57 ∨ (effects.length ≤ 59 ∧ strictest effects ≠ .requireConfirmation) ∨
    ∀ effect ∈ effects, effect = .allow

theorem recordable_iff (effects : List PolicyEffect) :
    Recordable effects ↔ (strictest effects ≠ .allow → effects.length ≤ 59) ∧
      (strictest effects = .requireConfirmation → effects.length ≤ 57) := by
  constructor
  · intro h
    rcases h with h | ⟨h, hne⟩ | h
    · exact ⟨fun _ => by omega, fun _ => h⟩
    · exact ⟨fun _ => h, fun heq => absurd heq hne⟩
    · by_cases hnil : effects = []
      · rw [hnil]
        exact ⟨fun _ => Nat.zero_le _, fun _ => Nat.zero_le _⟩
      · have hallow := h _ (strictest_mem hnil)
        rw [hallow]
        exact ⟨fun hne => absurd rfl hne, fun heq => by cases heq⟩
  · intro h
    obtain ⟨hrequired, hconfirm⟩ := h
    by_cases hallow : strictest effects = .allow
    · refine .inr (.inr fun effect hmem => ?_)
      have hle := le_strictest hmem
      rw [hallow] at hle
      exact le_antisymm hle (by rw [PolicyEffect.le_iff]; exact Nat.zero_le _)
    · by_cases heq : strictest effects = .requireConfirmation
      · exact .inl (hconfirm heq)
      · exact .inr (.inl ⟨hrequired hallow, heq⟩)

/-- **When a policy decision is kept**: exactly when the matching rules fit in the records. -/
theorem policy_decision_kept_iff (lib : TextLibrary) (w : WordClass) (db : Database)
    (request : ScopedRequest)
    (hscope : db.hasScope request.tenantId request.workspaceId request.projectId request.taskId =
    true)
    (hwell : ∀ rule ∈ db.applicableRules request.tenantId request.workspaceId, WellFormed rule) :
    Kept lib w db request ↔
      Recordable ((db.applicableRules request.tenantId request.workspaceId).filterMap
        (contribution request.evaluated)) := by
  have hlength : (db.decision request).matchedRuleIds.length = _ := matchedRuleIds_length hwell
  have heffect : (db.decision request).effect = _ := evaluateRules_effect request.evaluated _
  have hrequired : (db.decision request).auditRequired = true ↔
    (db.decision request).effect ≠ .allow := auditRequired_eq _ _
  have hdecided : evaluateDecision db request = .ok (db.decision request) := if_pos hscope
  rw [recordable_iff, ← heffect, ← hlength, ← hrequired]
  constructor
  · intro h
    obtain ⟨result, hresult, hevaluated, -, happroved⟩ := h
    rw [hdecided] at hresult
    cases hresult
    constructor
    · intro hrecord
      by_contra hmany
      rw [evaluate_spec hscope, if_pos hrecord, if_neg hmany] at hevaluated
      cases hevaluated
    · intro hconfirm
      exact (createApproval_spec 0 .none hscope hconfirm).mp (happroved hconfirm 0 .none)
  · intro h
    obtain ⟨hrecord, hconfirm⟩ := h
    refine ⟨db.decision request, hdecided, ?_, fun haudit => ?_, fun hasked id fingerprint => ?_⟩
    · rw [evaluate_spec hscope]
      by_cases haudit : (db.decision request).auditRequired = true
      · rw [if_pos haudit, if_pos (hrecord haudit)]
      · rw [if_neg haudit]
    · rw [evaluate_spec hscope, if_pos haudit, if_pos (hrecord haudit)]
    · exact (createApproval_spec id fingerprint hscope hasked).mpr (hconfirm hasked)

/-! ## Inputs -/

/-- The text functions on ASCII text without percent signs or bracketed hosts. -/
def asciiLibrary : TextLibrary where
  casefold c := if 'A' ≤ c ∧ c ≤ 'Z' then [c.toLower] else [c]
  isalnum := Contracts.alphanumeric
  unquote text := text
  hostInvalid _ := false
  casefold_lower c hlow _ := by
    refine if_neg fun hupper => ?_
    have hlow' : 97 ≤ c.toNat := hlow
    have hhigh' : c.toNat ≤ 90 := hupper.2
    omega
  casefold_underscore := rfl
  isalnum_lower c hlow hhigh := by
    have hletter : ('a' ≤ c && c ≤ 'z') = true := by
      rw [decide_eq_true hlow, decide_eq_true hhigh]; rfl
    simp only [Contracts.alphanumeric, Contracts.lowercase, hletter, Bool.true_or]
  isalnum_underscore := rfl

/-- A rule that asks to confirm every action. -/
def confirmRule (id : Uuid) : PolicyRule where
  tenantId := 1
  workspaceId := .none
  enabled := true
  rule :=
    { id := id
      name := "Confirm".toList
      actionPattern := "*".toList
      effect := .string "REQUIRE_CONFIRMATION".toList
      actorType := .none
      resourceType := .none
      conditions := .array [] }

/-- A workspace with this many such rules. -/
def confirmRules (n : ℕ) : Database where
  rules := (List.range n).map fun i => confirmRule (BitVec.ofNat 128 i)
  workspaces := [(1, 2)]
  projects := []
  tasks := []
  audit := []
  approvals := []

/-- A request for `repository.write` in the workspace. -/
def writeRepository : ScopedRequest where
  tenantId := 1
  workspaceId := 2
  action := "repository.write".toList
  actorType := .none
  actorId := .none
  resourceType := .none
  resourceId := .none
  projectId := .none
  taskId := .none
  context := ⟨.none, .none, .none⟩
  valid := by decide +kernel

theorem confirmRules_applicable (n : ℕ) :
    (confirmRules n).applicableRules writeRepository.tenantId writeRepository.workspaceId =
      (List.range n).map fun i => (confirmRule (BitVec.ofNat 128 i)).rule := by
  rw [Database.applicableRules, confirmRules, List.filter_eq_self.mpr, List.map_map]
  · rfl
  · intro row hrow
    obtain ⟨i, -, rfl⟩ := List.mem_map.mp hrow
    rfl

theorem confirmRules_contribution (n : ℕ) :
    ((confirmRules n).applicableRules writeRepository.tenantId
      writeRepository.workspaceId).filterMap
      (contribution writeRepository.evaluated) = List.replicate n .requireConfirmation := by
  have hone : ∀ i : ℕ, contribution writeRepository.evaluated
      (confirmRule (BitVec.ofNat 128 i)).rule = .some .requireConfirmation :=
    fun i => rfl
  rw [confirmRules_applicable, List.filterMap_map]
  have hmap : (contribution writeRepository.evaluated ∘ fun i : ℕ =>
    (confirmRule (BitVec.ofNat 128 i)).rule) =
      fun _ => .some .requireConfirmation := funext hone
  rw [hmap, List.filterMap_eq_map', List.map_const', List.length_range]

theorem confirmRules_wellFormed (n : ℕ) :
    ∀ rule ∈ (confirmRules n).applicableRules writeRepository.tenantId writeRepository.workspaceId,
      WellFormed rule := by
  intro rule hrule
  rw [confirmRules_applicable] at hrule
  obtain ⟨i, -, rfl⟩ := List.mem_map.mp hrule
  exact ⟨rfl, rfl, rfl, rfl, [], rfl, fun _ hitem => absurd hitem List.not_mem_nil⟩

/-- 58 rules that ask to confirm: the decision is recorded, and no approval can be created. -/
theorem policy_decision_lost :
    ¬ ∀ (lib : TextLibrary) (w : WordClass) (db : Database) (request : ScopedRequest),
    db.hasScope request.tenantId request.workspaceId request.projectId request.taskId = true →
      (∀ rule ∈ db.applicableRules request.tenantId request.workspaceId, WellFormed rule) →
      Kept lib w db request := by
  intro hall
  obtain ⟨result, hresult, -, -, happroved⟩ :=
    hall asciiLibrary Contracts.asciiWord (confirmRules 58)
      writeRepository rfl (confirmRules_wellFormed 58)
  have hdecided : evaluateDecision (confirmRules 58) writeRepository =
    .ok ((confirmRules 58).decision writeRepository) := if_pos rfl
  rw [hdecided] at hresult
  have hlength : ((confirmRules 58).decision writeRepository).matchedRuleIds.length = 58 := by
    have hids : ((confirmRules 58).decision writeRepository).matchedRuleIds.length = _ :=
      matchedRuleIds_length (confirmRules_wellFormed 58)
    rw [confirmRules_contribution, List.length_replicate] at hids
    exact hids
  have heffect : ((confirmRules 58).decision writeRepository).effect = .requireConfirmation := by
    rw [Database.decision, evaluateRules_effect, confirmRules_contribution]
    exact strictest_eq (List.mem_replicate.mpr ⟨by decide, rfl⟩) fun other hother =>
      le_of_eq (List.eq_of_mem_replicate hother)
  cases hresult
  have hfew := (createApproval_spec 0 .none rfl heffect).mp (happroved heffect 0 .none)
  omega

theorem policy_decision_kept_one :
    Kept asciiLibrary Contracts.asciiWord (confirmRules 1) writeRepository :=
  (policy_decision_kept_iff asciiLibrary Contracts.asciiWord (confirmRules 1)
    writeRepository rfl (confirmRules_wellFormed 1)).mpr
    (.inl (by rw [confirmRules_contribution]; decide))

end Novalton.Policy
