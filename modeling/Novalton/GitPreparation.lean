/-
`prepare` of `modules/git_changesets/service.py`, from the row it adds on: the policy
decision, the approval, the audit record and the commits each of them makes.

The action is flushed before the policy is evaluated, and `append_record` commits the
record of the decision in the same session. That commit stores the action, so what fails
after it leaves the action behind.
-/
import Novalton.PolicyAudit
import Novalton.GitLocal
import Novalton.Session

namespace Novalton.GitPreparation

open Prog Policy Audit
open Contracts (WordClass)

/-- The scope of a COMPLETED `WorkflowRun`. -/
structure WorkflowRun where
  id : Uuid
  tenantId : Uuid
  workspaceId : Uuid
  projectId : Uuid
  taskId : Uuid

/-- What `prepare` has read when it adds the row. `fingerprint` is the digest of `_fingerprint`. -/
structure Prepared where
  run : WorkflowRun
  environment : Text
  preparation : LocalPreparation
  sources : List Text
  commitMessage : Text
  timestamp : Int
  expectedCommit : Text
  fingerprint : Text
  hex : fingerprint.length = 64 ∧ ∀ c ∈ fingerprint, c ∈ "0123456789abcdef".toList

structure GitCommitAction where
  id : Uuid
  tenantId : Uuid
  workspaceId : Uuid
  projectId : Uuid
  taskId : Uuid
  workflowRunId : Uuid
  repositoryKey : Text
  branchRef : Text
  preparedHeadSha : Text
  indexFingerprint : Text
  sourceToolCallIds : List Text
  preparedPaths : List PreparedPath
  preview : Text
  commitMessage : Text
  commitTimestamp : Int
  actionFingerprint : Text
  policyEffect : PolicyEffect
  expectedCommitSha : Text
  status : Text
  approvalRequestId : Option Uuid

/-- The row `prepare` adds. -/
def Prepared.action (prepared : Prepared) (id : Uuid) : GitCommitAction where
  id := id
  tenantId := prepared.run.tenantId
  workspaceId := prepared.run.workspaceId
  projectId := prepared.run.projectId
  taskId := prepared.run.taskId
  workflowRunId := prepared.run.id
  repositoryKey := prepared.preparation.repositoryKey
  branchRef := prepared.preparation.branchRef
  preparedHeadSha := prepared.preparation.headSha
  indexFingerprint := prepared.preparation.indexFingerprint
  sourceToolCallIds := prepared.sources
  preparedPaths := prepared.preparation.paths
  preview := prepared.preparation.previewDiff
  commitMessage := prepared.commitMessage
  commitTimestamp := prepared.timestamp
  actionFingerprint := prepared.fingerprint
  policyEffect := .requireConfirmation
  expectedCommitSha := prepared.expectedCommit
  status := "PENDING_APPROVAL".toList
  approvalRequestId := .none

/-- The rows that `prepare` and the services it calls read and write. -/
structure Store where
  policy : Policy.Database
  actions : List GitCommitAction

/-! ## The services in a session -/

/-- The code of a service's `ApplicationError`. -/
def errorCode : ServiceError → Text
  | .notFound => "resource_not_found".toList
  | .invalidAudit _ => "invalid_audit_record".toList
  | .invalidApproval _ => "invalid_approval".toList
  | .persistenceFailed => "approval_persistence_failed".toList

/-- How the awaits of `append_record` end: the scope it reads, the `INSERT`, the commit and the
refresh. -/
structure Appending where
  scope : Outcome
  flush : Outcome
  commit : Outcome
  refresh : Outcome

/-- How the awaits of `evaluate` end; `rules` are those in force when it reads them. -/
structure Evaluation where
  rules : List PolicyRule
  reads : Outcome
  record : Appending

/-- How the awaits of `create_approval` end. -/
structure Creation where
  evaluation : Evaluation
  flush : Outcome
  record : Appending
  commit : Outcome
  refresh : Outcome

/-- How the awaits of `prepare` end, from the row on. -/
structure Awaits where
  flush : Outcome
  evaluation : Evaluation
  approval : Creation
  record : Appending
  commit : Outcome
  refresh : Outcome

/-- What other sessions have made of the rules: this one sees it from its next statement on. -/
def readRules (rules : List PolicyRule) : Prog Store Unit := fun s =>
  (.ok (), ⟨{ s.committed with policy := { s.committed.policy with rules := rules } },
    { s.view with policy := { s.view.policy with rules := rules } }⟩)

def raiseError {α : Type} (e : ServiceError) : Prog Store α := raise (.application (errorCode e))

section
variable (lib : TextLibrary) (w : WordClass)

/-- The `try` of `append_record`. -/
def appendBody (o : Appending) (commits : Bool) (data : AuditRecord) : Prog Store Unit :=
  match safeMetadata lib w data.metadata with
  | .error message => raiseError (.invalidAudit message)
  | .ok _ => do
    await o.scope
    let store ← read
    match appendRecord lib w store.policy data with
    | .error e => raiseError e
    | .ok policy => do
      write fun store => { store with policy := { store.policy with audit := policy.audit } }
      await o.flush
      if commits then do
        commit o.commit
        await o.refresh
      else pure ()

/-- `append_record`. -/
def append (o : Appending) (commits : Bool) (data : AuditRecord) : Prog Store Unit :=
  tryReturn (appendBody lib w o commits data) (onServiceError "audit_persistence_failed".toList)
    pure

/-- `evaluate`: the decision of `evaluate_decision`, and its record. -/
def evaluate (o : Evaluation) (request : ScopedRequest) : Prog Store PolicyEvaluationResult := do
  readRules o.rules
  await o.reads
  let store ← read
  match evaluateDecision store.policy request with
  | .error e => raiseError e
  | .ok result =>
    if result.auditRequired then do
      append lib w o.record true (evaluationRecord request result)
      pure result
    else pure result

/-- The `try` of `create_approval`. -/
def createBody (o : Creation) (id : Uuid) (request : ScopedRequest) (fingerprint : Option Text)
    (result : PolicyEvaluationResult) :
    Prog Store ApprovalRequest := do
  let approval := newApproval id request fingerprint result
  -- the row's constraints on the lengths of the two lists
  if 64 < result.matchedRuleIds.length ∨ 64 < result.reasons.length then raise .other
  else do
    write fun store => { store with policy :=
      { store.policy with approvals := store.policy.approvals ++ [approval] } }
    await o.flush
    append lib w o.record false (auditData approval "approval.request".toList)
    commit o.commit
    await o.refresh
    pure approval

/-- `create_approval`. -/
def createApproval (o : Creation) (id : Uuid) (request : ScopedRequest)
    (fingerprint : Option Text) : Prog Store ApprovalRequest := do
  let result ← evaluate lib w o.evaluation request
  if result.effect = .block then
    raiseError (.invalidApproval "Blocked actions cannot request approval")
  else if result.effect ≠ .requireConfirmation then
    raiseError (.invalidApproval "Approval requires a confirmation-required policy decision")
  else tryReturn (createBody lib w o id request fingerprint result) (onServiceError "approval_persistence_failed".toList) pure

/-! ## `prepare` -/

def ACTION : Text := "git.commit_changeset".toList

/-- `f"git-action:{action.id}"` -/
def requester (id : Uuid) : Text := "git-action:".toList ++ id.str

/-- `_policy`, and the request of the approval. -/
def policy (run : WorkflowRun) (environment : Text) (id : Uuid) : ScopedRequest where
  tenantId := run.tenantId
  workspaceId := run.workspaceId
  action := ACTION
  actorType := .some "service".toList
  actorId := .some (requester id)
  resourceType := .some "task".toList
  resourceId := .some run.taskId
  projectId := .some run.projectId
  taskId := .some run.taskId
  context := ⟨.some .high, .some environment, .some false⟩
  valid := by
    have hshape : (3 ≤ ACTION.length && ACTION.length ≤ 100 && Policy.ACTION.fullmatch ACTION &&
      validType (.some "service".toList) &&
      validType (.some "task".toList)) = true := by decide +kernel
    simp only [Bool.and_eq_true] at hshape
    obtain ⟨⟨⟨⟨hlow, hhigh⟩, haction⟩, hservice⟩, htask⟩ := hshape
    have hproject :
      ((Option.some "task".toList : Option Text) == .some "project".toList) = false := by decide
    simp only [validateRequest, hlow, hhigh, haction, hservice, htask, hproject]
    simp

/-- The metadata of `_audit`. -/
def auditMetadata (action : GitCommitAction) : JsonTree := .object [
  ("git_commit_action_id".toList, .string action.id.str),
  ("workflow_run_id".toList, .string action.workflowRunId.str),
  ("action_fingerprint".toList, .string action.actionFingerprint),
  ("status".toList, .string action.status),
  ("resulting_commit_sha".toList, .null),
  ("failure_code".toList, .null)]

/-- The record of `_audit`, with `outcome` "success". -/
def actionRecord (action : GitCommitAction) : AuditRecord where
  tenantId := action.tenantId
  workspaceId := action.workspaceId
  projectId := .some action.projectId
  taskId := .some action.taskId
  resourceType := .some "task".toList
  resourceId := .some action.taskId
  action := ACTION
  actorType := "service".toList
  outcome := "success".toList
  metadata := auditMetadata action

/-- `action.approval_request_id = approval.id` -/
def Store.setApproval (store : Store) (id approvalId : Uuid) : Store :=
  { store with
    actions := store.actions.map fun action =>
      if action.id = id then { action with approvalRequestId := .some approvalId } else action }

/-- `prepare`: `reads` is what `_workflow`, `_qa_eligible`, `_mutations` and the preparation of
the repository end in. -/
def prepare (o : Awaits) (reads : Except Exn Prepared) (id approvalId : Uuid) :
    Prog Store GitCommitAction := do
  let prepared ← ofExcept reads
  let action := prepared.action id
  write fun store => { store with actions := store.actions ++ [action] }
  await o.flush
  let decision ← evaluate lib w o.evaluation (policy prepared.run prepared.environment id)
  if decision.effect ≠ .requireConfirmation then
    raise (.application "git_confirmation_required".toList)
  else do
    let approval ← createApproval lib w o.approval approvalId
      (policy prepared.run prepared.environment id)
      (.some prepared.fingerprint)
    write (·.setApproval id approval.id)
    append lib w o.record false
      (actionRecord { action with approvalRequestId := .some approval.id })
    commit o.commit
    await o.refresh
    pure { action with approvalRequestId := .some approval.id }

end

/-! ## What a preparation stores -/

/-- A row of the request is stored: its action, or an approval it asked for. -/
def Store.Holds (id : Uuid) (store : Store) : Prop :=
  (∃ action ∈ store.actions, action.id = id) ∨
    ∃ approval ∈ store.policy.approvals, approval.request.actorId = .some (requester id)

/-- The store with other rules. -/
def Store.withRules (store : Store) (rules : List PolicyRule) : Store :=
  { store with policy := { store.policy with rules := rules } }

/-- The store with one more audit record. -/
def Store.record (store : Store) (data : AuditRecord) : Store :=
  { store with policy := { store.policy with audit := store.policy.audit ++ [data] } }

variable {lib : TextLibrary} {w : WordClass} {id : Uuid}

theorem readRules_bind {β : Type} (rules : List PolicyRule) (f : Unit → Prog Store β)
    (s : Session Store) :
    (readRules rules >>= f) s = f () ⟨s.committed.withRules rules, s.view.withRules rules⟩ := rfl

theorem readRules_leaves (rules : List PolicyRule) : Leaves (Store.Holds id) (readRules rules) :=
  fun _ h => h

theorem appendBody_leaves {o : Appending} {commits : Bool} {data : AuditRecord} :
    Leaves (Store.Holds id) (appendBody lib w o commits data) := by
  rw [appendBody]
  split
  next => exact .raise _
  next =>
    refine (Leaves.await _).bind fun _ => Leaves.read.bind fun _ => ?_
    split
    next => exact .raise _
    next =>
      refine Leaves.bind (Leaves.write ?_) fun _ => (Leaves.await _).bind fun _ => ?_
      · intro store hstore
        exact hstore
      · split
        next => exact (Leaves.commit _).bind fun _ => .await _
        next => exact .pure _

theorem append_leaves {o : Appending} {commits : Bool} {data : AuditRecord} :
    Leaves (Store.Holds id) (append lib w o commits data) :=
  appendBody_leaves.tryReturn (onServiceError_reraises _).leaves fun a => .pure a

theorem evaluate_leaves {o : Evaluation} {request : ScopedRequest} : Leaves (Store.Holds id)
    (evaluate lib w o request) := by
  refine (readRules_leaves _).bind fun _ => (Leaves.await _).bind fun _ => Leaves.read.bind fun _ =>
    ?_
  split
  next => exact .raise _
  next =>
    split
    next => exact append_leaves.bind fun _ => .pure _
    next => exact .pure _

theorem Store.Holds.approve {store : Store} (h : store.Holds id) (approval : ApprovalRequest) :
    Store.Holds id
      { store with policy :=
      { store.policy with approvals := store.policy.approvals ++ [approval] } } := by
  rcases h with h | h
  · exact .inl h
  · obtain ⟨old, hmem, hid⟩ := h
    exact .inr ⟨old, List.mem_append_left _ hmem, hid⟩

theorem createBody_leaves {o : Creation} {approvalId : Uuid} {request : ScopedRequest}
    {fingerprint : Option Text} {result : PolicyEvaluationResult} : Leaves (Store.Holds id)
    (createBody lib w o approvalId request fingerprint result) := by
  rw [createBody]
  split
  next => exact .raise _
  next =>
    exact (Leaves.write fun _ h => h.approve _).bind fun _ => (Leaves.await _).bind fun _ =>
      append_leaves.bind fun _ => (Leaves.commit _).bind fun _ => (Leaves.await _).bind fun _ =>
        .pure _

theorem createApproval_leaves {o : Creation} {approvalId : Uuid} {request : ScopedRequest}
    {fingerprint : Option Text} :
    Leaves (Store.Holds id) (createApproval lib w o approvalId request fingerprint) := by
  refine evaluate_leaves.bind fun _ => ?_
  split
  next => exact .raise _
  next =>
    split
    next => exact .raise _
    next => exact createBody_leaves.tryReturn (onServiceError_reraises _).leaves fun a => .pure a

theorem Store.Holds.setApproval {store : Store} (h : store.Holds id) (actionId approvalId : Uuid) :
    (store.setApproval actionId approvalId).Holds id := by
  rcases h with h | h
  · obtain ⟨action, hmem, hid⟩ := h
    refine .inl ⟨_, List.mem_map_of_mem hmem, ?_⟩
    split
    next => exact hid
    next => exact hid
  · exact .inr h

/-! ## When the calls return -/

/-- The awaits of a record that joins the transaction return. -/
def Appending.Joins (o : Appending) : Prop := o.scope = .ok ∧ o.flush = .ok

/-- Those of a record that is committed, to the commit: it takes effect. -/
def Appending.Stores (o : Appending) : Prop := o.Joins ∧ o.commit.commits = true

/-- Those of a record that is committed return. -/
def Appending.Quiet (o : Appending) : Prop := o.Joins ∧ o.commit = .ok ∧ o.refresh = .ok

/-- `append_record` takes the record as it is. -/
def Accepted (lib : TextLibrary) (w : WordClass) (policy : Policy.Database) (data : AuditRecord) :
    Prop :=
  safeMetadata lib w data.metadata = .ok data.metadata ∧
    appendRecord lib w policy data = .ok { policy with audit := policy.audit ++ [data] }

section
variable {β : Type} {o : Appending} {commits : Bool} {data : AuditRecord} {f : Unit → Prog Store β}
  {s : Session Store}

/-- A record that is accepted: its awaits in order. -/
theorem appendBody_accepted (h : Accepted lib w s.view.policy data) :
    (appendBody lib w o commits data >>= f) s =
      (await o.scope >>= fun _ => write (fun store => store.record data) >>=
        fun _ => await o.flush >>= fun _ =>
        (if commits then do
          commit o.commit
          await o.refresh
        else pure ()) >>= f) s := by
  rw [appendBody, h.1]
  simp only [bind_assoc]
  cases hscope : o.scope with
  | ok =>
    rw [bind_ok (await_ok s), bind_ok (await_ok s), read_bind]
    simp only [h.2, bind_assoc]
    rfl
  | before e | after e => rfl

/-- One that is refused leaves what is committed as it was. -/
theorem append_refused (o : Appending) (commits : Bool) (f : Unit → Prog Store β)
    (s : Session Store) {message : String} (h : safeMetadata lib w data.metadata = .error message) :
    ∃ e s', (append lib w o commits data >>= f) s = (.error e, s') ∧
      s'.committed = s.committed := by
  have hbody : appendBody lib w o commits data s =
      (.error (.application (errorCode (.invalidAudit message))), s) := by
    rw [appendBody, h]
    rfl
  obtain ⟨a, s', hok, -⟩ | ⟨e, e', s', s'', herror, htry, hcommitted⟩ :=
    try_cases (onServiceError_reraises "audit_persistence_failed".toList)
      (appendBody lib w o commits data) s
  · rw [hok] at hbody
    cases hbody
  · rw [hbody] at herror
    cases herror
    exact ⟨e', s'', bind_error htry, hcommitted⟩

theorem append_returns_iff (h : Accepted lib w s.view.policy data) :
    Returns ((append lib w o true data >>= f) s) ↔ o.Quiet ∧ Returns
      (f () ⟨s.view.record data, s.view.record data⟩) := by
  rw [append, try_returns_iff (onServiceError_reraises _), appendBody_accepted h, await_returns_iff,
    write_bind, await_returns_iff]
  simp only [if_true, bind_assoc]
  rw [commit_returns_iff, await_returns_iff]
  simp only [Appending.Quiet, Appending.Joins, and_assoc]

theorem append_joins_returns_iff (h : Accepted lib w s.view.policy data) :
    Returns ((append lib w o false data >>= f) s) ↔ o.Joins ∧ Returns
      (f () ⟨s.committed, s.view.record data⟩) := by
  rw [append, try_returns_iff (onServiceError_reraises _), appendBody_accepted h, await_returns_iff,
    write_bind, await_returns_iff]
  simp only [Bool.false_eq_true, if_false, pure_bind, Appending.Joins, and_assoc]

/-- A record committed on top of rows of the request. -/
theorem append_clean_iff (h : Accepted lib w s.view.policy data) (hnot : ¬ s.committed.Holds id)
    (hview : s.view.Holds id) (hf : Leaves (Store.Holds id) (f ())) :
    Clean (Store.Holds id) ((append lib w o true data >>= f) s) ↔
      (o.Stores → o.Quiet ∧ Returns (f () ⟨s.view.record data, s.view.record data⟩)) := by
  have hrest : Leaves (Store.Holds id) (await o.refresh >>= f) := (Leaves.await _).bind fun _ => hf
  have hcommit := commit_clean_iff (s := ⟨s.committed, s.view.record data⟩) (o := o.commit) (f :=
    fun _ => await o.refresh >>= f)
    (I := Store.Holds id) (fun _ h => h) hnot hview hrest
  have hflush := await_clean_iff (s := ⟨s.committed, s.view.record data⟩) (o := o.flush)
    (f := fun _ => commit o.commit >>= fun _ => await o.refresh >>= f) (Q := Store.Holds id) hnot
  rw [hcommit, await_returns_iff] at hflush
  rw [append, try_clean_iff (onServiceError_reraises _), appendBody_accepted h,
    await_clean_iff hnot]
  simp only [write_bind, if_true, bind_assoc]
  simp only [Appending.Stores, Appending.Quiet, Appending.Joins]
  constructor
  · intro hclean hstores
    obtain ⟨hcommitted, hrefresh, hreturns⟩ := hflush.mp (hclean hstores.1.1) hstores.1.2 hstores.2
    exact ⟨⟨hstores.1, hcommitted, hrefresh⟩, hreturns⟩
  · intro hquiet hscope
    refine hflush.mpr fun hflushed hcommits => ?_
    obtain ⟨⟨-, hcommitted, hrefresh⟩, hreturns⟩ := hquiet ⟨⟨hscope, hflushed⟩, hcommits⟩
    exact ⟨hcommitted, hrefresh, hreturns⟩

end

/-- The scope of a request exists. -/
def InScope (policy : Policy.Database) (request : ScopedRequest) : Prop :=
  policy.hasScope request.tenantId request.workspaceId request.projectId request.taskId = true

/-- The decision of `evaluate_rules` on the rules in force. -/
def Evaluation.decision (o : Evaluation) (request : ScopedRequest) : PolicyEvaluationResult :=
  Database.decision ⟨o.rules, [], [], [], [], []⟩ request

/-- The evaluation commits a record: its decision is not ALLOW, and the record is taken and stored.
-/
def Evaluation.Stores (o : Evaluation) (policy : Policy.Database) (request : ScopedRequest) :
    Prop :=
  o.reads = .ok ∧ InScope policy request ∧ (o.decision request).effect ≠ .allow ∧
    (o.decision request).matchedRuleIds.length ≤ 59 ∧ o.record.Stores

/-- The evaluation returns a decision to confirm. -/
def Evaluation.Confirms (o : Evaluation) (policy : Policy.Database) (request : ScopedRequest) :
    Prop :=
  o.reads = .ok ∧ InScope policy request ∧ (o.decision request).effect = .requireConfirmation ∧
    (o.decision request).matchedRuleIds.length ≤ 59 ∧ o.record.Quiet

/-- The store once the decision is recorded. -/
def Store.evaluated (store : Store) (o : Evaluation) (request : ScopedRequest) : Store :=
  (store.withRules o.rules).record (evaluationRecord request (o.decision request))

section
variable {β : Type} {o : Evaluation} {request : ScopedRequest}
  {f : PolicyEvaluationResult → Prog Store β} {s : Session Store}

theorem Evaluation.audited (o : Evaluation) (request : ScopedRequest) :
    (o.decision request).auditRequired = true ↔ (o.decision request).effect ≠ .allow :=
  auditRequired_eq _ _

theorem evaluation_accepted {policy : Policy.Database} (hscope : InScope policy request)
    (hlength : (o.decision request).matchedRuleIds.length ≤ 59) :
    Accepted lib w policy (evaluationRecord request (o.decision request)) := by
  have hsafe : safeMetadata lib w (evaluationRecord request (o.decision request)).metadata = _ :=
    evaluation_safe request _
  rw [if_pos hlength] at hsafe
  have happend : appendRecord lib w policy (evaluationRecord request (o.decision request)) = _ :=
    appendRecord_eq hscope rfl request.resource.2.1 (fun h => by cases h) (fun h => by cases h)
  rw [hsafe] at happend
  exact ⟨hsafe, happend⟩

/-- `evaluate`, up to its record. -/
theorem evaluate_bind (hscope : InScope s.view.policy request) :
    (evaluate lib w o request >>= f) s =
      (await o.reads >>= fun _ =>
        if (o.decision request).auditRequired then
          append lib w o.record true (evaluationRecord request (o.decision request)) >>= fun _ => f
            (o.decision request)
        else f (o.decision request)) ⟨s.committed.withRules o.rules, s.view.withRules o.rules⟩ := by
  rw [evaluate]
  simp only [bind_assoc]
  rw [readRules_bind]
  cases hreads : o.reads with
  | ok =>
    rw [bind_ok (await_ok _), bind_ok (await_ok _), read_bind]
    have hdecided : evaluateDecision (s.view.withRules o.rules).policy request =
      .ok (o.decision request) := if_pos hscope
    simp only [hdecided]
    split
    next => simp only [bind_assoc, pure_bind]
    next => simp only [pure_bind]
  | before e | after e => rfl

/-- Without the scope it raises, and nothing is committed. -/
theorem evaluate_unscoped (lib : TextLibrary) (w : WordClass)
    (hscope : ¬ InScope s.view.policy request) :
    ∃ e, (evaluate lib w o request >>= f) s =
      (.error e, ⟨s.committed.withRules o.rules, s.view.withRules o.rules⟩) := by
  rw [evaluate]
  simp only [bind_assoc]
  rw [readRules_bind]
  cases hreads : o.reads with
  | ok =>
    rw [bind_ok (await_ok _), read_bind]
    have hdecided : evaluateDecision (s.view.withRules o.rules).policy request = .error .notFound :=
      if_neg hscope
    simp only [hdecided]
    exact ⟨_, rfl⟩
  | before e | after e => exact ⟨e, rfl⟩

/-- The record of the decision, committed. -/
theorem record_returns_iff (hscope : InScope s.view.policy request) {f : Unit → Prog Store β} :
    Returns ((append lib w o.record true (evaluationRecord request (o.decision request)) >>= f) s) ↔
      (o.decision request).matchedRuleIds.length ≤ 59 ∧ o.record.Quiet ∧
        Returns (f () ⟨s.view.record (evaluationRecord request (o.decision request)),
          s.view.record (evaluationRecord request (o.decision request))⟩) := by
  by_cases hlength : (o.decision request).matchedRuleIds.length ≤ 59
  · rw [append_returns_iff (evaluation_accepted hscope hlength)]
    simp only [hlength, true_and]
  · have hsafe : safeMetadata lib w (evaluationRecord request (o.decision request)).metadata = _ :=
      evaluation_safe request _
    rw [if_neg hlength] at hsafe
    obtain ⟨e, s', hraise, -⟩ := append_refused o.record true f s hsafe
    rw [hraise]
    simp [Returns, hlength]

/-- So is it on top of rows of the request. -/
theorem record_clean_iff (hscope : InScope s.view.policy request) (hnot : ¬ s.committed.Holds id)
    (hview : s.view.Holds id) {f : Unit → Prog Store β} (hf : Leaves (Store.Holds id) (f ())) :
    Clean (Store.Holds id)
      ((append lib w o.record true (evaluationRecord request (o.decision request)) >>= f) s) ↔
      ((o.decision request).matchedRuleIds.length ≤ 59 → o.record.Stores → o.record.Quiet ∧
        Returns (f () ⟨s.view.record (evaluationRecord request (o.decision request)),
          s.view.record (evaluationRecord request (o.decision request))⟩)) := by
  by_cases hlength : (o.decision request).matchedRuleIds.length ≤ 59
  · rw [append_clean_iff (evaluation_accepted hscope hlength) hnot hview hf]
    simp only [hlength, true_implies]
  · have hsafe : safeMetadata lib w (evaluationRecord request (o.decision request)).metadata = _ :=
      evaluation_safe request _
    rw [if_neg hlength] at hsafe
    obtain ⟨e, s', hraise, hcommitted⟩ := append_refused o.record true f s hsafe
    rw [hraise]
    refine iff_of_true (clean_of_uncommitted ?_) fun h => absurd h hlength
    rw [hcommitted]
    exact hnot

variable (hf : ∀ result, result.effect ≠ .requireConfirmation → ∃ e, f result = raise e)
include hf

/-- **`evaluate`, and a program that goes on only with a decision to confirm.** -/
theorem evaluate_returns_iff :
    Returns ((evaluate lib w o request >>= f) s) ↔ o.Confirms s.view.policy request ∧
      Returns (f (o.decision request) ⟨s.view.evaluated o request,
        s.view.evaluated o request⟩) := by
  by_cases hscope : InScope s.view.policy request
  · rw [evaluate_bind hscope, await_returns_iff]
    have hscopeRules :
      InScope (Session.mk (s.committed.withRules o.rules) (s.view.withRules o.rules)).view.policy
      request := hscope
    by_cases heffect : (o.decision request).effect = .requireConfirmation
    · have haudited : (o.decision request).auditRequired = true :=
        (o.audited request).mpr (by simp [heffect])
      rw [if_pos haudited, record_returns_iff hscopeRules]
      simp only [Evaluation.Confirms, hscope, heffect, true_and, and_assoc, Store.evaluated]
    · obtain ⟨e, hraise⟩ := hf _ heffect
      simp only [Evaluation.Confirms, heffect, hraise, false_and, and_false, iff_false, not_and]
      intro hreads hreturns
      split at hreturns
      next =>
        rw [record_returns_iff hscopeRules] at hreturns
        simp [Returns] at hreturns
      next => simp [Returns] at hreturns
  · obtain ⟨e, hraise⟩ := evaluate_unscoped lib w (f := f) hscope
    rw [hraise]
    simp [Returns, Evaluation.Confirms, hscope]

/-- Before anything is committed, it is clean unless its record is stored and what follows raises.
-/
theorem evaluate_clean_iff (hnot : ¬ s.committed.Holds id) (hview : s.view.Holds id)
    (hleaves : ∀ result, Leaves (Store.Holds id) (f result)) :
    Clean (Store.Holds id) ((evaluate lib w o request >>= f) s) ↔ (o.Stores s.view.policy request →
      o.Confirms s.view.policy request ∧ Returns
        (f (o.decision request) ⟨s.view.evaluated o request, s.view.evaluated o request⟩)) := by
  have hnotRules : ¬ (s.committed.withRules o.rules).Holds id := hnot
  by_cases hscope : InScope s.view.policy request
  · have hscopeRules : InScope (s.view.withRules o.rules).policy request := hscope
    rw [evaluate_bind hscope, await_clean_iff hnotRules]
    by_cases hallow : (o.decision request).effect = .allow
    · obtain ⟨e, hraise⟩ := hf (o.decision request) (by simp [hallow])
      have haudited : ¬ (o.decision request).auditRequired = true :=
        fun h => (o.audited request).mp h hallow
      rw [if_neg haudited, hraise]
      refine iff_of_true (fun _ => clean_of_uncommitted hnotRules) ?_
      intro hstores
      exact absurd hallow hstores.2.2.1
    · have haudited : (o.decision request).auditRequired = true := (o.audited request).mpr hallow
      rw [if_pos haudited, record_clean_iff (f := fun _ => f (o.decision request))
        (s := ⟨s.committed.withRules o.rules, s.view.withRules o.rules⟩) hscopeRules hnotRules hview
          (hleaves _)]
      simp only [Evaluation.Stores, Evaluation.Confirms, hscope, hallow, Store.evaluated, ne_eq,
        not_false_iff, true_and]
      constructor
      · intro h hstores
        obtain ⟨hreads, hlength, hstores⟩ := hstores
        obtain ⟨hquiet, hreturns⟩ := h hreads hlength hstores
        refine ⟨⟨hreads, ?_, hlength, hquiet⟩, hreturns⟩
        by_contra heffect
        obtain ⟨e, hraise⟩ := hf _ heffect
        rw [hraise] at hreturns
        simp [Returns] at hreturns
      · intro h hreads hlength hstores
        obtain ⟨hconfirms, hreturns⟩ := h ⟨hreads, hlength, hstores⟩
        exact ⟨hconfirms.2.2.2, hreturns⟩
  · obtain ⟨e, hraise⟩ := evaluate_unscoped lib w (f := f) hscope
    rw [hraise]
    exact iff_of_true (clean_of_uncommitted hnotRules) fun hstores => absurd hstores.2.1 hscope

end

/-! ## The approval and the record of the action -/

/-- The store with the approval and its record. -/
def Store.approved (store : Store) (approval : ApprovalRequest) : Store :=
  Store.record { store with policy :=
    { store.policy with approvals := store.policy.approvals ++ [approval] } }
    (auditData approval "approval.request".toList)

/-- The awaits of an approval return, and the rules that match fit in its record. -/
def Creation.Returns (o : Creation) (policy : Policy.Database) (request : ScopedRequest) : Prop :=
  o.evaluation.Confirms policy request ∧
    (o.evaluation.decision request).matchedRuleIds.length ≤ 57 ∧ o.flush = .ok ∧
    o.record.Joins ∧ o.commit = .ok ∧ o.refresh = .ok

section
variable {β : Type} {o : Creation} {approvalId : Uuid} {request : ScopedRequest}
  {fingerprint : Option Text} {s : Session Store}

theorem approval_accepted {policy : Policy.Database} {result : PolicyEvaluationResult}
    (hscope : InScope policy request) (hlength : result.matchedRuleIds.length ≤ 57) :
    Accepted lib w policy
      (auditData (newApproval approvalId request fingerprint result)
      "approval.request".toList) := by
  have hsafe : safeMetadata lib w
      (auditData (newApproval approvalId request fingerprint result) _).metadata = _ :=
    approval_safe _ "approval.request".toList approval_words.1 approval_words.2
  have happend : appendRecord lib w policy
      (auditData (newApproval approvalId request fingerprint result) _) = _ :=
    append_approval "approval.request".toList hscope approval_words.1 approval_words.2
  have hids : (newApproval approvalId request fingerprint result).matchedRuleIds =
    result.matchedRuleIds := rfl
  rw [hids, if_pos hlength] at hsafe happend
  exact ⟨hsafe, happend⟩

/-- The `try` of `create_approval`, after a decision that was recorded. -/
theorem createBody_returns_iff (hscope : InScope s.view.policy request)
    (hlength : (o.evaluation.decision request).matchedRuleIds.length ≤ 59)
    {g : ApprovalRequest → Prog Store β} :
    Returns ((createBody lib w o approvalId request fingerprint (o.evaluation.decision request) >>=
      g) s) ↔
      (o.evaluation.decision request).matchedRuleIds.length ≤ 57 ∧ o.flush = .ok ∧ o.record.Joins ∧
      o.commit = .ok ∧ o.refresh = .ok ∧
        Returns (g (newApproval approvalId request fingerprint (o.evaluation.decision request))
          ⟨s.view.approved
            (newApproval approvalId request fingerprint (o.evaluation.decision request)),
            s.view.approved
            (newApproval approvalId request fingerprint (o.evaluation.decision request))⟩) := by
  have hreasons : (o.evaluation.decision request).reasons.length ≤
      (o.evaluation.decision request).matchedRuleIds.length + 1 :=
    reasons_length _ _
  have hlists : ¬ (64 < (o.evaluation.decision request).matchedRuleIds.length ∨
      64 < (o.evaluation.decision request).reasons.length) := by
    omega
  rw [createBody, if_neg hlists]
  simp only [bind_assoc]
  rw [write_bind, await_returns_iff]
  by_cases hfits : (o.evaluation.decision request).matchedRuleIds.length ≤ 57
  · have hview : InScope (Session.mk s.committed { s.view with policy := { s.view.policy with
        approvals := s.view.policy.approvals ++
          [newApproval approvalId request fingerprint (o.evaluation.decision request)] } }
        ).view.policy request := hscope
    rw [append_joins_returns_iff (approval_accepted hview hfits)]
    simp only [commit_returns_iff, await_returns_iff, pure_bind, hfits, true_and]
    rfl
  · have hsafe : safeMetadata lib w
        (auditData (newApproval approvalId request fingerprint (o.evaluation.decision request))
            _).metadata = _ :=
      approval_safe _ "approval.request".toList approval_words.1 approval_words.2
    have hids : (newApproval approvalId request fingerprint
      (o.evaluation.decision request)).matchedRuleIds =
        (o.evaluation.decision request).matchedRuleIds := rfl
    rw [hids, if_neg hfits] at hsafe
    simp only [hfits, false_and, iff_false, not_and]
    intro hflush hreturns
    obtain ⟨e, s', hraise, -⟩ := append_refused o.record false (fun _ => commit o.commit >>=
        fun _ => await o.refresh >>= fun _ =>
      pure (newApproval approvalId request fingerprint (o.evaluation.decision request)) >>= g)
      ⟨s.committed, { s.view with policy := { s.view.policy with
        approvals := s.view.policy.approvals ++
          [newApproval approvalId request fingerprint (o.evaluation.decision request)] } }⟩ hsafe
    rw [hraise] at hreturns
    simp [Prog.Returns] at hreturns

/-- **`create_approval` returns exactly when** its evaluation confirms, the rules fit and its awaits
return. -/
theorem createApproval_returns_iff {g : ApprovalRequest → Prog Store β} :
    Returns ((createApproval lib w o approvalId request fingerprint >>= g) s) ↔
      o.Returns s.view.policy request ∧
      Returns (g (newApproval approvalId request fingerprint (o.evaluation.decision request))
        ⟨(s.view.evaluated o.evaluation request).approved
          (newApproval approvalId request fingerprint (o.evaluation.decision request)),
          (s.view.evaluated o.evaluation request).approved
            (newApproval approvalId request fingerprint (o.evaluation.decision request))⟩) := by
  rw [createApproval, bind_assoc, evaluate_returns_iff]
  · constructor
    · intro h
      obtain ⟨hconfirms, hreturns⟩ := h
      have hscope := hconfirms.2.1
      have heffect := hconfirms.2.2.1
      have hlength := hconfirms.2.2.2.1
      rw [if_neg (by simp [heffect]), if_neg (by simp [heffect]),
        try_returns_iff (onServiceError_reraises _), createBody_returns_iff (s :=
          ⟨_, s.view.evaluated o.evaluation request⟩) hscope hlength] at hreturns
      obtain ⟨hfits, hflush, hrecord, hcommit, hrefresh, hreturns⟩ := hreturns
      exact ⟨⟨hconfirms, hfits, hflush, hrecord, hcommit, hrefresh⟩, hreturns⟩
    · intro h
      obtain ⟨⟨hconfirms, hfits, hflush, hrecord, hcommit, hrefresh⟩, hreturns⟩ := h
      have hscope := hconfirms.2.1
      have heffect := hconfirms.2.2.1
      have hlength := hconfirms.2.2.2.1
      refine ⟨hconfirms, ?_⟩
      rw [if_neg (by simp [heffect]), if_neg (by simp [heffect]),
        try_returns_iff (onServiceError_reraises _),
          createBody_returns_iff (s := ⟨_, s.view.evaluated o.evaluation request⟩) hscope hlength]
      exact ⟨hfits, hflush, hrecord, hcommit, hrefresh, hreturns⟩
  · intro result heffect
    by_cases hblock : result.effect = .block
    · rw [if_pos hblock]
      exact ⟨_, rfl⟩
    · rw [if_neg hblock, if_pos heffect]
      exact ⟨_, rfl⟩

end

/-- The keys of `_audit` are words, none of them forbidden, of at most 20 characters. -/
theorem auditKeys_checked :
    ∀ key ∈ ["git_commit_action_id", "workflow_run_id", "action_fingerprint", "status",
      "resulting_commit_sha", "failure_code"],
      ((key.toList.all fun c => 'a' ≤ c && c ≤ 'z' || c == '_') = true ∧
        (FORBIDDEN_KEYS.any fun marker => occursIn marker (key.toList.filter (· != '_'))) = false) ∧
        JsonTree.measure JsonTree.utf8Width (JsonTree.quote key.toList) ≤ 22 := by
  decide

/-- A field that is null adds one value. -/
theorem validate_null {key : Text} {count : ℕ} {fields : List (Text × JsonTree)}
    (hkey : forbiddenKey lib key = false) (hcount : count < MAX_METADATA_ITEMS) :
    validateFields lib w 1 count ((key, .null) :: fields) = validateFields lib w 1
      (count + 1) fields := by
  rw [validateFields_cons hkey, validateMetadataValue, counted_eq (by decide), if_pos hcount]
  rfl

/-- The record of an action passes: its texts are ids, a digest and a status. -/
theorem auditMetadata_safe {action : GitCommitAction}
    (hfingerprint : Plain lib w action.actionFingerprint) (hstatus : Plain lib w action.status) :
    safeMetadata lib w (auditMetadata action) = .ok (auditMetadata action) := by
  have hpass : ∀ key ∈ ["git_commit_action_id", "workflow_run_id", "action_fingerprint", "status",
    "resulting_commit_sha",
      "failure_code"], forbiddenKey lib key.toList = false :=
    fun key hkey =>
      forbiddenKey_of_word (auditKeys_checked key hkey).1.1 (auditKeys_checked key hkey).1.2
  have hids : ∀ uuid : Uuid, Plain lib w uuid.str := fun uuid => .of_uuid uuid
  have hvalid : validateMetadataValue lib w 0 0 (auditMetadata action) = .ok 7 := by
    rw [auditMetadata, validate_object,
      validate_text (hpass "git_commit_action_id" (by decide)) (hids _) (by decide),
        validate_text (hpass "workflow_run_id" (by decide)) (hids _) (by decide),
      validate_text (hpass "action_fingerprint" (by decide)) hfingerprint (by decide),
      validate_text (hpass "status" (by decide)) hstatus (by decide),
      validate_null (hpass "resulting_commit_sha" (by decide)) (by decide),
      validate_null (hpass "failure_code" (by decide)) (by decide)]
    rfl
  have hbytes : (encode (auditMetadata action).dumps).length ≤ MAX_METADATA_BYTES := by
    have hkeys := fun key hkey => (auditKeys_checked key hkey).2
    simp only [List.forall_mem_cons] at hkeys
    have hstatusLength := hstatus.length
    have hfingerprintLength := hfingerprint.length
    have hnull : JsonTree.measure JsonTree.utf8Width JsonTree.null.dumps = 4 := by decide
    have hid : ∀ uuid : Uuid, uuid.str.length = 36 := fun uuid => Uuid.length_str uuid
    rw [JsonTree.length_encode, auditMetadata,
      JsonTree.measure_object JsonTree.utf8Width JsonTree.utf8Width_ascii]
    simp only [List.map_cons, List.map_nil, List.sum_cons, List.sum_nil, List.length_cons,
      List.length_nil, hnull, plain_bytes hstatus, plain_bytes hfingerprint, plain_bytes (hids _),
        hid]
    have hmax : MAX_METADATA_BYTES = 4096 := rfl
    have hstring : MAX_STRING_LENGTH = 256 := rfl
    omega
  exact safeMetadata_ok hvalid hbytes

/-- The row with its approval. -/
def Prepared.approved (prepared : Prepared) (id approvalId : Uuid) : GitCommitAction :=
  { prepared.action id with approvalRequestId := .some approvalId }

theorem action_accepted {policy : Policy.Database} {prepared : Prepared} {approvalId : Uuid}
    (hscope : policy.hasScope prepared.run.tenantId prepared.run.workspaceId
      (.some prepared.run.projectId) (.some prepared.run.taskId) = true) :
      Accepted lib w policy (actionRecord (prepared.approved id approvalId)) := by
  have hdigits : ("0123456789abcdef".toList.all wordChar) = true := by decide
  have hfingerprint : Plain lib w prepared.fingerprint := by
    refine .of_words ?_ fun c hc => List.all_eq_true.mp hdigits c (prepared.hex.2 c hc)
    rw [prepared.hex.1]
    decide
  have hstatus : Plain lib w "PENDING_APPROVAL".toList := by
    have hall : ("PENDING_APPROVAL".toList.all wordChar) = true := by decide
    exact .of_words (by decide) fun c hc => List.all_eq_true.mp hall c hc
  have hsafe : safeMetadata lib w (actionRecord (prepared.approved id approvalId)).metadata = _ :=
    auditMetadata_safe hfingerprint hstatus
  have hnotProject : (Option.some "task".toList : Option Text) ≠ .some "project".toList := by decide
  have happend : appendRecord lib w policy (actionRecord (prepared.approved id approvalId)) = _ :=
    appendRecord_eq hscope rfl (fun _ => rfl) (fun h => absurd h hnotProject) (fun _ => rfl)
  rw [hsafe] at happend
  exact ⟨hsafe, happend⟩

/-! ## Clean failures of `prepare` -/

/-- The first commit of the preparation takes effect: the record of its policy decision. -/
def Awaits.Stores (o : Awaits) (store : Store) (prepared : Prepared) (id : Uuid) : Prop :=
  o.flush = .ok ∧ o.evaluation.Stores store.policy (policy prepared.run prepared.environment id)

/-- Nothing fails from there on: both decisions ask to confirm, the approval is taken, and every
await returns. -/
def Awaits.Completes (o : Awaits) (store : Store) (prepared : Prepared) (id : Uuid) : Prop :=
  o.evaluation.Confirms store.policy (policy prepared.run prepared.environment id) ∧
    o.approval.Returns store.policy (policy prepared.run prepared.environment id) ∧ o.record.Joins ∧
      o.commit = .ok ∧ o.refresh = .ok

section
variable (o : Awaits) (prepared : Prepared) (approvalId : Uuid) (store : Store)

/-- What follows the decision. -/
def afterDecision (lib : TextLibrary) (w : WordClass) (id : Uuid)
    (decision : PolicyEvaluationResult) : Prog Store GitCommitAction :=
  if decision.effect ≠ .requireConfirmation then
    raise (.application "git_confirmation_required".toList)
  else createApproval lib w o.approval approvalId (policy prepared.run prepared.environment id)
    (.some prepared.fingerprint) >>=
    fun approval => write (·.setApproval id approval.id) >>= fun _ =>
      append lib w o.record false (actionRecord (prepared.approved id approval.id)) >>=
          fun _ => commit o.commit >>= fun _ =>
        await o.refresh >>= fun _ => pure (prepared.approved id approval.id)

theorem afterDecision_leaves (decision : PolicyEvaluationResult) :
    Leaves (Store.Holds id) (afterDecision o prepared approvalId lib w id decision) := by
  rw [afterDecision]
  split
  next => exact .raise _
  next =>
    exact createApproval_leaves.bind fun _ =>
        (Leaves.write fun _ h => h.setApproval _ _).bind fun _ => append_leaves.bind fun _ =>
      (Leaves.commit _).bind fun _ => (Leaves.await _).bind fun _ => .pure _

/-- The record of the action and the last commit, in a scope that exists. -/
theorem finish_returns_iff {t : Session Store}
    (hscope : InScope t.view.policy (policy prepared.run prepared.environment id)) :
    Returns ((append lib w o.record false (actionRecord (prepared.approved id approvalId)) >>=
      fun _ => commit o.commit >>= fun _ =>
      await o.refresh >>= fun _ => pure (prepared.approved id approvalId)) t) ↔ o.record.Joins ∧
        o.commit = .ok ∧ o.refresh = .ok := by
  rw [append_joins_returns_iff (action_accepted hscope), commit_returns_iff, await_returns_iff]
  refine and_congr_right fun _ => and_congr_right fun _ => and_iff_left ?_
  exact ⟨_, rfl⟩

/-- What follows a decision to confirm returns when the approval does, and the awaits of the record
and the commit. -/
theorem afterDecision_returns_iff {decision : PolicyEvaluationResult} {s : Session Store}
    (hscope : InScope s.view.policy (policy prepared.run prepared.environment id))
    (heffect : decision.effect = .requireConfirmation) :
    Returns (afterDecision o prepared approvalId lib w id decision s) ↔
      o.approval.Returns s.view.policy (policy prepared.run prepared.environment id) ∧
        o.record.Joins ∧ o.commit = .ok ∧
        o.refresh = .ok := by
  rw [afterDecision, if_neg (by simp [heffect]), createApproval_returns_iff, write_bind]
  exact and_congr_right fun _ => finish_returns_iff o prepared approvalId hscope

/-- The preparation once its row is written. -/
theorem prepared_clean_iff (hfresh : ¬ store.Holds id) :
    Clean (Store.Holds id) (prepare lib w o (.ok prepared) id approvalId ⟨store, store⟩) ↔
      (o.Stores store prepared id → o.Completes store prepared id) := by
  have hview : Store.Holds id { store with actions := store.actions ++ [prepared.action id] } :=
    .inl ⟨prepared.action id, List.mem_append_right _ (List.mem_singleton.mpr rfl), rfl⟩
  have hrun : prepare lib w o (.ok prepared) id approvalId ⟨store, store⟩ =
      (await o.flush >>=
        fun _ => evaluate lib w o.evaluation (policy prepared.run prepared.environment id) >>=
        afterDecision o prepared approvalId lib w id) ⟨store,
          { store with actions := store.actions ++ [prepared.action id] }⟩ := rfl
  have hraises : ∀ decision, decision.effect ≠ .requireConfirmation →
      ∃ e, afterDecision o prepared approvalId lib w id decision = raise e :=
    fun decision hne => ⟨_, if_pos hne⟩
  rw [hrun, await_clean_iff hfresh, evaluate_clean_iff (s :=
    ⟨store, { store with actions := store.actions ++ [prepared.action id] }⟩)
    hraises hfresh hview (afterDecision_leaves o prepared approvalId)]
  constructor
  · intro hclean hstores
    obtain ⟨hconfirms, hreturns⟩ := hclean hstores.1 hstores.2
    have hscope := hconfirms.2.1
    have heffect := hconfirms.2.2.1
    exact ⟨hconfirms, (afterDecision_returns_iff o prepared approvalId
      (s := ⟨_, Store.evaluated { store with actions := store.actions ++ [prepared.action id] }
        o.evaluation _⟩) hscope heffect).mp hreturns⟩
  · intro hcompletes hflush hstores
    obtain ⟨hconfirms, hrest⟩ := hcompletes ⟨hflush, hstores⟩
    have hscope := hconfirms.2.1
    have heffect := hconfirms.2.2.1
    exact ⟨hconfirms, (afterDecision_returns_iff o prepared approvalId
      (s := ⟨_, Store.evaluated { store with actions := store.actions ++ [prepared.action id] }
        o.evaluation _⟩) hscope heffect).mpr hrest⟩

end

/-- **When a failing `prepare` leaves nothing**: exactly when the record of its policy decision is
not committed, or nothing fails from there on. -/
theorem prepare_clean_iff (lib : TextLibrary) (w : WordClass) (o : Awaits)
    (reads : Except Exn Prepared) (id approvalId : Uuid) (store : Store)
    (hfresh : ¬ store.Holds id) :
    Clean (Store.Holds id) (prepare lib w o reads id approvalId ⟨store, store⟩) ↔
      ∀ prepared, reads = .ok prepared → o.Stores store prepared id →
        o.Completes store prepared id := by
  cases reads with
  | ok prepared =>
    rw [prepared_clean_iff o prepared approvalId store hfresh]
    constructor
    · intro h other hother
      cases hother
      exact h
    · intro h
      exact h prepared rfl
  | error e => exact iff_of_true (clean_of_uncommitted hfresh) fun prepared h => by cases h

/-! ## Inputs -/

def exampleFingerprint : Text := List.replicate 64 'a'

/-- A changeset of one file in a workspace whose task exists. -/
def examplePrepared : Prepared where
  run := ⟨5, 1, 2, 3, 4⟩
  environment := "production".toList
  preparation :=
    ⟨"key".toList, "refs/heads/main".toList, "head".toList, "index".toList, [], [], "tree".toList⟩
  sources := ["call".toList]
  commitMessage := "Change".toList
  timestamp := 0
  expectedCommit := "commit".toList
  fingerprint := exampleFingerprint
  hex := ⟨List.length_replicate, fun c hc => by rw [List.eq_of_mem_replicate hc]; decide⟩

def exampleStore : Store := ⟨⟨[], [(1, 2)], [(2, 3)], [(3, 4)], [], []⟩, []⟩

theorem exampleStore_fresh (id : Uuid) : ¬ exampleStore.Holds id := by
  simp [Store.Holds, exampleStore]

def quietRecord : Appending := ⟨.ok, .ok, .ok, .ok⟩

/-- Every await returns, and no rule matches. -/
def quietAwaits : Awaits :=
  ⟨.ok, ⟨[], .ok, quietRecord⟩, ⟨⟨[], .ok, quietRecord⟩, .ok, quietRecord, .ok, .ok⟩, quietRecord,
  .ok, .ok⟩

/-- The `INSERT` of the approval fails. -/
def failingApproval : Awaits :=
  { quietAwaits with approval := { quietAwaits.approval with flush := .before .other } }

/-- The approval cannot be stored: `prepare` raises, and its action stays behind. -/
theorem prepare_leaves_action :
    ¬ ∀ (lib : TextLibrary) (w : WordClass) (o : Awaits) (reads :
    Except Exn Prepared) (id approvalId : Uuid)
    (store : Store), ¬ store.Holds id → Clean (Store.Holds id)
    (prepare lib w o reads id approvalId ⟨store, store⟩) := by
  intro hall
  have hclean := hall asciiLibrary Contracts.asciiWord failingApproval (.ok examplePrepared) 7 8
    exampleStore (exampleStore_fresh 7)
  rw [prepared_clean_iff failingApproval examplePrepared 8 exampleStore
    (exampleStore_fresh 7)] at hclean
  have hcompletes := hclean ⟨rfl, rfl, rfl, by decide, by decide, ⟨rfl, rfl⟩, rfl⟩
  have hflush : failingApproval.approval.flush = .ok := hcompletes.2.1.2.2.1
  cases hflush

theorem prepare_clean_example : Clean (Store.Holds 7)
    (prepare asciiLibrary Contracts.asciiWord quietAwaits (.ok examplePrepared) 7 8 ⟨exampleStore,
      exampleStore⟩) := by
  refine (prepare_clean_iff asciiLibrary Contracts.asciiWord quietAwaits (.ok examplePrepared) 7 8
    exampleStore
    (exampleStore_fresh 7)).mpr ?_
  intro prepared hprepared hstores
  cases hprepared
  have hquiet : quietRecord.Quiet := ⟨⟨rfl, rfl⟩, rfl, rfl⟩
  exact ⟨⟨rfl, rfl, rfl, by decide, hquiet⟩,
    ⟨⟨rfl, rfl, rfl, by decide, hquiet⟩, by decide, rfl, ⟨rfl, rfl⟩, rfl, rfl⟩, ⟨rfl, rfl⟩, rfl,
      rfl⟩

end Novalton.GitPreparation
