/-
What a request on the tool gateway may rely on while others act.

A request decides on what it has read before, and acts after others have acted. What it relies
on is what no step undoes (`Grows`): the columns of a call, the version of a definition, the
decision on an approval, the audit log. `Pc.Knows` says what a request may rely on at each
point; every step keeps it for the request that takes it and, as the state only grows, for
all the others.
-/
import Novalton.ToolGateway

namespace Novalton.ToolGateway

open Audit (TextLibrary)
open Contracts (WordClass)
open Policy (ScopedRequest ApprovalRequest PolicyEvaluationResult)

variable {lib : Library} {text : TextLibrary} {w : WordClass} {environment : Text}

/-! ## What no step undoes -/

/-- An approval keeps what was asked, and its decision once it has one. -/
structure ApprovalKept (approval later : ApprovalRequest) : Prop where
  same : { later with status := approval.status } = approval
  final : approval.status ≠ "PENDING".toList → later.status = approval.status

/-- Approvals and audit records stay. -/
structure DbGrows (db later : Policy.Database) : Prop where
  approvals : ∀ approval ∈ db.approvals, ∃ kept ∈ later.approvals, ApprovalKept approval kept
  audit : ∀ record ∈ db.audit, record ∈ later.audit

/-- A call keeps what was proposed, and its approval once it has one. -/
structure CallKept (call later : ToolCall) : Prop where
  same : later.toProposedCall = call.toProposedCall
  linked : ∀ approvalId, call.approvalRequestId = .some approvalId →
    later.approvalRequestId = .some approvalId

structure Grows (s t : State) : Prop where
  calls : ∀ call ∈ s.calls, ∃ kept ∈ t.calls, CallKept call kept
  runs : ∀ run ∈ s.runs, ∃ kept ∈ t.runs, { kept with status := run.status } = run
  definitions : ∀ definition ∈ s.definitions, definition ∈ t.definitions
  policy : DbGrows s.policy t.policy

theorem CallKept.refl (call : ToolCall) : CallKept call call := ⟨rfl, fun _ h => h⟩

theorem ApprovalKept.refl (approval : ApprovalRequest) : ApprovalKept approval approval :=
  ⟨rfl, fun _ => rfl⟩

theorem ApprovalKept.id_eq {approval kept : ApprovalRequest} (h : ApprovalKept approval kept) :
    kept.id = approval.id := by
  rw [← h.same]

theorem DbGrows.refl (db : Policy.Database) : DbGrows db db :=
  ⟨fun approval happroval => ⟨approval, happroval, .refl approval⟩, fun _ hrecord => hrecord⟩

theorem Grows.refl (s : State) : Grows s s where
  calls call hcall := ⟨call, hcall, .refl call⟩
  runs run hrun := ⟨run, hrun, rfl⟩
  definitions _ hdefinition := hdefinition
  policy := .refl _

/-! ### The policy's services -/

section
variable {db db' : Policy.Database} {request : ScopedRequest}

/-- A record that is appended is all that changes. -/
theorem appendRecord_ok {data : Policy.AuditRecord}
    (h : Policy.appendRecord text w db data = .ok db') :
    ∃ record, db' = { db with audit := db.audit ++ [record] } := by
  rw [Policy.appendRecord] at h
  split at h
  next => cases h
  next metadata _ =>
    repeat' split at h
    all_goals first
      | (cases h; done)
      | (cases h; exact ⟨_, rfl⟩)

theorem grows_of_append {record : Policy.AuditRecord} : DbGrows db
    { db with audit := db.audit ++ [record] } where
  approvals approval happroval := ⟨approval, happroval, .refl approval⟩
  audit _ hrecord := List.mem_append_left _ hrecord

/-- `evaluate` leaves the approvals; a decision other than ALLOW is in the log. -/
theorem evaluate_cases {result : Except Policy.ServiceError PolicyEvaluationResult}
    (h : Policy.evaluate text w db request = (result, db')) :
    DbGrows db db' ∧ db'.approvals = db.approvals ∧
      ∀ decision, result = .ok decision → decision.effect ≠ .allow →
        Policy.evaluationRecord request decision ∈ db'.audit := by
  by_cases hscope : db.hasScope request.tenantId request.workspaceId request.projectId
    request.taskId = true
  · rw [Policy.evaluate_spec hscope] at h
    split at h
    next hrequired =>
      split at h
      next =>
        cases h
        refine ⟨grows_of_append, rfl, ?_⟩
        intro decision hdecision _
        cases hdecision
        exact List.mem_append_right _ (List.mem_singleton.mpr rfl)
      next =>
        cases h
        exact ⟨.refl _, rfl, fun _ hdecision => by cases hdecision⟩
    next hrequired =>
      cases h
      refine ⟨.refl _, rfl, ?_⟩
      intro decision hdecision heffect
      cases hdecision
      exact absurd ((Policy.auditRequired_eq _ _).mpr heffect) hrequired
  · rw [Policy.evaluate, Policy.evaluateDecision, if_neg hscope] at h
    cases h
    exact ⟨.refl _, rfl, fun _ hdecision => by cases hdecision⟩

/-- `create_approval` adds at most the approval it returns, under the id it is given. -/
theorem createApproval_cases {id : Uuid} {fingerprint : Option Text}
    {result : Except Policy.ServiceError ApprovalRequest}
    (h : Policy.createApproval text w db id request fingerprint = (result, db')) :
    DbGrows db db' ∧
      (db'.approvals = db.approvals ∨ ∃ approval, approval.id = id ∧ db'.approvals = db.approvals ++
        [approval]) ∧
      ∀ approval, result = .ok approval → approval.id = id := by
  rw [Policy.createApproval] at h
  cases hevaluated : Policy.evaluate text w db request with
  | mk evaluated db₁ =>
    obtain ⟨hgrows, hsame, -⟩ := evaluate_cases hevaluated
    rw [hevaluated] at h
    cases evaluated with
    | error e =>
      cases h
      exact ⟨hgrows, .inl hsame, fun _ happroval => by cases happroval⟩
    | ok decision =>
      simp only at h
      split at h
      next =>
        cases h
        exact ⟨hgrows, .inl hsame, fun _ happroval => by cases happroval⟩
      next =>
        split at h
        next =>
          cases h
          exact ⟨hgrows, .inl hsame, fun _ happroval => by cases happroval⟩
        next =>
          split at h
          next =>
            cases h
            exact ⟨hgrows, .inl hsame, fun _ happroval => by cases happroval⟩
          next =>
            split at h
            next db₂ happend =>
              cases h
              obtain ⟨record, rfl⟩ := appendRecord_ok happend
              refine ⟨⟨?_, ?_⟩, .inr ⟨Policy.newApproval id request fingerprint decision, rfl, ?_⟩,
                ?_⟩
              · intro approval happroval
                obtain ⟨kept, hkept, hsame'⟩ := hgrows.approvals approval happroval
                exact ⟨kept, List.mem_append_left _ hkept, hsame'⟩
              · intro old hold
                exact List.mem_append_left _ (hgrows.audit old hold)
              · exact congrArg (· ++ [_]) hsame
              · intro approval happroval
                cases happroval
                rfl
            next =>
              cases h
              exact ⟨hgrows, .inl hsame, fun _ happroval => by cases happroval⟩

/-- A decision changes the status of the pending approval it names, and nothing else of the
approvals. -/
theorem decideApproval_cases {tenantId workspaceId approvalId : Uuid} {target : Decision}
    {result : Except DecisionError ApprovalRequest}
    (h : decideApproval text w db tenantId workspaceId approvalId target = (result, db')) :
    db' = db ∨ ∃ pending ∈ db.approvals, pending.id = approvalId ∧
      pending.status = "PENDING".toList ∧
      ∃ record, db' = { db with approvals := db.approvals.map (decided target approvalId), audit :=
        db.audit ++ [record] } := by
  rw [decideApproval] at h
  split at h
  next =>
    cases h
    exact .inl rfl
  next =>
    split at h
    next =>
      cases h
      exact .inl rfl
    next pending hfound =>
      split at h
      next =>
        cases h
        exact .inl rfl
      next =>
        split at h
        next =>
          cases h
          exact .inl rfl
        next hpending =>
          simp only at h
          split at h
          next db₁ happend =>
            cases h
            obtain ⟨record, rfl⟩ := appendRecord_ok happend
            have hid : pending.id = approvalId := by
              have hscoped := List.find?_some hfound
              simp only [Bool.and_eq_true, decide_eq_true_eq] at hscoped
              exact hscoped.1.1
            exact .inr ⟨pending, List.mem_of_find?_eq_some hfound, hid, not_not.mp hpending, record,
              rfl⟩
          next =>
            cases h
            exact .inl rfl

end

/-! ### The rows of the calls -/

/-- No row of the call has an approval. -/
def Unlinked (s : State) (id : Uuid) : Prop :=
  ∀ row ∈ s.calls, row.id = id → row.approvalRequestId = .none

/-- A row of the call has the approval. -/
def Linked (s : State) (call : ToolCall) (approvalId : Uuid) : Prop :=
  ∃ row ∈ s.calls, row.toProposedCall = call.toProposedCall ∧
    row.approvalRequestId = .some approvalId

/-- A row of the call. -/
def Stored (s : State) (call : ToolCall) : Prop :=
  ∃ row ∈ s.calls, row.toProposedCall = call.toProposedCall

section
variable {s t : State} {id approvalId : Uuid} {change : StateChange} {call : ToolCall}

theorem Grows.linked (h : Grows s t) (hlinked : Linked s call approvalId) :
    Linked t call approvalId := by
  obtain ⟨row, hrow, hsame, hlink⟩ := hlinked
  obtain ⟨kept, hkept, hkeeps⟩ := h.calls row hrow
  exact ⟨kept, hkept, hkeeps.same.trans hsame, hkeeps.linked _ hlink⟩

theorem Grows.stored (h : Grows s t) (hstored : Stored s call) : Stored t call := by
  obtain ⟨row, hrow, hsame⟩ := hstored
  obtain ⟨kept, hkept, hkeeps⟩ := h.calls row hrow
  exact ⟨kept, hkept, hkeeps.same.trans hsame⟩

theorem Linked.stored (h : Linked s call approvalId) : Stored s call := by
  obtain ⟨row, hrow, hsame, -⟩ := h
  exact ⟨row, hrow, hsame⟩

/-- `set_state` writes none of the proposed columns; an approval it writes is the first. -/
theorem replaceCall_grows (hlink : change.approvalRequestId = .none ∨ Unlinked s id) : Grows s
    (s.replaceCall id change) where
  calls row hrow := by
    refine ⟨_, List.mem_map_of_mem hrow, ?_⟩
    by_cases hid : row.id = id
    · rw [if_pos hid]
      refine ⟨rfl, fun approvalId hrowLink => ?_⟩
      rcases hlink with hnone | hunlinked
      · simp only [StateChange.apply, overwrite, hnone, Option.none_or]
        exact hrowLink
      · rw [hunlinked row hrow hid] at hrowLink
        cases hrowLink
    · rw [if_neg hid]
      exact .refl row
  runs run hrun := ⟨run, hrun, rfl⟩
  definitions _ hdefinition := hdefinition
  policy := .refl _

theorem Unlinked.replaceCall {changed : Uuid} (h : Unlinked s id)
    (hnone : change.approvalRequestId = .none) :
    Unlinked (s.replaceCall changed change) id := by
  intro row hrow hid
  obtain ⟨old, hold, rfl⟩ := List.mem_map.mp hrow
  by_cases hchanged : old.id = changed
  · rw [if_pos hchanged] at hid ⊢
    have hold' : old.approvalRequestId = .none := h old hold hid
    simp only [StateChange.apply, overwrite, hnone, hold', Option.none_or]
  · rw [if_neg hchanged] at hid ⊢
    exact h old hold hid

theorem setState_cases {then_ : ToolCall → Pc} :
    (s.setState id change then_ = (s, .done .integrityError)) ∨
    ∃ row ∈ s.calls, row.id = id ∧
      s.setState id change then_ = (s.replaceCall id change, then_ (change.apply row)) := by
  rw [State.setState]
  split
  next => exact .inl rfl
  next row hfound =>
    split
    next =>
      have hid : row.id = id := by simpa using List.find?_some hfound
      exact .inr ⟨row, List.mem_of_find?_eq_some hfound, hid, rfl⟩
    next => exact .inl rfl

end

/-! ## What a request knows -/

/-- What `_load_authority` has found. -/
structure Loaded (s : State) (p : Proposal) (run : AgentRun) (definition : AgentDefinition) :
    Prop where
  stored : ∃ row ∈ s.runs, { row with status := run.status } = run
  defined : definition ∈ s.definitions
  agent : run.id = p.agentRunId
  tenant : run.tenantId = p.tenantId
  workspace : run.workspaceId = p.workspaceId
  version : definition.id = run.agentDefinitionId ∧ definition.version = run.agentVersion

/-- The checks before the policy. -/
structure Work.Sound (environment : Text) (s : State) (work : Work) : Prop where
  row : Stored s work.call
  run : ∃ row ∈ s.runs, { row with status := work.run.status } = work.run
  definition : work.definition ∈ s.definitions
  agent : work.run.id = work.call.agentRunId
  tenant : work.run.tenantId = work.call.tenantId
  workspace : work.run.workspaceId = work.call.workspaceId
  version : work.definition.id = work.run.agentDefinitionId ∧
    work.definition.version = work.run.agentVersion
  permitted : work.definition.permissions.contains
    (trustedToolRegistry work.arguments.toolName).requiredPermission = true
  tool : work.call.toolId = work.arguments.toolName
  request : work.request = policyRequest environment work.run work.arguments.toolName work.call.id

/-- The policy has not blocked, and what it decided is in the log. -/
structure Judged (s : State) (work : Work) (decision : PolicyEvaluationResult) : Prop where
  unblocked : decision.effect ≠ .block
  logged : decision.effect ≠ .allow → Policy.evaluationRecord work.request decision ∈ s.policy.audit

/-- The approval is given, for exactly the request and what is prepared. -/
def Approved (s : State) (work : Work) (approvalId : Uuid) : Prop :=
  ∃ approval ∈ s.policy.approvals, approval.id = approvalId ∧ approval.status = "APPROVED".toList ∧
    exactScopeMatches approval work.request work.call.mutationFingerprint = true

/-- The approval a way stands on is that of the call. -/
def Way.Linked (s : State) (call : ToolCall) : Way → Prop
  | .first => True
  | .again approvalId | .resumed approvalId => ToolGateway.Linked s call approvalId

/-- What entitles to an execution: a decision that asks for no confirmation, or an approval;
for a mutation it is always an approval. -/
def Entitled (s : State) (work : Work) (way : Way) (decision : PolicyEvaluationResult) : Prop :=
  match way with
  | .first => decision.effect ≠ .requireConfirmation ∧ work.arguments.toolName ≠ .replaceText
  | .again approvalId | .resumed approvalId =>
    (work.arguments.toolName = .replaceText → decision.effect = .requireConfirmation) ∧
      Approved s work approvalId

/-- What a request relies on where it is. -/
def Pc.Knows (environment : Text) (s : State) : Pc → Prop
  | .lookUp p run definition | .prepare p run definition | .create p run definition _ =>
    Loaded s p run definition
  | .lockRun a call => ToolGateway.Linked s call a.approvalId ∧ call.tenantId = a.tenantId ∧
      call.workspaceId = a.workspaceId
  | .evaluate work way => work.Sound environment s ∧ way.Linked s work.call
  | .createApproval work decision | .suspend work decision _ => work.Sound environment s ∧
      Judged s work decision
  | .readApproval work way approvalId decision =>
    work.Sound environment s ∧ way.Linked s work.call ∧ Judged s work decision ∧
      (way = .again approvalId ∨ way = .resumed approvalId) ∧
      (work.arguments.toolName = .replaceText → decision.effect = .requireConfirmation)
  | .reevaluate work way approvalId decision =>
    work.Sound environment s ∧ way.Linked s work.call ∧ Judged s work decision ∧
      (way = .again approvalId ∨ way = .resumed approvalId) ∧
      Entitled s work way decision
  | .start work way decision | .execute work way decision =>
    work.Sound environment s ∧ way.Linked s work.call ∧ Judged s work decision ∧
      Entitled s work way decision
  | _ => True

section
variable {s t : State} {work : Work} {way : Way} {decision : PolicyEvaluationResult}
  {approvalId : Uuid} {pc : Pc}

theorem Grows.loaded {p : Proposal} {run : AgentRun} {definition : AgentDefinition} (h : Grows s t)
    (hloaded : Loaded s p run definition) :
    Loaded t p run definition := by
  obtain ⟨row, hrow, hsame⟩ := hloaded.stored
  obtain ⟨kept, hkept, hkeeps⟩ := h.runs row hrow
  refine ⟨⟨kept, hkept, ?_⟩, h.definitions _ hloaded.defined, hloaded.agent, hloaded.tenant,
    hloaded.workspace, hloaded.version⟩
  rw [← hsame, ← hkeeps]

theorem Grows.sound (h : Grows s t) (hsound : work.Sound environment s) : work.Sound environment t := by
  obtain ⟨row, hrow, hsame⟩ := hsound.run
  obtain ⟨kept, hkept, hkeeps⟩ := h.runs row hrow
  refine { hsound with row := h.stored hsound.row, run := ⟨kept, hkept, ?_⟩, definition := h.definitions _ hsound.definition }
  rw [← hsame, ← hkeeps]

theorem Grows.judged (h : Grows s t) (hjudged : Judged s work decision) : Judged t work decision :=
  ⟨hjudged.unblocked, fun heffect => h.policy.audit _ (hjudged.logged heffect)⟩

/-- Given approvals stay given. -/
theorem Grows.approved (h : Grows s t) (happroved : Approved s work approvalId) :
    Approved t work approvalId := by
  obtain ⟨approval, happroval, hid, hstatus, hmatches⟩ := happroved
  obtain ⟨kept, hkept, hkeeps⟩ := h.policy.approvals approval happroval
  have hfinal : kept.status = approval.status := by
    refine hkeeps.final ?_
    rw [hstatus]
    decide
  refine ⟨kept, hkept, hkeeps.id_eq.trans hid, hfinal.trans hstatus, ?_⟩
  rw [← hkeeps.same] at hmatches
  exact hmatches

theorem Grows.wayLinked {call : ToolCall} (h : Grows s t) (hway : way.Linked s call) :
    way.Linked t call := by
  cases way with
  | first => trivial
  | again => exact h.linked hway
  | resumed => exact h.linked hway

theorem Grows.entitled (h : Grows s t) (hentitled : Entitled s work way decision) :
    Entitled t work way decision := by
  cases way with
  | first => exact hentitled
  | again => exact ⟨hentitled.1, h.approved hentitled.2⟩
  | resumed => exact ⟨hentitled.1, h.approved hentitled.2⟩

/-- What a request knows, others do not undo. -/
theorem Grows.knows (h : Grows s t) (hknows : pc.Knows environment s) : pc.Knows environment t := by
  cases pc with
  | lookUp | prepare | create => exact h.loaded hknows
  | lockRun => exact ⟨h.linked hknows.1, hknows.2⟩
  | evaluate => exact ⟨h.sound hknows.1, h.wayLinked hknows.2⟩
  | createApproval | suspend => exact ⟨h.sound hknows.1, h.judged hknows.2⟩
  | readApproval =>
    obtain ⟨hsound, hway, hjudged, hstands, heffect⟩ := hknows
    exact ⟨h.sound hsound, h.wayLinked hway, h.judged hjudged, hstands, heffect⟩
  | reevaluate =>
    obtain ⟨hsound, hway, hjudged, hstands, hentitled⟩ := hknows
    exact ⟨h.sound hsound, h.wayLinked hway, h.judged hjudged, hstands, h.entitled hentitled⟩
  | start | execute =>
    obtain ⟨hsound, hway, hjudged, hentitled⟩ := hknows
    exact ⟨h.sound hsound, h.wayLinked hway, h.judged hjudged, h.entitled hentitled⟩
  | _ => trivial

end

/-! ## One step of a request -/

/-- The call a request has created, and is to ask an approval for or to execute. -/
def Pc.opens : Pc → Option Uuid
  | .evaluate work .first | .createApproval work _ | .suspend work _ _ | .start work .first _
  | .execute work .first _ => .some work.call.id
  | _ => .none

def Pc.executing : Pc → Bool
  | .execute _ _ _ => true
  | _ => false

/-- The agent run and the key of a call, which are unique. -/
def ProposedCall.key (call : ProposedCall) : Uuid × Text := (call.agentRunId, call.callKey)

/-- The columns of a mutation are those of what is prepared. -/
structure ProposedCall.Consistent (call : ProposedCall) : Prop where
  fingerprint : call.mutationFingerprint =
    PreparedRecord.get call.preparedMutation (·.mutationFingerprint)
  preimage : call.preimageSha256 = PreparedRecord.get call.preparedMutation (·.preimageSha256)
  candidate : call.candidateSha256 = PreparedRecord.get call.preparedMutation (·.candidateSha256)

/-- What a step at `pc` makes of the calls. -/
inductive CallsStep (s : State) (pc : Pc) : List ToolCall → Prop where
  | same : CallsStep s pc s.calls
  | created (value : ToolCall) (hfresh : ∀ call ∈ s.calls, call.id ≠ value.id)
      (hkey : ∀ call ∈ s.calls, call.key ≠ value.key)
      (hunlinked : value.approvalRequestId = .none) (hconsistent : value.Consistent) :
        CallsStep s pc (s.calls ++ [value])
  | changed (id : Uuid) (change : StateChange) (hlink : change.approvalRequestId = .none ∨
      pc.opens = .some id) :
      CallsStep s pc (s.replaceCall id change).calls

/-- A step of a request from `pc` to `pc'`. -/
structure Advances (environment : Text) (s s' : State) (pc pc' : Pc) : Prop where
  grows : Grows s s'
  knows : pc'.Knows environment s'
  requests : s'.requests = s.requests
  calls : CallsStep s pc s'.calls
  approvals : s'.policy.approvals = s.policy.approvals ∨
    ∃ approval, (∀ old ∈ s.policy.approvals, old.id ≠ approval.id) ∧
      s'.policy.approvals = s.policy.approvals ++ [approval]
  opens : ∀ id, pc'.opens = .some id →
    Unlinked s' id ∧ ((pc.opens = .some id ∧ pc.executing = false) ∨ ∀ call ∈ s.calls, call.id ≠ id)

section
variable {s s' : State} {pc pc' : Pc} {p : Proposal} {run : AgentRun} {definition : AgentDefinition}
  {value : ToolCall} {work : Work} {way : Way} {decision : PolicyEvaluationResult} {answer : Answer}
  {prepared : Option PreparedRecord}

theorem loadAuthority_ok (h : loadAuthority s p = .ok (run, definition)) :
    Loaded s p run definition := by
  rw [loadAuthority] at h
  split at h
  next => cases h
  next found hrun =>
    split at h
    next => cases h
    next =>
      split at h
      next => cases h
      next version hdefinition =>
        split at h
        next => cases h
        next hversion =>
          split at h
          next =>
            cases h
            have hscope := List.find?_some hrun
            have hid := List.find?_some hdefinition
            simp only [Bool.and_eq_true, decide_eq_true_eq] at hscope hid
            exact ⟨⟨_, List.mem_of_find?_eq_some hrun, rfl⟩, List.mem_of_find?_eq_some hdefinition,
              hscope.1.1, hscope.1.2, hscope.2, hid.1.1, not_not.mp hversion⟩
          next => cases h

/-- A proposal that passes the checks is the work of its call. -/
theorem admit_knows (hloaded : Loaded s p run definition) (hvalue : value ∈ s.calls)
    (hagent : value.agentRunId = p.agentRunId) (htenant : value.tenantId = p.tenantId)
    (hworkspace : value.workspaceId = p.workspaceId)
    (htool : value.toolId = p.proposal.arguments.toolName) :
    (admission environment p run definition value prepared).Knows environment s := by
  unfold admission
  split
  next => trivial
  next =>
    split
    next => trivial
    next hpermitted =>
      simp only [Bool.or_eq_true, Bool.not_eq_true', not_or, Bool.not_eq_false] at hpermitted
      have hsound : (proposedWork environment p run definition value).Sound environment s :=
        { row := ⟨value, hvalue, rfl⟩
          run := hloaded.stored
          definition := hloaded.defined
          agent := hloaded.agent.trans hagent.symm
          tenant := hloaded.tenant.trans htenant.symm
          workspace := hloaded.workspace.trans hworkspace.symm
          version := hloaded.version
          permitted := hpermitted.2
          tool := htool
          request := rfl }
      split
      next =>
        split
        next approvalId _ =>
          split
          next hlink => exact ⟨hsound, value, hvalue, rfl, hlink⟩
          next => trivial
        next => trivial
      next => exact ⟨hsound, trivial⟩

/-- Only a call that is not suspended is to be opened. -/
theorem admission_opens {id : Uuid}
    (h : (admission environment p run definition value prepared).opens = .some id) :
    id = value.id ∧ value.status ≠ .pendingApproval := by
  unfold admission at h
  split at h
  next => cases h
  next =>
    split at h
    next => cases h
    next =>
      split at h
      next =>
        split at h
        next =>
          split at h <;> cases h
        next => cases h
      next hstatus =>
        cases h
        exact ⟨rfl, hstatus⟩

theorem replay_knows (hloaded : Loaded s p run definition) (hfound : s.getByKey p = .some value) :
    (replay lib environment p run definition value).Knows environment s := by
  rw [replay]
  split
  next => trivial
  next hsame =>
    split
    next => trivial
    next =>
      have hkey := List.find?_some hfound
      simp only [Bool.and_eq_true, decide_eq_true_eq] at hkey
      exact admit_knows hloaded (List.mem_of_find?_eq_some hfound) hkey.1.2 hkey.1.1.1 hkey.1.1.2
        (not_not.mp (not_or.mp hsame).1)

theorem replay_opens : (replay lib environment p run definition value).opens = .none := by
  rw [replay]
  split
  next => rfl
  next =>
    split
    next => rfl
    next hpending =>
      cases hopens : (admission environment p run definition value .none).opens with
      | none => rfl
      | some id => exact absurd (not_not.mp hpending) (admission_opens hopens).2

/-- A resumption that passes the checks is the work of the suspended call. -/
theorem resumeChecks_knows {a : ScopedApproval} (hlinked : Linked s value a.approvalId)
    (htenant : value.tenantId = a.tenantId) (hworkspace : value.workspaceId = a.workspaceId)
    (hrun : s.runOf a value = .some run) :
    (resumeChecks lib environment s a value run).Knows environment s ∧
    (resumeChecks lib environment s a value run).opens = .none := by
  rw [resumeChecks]
  split
  next => exact ⟨trivial, rfl⟩
  next =>
    split
    next => exact ⟨trivial, rfl⟩
    next =>
      split
      next => exact ⟨trivial, rfl⟩
      next htool =>
        split
        next => exact ⟨trivial, rfl⟩
        next definition hdefinition =>
          split
          next => exact ⟨trivial, rfl⟩
          next hpermitted =>
            split
            next => exact ⟨trivial, rfl⟩
            next =>
              split
              next prepared _ =>
                split
                next => exact ⟨trivial, rfl⟩
                next input _ =>
                  split
                  next => exact ⟨trivial, rfl⟩
                  next =>
                    have hscope := List.find?_some hrun
                    have hid := List.find?_some hdefinition
                    simp only [Bool.and_eq_true, decide_eq_true_eq] at hscope hid
                    have htool' : value.toolId = .replaceText := not_not.mp htool
                    rw [htool', Bool.not_eq_true', Bool.not_eq_false] at hpermitted
                    rw [htool']
                    refine ⟨⟨?_, hlinked⟩, rfl⟩
                    exact
                      { row := hlinked.stored
                        run := ⟨_, List.mem_of_find?_eq_some hrun, rfl⟩
                        definition := List.mem_of_find?_eq_some hdefinition
                        agent := hscope.1.1
                        tenant := hscope.1.2.trans htenant.symm
                        workspace := hscope.2.trans hworkspace.symm
                        version := ⟨hid.1.1.1, hid.2⟩
                        permitted := hpermitted
                        tool := htool'
                        request := rfl }
              next => exact ⟨trivial, rfl⟩

/-- What follows on a decision that is in the log. -/
theorem judged_knows (hsound : work.Sound environment s) (hway : way.Linked s work.call)
    (hlogged : decision.effect ≠ .allow →
      Policy.evaluationRecord work.request decision ∈ s.policy.audit) :
    (judged work way decision).Knows environment s := by
  unfold judged
  split
  next => trivial
  next hblock =>
    have hjudged : Judged s work decision := ⟨hblock, hlogged⟩
    split
    next approvalId =>
      split
      next => trivial
      next heffect => exact ⟨hsound, hway, hjudged, .inr rfl, fun _ => not_not.mp heffect⟩
    next approvalId =>
      split
      next => trivial
      next heffect => exact ⟨hsound, hway, hjudged, .inl rfl, fun htool => not_not.mp fun hne =>
        heffect ⟨htool, hne⟩⟩
    next =>
      split
      next => trivial
      next hmutation =>
        split
        next => exact ⟨hsound, hjudged⟩
        next heffect =>
          exact ⟨hsound, hway, hjudged, heffect, fun htool => hmutation ⟨htool, heffect⟩⟩

theorem judged_opens {id : Uuid} (h : (judged work way decision).opens = .some id) :
    (Pc.evaluate work way).opens = .some id := by
  unfold judged at h
  split at h
  next => cases h
  next =>
    split at h
    next => split at h <;> cases h
    next => split at h <;> cases h
    next =>
      split at h
      next => cases h
      next =>
        split at h
        next => exact h
        next => exact h

theorem unsatisfied_knows : (unsatisfied work way).Knows environment s := by
  cases way <;> trivial

theorem unsatisfied_opens : (unsatisfied work way).opens = .none := by
  cases way <;> rfl

/-- A given approval is one for exactly the request. -/
theorem approvalGiven_approved {approvalId : Uuid}
    (h : approvalGiven s.policy approvalId work.request work.call.mutationFingerprint = true) :
    Approved s work approvalId := by
  rw [approvalGiven] at h
  split at h
  next => cases h
  next approval hfound =>
    have hscoped := List.find?_some hfound
    simp only [Bool.and_eq_true, decide_eq_true_eq] at hscoped h
    exact ⟨approval, List.mem_of_find?_eq_some hfound, hscoped.1.1, h.1, h.2⟩

theorem runExecutor_knows {root : Node} :
    (runExecutor lib root answer work way decision).2.Knows environment s := by
  rw [runExecutor]
  split <;> split <;> trivial

theorem runExecutor_opens {root : Node} :
    (runExecutor lib root answer work way decision).2.opens = .none := by
  rw [runExecutor]
  split <;> split <;> rfl

theorem Grows.of_policy {db : Policy.Database} (h : DbGrows s.policy db) : Grows s
    { s with policy := db } :=
  { Grows.refl s with policy := h }

/-- A step that leaves the state. -/
theorem Advances.stay (hknows : pc'.Knows environment s) (hopens : pc'.opens = .none) :
    Advances environment s s pc pc' where
  grows := .refl s
  knows := hknows
  requests := rfl
  calls := .same
  approvals := .inl rfl
  opens id h := by
    rw [hopens] at h
    cases h

/-- A step that asks the policy. -/
theorem Advances.asks {db : Policy.Database} (hunlinked : ∀ id, pc.opens = .some id → Unlinked s id)
    (hgrows : DbGrows s.policy db) (hknows : pc'.Knows environment { s with policy := db })
    (hopens : ∀ id, pc'.opens = .some id → pc.opens = .some id ∧ pc.executing = false)
    (happrovals : db.approvals = s.policy.approvals ∨
      ∃ approval, (∀ old ∈ s.policy.approvals, old.id ≠ approval.id) ∧
        db.approvals = s.policy.approvals ++ [approval]) :
    Advances environment s { s with policy := db } pc pc' where
  grows := .of_policy hgrows
  knows := hknows
  requests := rfl
  calls := .same
  approvals := happrovals
  opens id h := ⟨hunlinked id (hopens id h).1, .inl (hopens id h)⟩

/-- A `set_state` of a step. -/
theorem Advances.sets {id : Uuid} {change : StateChange} {then_ : ToolCall → Pc}
    (h : s.setState id change then_ = (s', pc'))
    (hunlinked : ∀ id, pc.opens = .some id → Unlinked s id)
    (hlink : change.approvalRequestId = .none ∨ pc.opens = .some id)
    (hknows : ∀ t row, Grows s t → (then_ row).Knows environment t)
    (hopens : ∀ row opened, (then_ row).opens = .some opened →
      change.approvalRequestId = .none ∧ pc.opens = .some opened ∧ pc.executing = false) :
      Advances environment s s' pc pc' := by
  rcases @setState_cases s id change then_ with hset | ⟨row, -, -, hset⟩
  · rw [hset] at h
    cases h
    exact .stay trivial rfl
  · have hgrows : Grows s (s.replaceCall id change) :=
      replaceCall_grows (hlink.imp (fun h => h) (hunlinked id))
    rw [hset] at h
    cases h
    exact
      { grows := hgrows
        knows := hknows _ _ hgrows
        requests := rfl
        calls := .changed id change hlink
        approvals := .inl rfl
        opens := by
          intro opened hopened
          obtain ⟨hnone, hbefore⟩ := hopens _ _ hopened
          exact ⟨(hunlinked opened hbefore.1).replaceCall hnone, .inl hbefore⟩ }

/-- A call that is created is known to its request only. -/
theorem Advances.creates (hloaded : Loaded s p run definition)
    (hid : ∀ call ∈ s.calls, call.id ≠ answer.id)
    (hkey : ∀ call ∈ s.calls, call.key ≠ (run.id, p.proposal.callKey)) :
    Advances environment s { s with calls := s.calls ++ [newCall lib answer.id p run prepared] } pc
      (admission environment p run definition (newCall lib answer.id p run prepared) prepared) where
  grows :=
    { Grows.refl s with calls :=
      fun call hcall => ⟨call, List.mem_append_left _ hcall, .refl call⟩ }
  knows := by
    have hmem : newCall lib answer.id p run prepared ∈ s.calls ++
        [newCall lib answer.id p run prepared] :=
      List.mem_append_right _ (List.mem_singleton.mpr rfl)
    have hloaded' : Loaded { s with calls := s.calls ++ [newCall lib answer.id p run prepared] } p
        run definition :=
      ⟨hloaded.stored, hloaded.defined, hloaded.agent, hloaded.tenant, hloaded.workspace,
        hloaded.version⟩
    exact admit_knows hloaded' hmem hloaded.agent rfl rfl rfl
  requests := rfl
  calls := .created _ hid hkey rfl ⟨rfl, rfl, rfl⟩
  approvals := .inl rfl
  opens id h := by
    obtain ⟨rfl, -⟩ := admission_opens h
    refine ⟨?_, .inr hid⟩
    intro row hrow hrowId
    rcases List.mem_append.mp hrow with hold | hnew
    · exact absurd hrowId (hid row hold)
    · rw [List.mem_singleton.mp hnew]
      rfl

/-- What a decision of the policy is followed by. -/
theorem evaluate_advances {db : Policy.Database}
    (hunlinked : ∀ id, (Pc.evaluate work way).opens = .some id → Unlinked s id)
    (hsound : work.Sound environment s) (hway : way.Linked s work.call)
    (h : Policy.evaluate text w s.policy work.request = (.ok decision, db)) :
    Advances environment s { s with policy := db } (.evaluate work way)
      (judged work way decision) := by
  obtain ⟨hgrows, happrovals, hlogged⟩ := evaluate_cases h
  have hstate : Grows s { s with policy := db } := .of_policy hgrows
  exact .asks hunlinked hgrows
    (judged_knows (hstate.sound hsound) (hstate.wayLinked hway) (hlogged decision rfl))
    (fun _ hopens => ⟨judged_opens hopens, rfl⟩) (.inl happrovals)

/-- **What a request does in one step**, and what it knows then. -/
theorem next_advances (hknows : pc.Knows environment s)
    (hunlinked : ∀ id, pc.opens = .some id → Unlinked s id)
    (h : next lib text w environment s answer pc = .some (s', pc')) :
    Advances environment s s' pc pc' := by
  cases pc with
  | idle => cases h
  | done => cases h
  | authorize p =>
    rw [next] at h
    split at h
    next =>
      cases h
      exact .stay trivial rfl
    next run definition hok =>
      cases h
      exact .stay (loadAuthority_ok hok) rfl
  | lookUp p run definition =>
    rw [next] at h
    split at h
    next existing hfound =>
      cases h
      exact .stay (replay_knows hknows hfound) replay_opens
    next =>
      cases h
      exact .stay hknows rfl
  | prepare p run definition =>
    rw [next] at h
    split at h
    next =>
      cases h
      exact .stay hknows rfl
    next =>
      cases h
      exact .stay trivial rfl
  | create p run definition prepared =>
    rw [next] at h
    split at h
    next => cases h
    next hfresh =>
      split at h
      next =>
        cases h
        exact .stay trivial rfl
      next hnew =>
        cases h
        refine .creates hknows ?_ ?_
        · simpa using hfresh
        · intro call hcall hkey
          obtain ⟨hrun, hcallKey⟩ := Prod.mk.inj hkey
          exact hnew (List.any_eq_true.mpr ⟨call, hcall, by simp [hrun, hcallKey]⟩)
  | lockCall a =>
    rw [next] at h
    split at h
    next =>
      cases h
      exact .stay trivial rfl
    next call hfound =>
      cases h
      have hscope := List.find?_some hfound
      simp only [Bool.and_eq_true, decide_eq_true_eq] at hscope
      exact .stay ⟨⟨call, List.mem_of_find?_eq_some hfound, rfl, hscope.2⟩, hscope.1⟩ rfl
  | lockRun a call =>
    rw [next] at h
    split at h
    next =>
      cases h
      exact .stay trivial rfl
    next run hrun =>
      cases h
      obtain ⟨hlinked, htenant, hworkspace⟩ := hknows
      obtain ⟨hknows', hopens⟩ :=
        @resumeChecks_knows lib environment s run call a hlinked htenant hworkspace hrun
      exact .stay hknows' hopens
  | rejectCall a =>
    rw [next] at h
    split at h <;> cases h <;> exact .stay trivial rfl
  | rejectRun a call =>
    rw [next] at h
    split at h
    next =>
      cases h
      exact .stay trivial rfl
    next =>
      split at h
      next =>
        cases h
        exact .stay trivial rfl
      next =>
        split at h <;> cases h <;> exact .stay trivial rfl
  | evaluate work way =>
    rw [next] at h
    split at h
    next db hevaluated =>
      cases h
      obtain ⟨hgrows, happrovals, -⟩ := evaluate_cases hevaluated
      exact .asks hunlinked hgrows trivial (fun _ hopens => by cases hopens) (.inl happrovals)
    next decision db hevaluated =>
      cases h
      exact evaluate_advances hunlinked hknows.1 hknows.2 hevaluated
  | createApproval work decision =>
    rw [next] at h
    split at h
    next => cases h
    next hfresh =>
      have hfresh' : ∀ old ∈ s.policy.approvals, old.id ≠ answer.id := by simpa using hfresh
      cases hcreated : Policy.createApproval text w s.policy answer.id work.request
          work.call.mutationFingerprint with
      | mk result db =>
        obtain ⟨hgrows, hadded, -⟩ := createApproval_cases hcreated
        have happrovals : db.approvals = s.policy.approvals ∨
            ∃ approval, (∀ old ∈ s.policy.approvals, old.id ≠ approval.id) ∧
                db.approvals = s.policy.approvals ++ [approval] := by
          refine hadded.imp (fun h => h) ?_
          rintro ⟨approval, hid, hadded⟩
          refine ⟨approval, ?_, hadded⟩
          rw [hid]
          exact hfresh'
        have hstate : Grows s { s with policy := db } := .of_policy hgrows
        rw [hcreated] at h
        cases result with
        | error e =>
          cases h
          exact .asks hunlinked hgrows trivial (fun _ hopens => by cases hopens) happrovals
        | ok approval =>
          cases h
          exact .asks hunlinked hgrows ⟨hstate.sound hknows.1, hstate.judged hknows.2⟩
            (fun _ hopens => ⟨hopens, rfl⟩) happrovals
  | suspend work decision approvalId =>
    rw [next] at h
    exact .sets (Option.some.inj h) hunlinked (.inr rfl) (fun _ _ _ => trivial) fun _ _ hopens => by
      cases hopens
  | readApproval work way approvalId decision =>
    obtain ⟨hsound, hway, hjudged, hstands, heffect⟩ := hknows
    rw [next] at h
    split at h
    next hgiven =>
      cases h
      have happroved := approvalGiven_approved hgiven
      refine .stay ⟨hsound, hway, hjudged, hstands, ?_⟩ rfl
      rcases hstands with rfl | rfl
      · exact ⟨heffect, happroved⟩
      · exact ⟨heffect, happroved⟩
    next =>
      cases h
      exact .stay unsatisfied_knows unsatisfied_opens
  | reevaluate work way approvalId decision =>
    obtain ⟨hsound, hway, hjudged, hstands, hentitled⟩ := hknows
    rw [next] at h
    split at h
    next db hevaluated =>
      cases h
      obtain ⟨hgrows, happrovals, -⟩ := evaluate_cases hevaluated
      exact .asks hunlinked hgrows trivial (fun _ hopens => by cases hopens) (.inl happrovals)
    next current db hevaluated =>
      obtain ⟨hgrows, happrovals, -⟩ := evaluate_cases hevaluated
      have hstate : Grows s { s with policy := db } := .of_policy hgrows
      split at h
      next =>
        cases h
        refine .asks hunlinked hgrows ⟨hstate.sound hsound, hstate.wayLinked hway,
          hstate.judged hjudged, hstate.entitled hentitled⟩ ?_
          (.inl happrovals)
        intro id hopens
        rcases hstands with rfl | rfl <;> cases hopens
      next =>
        cases h
        refine .asks hunlinked hgrows unsatisfied_knows ?_ (.inl happrovals)
        intro id hopens
        rw [unsatisfied_opens] at hopens
        cases hopens
  | start work way decision =>
    cases way with
    | resumed approvalId =>
      rw [next] at h
      split at h
      next =>
        cases h
        exact .stay hknows rfl
      next =>
        cases h
        exact .stay trivial rfl
    | first =>
      have hafter : Pc.Knows environment s (.execute work .first decision) := hknows
      have hset : s.setState work.call.id (running decision)
        (fun _ => .execute work .first decision) = (s', pc') := Option.some.inj h
      exact .sets hset hunlinked (.inl rfl) (fun _ _ hgrows => hgrows.knows hafter)
        fun _ _ hopens => ⟨rfl, hopens, rfl⟩
    | again approvalId =>
      have hafter : Pc.Knows environment s (.execute work (.again approvalId) decision) := hknows
      have hset : s.setState work.call.id (running decision)
        (fun _ => .execute work (.again approvalId) decision) = (s', pc') := Option.some.inj h
      exact .sets hset hunlinked (.inl rfl) (fun _ _ hgrows => hgrows.knows hafter)
        fun _ _ hopens => by cases hopens
  | execute work way decision =>
    have hopens := @runExecutor_opens lib work way decision answer s.root
    rw [next] at h
    cases hran : runExecutor lib s.root answer work way decision with
    | mk root after =>
      have hknows' : after.Knows environment { s with root := root } := by
        have hran' :=
          @runExecutor_knows lib environment { s with root := root } work way decision answer s.root
        rw [hran] at hran'
        exact hran'
      rw [hran] at h hopens
      cases h
      exact
        { grows := { Grows.refl s with }
          knows := hknows'
          requests := rfl
          calls := .same
          approvals := .inl rfl
          opens := by
            intro id hopened
            rw [hopens] at hopened
            cases hopened }
  | finish work way decision outcome =>
    rw [next] at h
    exact .sets (Option.some.inj h) hunlinked (.inl rfl) (fun _ _ _ => trivial) fun _ _ hopens => by
      cases hopens
  | deny call code decision =>
    rw [next] at h
    exact .sets (Option.some.inj h) hunlinked (.inl rfl) (fun _ _ _ => trivial) fun _ _ hopens => by
      cases hopens

end

end Novalton.ToolGateway
