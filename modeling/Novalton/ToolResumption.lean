/-
That a resumption completes: with the approval given and the workspace as it was, the request
alone brings a suspended call to SUCCEEDED and the candidate into the workspace. What the
checks of a resumption read of the row, every suspended call has: it is what `prepare` has
recorded of the proposal.
-/
import Novalton.MutationCommit
import Novalton.ToolAuthority

namespace Novalton.ToolGateway

open Audit (TextLibrary)
open Contracts (WordClass)
open Policy (ScopedRequest ApprovalRequest PolicyEvaluationResult)

variable {lib : Library} {text : TextLibrary} {w : WordClass} {environment : Text}

/-! ## What is recorded of a call -/

/-- Nothing failed when the mutation was prepared. -/
def Viable (prepared : Option PreparedRecord) : Prop := ∀ code, prepared ≠ .some (.failure code)

/-- A row holds what was prepared of its arguments; it waits for an approval only where that is
viable. -/
structure Recorded (lib : Library) (call : ToolCall) : Prop where
  prepared : ∃ root arguments, prepareProposal lib root arguments = .ok call.preparedMutation ∧
    call.toolId = arguments.toolName ∧
    call.safeInputMetadata = safeInputMetadata lib arguments
  viable : call.status = .pendingApproval → Viable call.preparedMutation
  admitted : call.admitted = true

/-- What a request is to record: what was prepared, and an approval for nothing that failed. -/
def Pc.Records (lib : Library) : Pc → Prop
  | .create p _ _ prepared => ∃ root, prepareProposal lib root p.proposal.arguments = .ok prepared
  | .evaluate work .first | .createApproval work _ | .suspend work _ _ =>
    Viable work.call.preparedMutation
  | _ => True

/-- What a step at `pc` makes of the rows. -/
inductive RowsStep (lib : Library) (s : State) (pc : Pc) : List ToolCall → Prop where
  | same : RowsStep lib s pc s.calls
  | created (value : ToolCall) (hvalue : Recorded lib value) :
      RowsStep lib s pc (s.calls ++ [value])
  | changed (row : ToolCall) (change : StateChange) (hrow : row ∈ s.calls)
      (hadmitted : (change.apply row).admitted = true)
      (hpending : change.status = .pendingApproval → ∃ work decision approvalId,
        pc = .suspend work decision approvalId ∧ row.id = work.call.id) :
      RowsStep lib s pc (s.replaceCall row.id change).calls

section
variable {s s' t : State} {i : ℕ} {pc pc' : Pc} {p : Proposal} {run : AgentRun}
  {definition : AgentDefinition} {value : ToolCall} {work : Work} {way : Way}
  {decision : PolicyEvaluationResult} {answer : Answer} {prepared : Option PreparedRecord}

theorem admission_records
    (h : value.status = .pendingApproval ∨ value.preparedMutation = prepared) :
    (admission environment p run definition value prepared).Records lib := by
  unfold admission
  split
  next => trivial
  next hviable =>
    repeat' split
    all_goals first
      | trivial
      | skip
    next hpending =>
      have hprepared : value.preparedMutation = prepared := h.resolve_left hpending
      intro code hfailed
      exact hviable code (hprepared.symm.trans hfailed)

theorem replay_records : (replay lib environment p run definition value).Records lib := by
  unfold replay
  split
  next => trivial
  next =>
    split
    next => trivial
    next hpending => exact admission_records (.inl (not_not.mp hpending))

theorem resumeChecks_records {a : ScopedApproval} :
    (resumeChecks lib environment s a value run).Records lib := by
  unfold resumeChecks
  repeat' split
  all_goals trivial

theorem judged_records (h : (Pc.evaluate work way).Records lib) :
    (judged work way decision).Records lib := by
  unfold judged
  repeat' split
  all_goals trivial

theorem unsatisfied_records : (unsatisfied work way).Records lib := by
  cases way <;> trivial

theorem runExecutor_records {root : Node} :
    (runExecutor lib root answer work way decision).2.Records lib := by
  unfold runExecutor
  repeat' split
  all_goals trivial

/-- A new row holds what was prepared. -/
theorem newCall_recorded {root : Node} {id : Uuid}
    (h : prepareProposal lib root p.proposal.arguments = .ok prepared) :
    Recorded lib (newCall lib id p run prepared) where
  prepared := ⟨root, p.proposal.arguments, h, rfl, rfl⟩
  viable hpending := by cases hpending
  admitted := by simp [newCall, ToolCall.admitted]

theorem setState_rows {id : Uuid} {change : StateChange} {then_ : ToolCall → Pc}
    (h : s.setState id change then_ = (s', pc')) (hthen : ∀ row, (then_ row).Records lib)
    (hpending : change.status = .pendingApproval → ∃ work decision approvalId,
      pc = .suspend work decision approvalId ∧ id = work.call.id) :
    pc'.Records lib ∧ RowsStep lib s pc s'.calls := by
  unfold State.setState at h
  split at h
  next =>
    cases h
    exact ⟨trivial, .same⟩
  next row hfound =>
    split at h
    next hadmitted =>
      cases h
      have hid : row.id = id := by simpa using List.find?_some hfound
      subst hid
      exact ⟨hthen _, .changed row change (List.mem_of_find?_eq_some hfound) hadmitted hpending⟩
    next =>
      cases h
      exact ⟨trivial, .same⟩

/-- **What a request records in one step**, and what it is to record then. -/
theorem next_records (hrecords : pc.Records lib)
    (h : next lib text w environment s answer pc = .some (s', pc')) :
    pc'.Records lib ∧ RowsStep lib s pc s'.calls := by
  cases pc with
  | idle => cases h
  | done => cases h
  | authorize | lockCall | rejectCall | rejectRun =>
    rw [next] at h
    repeat' split at h
    all_goals
      cases h
      exact ⟨trivial, .same⟩
  | lookUp p run definition =>
    rw [next] at h
    split at h
    next =>
      cases h
      exact ⟨replay_records, .same⟩
    next =>
      cases h
      exact ⟨trivial, .same⟩
  | prepare p run definition =>
    rw [next] at h
    split at h
    next prepared hprepared =>
      cases h
      exact ⟨⟨s.root, hprepared⟩, .same⟩
    next =>
      cases h
      exact ⟨trivial, .same⟩
  | create p run definition prepared =>
    obtain ⟨root, hprepared⟩ := hrecords
    rw [next] at h
    split at h
    next => cases h
    next =>
      split at h
      next =>
        cases h
        exact ⟨trivial, .same⟩
      next =>
        cases h
        exact ⟨admission_records (.inr rfl), .created _ (newCall_recorded hprepared)⟩
  | lockRun a call =>
    rw [next] at h
    split at h
    next =>
      cases h
      exact ⟨trivial, .same⟩
    next =>
      cases h
      exact ⟨resumeChecks_records, .same⟩
  | evaluate work way =>
    rw [next] at h
    split at h
    next =>
      cases h
      exact ⟨trivial, .same⟩
    next =>
      cases h
      exact ⟨judged_records hrecords, .same⟩
  | createApproval work decision =>
    rw [next] at h
    split at h
    next => cases h
    next =>
      split at h
      next =>
        cases h
        exact ⟨trivial, .same⟩
      next =>
        cases h
        exact ⟨hrecords, .same⟩
  | suspend work decision approvalId =>
    rw [next] at h
    exact setState_rows (Option.some.inj h) (fun _ => trivial) fun _ =>
      ⟨work, decision, approvalId, rfl, rfl⟩
  | readApproval work way approvalId decision =>
    rw [next] at h
    split at h
    next =>
      cases h
      exact ⟨trivial, .same⟩
    next =>
      cases h
      exact ⟨unsatisfied_records, .same⟩
  | reevaluate work way approvalId decision =>
    rw [next] at h
    split at h
    next =>
      cases h
      exact ⟨trivial, .same⟩
    next =>
      split at h
      next =>
        cases h
        exact ⟨trivial, .same⟩
      next =>
        cases h
        exact ⟨unsatisfied_records, .same⟩
  | start work way decision =>
    cases way with
    | resumed =>
      rw [next] at h
      split at h <;> cases h <;> exact ⟨trivial, .same⟩
    | first =>
      have hset : s.setState work.call.id (running decision)
        (fun _ => .execute work .first decision) = (s', pc') := Option.some.inj h
      exact setState_rows hset (fun _ => trivial) fun hpending => by cases hpending
    | again approvalId =>
      have hset : s.setState work.call.id (running decision)
          (fun _ => .execute work (.again approvalId) decision) = (s', pc') :=
        Option.some.inj h
      exact setState_rows hset (fun _ => trivial) fun hpending => by cases hpending
  | execute work way decision =>
    rw [next] at h
    cases h
    exact ⟨runExecutor_records, .same⟩
  | finish work way decision outcome =>
    rw [next] at h
    refine setState_rows (Option.some.inj h) (fun _ => trivial) fun hpending => ?_
    cases outcome <;> cases hpending
  | deny call code decision =>
    rw [next] at h
    exact setState_rows (Option.some.inj h) (fun _ => trivial) fun hpending => by cases hpending

/-- A row changed by `set_state` holds what it held. -/
theorem Recorded.change {change : StateChange} (h : Recorded lib value)
    (hadmitted : (change.apply value).admitted = true)
    (hpending : change.status = .pendingApproval → Viable value.preparedMutation) : Recorded lib
    (change.apply value) where
  prepared := h.prepared
  viable := hpending
  admitted := hadmitted

/-- What is recorded in a state. -/
structure Records (lib : Library) (s : State) : Prop where
  rows : ∀ call ∈ s.calls, Recorded lib call
  requests : ∀ i, (s.requests i).Records lib

/-- A step of a request keeps what is recorded: an approval is asked for the row the request knows.
-/
theorem Records.next (h : Records lib s) (hinv : Inv environment s)
    (hnext : next lib text w environment s answer (s.requests i) = .some (s', pc')) :
    ∀ call ∈ s'.calls, Recorded lib call := by
  intro call hcall
  obtain ⟨-, hrows⟩ := next_records (h.requests i) hnext
  generalize s'.calls = calls at hrows hcall
  cases hrows with
  | same => exact h.rows call hcall
  | created value hvalue =>
    rcases List.mem_append.mp hcall with hold | hnew
    · exact h.rows call hold
    · rw [List.mem_singleton.mp hnew]
      exact hvalue
  | changed row change hrow hadmitted hpending =>
    obtain ⟨old, hold, rfl⟩ := List.mem_map.mp hcall
    split
    next hid =>
      have hsame : old = row := List.inj_on_of_nodup_map hinv.calls hold hrow hid
      subst hsame
      refine (h.rows old hold).change hadmitted fun hstatus => ?_
      obtain ⟨work, decision, approvalId, hpc, hid⟩ := hpending hstatus
      -- The request holds the row as it was proposed.
      have hknows := hinv.knows i
      have hviable := h.requests i
      rw [hpc] at hknows hviable
      obtain ⟨kept, hkept, hproposed⟩ := hknows.1.row
      have hsame : old = kept :=
        List.inj_on_of_nodup_map hinv.calls hold hkept
        (hid.trans (congrArg ProposedCall.id hproposed).symm)
      rw [hsame, hproposed]
      exact hviable
    next => exact h.rows old hold

theorem records_initial (h : (system lib text w environment).Init s) : Records lib s where
  rows call hcall := by
    rw [h.1] at hcall
    cases hcall
  requests i := by
    rw [h.2.2 i]
    trivial

theorem Records.goto (h : Records lib s) (hpc : pc.Records lib) : Records lib (s.goto i pc) where
  rows := h.rows
  requests j := by
    by_cases hj : j = i
    · rw [hj, State.goto_self]
      exact hpc
    · rw [State.goto_other hj]
      exact h.requests j

/-- **Every step keeps what is recorded.** -/
theorem records_step {label : Label} (hinv : Inv environment s) (h : Records lib s)
    (hstep : step lib text w environment s label = .some t) : Records lib t := by
  cases label with
  | begin i request =>
    rw [step] at hstep
    split at hstep
    next =>
      cases hstep
      refine h.goto ?_
      cases request <;> trivial
    next => cases hstep
  | step i answer =>
    rw [step] at hstep
    split at hstep
    next => cases hstep
    next s' pc hnext =>
      cases hstep
      have hrequests : s'.requests = s.requests :=
        (next_advances (hinv.knows i) (hinv.unlinked i) hnext).requests
      have hafter : Records lib s' := ⟨h.next hinv hnext, by rw [hrequests]; exact h.requests⟩
      exact hafter.goto (next_records (h.requests i) hnext).1
  | abort i =>
    cases hstep
    exact h.goto trivial
  | requestApproval | define | startRun =>
    rw [step] at hstep
    split at hstep
    next => cases hstep
    next =>
      cases hstep
      exact ⟨h.rows, h.requests⟩
  | decide | administer | moveRun | recordModelRun | edit =>
    cases hstep
    exact ⟨h.rows, h.requests⟩

theorem records_reachable (h : (system lib text w environment).Reachable s) : Records lib s :=
  h.invariant_with (fun _ => inv_reachable) (fun _ => records_initial) fun _ _ _ => records_step

/-- The recorded mutation is read back as the arguments it was prepared of. -/
theorem mutationInput_prepared {root : Node} {input : WorkspaceReplaceTextInput}
    {prepared : PreparedMutation} (h : ReplaceTextExecutor.prepare lib root input = .ok prepared) :
    mutationInput prepared = .some input := by
  simp only [ReplaceTextExecutor.prepare, Py.bind_eq_ok, raiseIf_eq_ok, orRaise_eq_ok] at h
  obtain ⟨parts, hparts, ⟨_, _⟩, -, -, -, -, -, _, -, -, -, -, -, -, -, h⟩ := h
  cases h
  obtain ⟨hpure, -, -⟩ := resolve_file lib hparts
  have hpath : relativeText parts = input.path := by rw [hpure, input.relativeText_path]
  unfold mutationInput
  simp only [hpath]
  rw [dif_pos ⟨input.path_length, input.path_accepted, input.search_length,
    input.replacement_length, input.texts_accepted, input.matches_bounds⟩]

/-- A replacement that waits for an approval has recorded a mutation, and its arguments with it. -/
theorem Recorded.mutation (h : Recorded lib value) (htool : value.toolId = .replaceText)
    (hpending : value.status = .pendingApproval) :
    ∃ prepared input, value.preparedMutation = .some (.mutation prepared) ∧
      mutationInput prepared = .some input ∧
      safeInputMetadata lib (.replaceText input) = value.safeInputMetadata := by
  obtain ⟨root, arguments, hprepared, htoolId, hsafe⟩ := h.prepared
  rw [htool] at htoolId
  cases arguments with
  | replaceText input =>
    unfold prepareProposal at hprepared
    simp only at hprepared
    split at hprepared
    next prepared hok =>
      have hrecorded : .some (.mutation prepared) = value.preparedMutation :=
        Except.ok.inj hprepared
      exact ⟨prepared, input, hrecorded.symm, mutationInput_prepared hok, hsafe.symm⟩
    next code _ =>
      have hfailed : .some (.failure code.toList) = value.preparedMutation :=
        Except.ok.inj hprepared
      exact absurd hfailed.symm (h.viable hpending code.toList)
    next => cases hprepared
  | _ => cases htoolId

end

/-! ## The request on its own -/

section
variable {s s' t : State} {i : ℕ} {pc pc' : Pc} {answer : Answer} {labels : List Label}

theorem State.goto_goto : (s.goto i pc).goto i pc' = s.goto i pc' := by
  simp only [State.goto]
  congr 1
  funext j
  split <;> rfl

/-- The step of a request on its own. -/
theorem exec_next
    (h : next lib text w environment (s.goto i pc) answer pc = .some (s'.goto i pc, pc')) :
    (system lib text w environment).exec (s.goto i pc) (.step i answer :: labels) =
      (system lib text w environment).exec (s'.goto i pc') labels := by
  have hstep : (system lib text w environment).step (s.goto i pc) (.step i answer) =
      .some (s'.goto i pc') := by
    have hpc : (s.goto i pc).requests i = pc := if_pos rfl
    show step lib text w environment (s.goto i pc) (.step i answer) = _
    rw [step, hpc, h]
    exact congrArg some State.goto_goto
  rw [System.exec, hstep]

end

/-- A replacement waits for an approval, the approval is given, and its agent may still make it. -/
structure Resumable (environment : Text) (s : State) (a : ScopedApproval) (call : ToolCall)
    (run : AgentRun) (definition : AgentDefinition) : Prop where
  found : s.getForApproval a = .some call
  pending : call.status = .pendingApproval
  tool : call.toolId = .replaceText
  runs : s.runOf a call = .some run
  waiting : run.status = .waitingForApproval
  defined : (s.definitions.find? fun definition =>
    definition.id = run.agentDefinitionId && definition.tenantId = a.tenantId &&
      definition.workspaceId = a.workspaceId &&
      definition.version = run.agentVersion) = .some definition
  permitted : definition.permissions.contains ToolId.replaceText.value = true
  /-- The policy asks for the confirmation, and the audit log takes the rules it goes by. -/
  scope : s.policy.hasScope run.tenantId run.workspaceId run.projectId run.taskId = true
  confirmation : (s.policy.decision (policyRequest environment run .replaceText call.id)).effect =
    .requireConfirmation
  audited : (s.policy.decision
    (policyRequest environment run .replaceText call.id)).matchedRuleIds.length ≤ 59
  given : approvalGiven s.policy a.approvalId (policyRequest environment run .replaceText call.id)
    call.mutationFingerprint = true

/-- With what the row has recorded. -/
structure Resumption (lib : Library) (environment : Text) (s : State) (a : ScopedApproval)
    (call : ToolCall) (run : AgentRun) (definition : AgentDefinition) (prepared : PreparedMutation)
    (input : WorkspaceReplaceTextInput) : Prop
    extends Resumable environment s a call run definition where
  stored : s.call? call.id = .some call
  unstarted : call.started = false ∧ call.completed = false
  columns : call.Consistent
  recorded : call.preparedMutation = .some (.mutation prepared)
  parsed : mutationInput prepared = .some input
  safe : safeInputMetadata lib (.replaceText input) = call.safeInputMetadata

/-- Every suspended replacement has recorded what its resumption reads. -/
theorem Resumable.resumption {s : State} {a : ScopedApproval} {call : ToolCall} {run : AgentRun}
    {definition : AgentDefinition} (h : Resumable environment s a call run definition)
    (hreachable : (system lib text w environment).Reachable s) :
    ∃ prepared input, Resumption lib environment s a call run definition prepared input := by
  have hinv : Inv environment s := inv_reachable hreachable
  have hcall : call ∈ s.calls := List.mem_of_find?_eq_some h.found
  have hrecorded := (records_reachable hreachable).rows call hcall
  have hunstarted : call.started = false ∧ call.completed = false := by
    have hadmitted := hrecorded.admitted
    simp only [ToolCall.admitted, h.pending, Bool.and_eq_true, Bool.not_eq_true'] at hadmitted
    exact hadmitted.2
  obtain ⟨prepared, input, hprepared, hparsed, hsafe⟩ := hrecorded.mutation h.tool h.pending
  refine ⟨prepared, input,
    ⟨h, ?_, hunstarted, hinv.consistent call hcall, hprepared, hparsed, hsafe⟩⟩
  rw [State.call?]
  cases hfound : s.calls.find? (·.id = call.id) with
  | none => exact absurd (List.find?_eq_none.mp hfound call hcall) (by simp)
  | some row =>
    have hid : row.id = call.id := by simpa using List.find?_some hfound
    rw [List.inj_on_of_nodup_map hinv.calls (List.mem_of_find?_eq_some hfound) hcall hid]

/-- The request for a resumption, taken to its end. -/
def resuming (i : ℕ) (a : ScopedApproval) (answer : Answer) : List Label :=
  .begin i (.resumePreparedMutation a) :: List.replicate 8 (.step i answer)

section
variable {s : State} {a : ScopedApproval} {call : ToolCall} {run : AgentRun}
  {definition : AgentDefinition} {prepared : PreparedMutation} {input : WorkspaceReplaceTextInput}
  {i : ℕ} {answer : Answer}

/-- The work of a resumption. -/
def resumedWork (environment : Text) (call : ToolCall) (run : AgentRun)
    (definition : AgentDefinition) (input : WorkspaceReplaceTextInput) :
    Work where
  call := call
  run := run
  definition := definition
  arguments := .replaceText input
  request := policyRequest environment run .replaceText call.id

theorem Resumption.checks (h : Resumption lib environment s a call run definition prepared input) :
    resumeChecks lib environment s a call run = .evaluate
      (resumedWork environment call run definition input) (.resumed a.approvalId) := by
  rw [resumeChecks, if_neg (by rw [h.pending]; simp), if_neg (by rw [h.pending, h.waiting]; simp),
    if_neg (by rw [h.tool]; simp)]
  simp only [h.defined]
  have hpermitted : definition.permissions.contains
      (trustedToolRegistry call.toolId).requiredPermission = true := by
    rw [h.tool]
    exact h.permitted
  rw [hpermitted, if_neg (by decide),
    if_neg (by simp [← h.columns.fingerprint, ← h.columns.preimage, ← h.columns.candidate])]
  simp only [h.recorded, h.parsed]
  rw [if_neg (not_not.mpr h.safe), h.tool]
  rfl

/-- The policy, asked again, decides the same and logs it again. -/
theorem Resumable.evaluates (h : Resumable environment s a call run definition) (text : TextLibrary)
    (w : WordClass) (audit : List Policy.AuditRecord) :
    ∃ record, Policy.evaluate text w { s.policy with audit := audit }
      (policyRequest environment run .replaceText call.id) =
      (.ok (s.policy.decision (policyRequest environment run .replaceText call.id)),
          { s.policy with audit := audit ++ [record] }) := by
  have hrequired :
      (s.policy.decision (policyRequest environment run .replaceText call.id)).auditRequired =
      true :=
    (Policy.auditRequired_eq _ _).mpr (by
      have heffect := h.confirmation
      rw [Policy.Database.decision] at heffect
      rw [heffect]
      simp)
  refine ⟨Policy.evaluationRecord (policyRequest environment run .replaceText call.id)
    (s.policy.decision (policyRequest environment run .replaceText call.id)), ?_⟩
  rw [Policy.evaluate_spec h.scope]
  show (if (s.policy.decision _).auditRequired = true then _ else _) = _
  rw [if_pos hrequired]
  show (if (s.policy.decision _).matchedRuleIds.length ≤ 59 then _ else _) = _
  rw [if_pos h.audited]
  rfl

theorem runExecutor_applied {root root' : Node} {work : Work} {way : Way}
    {decision : PolicyEvaluationResult} {already : Bool}
    (harguments : work.arguments = .replaceText input)
    (happly : applyPrepared lib root input work.call.preparedMutation answer.diskFails =
    .ok (already, root')) :
    runExecutor lib root answer work way decision =
      (root', .finish work way decision
        (.succeeded (.mutation (relativeText (pureParts input.path)) already))) := by
  rw [runExecutor, harguments]
  simp only [happly]

/-- What was prepared on the workspace as it is can be applied to it. -/
theorem apply_prepared {root : Node}
    (h : ReplaceTextExecutor.prepare lib root input = .ok prepared) :
    ∃ already root', ReplaceTextExecutor.apply lib root input prepared false = .ok
      (already, root') := by
  simp only [ReplaceTextExecutor.prepare, Py.bind_eq_ok, raiseIf_eq_ok, orRaise_eq_ok] at h
  obtain ⟨parts, hparts, ⟨perm, before⟩, hread, -, -, -, -, current, htext, -, hcount, -, -, -, -,
    h⟩ := h
  cases h
  unfold ReplaceTextExecutor.apply
  simp only [hparts, hread, orRaise_some, Py.ok_bind]
  split
  next => exact ⟨_, _, rfl⟩
  next =>
    simp only [htext, hcount, orRaise_some, Py.ok_bind, bne_self_eq_false, Bool.or_self,
      raiseIf_false]
    exact ⟨_, _, rfl⟩

/-- A resumption taken to its end without interruption writes what `apply` writes, and its call
has succeeded. -/
theorem Resumption.completes {already : Bool} {root : Node}
    (h : Resumption lib environment s a call run definition prepared input)
    (hidle : s.requests i = .idle) (hdisk : answer.diskFails = false)
    (happly : ReplaceTextExecutor.apply lib s.root input prepared false = .ok (already, root)) :
    ∃ t, (system lib text w environment).exec s (resuming i a answer) = .some t ∧ t.root = root ∧
      ∃ ended ∈ t.calls, ended.toProposedCall = call.toProposedCall ∧ ended.status = .succeeded ∧
        ended.resultMetadata = .some
          (.applied (relativeText (pureParts input.path)) already call.mutationFingerprint) := by
  obtain ⟨first, hfirst⟩ := h.evaluates text w s.policy.audit
  obtain ⟨second, hsecond⟩ := h.evaluates text w (s.policy.audit ++ [first])
  have heffect := h.confirmation
  have haudited := h.audited
  generalize s.policy.decision (policyRequest environment run .replaceText call.id) =
    decision at hfirst hsecond heffect haudited
  -- The states after the two evaluations and after the executor.
  let s₁ : State := { s with policy := { s.policy with audit := s.policy.audit ++ [first] } }
  let s₂ : State :=
    { s with policy := { s.policy with audit := s.policy.audit ++ [first] ++ [second] } }
  let s₃ : State := { s₂ with root := root }
  let work := resumedWork environment call run definition input
  let way : Way := .resumed a.approvalId
  let outcome : Outcome := .succeeded (.mutation (relativeText (pureParts input.path)) already)
  have hbegin : (system lib text w environment).step s (.begin i (.resumePreparedMutation a)) =
      .some (s.goto i (.lockCall a)) := by
    show step lib text w environment s (.begin i (.resumePreparedMutation a)) = _
    rw [step, hidle]
    rfl
  have hlock : next lib text w environment (s.goto i (.lockCall a)) answer (.lockCall a) =
      .some (s.goto i (.lockCall a), .lockRun a call) := by
    rw [next, show (s.goto i (.lockCall a)).getForApproval a = .some call from h.found]
  have hchecks : next lib text w environment (s.goto i (.lockRun a call)) answer (.lockRun a call) =
      .some (s.goto i (.lockRun a call), .evaluate work way) := by
    rw [next, show (s.goto i (.lockRun a call)).runOf a call = .some run from h.runs]
    exact congrArg (fun pc => some (_, pc)) h.checks
  have hevaluates : next lib text w environment (s.goto i (.evaluate work way)) answer
    (.evaluate work way) =
      .some (s₁.goto i (.evaluate work way), .readApproval work way a.approvalId decision) := by
    have hjudged : judged work way decision = .readApproval work way a.approvalId decision := by
      rw [judged, if_neg (by rw [heffect]; simp)]
      exact if_neg (not_not.mpr heffect)
    rw [next, show Policy.evaluate text w (s.goto i (.evaluate work way)).policy work.request =
      _ from hfirst]
    exact congrArg (fun pc => some (_, pc)) hjudged
  have hreads :
    next lib text w environment (s₁.goto i (.readApproval work way a.approvalId decision)) answer
      (.readApproval work way a.approvalId decision) =
        .some (s₁.goto i (.readApproval work way a.approvalId decision),
            .reevaluate work way a.approvalId decision) := by
    rw [next]
    exact if_pos h.given
  have hreevaluates :
    next lib text w environment (s₁.goto i (.reevaluate work way a.approvalId decision)) answer
      (.reevaluate work way a.approvalId decision) =
        .some (s₂.goto i (.reevaluate work way a.approvalId decision),
            .start work way decision) := by
    rw [next, show Policy.evaluate text w
      (s₁.goto i (.reevaluate work way a.approvalId decision)).policy work.request = _ from hsecond]
    exact if_pos (by rw [heffect]; simp)
  have hstarts : next lib text w environment (s₂.goto i (.start work way decision)) answer
    (.start work way decision) =
      .some (s₂.goto i (.start work way decision), .execute work way decision) := by
    rw [next]
    refine if_pos ?_
    show (s.call? call.id).any _ = true
    rw [h.stored]
    simp [ToolCall.admitted, StateChange.apply, running, h.unstarted]
    omega
  have hexecutes : next lib text w environment (s₂.goto i (.execute work way decision)) answer
    (.execute work way decision) =
      .some (s₃.goto i (.execute work way decision), .finish work way decision outcome) := by
    have hrun : runExecutor lib s.root answer work way decision =
        (root, .finish work way decision outcome) := by
      have happlied : applyPrepared lib s.root input call.preparedMutation answer.diskFails =
          .ok (already, root) := by
        rw [h.recorded, applyPrepared, hdisk, happly]
      exact runExecutor_applied rfl happlied
    rw [next, show runExecutor lib (s₂.goto i (.execute work way decision)).root answer work way
      decision = _ from hrun]
    rfl
  let change := ended work way decision outcome
  have hadmitted : (change.apply call).admitted = true := by
    simp [change, outcome, way, ToolCall.admitted, StateChange.apply, ended, h.unstarted]
    omega
  have hfinishes : next lib text w environment (s₃.goto i (.finish work way decision outcome))
    answer (.finish work way decision outcome) =
      .some ((s₃.replaceCall call.id change).goto i (.finish work way decision outcome),
        .done (.result (resultOf (change.apply call) outcome.evidence .none))) := by
    rw [next, State.setState, show (s₃.goto i (.finish work way decision outcome)).call?
      work.call.id = .some call from h.stored]
    exact congrArg some (if_pos hadmitted)
  refine ⟨(s₃.replaceCall call.id change).goto i
    (.done (.result (resultOf (change.apply call) outcome.evidence .none))), ?_, rfl,
      change.apply call, ?_, rfl, rfl, rfl⟩
  · rw [resuming, System.exec, hbegin]
    show (system lib text w environment).exec (s.goto i (.lockCall a)) [.step i answer,
      .step i answer, .step i answer, .step i answer, .step i answer, .step i answer,
        .step i answer, .step i answer] = _
    rw [exec_next hlock, exec_next hchecks, exec_next hevaluates, exec_next hreads,
      exec_next hreevaluates, exec_next hstarts, exec_next hexecutes, exec_next hfinishes,
        System.exec]
  · refine List.mem_map.mpr ⟨call, List.mem_of_find?_eq_some h.stored, if_pos rfl⟩

/-- **A resumption completes.** In every reachable state a suspended replacement has recorded
what was prepared of it. With the approval given and the agent still permitted, its resumption
taken to its end without interruption writes what `apply` makes of the workspace, wherever that
succeeds, as it does on a workspace that prepares to the same; and the call has succeeded. -/
theorem resumption_completes (hreachable : (system lib text w environment).Reachable s)
    (h : Resumable environment s a call run definition) (hidle : s.requests i = .idle)
    (hdisk : answer.diskFails = false) :
    ∃ prepared input, call.preparedMutation = .some (.mutation prepared) ∧
      mutationInput prepared = .some input ∧
      (ReplaceTextExecutor.prepare lib s.root input = .ok prepared →
        ∃ already root, ReplaceTextExecutor.apply lib s.root input prepared false = .ok
          (already, root)) ∧
      ∀ already root, ReplaceTextExecutor.apply lib s.root input prepared false = .ok
        (already, root) →
        ∃ t, (system lib text w environment).exec s (resuming i a answer) = .some t ∧
          t.root = root ∧
          ∃ ended ∈ t.calls, ended.toProposedCall = call.toProposedCall ∧
            ended.status = .succeeded ∧
            ended.resultMetadata = .some
              (.applied (relativeText (pureParts input.path)) already
              call.mutationFingerprint) := by
  obtain ⟨prepared, input, hresumption⟩ := h.resumption hreachable
  refine ⟨prepared, input, hresumption.recorded, hresumption.parsed, apply_prepared, ?_⟩
  intro already root happly
  exact hresumption.completes hidle hdisk happly

end

/-! A proposal to replace the one `a` of `a.txt`, approved and resumed. -/

def exampleProposal : Proposal :=
  ⟨1, 2, 3, ⟨"edit".toList, .replaceText (exampleReplace ['b'] (by decide) (by decide))⟩,
    [ToolId.replaceText.value], .none, .none⟩

def exampleInitial : State :=
  .initial [] [(1, 2)] [] [] [⟨3, 1, 2, .none, .none, 4, 1, .running, by simp⟩]
    [⟨4, 1, 2, 1, [ToolId.replaceText.value]⟩] []
    (.directory [("a.txt".toList, .file 0o644 (encode ['a']))])

/-- The request to its suspension, the approval, and the run that waits. -/
def suspending : List Label :=
  .begin 0 (.executeProposal exampleProposal) :: List.replicate 5 (.step 0 ⟨5, false, .ok ()⟩) ++
    [.step 0 ⟨6, false, .ok ()⟩, .step 0 ⟨6, false, .ok ()⟩, .decide 1 2 6 .approve,
      .moveRun 3 .waitingForApproval]

/-- What the suspension leaves, with the approval given. -/
def exampleSuspended (s : State) : Bool :=
  (match s.requests 1 with
    | .idle => true
    | _ => false) &&
  (s.getForApproval ⟨1, 2, 6⟩).any fun call =>
    call.status = .pendingApproval && call.toolId = .replaceText &&
      (s.runOf ⟨1, 2, 6⟩ call).any fun run =>
        run.status = .waitingForApproval &&
        (s.definitions.find? fun definition =>
            definition.id = run.agentDefinitionId && definition.tenantId = 1 &&
              definition.workspaceId = 2 &&
              definition.version = run.agentVersion).any fun definition =>
          definition.permissions.contains ToolId.replaceText.value &&
          s.policy.hasScope run.tenantId run.workspaceId run.projectId run.taskId &&
          (s.policy.decision (policyRequest "test".toList run .replaceText call.id)).effect =
            .requireConfirmation &&
          (s.policy.decision
            (policyRequest "test".toList run .replaceText call.id)).matchedRuleIds.length ≤ 59 &&
          approvalGiven s.policy 6 (policyRequest "test".toList run .replaceText call.id)
            call.mutationFingerprint &&
          (call.preparedMutation.any fun
            | .failure _ => false
            | .mutation prepared =>
              (mutationInput prepared).any fun input =>
                (ReplaceTextExecutor.apply exampleLibrary s.root input prepared false).toOption.any
                    fun result =>
                  readFile result.2 ["a.txt".toList] = .some (0o600, encode ['b']))

theorem example_suspends :
    ((system exampleLibrary Policy.asciiLibrary Contracts.asciiWord "test".toList).exec
      exampleInitial suspending).any exampleSuspended =
      true := by
  decide +kernel

theorem example_resumption_completes : ∃ s t,
    (system exampleLibrary Policy.asciiLibrary Contracts.asciiWord "test".toList).Reachable s ∧
      (system exampleLibrary Policy.asciiLibrary Contracts.asciiWord "test".toList).exec s
      (resuming 1 ⟨1, 2, 6⟩ ⟨0, false, .ok ()⟩) =
        .some t ∧
      readFile t.root ["a.txt".toList] = .some (0o600, encode ['b']) ∧ ∃ ended ∈ t.calls,
        ended.status = .succeeded := by
  obtain ⟨s, hexec, hsuspended⟩ := (Option.any_eq_true ..).mp example_suspends
  have hinit : (system exampleLibrary Policy.asciiLibrary Contracts.asciiWord "test".toList).Init
    exampleInitial := ⟨rfl, rfl, fun _ => rfl⟩
  have hreachable := System.exec_reachable hinit hexec
  simp only [exampleSuspended, Bool.and_eq_true, Option.any_eq_true,
    decide_eq_true_eq] at hsuspended
  obtain ⟨hidle, call, hfound, ⟨hpending, htool⟩, run, hrun, hwaiting, definition, hdefined,
    ⟨⟨⟨⟨hpermitted, hscope⟩, hconfirmation⟩, haudited⟩, hgiven⟩, recorded, hrecorded, hstored⟩ :=
      hsuspended
  have hresumable : Resumable "test".toList s ⟨1, 2, 6⟩ call run definition :=
    { found := hfound
      pending := hpending
      tool := htool
      runs := hrun
      waiting := hwaiting
      defined := hdefined
      permitted := hpermitted
      scope := hscope
      confirmation := hconfirmation
      audited := haudited
      given := hgiven }
  have hidle' : s.requests 1 = .idle := by
    split at hidle
    next hpc => exact hpc
    next => cases hidle
  obtain ⟨prepared, input, hprepared, hparsed, -, hcompletes⟩ :=
    resumption_completes hreachable hresumable hidle' (show Answer.diskFails ⟨0, false, .ok ()⟩ =
      false from rfl)
  rw [hprepared] at hrecorded
  cases hrecorded
  simp only [hparsed, Option.any_some, Option.any_eq_true, decide_eq_true_eq] at hstored
  obtain ⟨⟨already, root⟩, happly, hfile⟩ := hstored
  have happly' : ReplaceTextExecutor.apply exampleLibrary s.root input prepared false =
      .ok (already, root) := by
    cases happlied : ReplaceTextExecutor.apply exampleLibrary s.root input prepared false with
    | ok result =>
      rw [happlied] at happly
      exact congrArg Except.ok (Option.some.inj happly)
    | error =>
      rw [happlied] at happly
      cases happly
  obtain ⟨t, hresumed, rfl, ended, hended, -, hsucceeded, -⟩ := hcompletes already root happly'
  exact ⟨s, t, hreachable, hresumed, hfile, ended, hended, hsucceeded⟩

end Novalton.ToolGateway
