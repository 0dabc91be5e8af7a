/-
Under what authority the tool gateway acts, in every interleaving of the requests on it with
decisions, changes of the rules, edits of the workspace and requests that end midway: a write
is the prepared mutation that the approval of its call is for, a rejected one is never written,
and without an approval a proposal is executed at most once.
-/
import Mathlib.Data.List.Nodup
import Novalton.CountedRun
import Novalton.ToolKnowledge

namespace Novalton.ToolGateway

open Audit (TextLibrary)
open Contracts (WordClass)
open Policy (ScopedRequest ApprovalRequest PolicyEvaluationResult)

variable {lib : Library} {text : TextLibrary} {w : WordClass} {environment : Text}

/-! ## Runs -/

/-- What holds of every state: each request knows what it relies on, and at most one is to ask
for the approval of a call, which has none before. -/
structure Inv (environment : Text) (s : State) : Prop where
  knows : ∀ i, (s.requests i).Knows environment s
  unlinked : ∀ i id, (s.requests i).opens = .some id → Unlinked s id
  alone : ∀ i j id, (s.requests i).opens = .some id → (s.requests j).opens = .some id → i = j
  calls : (s.calls.map fun call => call.id).Nodup
  keys : (s.calls.map fun call => call.key).Nodup
  consistent : ∀ call ∈ s.calls, call.Consistent
  approvals : (s.policy.approvals.map fun approval => approval.id).Nodup

section
variable {s s' t : State} {i j : ℕ} {pc pc' : Pc} {id : Uuid}

theorem Pc.Knows.opened (h : pc.Knows environment s) (hopens : pc.opens = .some id) :
    ∃ call ∈ s.calls, call.id = id := by
  cases pc with
  | evaluate work way =>
    cases way with
    | first =>
      cases hopens
      obtain ⟨row, hrow, hsame⟩ := h.1.row
      exact ⟨row, hrow, congrArg ProposedCall.id hsame⟩
    | again => cases hopens
    | resumed => cases hopens
  | start work way | execute work way =>
    cases way with
    | first =>
      cases hopens
      obtain ⟨row, hrow, hsame⟩ := h.1.row
      exact ⟨row, hrow, congrArg ProposedCall.id hsame⟩
    | again => cases hopens
    | resumed => cases hopens
  | createApproval | suspend =>
    cases hopens
    obtain ⟨row, hrow, hsame⟩ := h.1.row
    exact ⟨row, hrow, congrArg ProposedCall.id hsame⟩
  | _ => cases hopens

/-- A step leaves a call without an approval as long as another request is to ask for it. -/
theorem Unlinked.step {calls : List ToolCall} (h : Unlinked s id) (hcalls : CallsStep s pc calls)
    (hother : pc.opens ≠ .some id) (hs : s'.calls = calls) : Unlinked s' id := by
  intro row hrow hid
  rw [hs] at hrow
  cases hcalls with
  | same => exact h row hrow hid
  | created value _ _ hunlinked =>
    rcases List.mem_append.mp hrow with hold | hnew
    · exact h row hold hid
    · rw [List.mem_singleton.mp hnew]
      exact hunlinked
  | changed changed change hlink =>
    obtain ⟨old, hold, rfl⟩ := List.mem_map.mp hrow
    by_cases hchanged : old.id = changed
    · rw [if_pos hchanged] at hid ⊢
      have hold' : old.approvalRequestId = .none := h old hold hid
      rcases hlink with hnone | hopens
      · simp only [StateChange.apply, overwrite, hnone, hold', Option.none_or]
      · rw [hopens, ← hchanged] at hother
        exact absurd (congrArg some hid) hother
    · rw [if_neg hchanged] at hid ⊢
      exact h old hold hid

/-- A column that a `set_state` does not write has the values it had. -/
theorem replaceCall_map {β : Type} (column : ProposedCall → β) (change : StateChange) :
    (s.replaceCall id change).calls.map (fun call => column call.toProposedCall) =
    s.calls.map fun call => column call.toProposedCall := by
  rw [State.replaceCall, List.map_map]
  refine List.map_congr_left fun call _ => ?_
  show column (if call.id = id then change.apply call else call).toProposedCall =
    column call.toProposedCall
  split <;> rfl

theorem calls_keys {calls : List ToolCall} (h : (s.calls.map fun call => call.key).Nodup)
    (hcalls : CallsStep s pc calls) :
    (calls.map fun call => call.key).Nodup := by
  cases hcalls with
  | same => exact h
  | created value _ hkey =>
    rw [List.map_append, List.nodup_append]
    refine ⟨h, List.nodup_singleton _, ?_⟩
    intro a ha b hb
    obtain ⟨call, hcall, rfl⟩ := List.mem_map.mp ha
    rw [List.mem_singleton.mp hb]
    exact hkey call hcall
  | changed changed change =>
    rw [replaceCall_map ProposedCall.key]
    exact h

theorem calls_nodup {calls : List ToolCall} (h : (s.calls.map fun call => call.id).Nodup)
    (hcalls : CallsStep s pc calls) :
    (calls.map fun call => call.id).Nodup := by
  cases hcalls with
  | same => exact h
  | created value hfresh =>
    rw [List.map_append, List.nodup_append]
    refine ⟨h, List.nodup_singleton _, ?_⟩
    intro a ha b hb
    obtain ⟨call, hcall, rfl⟩ := List.mem_map.mp ha
    rw [List.mem_singleton.mp hb]
    exact hfresh call hcall
  | changed changed change =>
    rw [replaceCall_map ProposedCall.id]
    exact h

theorem calls_consistent {calls : List ToolCall} (h : ∀ call ∈ s.calls, call.Consistent)
    (hcalls : CallsStep s pc calls) :
    ∀ call ∈ calls, call.Consistent := by
  intro call hcall
  cases hcalls with
  | same => exact h call hcall
  | created value _ _ _ hconsistent =>
    rcases List.mem_append.mp hcall with hold | hnew
    · exact h call hold
    · rw [List.mem_singleton.mp hnew]
      exact hconsistent
  | changed changed change =>
    obtain ⟨old, hold, rfl⟩ := List.mem_map.mp hcall
    split
    next => exact h old hold
    next => exact h old hold

theorem approvals_nodup (h : (s.policy.approvals.map fun approval => approval.id).Nodup)
    (happrovals : s'.policy.approvals = s.policy.approvals ∨
      ∃ approval, (∀ old ∈ s.policy.approvals, old.id ≠ approval.id) ∧
        s'.policy.approvals = s.policy.approvals ++ [approval]) :
    (s'.policy.approvals.map fun approval => approval.id).Nodup := by
  rcases happrovals with hsame | ⟨approval, hfresh, hadded⟩
  · rw [hsame]
    exact h
  · rw [hadded, List.map_append, List.nodup_append]
    refine ⟨h, List.nodup_singleton _, ?_⟩
    intro a ha b hb
    obtain ⟨old, hold, rfl⟩ := List.mem_map.mp ha
    rw [List.mem_singleton.mp hb]
    exact hfresh old hold

theorem Grows.goto : Grows s (s.goto i pc) := { Grows.refl s with }

theorem State.goto_self : (s.goto i pc).requests i = pc := if_pos rfl

theorem State.goto_other (h : j ≠ i) : (s.goto i pc).requests j = s.requests j := if_neg h

/-- **A step of a request keeps the invariant.** -/
theorem Inv.advance (h : Inv environment s)
    (hadvance : Advances environment s s' (s.requests i) pc') : Inv environment
    (s'.goto i pc') := by
  have hrequest : ∀ {j}, j ≠ i → (s'.goto i pc').requests j = s.requests j := fun hj => by
    rw [State.goto_other hj, hadvance.requests]
  have hfresh : ∀ {j id}, j ≠ i → (s.requests j).opens = .some id → pc'.opens = .some id →
      False := by
    intro j id hj hopens hopens'
    rcases (hadvance.opens id hopens').2 with ⟨hi, -⟩ | hnew
    · exact hj (h.alone j i id hopens hi)
    · obtain ⟨call, hcall, hid⟩ := (h.knows j).opened hopens
      exact hnew call hcall hid
  constructor
  case knows =>
    intro j
    by_cases hj : j = i
    · rw [hj, State.goto_self]
      exact Grows.goto.knows hadvance.knows
    · rw [hrequest hj]
      exact Grows.goto.knows (hadvance.grows.knows (h.knows j))
  case unlinked =>
    intro j id hopens
    by_cases hj : j = i
    · rw [hj, State.goto_self] at hopens
      exact (hadvance.opens id hopens).1
    · rw [hrequest hj] at hopens
      refine (h.unlinked j id hopens).step hadvance.calls ?_ rfl
      exact fun hi => hj (h.alone j i id hopens hi)
  case alone =>
    intro j k id hopens hopens'
    by_cases hj : j = i
    · by_cases hk : k = i
      · rw [hj, hk]
      · rw [hj, State.goto_self] at hopens
        rw [hrequest hk] at hopens'
        exact (hfresh hk hopens' hopens).elim
    · rw [hrequest hj] at hopens
      by_cases hk : k = i
      · rw [hk, State.goto_self] at hopens'
        exact (hfresh hj hopens hopens').elim
      · rw [hrequest hk] at hopens'
        exact h.alone j k id hopens hopens'
  case calls => exact calls_nodup h.calls hadvance.calls
  case keys => exact calls_keys h.keys hadvance.calls
  case consistent => exact calls_consistent h.consistent hadvance.calls
  case approvals => exact approvals_nodup h.approvals hadvance.approvals

/-- What happens outside the requests keeps the invariant where the state only grows. -/
theorem Inv.outside (h : Inv environment s) (hgrows : Grows s t) (hcalls : t.calls = s.calls)
    (hrequests : t.requests = s.requests)
    (happrovals : (t.policy.approvals.map fun approval => approval.id).Nodup) :
    Inv environment t where
  knows j := by
    rw [hrequests]
    exact hgrows.knows (h.knows j)
  unlinked j id hopens := by
    rw [hrequests] at hopens
    intro row hrow
    rw [hcalls] at hrow
    exact h.unlinked j id hopens row hrow
  alone j k id hopens hopens' := by
    rw [hrequests] at hopens hopens'
    exact h.alone j k id hopens hopens'
  calls := by
    rw [hcalls]
    exact h.calls
  keys := by
    rw [hcalls]
    exact h.keys
  consistent := by
    rw [hcalls]
    exact h.consistent
  approvals := happrovals

/-- A request that begins or ends relies on nothing. -/
theorem Inv.goto (h : Inv environment s) (hknows : pc.Knows environment s)
    (hopens : pc.opens = .none) : Inv environment (s.goto i pc) :=
  h.advance (.stay hknows hopens)

/-- The decided approvals: those of before, with the pending one that is named decided. -/
theorem decided_grows {db : Policy.Database} {target : Decision} {record : Policy.AuditRecord}
    {pending : ApprovalRequest} (hnodup : (db.approvals.map fun approval => approval.id).Nodup)
    (hpending : pending ∈ db.approvals) (hstatus : pending.status = "PENDING".toList) :
    DbGrows db { db with approvals := db.approvals.map (decided target pending.id), audit :=
      db.audit ++ [record] } where
  approvals approval happroval := by
    refine ⟨_, List.mem_map_of_mem happroval, ?_⟩
    rw [decided]
    split
    next hid =>
      have hsame : approval = pending := List.inj_on_of_nodup_map hnodup happroval hpending hid
      refine ⟨rfl, fun hdecided => ?_⟩
      rw [hsame] at hdecided
      exact absurd hstatus hdecided
    next => exact .refl approval
  audit _ hrecord := List.mem_append_left _ hrecord

theorem decided_ids {target : Decision} {approvals : List ApprovalRequest} :
    (approvals.map (decided target id)).map
    (fun approval => approval.id) = approvals.map fun approval => approval.id := by
  rw [List.map_map]
  refine List.map_congr_left fun approval _ => ?_
  show (decided target id approval).id = approval.id
  rw [decided]
  split <;> rfl

/-- **Every step keeps the invariant, and the state only grows.** -/
theorem step_keeps {label : Label} (h : Inv environment s) (hstep : step lib text w environment s label = .some t) :
    Inv environment t ∧ Grows s t := by
  cases label with
  | begin i request =>
    rw [step] at hstep
    split at hstep
    next =>
      cases hstep
      refine ⟨h.goto ?_ ?_, .goto⟩
      · cases request <;> trivial
      · cases request <;> rfl
    next => cases hstep
  | step i answer =>
    rw [step] at hstep
    split at hstep
    next => cases hstep
    next s' pc hnext =>
      cases hstep
      have hadvance := next_advances (h.knows i) (h.unlinked i) hnext
      have hgrows := hadvance.grows
      refine ⟨h.advance hadvance, ⟨hgrows.calls, hgrows.runs, hgrows.definitions, hgrows.policy⟩⟩
  | abort i =>
    cases hstep
    exact ⟨h.goto trivial rfl, .goto⟩
  | decide tenantId workspaceId approvalId target =>
    rw [step] at hstep
    cases hdecide : decideApproval text w s.policy tenantId workspaceId approvalId target with
    | mk result db =>
      rw [hdecide] at hstep
      cases hstep
      rcases decideApproval_cases hdecide with rfl | ⟨pending, hpending, rfl, hstatus, record, rfl⟩
      · exact ⟨h, .refl s⟩
      · have hgrows : Grows s { s with policy := { s.policy with
            approvals := s.policy.approvals.map (decided target pending.id), audit :=
                s.policy.audit ++ [record] } } :=
          .of_policy (decided_grows h.approvals hpending hstatus)
        refine ⟨h.outside hgrows rfl rfl ?_, hgrows⟩
        simp only [decided_ids]
        exact h.approvals
  | requestApproval id request fingerprint =>
    rw [step] at hstep
    split at hstep
    next => cases hstep
    next hfresh =>
      cases hcreated : Policy.createApproval text w s.policy id request fingerprint with
      | mk result db =>
        rw [hcreated] at hstep
        cases hstep
        obtain ⟨hgrows, hadded, -⟩ := createApproval_cases hcreated
        have hstate : Grows s { s with policy := db } := .of_policy hgrows
        refine ⟨h.outside hstate rfl rfl (approvals_nodup h.approvals (hadded.imp (fun h => h) ?_)), hstate⟩
        rintro ⟨approval, hid, hadded⟩
        refine ⟨approval, ?_, hadded⟩
        rw [hid]
        simpa using hfresh
  | administer rules workspaces projects tasks =>
    cases hstep
    have hgrows : Grows s { s with policy := { s.policy with rules := rules, workspaces := workspaces, projects := projects, tasks := tasks } } :=
      .of_policy ⟨(DbGrows.refl s.policy).approvals, (DbGrows.refl s.policy).audit⟩
    exact ⟨h.outside hgrows rfl rfl h.approvals, hgrows⟩
  | define definition =>
    rw [step] at hstep
    split at hstep
    next => cases hstep
    next =>
      cases hstep
      have hgrows : Grows s { s with definitions := s.definitions ++ [definition] } :=
        { Grows.refl s with definitions := fun _ hold => List.mem_append_left _ hold }
      exact ⟨h.outside hgrows rfl rfl h.approvals, hgrows⟩
  | startRun run =>
    rw [step] at hstep
    split at hstep
    next => cases hstep
    next =>
      cases hstep
      have hgrows : Grows s { s with runs := s.runs ++ [run] } :=
        { Grows.refl s with runs := fun old hold => ⟨old, List.mem_append_left _ hold, rfl⟩ }
      exact ⟨h.outside hgrows rfl rfl h.approvals, hgrows⟩
  | moveRun id status =>
    cases hstep
    have hgrows : Grows s { s with runs := s.runs.map fun run => if run.id = id then
        { run with status := status } else run } :=
      { Grows.refl s with
        runs := by
          intro old hold
          refine ⟨_, List.mem_map_of_mem hold, ?_⟩
          split <;> rfl }
    exact ⟨h.outside hgrows rfl rfl h.approvals, hgrows⟩
  | recordModelRun modelRun =>
    cases hstep
    have hgrows : Grows s { s with modelRuns := s.modelRuns ++ [modelRun] } := { Grows.refl s with }
    exact ⟨h.outside hgrows rfl rfl h.approvals, hgrows⟩
  | edit root =>
    cases hstep
    have hgrows : Grows s { s with root := root } := { Grows.refl s with }
    exact ⟨h.outside hgrows rfl rfl h.approvals, hgrows⟩

theorem inv_initial (h : (system lib text w environment).Init s) : Inv environment s where
  knows i := by
    rw [h.2.2 i]
    trivial
  unlinked i id hopens := by
    rw [h.2.2 i] at hopens
    cases hopens
  alone i j id hopens := by
    rw [h.2.2 i] at hopens
    cases hopens
  calls := by
    rw [h.1]
    exact List.nodup_nil
  keys := by
    rw [h.1]
    exact List.nodup_nil
  consistent := by
    rw [h.1]
    intro call hcall
    cases hcall
  approvals := by
    rw [h.2.1]
    exact List.nodup_nil

theorem inv_reachable (h : (system lib text w environment).Reachable s) : Inv environment s :=
  h.invariant (fun _ => inv_initial) fun _ _ _ hinv hstep => (step_keeps hinv hstep).1

end

/-! ## What is written, and on whose word -/

/-- A write of the gateway, with the call, the approval, the agent and the decision it stands on. -/
structure AuthorizedWrite (lib : Library) (environment : Text) (s t : State) (call : ToolCall)
    (approval : ApprovalRequest) (run : AgentRun) (definition : AgentDefinition)
    (decision : PolicyEvaluationResult) (path : List Text) (perm : ℕ) (before after : Bytes) :
    Prop where
  call_stored : call ∈ s.calls
  approval_stored : approval ∈ s.policy.approvals
  run_stored : run ∈ s.runs
  definition_stored : definition ∈ s.definitions
  /-- One file changes, at a path that is not denied. -/
  reads : s.root.lookup path = .some (.file perm before)
  writes : t.root = s.root.replaceAt path (.file mkstempPerm after)
  allowed : denied lib path = false
  /-- The change is the one that was prepared with the call. -/
  mutation : call.toolId = .replaceText
  preimage : call.preimageSha256 = .some (lib.sha256 before)
  candidate : call.candidateSha256 = .some (lib.sha256 after)
  /-- It is the change the approval of the call is for. -/
  linked : call.approvalRequestId = .some approval.id
  given : approval.status = "APPROVED".toList
  scope : exactScopeMatches approval (policyRequest environment run .replaceText call.id)
    (.some (mutationSha lib path (lib.sha256 before) (lib.sha256 after))) = true
  /-- The agent may use the tool, and the policy was asked for this call. -/
  agent : run.id = call.agentRunId ∧ run.tenantId = call.tenantId ∧
    run.workspaceId = call.workspaceId
  version : definition.id = run.agentDefinitionId ∧ definition.version = run.agentVersion
  permitted : definition.permissions.contains ToolId.replaceText.value = true
  confirmation : decision.effect = .requireConfirmation
  logged : Policy.evaluationRecord (policyRequest environment run .replaceText call.id) decision ∈
    s.policy.audit

section
variable {s t : State} {root root' : Node} {input : WorkspaceReplaceTextInput} {i : ℕ}
  {answer : Answer} {work : Work} {way : Way} {decision : PolicyEvaluationResult}

/-- What `apply` writes: the candidate over the preimage, with the recorded fingerprint. -/
theorem apply_writes {prepared : PreparedMutation} {diskFails already : Bool}
    (h : ReplaceTextExecutor.apply lib root input prepared diskFails = .ok (already, root'))
    (hroot : root' ≠ root) :
    ∃ path perm before after, root.lookup path = .some (.file perm before) ∧
      denied lib path = false ∧
      root' = root.replaceAt path (.file mkstempPerm after) ∧
        lib.sha256 before = prepared.preimageSha256 ∧
      lib.sha256 after = prepared.candidateSha256 ∧
      mutationSha lib path (lib.sha256 before)
        (lib.sha256 after) = prepared.mutationFingerprint := by
  simp only [ReplaceTextExecutor.apply, Py.bind_eq_ok, orRaise_eq_ok] at h
  obtain ⟨path, hpath, ⟨perm, before⟩, hread, h⟩ := h
  split at h
  next =>
    cases h
    exact absurd rfl hroot
  next =>
    simp only [Py.bind_eq_ok, raiseIf_eq_ok, orRaise_eq_ok, bne_eq_false_iff_eq,
      Bool.or_eq_false_iff] at h
    obtain ⟨-, hpre, current, -, -, -, -, ⟨hcandidate, hfingerprint⟩, -, -, h⟩ := h
    cases h
    obtain ⟨-, hallowed, -⟩ := resolve_file lib hpath
    refine ⟨path, perm, before, _, ?_, hallowed, rfl, hpre, hcandidate, hfingerprint⟩
    rw [readFile] at hread
    split at hread
    next hlookup =>
      cases hread
      exact hlookup
    next => cases hread

theorem applyPrepared_writes {prepared : Option PreparedRecord} {diskFails already : Bool}
    (h : applyPrepared lib root input prepared diskFails = .ok (already, root')) :
    ∃ recorded, prepared = .some (.mutation recorded) ∧
      ReplaceTextExecutor.apply lib root input recorded diskFails = .ok (already, root') := by
  unfold applyPrepared at h
  split at h
  next recorded => exact ⟨recorded, rfl, h⟩
  next =>
    simp only [Py.bind_eq_ok] at h
    obtain ⟨-, -, -, -, h⟩ := h
    cases h

/-- An executor that writes is that of a mutation, and writes what is prepared. -/
theorem runExecutor_writes (h : (runExecutor lib root answer work way decision).1 ≠ root) :
    work.arguments.toolName = .replaceText ∧ ∃ input recorded already, work.call.preparedMutation =
      .some (.mutation recorded) ∧
      ReplaceTextExecutor.apply lib root input recorded answer.diskFails =
        .ok (already, (runExecutor lib root answer work way decision).1) := by
  unfold runExecutor at h ⊢
  split at h
  next input harguments =>
    split at h
    next already root₁ happly =>
      obtain ⟨recorded, hprepared, happly'⟩ := applyPrepared_writes happly
      refine ⟨by rw [harguments]; rfl, input, recorded, already, hprepared, ?_⟩
      exact happly'
    next => exact absurd rfl h
    next => exact absurd rfl h
  next =>
    split at h
    next => exact absurd rfl h
    next => exact absurd rfl h

/-- A mutation stands on the approval of its call. -/
theorem mutation_entitled (hway : way.Linked s work.call) (hentitled : Entitled s work way decision)
    (htool : work.arguments.toolName = .replaceText) :
    ∃ approvalId, Linked s work.call approvalId ∧ decision.effect = .requireConfirmation ∧
      Approved s work approvalId := by
  cases way with
  | first => exact absurd htool hentitled.2
  | again approvalId => exact ⟨approvalId, hway, hentitled.1 htool, hentitled.2⟩
  | resumed approvalId => exact ⟨approvalId, hway, hentitled.1 htool, hentitled.2⟩

/-- No step but an execution and an edit changes the workspace. -/
theorem next_root {s' : State} {pc pc' : Pc}
    (h : next lib text w environment s answer pc = .some (s', pc')) (hroot : s'.root ≠ s.root) :
    ∃ work way decision, pc = .execute work way decision ∧
      s'.root = (runExecutor lib s.root answer work way decision).1 := by
  have hset : ∀ {id change then_}, s.setState id change then_ = (s', pc') → False := by
    intro id change then_ hset
    rcases @setState_cases s id change then_ with hcase | ⟨row, -, -, hcase⟩
    · rw [hcase] at hset
      cases hset
      exact hroot rfl
    · rw [hcase] at hset
      cases hset
      exact hroot rfl
  cases pc with
  | execute work way decision =>
    rw [next] at h
    cases h
    exact ⟨work, way, decision, rfl, rfl⟩
  | suspend | finish | deny =>
    rw [next] at h
    exact (hset (Option.some.inj h)).elim
  | start work way decision =>
    cases way with
    | resumed =>
      rw [next] at h
      split at h <;> cases h <;> exact absurd rfl hroot
    | _ => exact (hset (Option.some.inj h)).elim
  | idle | done => cases h
  | authorize | lookUp | prepare | lockCall | lockRun | rejectCall | evaluate =>
    rw [next] at h
    split at h <;> cases h <;> exact absurd rfl hroot
  | create | createApproval | reevaluate | readApproval =>
    rw [next] at h
    repeat' split at h
    all_goals (cases h; try exact absurd rfl hroot)
  | rejectRun =>
    rw [next] at h
    repeat' split at h
    all_goals (cases h; exact absurd rfl hroot)

theorem policyRequest_status {run kept : AgentRun} {tool : ToolId} {id : Uuid}
    (h : { kept with status := run.status } = run) :
    policyRequest environment run tool id = policyRequest environment kept tool id := by
  rw [← h]
  rfl

/-- **Every write is authorized.** In every run, a step that changes the workspace is an edit
from outside or writes one file that is not denied, with the mutation that was prepared for a call
and for which the approval of that call is given, on behalf of an agent that has the permission and
after a decision of the policy to ask for the confirmation. -/
theorem writes_authorized (lib : Library) (text : TextLibrary) (w : WordClass)
    (environment : Text) :
    (system lib text w environment).EveryStep fun s label t => t.root ≠ s.root →
      (∃ root, label = .edit root) ∨
        ∃ call approval run definition decision path perm before after,
          AuthorizedWrite lib environment s t call approval run definition decision path perm before
            after := by
  intro s label t hreachable hstep hroot
  have hinv := inv_reachable hreachable
  have hstep' : step lib text w environment s label = .some t := hstep
  cases label with
  | edit root => exact .inl ⟨root, rfl⟩
  | step i answer =>
    right
    rw [step] at hstep'
    split at hstep'
    next => cases hstep'
    next s' pc hnext =>
      cases hstep'
      obtain ⟨work, way, decision, hpc, hwritten⟩ := next_root hnext hroot
      have hroot' : (runExecutor lib s.root answer work way decision).1 ≠ s.root := by
        rw [← hwritten]
        exact hroot
      obtain ⟨htool, input, recorded, already, hprepared, happly⟩ := runExecutor_writes hroot'
      obtain ⟨path, perm, before, after, hreads, hallowed, hwrites, hpreimage, hcandidate,
        hfingerprint⟩ := apply_writes happly hroot'
      have hknows := hinv.knows i
      rw [hpc] at hknows
      obtain ⟨hsound, hway, hjudged, hentitled⟩ := hknows
      obtain ⟨approvalId, hlinked, heffect, happroved⟩ := mutation_entitled hway hentitled htool
      obtain ⟨call, hcall, hsame, hlink⟩ := hlinked
      obtain ⟨approval, happroval, rfl, hgiven, hscope⟩ := happroved
      obtain ⟨run, hrun, hstatus⟩ := hsound.run
      have hconsistent : work.call.Consistent := by
        have hrow := hinv.consistent call hcall
        rw [hsame] at hrow
        exact hrow
      have hrunId : run.id = work.run.id ∧ run.tenantId = work.run.tenantId ∧
        run.workspaceId = work.run.workspaceId ∧
          run.agentDefinitionId = work.run.agentDefinitionId ∧
              run.agentVersion = work.run.agentVersion := by
        rw [← hstatus]
        exact ⟨rfl, rfl, rfl, rfl, rfl⟩
      have hcallId : call.id = work.call.id := congrArg ProposedCall.id hsame
      have hrequest : policyRequest environment run .replaceText call.id = work.request := by
        rw [hsound.request, htool, ← hcallId]
        exact (policyRequest_status hstatus).symm
      refine ⟨call, approval, run, work.definition, decision, path, perm, before, after, ?_⟩
      exact
        { call_stored := hcall
          approval_stored := happroval
          run_stored := hrun
          definition_stored := hsound.definition
          reads := hreads
          writes := hwritten.trans hwrites
          allowed := hallowed
          mutation := by rw [hsame, hsound.tool, htool]
          preimage := by rw [hsame, hconsistent.preimage, hprepared, PreparedRecord.get, hpreimage]
          candidate := by
            rw [hsame, hconsistent.candidate, hprepared, PreparedRecord.get, hcandidate]
          linked := hlink
          given := hgiven
          scope := by
            rw [hconsistent.fingerprint, hprepared] at hscope
            rw [hrequest, hfingerprint]
            exact hscope
          agent := by
            rw [hrunId.1, hrunId.2.1, hrunId.2.2.1, hsame]
            exact ⟨hsound.agent, hsound.tenant, hsound.workspace⟩
          version := by
            rw [hrunId.2.2.2.1, hrunId.2.2.2.2]
            exact hsound.version
          permitted := by
            have hpermitted := hsound.permitted
            rw [htool] at hpermitted
            exact hpermitted
          confirmation := heffect
          logged := by
            rw [hrequest]
            exact hjudged.logged (by rw [heffect]; simp) }
  | begin i request =>
    rw [step] at hstep'
    split at hstep'
    next =>
      cases hstep'
      exact absurd rfl hroot
    next => cases hstep'
  | requestApproval | define | startRun =>
    rw [step] at hstep'
    split at hstep' <;> cases hstep'
    exact absurd rfl hroot
  | abort | decide | administer | moveRun | recordModelRun =>
    cases hstep'
    exact absurd rfl hroot

/-- The approval of the call is rejected. -/
def Rejected (s : State) (id : Uuid) : Prop :=
  ∃ call ∈ s.calls, ∃ approval ∈ s.policy.approvals, call.id = id ∧
    call.approvalRequestId = .some approval.id ∧
    approval.status = "REJECTED".toList

/-- A rejection is not undone. -/
theorem Rejected.grows {id : Uuid} (h : Rejected s id) (hgrows : Grows s t) : Rejected t id := by
  obtain ⟨call, hcall, approval, happroval, rfl, hlink, hrejected⟩ := h
  obtain ⟨keptCall, hkeptCall, hkeepsCall⟩ := hgrows.calls call hcall
  obtain ⟨kept, hkept, hkeeps⟩ := hgrows.policy.approvals approval happroval
  refine ⟨keptCall, hkeptCall, kept, hkept, congrArg ProposedCall.id hkeepsCall.same, ?_, ?_⟩
  · rw [hkeeps.id_eq]
    exact hkeepsCall.linked _ hlink
  · rw [← hrejected]
    refine hkeeps.final ?_
    rw [hrejected]
    decide

/-- No request executes a rejected call. -/
theorem Rejected.idle {id : Uuid} (hinv : Inv environment s) (h : Rejected s id)
    (hrequest : s.requests i = .execute work way decision) :
    work.call.id ≠ id := by
  rintro rfl
  obtain ⟨call, hcall, approval, happroval, hid, hlink, hrejected⟩ := h
  have happroved : ∀ approvalId, Linked s work.call approvalId → ¬ Approved s work approvalId := by
    rintro approvalId ⟨row, hrow, hsame, hrowLink⟩ ⟨given, hgivenMem, hgivenId, hgiven, -⟩
    have hrowEq : call = row := by
      refine List.inj_on_of_nodup_map hinv.calls hcall hrow ?_
      rw [hsame]
      exact hid
    have happrovalId : approvalId = approval.id := by
      rw [← hrowEq, hlink] at hrowLink
      exact (Option.some.inj hrowLink).symm
    have hsameApproval : given = approval := by
      refine List.inj_on_of_nodup_map hinv.approvals hgivenMem happroval ?_
      rw [hgivenId, happrovalId]
    rw [hsameApproval, hrejected] at hgiven
    revert hgiven
    decide
  have hknows := hinv.knows i
  rw [hrequest] at hknows
  obtain ⟨-, hway, -, hentitled⟩ := hknows
  cases way with
  | first =>
    -- A request that executes without an approval has asked for none.
    have hunlinked := hinv.unlinked i work.call.id (by rw [hrequest]; rfl) call hcall hid
    rw [hlink] at hunlinked
    cases hunlinked
  | again approvalId => exact happroved approvalId hway hentitled.2
  | resumed approvalId => exact happroved approvalId hway hentitled.2

/-- **A rejected call is never executed.** In every run, once the approval of a call is rejected
it stays so, and no request runs an executor for the call. -/
theorem rejected_never_executed (lib : Library) (text : TextLibrary) (w : WordClass)
    (environment : Text) :
    (system lib text w environment).EveryStep fun s _ t => ∀ id, Rejected s id →
      Rejected t id ∧ ∀ i work way decision, t.requests i = .execute work way decision →
        work.call.id ≠ id := by
  intro s label t hreachable hstep id hrejected
  obtain ⟨hinv, hgrows⟩ := step_keeps (inv_reachable hreachable) hstep
  have hstays := hrejected.grows hgrows
  exact ⟨hstays, fun i work way decision hrequest => hstays.idle hinv hrequest⟩

/-! ## Executions without an approval -/

/-- A request starts the executor of a call it has created itself. -/
def startsFirst (key : Uuid × Text) (s : State) (label : Label) (t : State) : Bool :=
  match label with
  | .step i _ =>
    match s.requests i, t.requests i with
    | .start work .first _, .execute _ _ _ => work.call.key = key
    | _, _ => false
  | _ => false

/-- The call of a key is not yet created, or the request that has created it is still before its
start. -/
def Unstarted (key : Uuid × Text) (s : State) : Prop :=
  (∀ call ∈ s.calls, call.key ≠ key) ∨
    ∃ i, ∃ call ∈ s.calls, (s.requests i).opens = .some call.id ∧ (s.requests i).executing = false ∧
      call.key = key

theorem startsFirst_eq {key : Uuid × Text} {label : Label} (h : startsFirst key s label t = true) :
    ∃ i answer work decision, label = .step i answer ∧ s.requests i = .start work .first decision ∧
      work.call.key = key ∧
      (t.requests i).executing = true := by
  unfold startsFirst at h
  split at h
  next i answer =>
    split at h
    next work decision _ _ _ hbefore hafter =>
      refine ⟨i, answer, work, decision, rfl, hbefore, of_decide_eq_true h, ?_⟩
      rw [hafter]
      rfl
    next => cases h
  next => cases h

/-- A request that is before its start has been so, or its call is new. -/
theorem Unstarted.back {key : Uuid × Text} {label : Label} (hinv : Inv environment s)
    (hstep : step lib text w environment s label = .some t) (h : Unstarted key t) :
    Unstarted key s := by
  have hgrows := (step_keeps hinv hstep).2
  have hcalls : (∀ call ∈ t.calls, call.key ≠ key) → Unstarted key s := by
    intro hnone
    refine .inl fun call hcall hkey => ?_
    obtain ⟨kept, hkept, hkeeps⟩ := hgrows.calls call hcall
    refine hnone kept hkept ?_
    rw [hkeeps.same]
    exact hkey
  rcases h with hnone | ⟨j, call, hcall, hopens, hwaits, hkey⟩
  · exact hcalls hnone
  · -- The row of a call that was there before is the one that is there now.
    have hold : (s.requests j).opens = .some call.id → (s.requests j).executing = false →
        Unstarted key s := by
      intro hbefore hbeforeWaits
      obtain ⟨old, hold, hid⟩ := (hinv.knows j).opened hbefore
      obtain ⟨kept, hkept, hkeeps⟩ := hgrows.calls old hold
      have hkeptId : kept.id = call.id := by
        rw [hkeeps.same]
        exact hid
      have hsame : kept = call :=
        List.inj_on_of_nodup_map (step_keeps hinv hstep).1.calls hkept hcall hkeptId
      refine .inr ⟨j, old, hold, ?_, hbeforeWaits, ?_⟩
      · rw [hid]
        exact hbefore
      · rw [← hkey, ← hsame, hkeeps.same]
    cases label with
    | step i answer =>
      rw [step] at hstep
      split at hstep
      next => cases hstep
      next s' pc hnext =>
        have hadvance := next_advances (hinv.knows i) (hinv.unlinked i) hnext
        cases hstep
        by_cases hj : j = i
        · rw [hj, State.goto_self] at hopens
          rcases (hadvance.opens _ hopens).2 with ⟨hbefore, hbeforeWaits⟩ | hfresh
          · exact hold (hj ▸ hbefore) (hj ▸ hbeforeWaits)
          · -- A new call is created under a key that no call has.
            have hcall' : call ∈ s'.calls := hcall
            have hcallsStep := hadvance.calls
            generalize s'.calls = calls at hcall' hcallsStep
            cases hcallsStep with
            | same => exact absurd rfl (hfresh call hcall')
            | created value _ hkeys =>
              rcases List.mem_append.mp hcall' with hin | hnew
              · exact absurd rfl (hfresh call hin)
              · rw [List.mem_singleton.mp hnew] at hkey
                exact .inl (hkey ▸ hkeys)
            | changed changed change =>
              obtain ⟨old, holdMem, hold'⟩ := List.mem_map.mp hcall'
              refine absurd ?_ (hfresh old holdMem)
              rw [← hold']
              split <;> rfl
        · rw [State.goto_other hj, hadvance.requests] at hopens hwaits
          exact hold hopens hwaits
    | begin i request =>
      rw [step] at hstep
      split at hstep
      next =>
        cases hstep
        by_cases hj : j = i
        · rw [hj, State.goto_self] at hopens
          cases request <;> cases hopens
        · rw [State.goto_other hj] at hopens hwaits
          exact hold hopens hwaits
      next => cases hstep
    | abort i =>
      cases hstep
      by_cases hj : j = i
      · rw [hj, State.goto_self] at hopens
        cases hopens
      · rw [State.goto_other hj] at hopens hwaits
        exact hold hopens hwaits
    | requestApproval | define | startRun =>
      rw [step] at hstep
      split at hstep <;> cases hstep
      exact hold hopens hwaits
    | decide | administer | moveRun | recordModelRun | edit =>
      cases hstep
      exact hold hopens hwaits

/-- A start leaves no other for its key. -/
theorem startsFirst_spends {key : Uuid × Text} {label : Label} (hinv : Inv environment s)
    (hstep : step lib text w environment s label = .some t) (h : startsFirst key s label t = true) :
    Unstarted key s ∧ ¬ Unstarted key t := by
  obtain ⟨i, answer, work, decision, rfl, hbefore, hkey, hafter⟩ := startsFirst_eq h
  have hknows := hinv.knows i
  rw [hbefore] at hknows
  obtain ⟨row, hrow, hsame⟩ := hknows.1.row
  have hrowKey : row.key = key := by
    rw [hsame]
    exact hkey
  have hopens : (s.requests i).opens = .some row.id := by
    rw [hbefore, hsame]
    rfl
  have hwaits : (s.requests i).executing = false := by
    rw [hbefore]
    rfl
  refine ⟨.inr ⟨i, row, hrow, hopens, hwaits, hrowKey⟩, ?_⟩
  have hkeeps := step_keeps hinv hstep
  obtain ⟨kept, hkept, hkept'⟩ := hkeeps.2.calls row hrow
  have hkeptKey : kept.key = key := by
    rw [hkept'.same]
    exact hrowKey
  rintro (hnone | ⟨j, call, hcall, hcallOpens, hcallWaits, hcallKey⟩)
  · exact hnone kept hkept hkeptKey
  · have hsameCall : call = kept :=
      List.inj_on_of_nodup_map hkeeps.1.keys hcall hkept (hcallKey.trans hkeptKey.symm)
    by_cases hj : j = i
    · rw [hj, hafter] at hcallWaits
      cases hcallWaits
    · rw [step] at hstep
      split at hstep
      next => cases hstep
      next s' pc hnext =>
        have hadvance := next_advances (hinv.knows i) (hinv.unlinked i) hnext
        cases hstep
        rw [State.goto_other hj, hadvance.requests, hsameCall, hkept'.same] at hcallOpens
        exact hj (hinv.alone j i _ hcallOpens hopens)

open Classical in
/-- **A proposal is executed at most once without an approval**: in every run, for each agent run
and call key, however often and by however many requests it is made. -/
theorem executed_once (lib : Library) (text : TextLibrary) (w : WordClass) (environment : Text)
    (key : Uuid × Text) (rules : List Policy.PolicyRule)
    (workspaces projects tasks : List (Uuid × Uuid)) (runs : List AgentRun)
    (definitions : List AgentDefinition) (modelRuns : List ModelRun) (root : Node)
    (labels : List Label) :
    (system lib text w environment).count (startsFirst key)
      (.initial rules workspaces projects tasks runs definitions modelRuns root) labels ≤ 1 := by
  have hinit : (system lib text w environment).Init
      (.initial rules workspaces projects tasks runs definitions modelRuns root) :=
    ⟨rfl, rfl, fun _ => rfl⟩
  -- One start is left as long as the call is not started.
  refine (System.count_le (I := Inv environment) (fun s => if Unstarted key s then 1
    else 0) ?_ ?_ labels (inv_initial hinit)).trans ?_
  · exact fun s label t hs hstep => (step_keeps hs hstep).1
  · intro s label t hs hstep
    by_cases hstarts : startsFirst key s label t = true
    · obtain ⟨hbefore, hafter⟩ := startsFirst_spends hs hstep hstarts
      rw [if_pos hstarts, if_neg hafter, if_pos hbefore]
    · rw [if_neg hstarts]
      by_cases hafter : Unstarted key t
      · rw [if_pos hafter, if_pos (hafter.back hs hstep)]
      · rw [if_neg hafter]
        exact Nat.zero_le _
  · show (if Unstarted key _ then 1 else 0) ≤ 1
    split <;> omega

end

end Novalton.ToolGateway
