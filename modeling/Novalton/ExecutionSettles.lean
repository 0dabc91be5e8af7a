/-
Which executions leave a run stranded. `execute` and `continue_with_tool_evidence` end
each call with an `except` clause of its own, and the clauses differ: the first call
catches everything, the extra attempt lets the cancellation of the task through, the
continuation lets application errors and other exceptions through, and nothing between
the calls is caught.

The theorem gives the exact endings of the calls and the awaits under which every model
run ends terminal and the agent run terminal or waiting for a pending call. Each block of
the execution has its condition and one lemma.
-/
import Novalton.Execution

namespace Novalton

open Prog

/-! ## The conditions -/

section
variable (env : ContinueEnv)

/-- A clause of the continuation's `try` matches the exception, and the awaits that end
its model run and the agent run take effect. -/
def ContinueEnv.HandlerSettles : Exn → Prop
  | .application _ | .other => False
  | _ => env.outcome .endModel = .ok ∧ (env.outcome .endAgent).commits = true

/-- The endings under which the continuation strands nothing. -/
def ContinueEnv.Settles : Prop :=
  match continuationFailure env with
  | .some _ => (env.outcome .endAgent).commits = true
  | .none =>
    env.outcome .startModel = .ok ∧ env.outcome .options = .ok ∧
      match env.complete with
      | .error e => env.HandlerSettles e
      | .ok continuation =>
        if !(continuation.identified env.initial &&
            upstreamConstraintMatches env.methods env.initial continuation.upstreamProviderId) then
          env.HandlerSettles (.provider .invalidRequest)
        else if continuation.truncated env.methods then
          env.HandlerSettles (.provider .malformedResponse)
        else
          match env.outcome .succeedModel with
          | .before e => env.HandlerSettles e
          | .after _ => False
          | .ok =>
            match continuation.content with
            | .raises _ => False
            | _ => (env.outcome .endAgent).commits = true

end

section
variable (env : ExecuteEnv)

/-- The agent run's end takes effect. -/
def ExecuteEnv.Ends : Prop := (env.outcome .endAgent).commits = true

/-- The first call's model run and the agent run are ended. -/
def ExecuteEnv.FirstEnds : Prop := env.outcome .endModel = .ok ∧ env.Ends

/-- The extra attempt's exception is not the cancellation of the task, and its model run
and the agent run are ended. -/
def ExecuteEnv.ExtraEnds (e : Exn) : Prop :=
  e ≠ .taskCancelled ∧ env.outcome .endExtra = .ok ∧ env.Ends

/-- A result is delivered, its proposal's call runs or is suspended, or the proposal is
refused. -/
def ExecuteEnv.DeliverSettles (proposals : Nat) : Prop :=
  if proposals ≠ 1 ∨ env.permittedTools = [] then env.Ends
  else
    match env.gateway with
    | .raised _ _ => False
    | .returned status evidence failureCode =>
      if status = .pendingApproval then (env.outcome .suspend).commits = true
      else if status ≠ .succeeded ∨ evidence = false then
        failureCodeValid (gatewayCode failureCode) = true ∧ env.Ends
      else env.outcome .refresh = .ok ∧ env.continuation.Settles

/-- What the contract makes of a content that is accepted, given where an invalid result
goes. -/
def ExecuteEnv.ContentSettles (invalid : Prop) : Content → Prop
  | .raises _ => False
  | .notJson => env.Ends
  | .json parsed =>
    match parsed.accepted with
    | .some (_, proposals) => env.DeliverSettles proposals
    | .none => invalid

/-- What the extra attempt's call returns or raises, once its generation is checked. -/
def ExecuteEnv.extra (target : Target) (call : Except Exn Generation) : Except Exn Generation :=
  match call with
  | .error e => .error e
  | .ok generation =>
    if !(generation.identified target &&
      upstreamConstraintMatches env.methods target generation.upstreamProviderId) then
      .error (.provider .invalidRequest)
    else .ok generation

def ExecuteEnv.RepairSettles (target : Target) : Prop :=
  env.outcome .startExtra = .ok ∧
    match env.extra target env.repairCall with
    | .error e => env.ExtraEnds e
    | .ok generation =>
      match env.outcome .succeedExtra with
      | .ok => env.ContentSettles env.Ends generation.content
      | .before (.application _) => env.outcome .endExtra = .ok ∧ env.Ends
      | _ => False

def ExecuteEnv.GenerationSettles (target : Target) (generation : Generation) (extraUsed : Bool) :
    Prop :=
  if generation.truncated env.methods then env.Ends
  else
    env.ContentSettles
      (if env.permittedTools = [] ∧ extraUsed = false then env.RepairSettles target else env.Ends)
        generation.content

def ExecuteEnv.RecoverySettles (target : Target) : Prop :=
  env.outcome .startExtra = .ok ∧
    match env.extra target env.recoveryCall with
    | .error e => env.ExtraEnds e
    | .ok generation =>
      match env.outcome .succeedExtra with
      | .ok => env.GenerationSettles target generation true
      | .before e => env.ExtraEnds e
      | .after _ => False

def ExecuteEnv.FirstSettles (target : Target) (generation : Generation) : Prop :=
  if !generation.identified target ∨
    !upstreamConstraintMatches env.methods target generation.upstreamProviderId then
    env.FirstEnds
  else
    match env.outcome .succeedModel with
    | .before (.application _) => env.FirstEnds
    | .ok =>
      if generation.truncated env.methods then env.RecoverySettles target
      else env.GenerationSettles target generation false
    | _ => False

/-- The first call: refused for want of a strategy, raised, or made. -/
def ExecuteEnv.CallSettles (target : Target) : Prop :=
  match env.provider with
  | .error _ => env.FirstEnds
  | .ok providerId =>
    if providerId ≠ target.providerId then env.FirstEnds
    else
      match env.strategy with
      | .error _ => env.FirstEnds
      | .ok false =>
        match env.outcome .refuseModel with
        | .ok => (env.outcome .refuse).commits = true
        | .before _ => env.FirstEnds
        | .after _ => False
      | .ok true =>
        if env.outcome .diagnostics = .ok then
          match env.firstCall with
          | .error _ => env.FirstEnds
          | .ok generation => env.FirstSettles target generation
        else env.FirstEnds

def ExecuteEnv.RouteSettles : Prop :=
  match env.route with
  | .error _ => False
  | .ok (.noSuitableModel _) => env.Ends
  | .ok (.selected target) =>
    env.outcome .projection = .ok ∧ env.outcome .startModel = .ok ∧ env.outcome .linkModel = .ok ∧
      env.outcome .linkCommit = .ok ∧ env.CallSettles target

/-- The endings under which `execute` strands nothing. -/
def ExecuteEnv.Settles : Prop :=
  env.definition ≠ .ok true ∨ (env.outcome .createRun).commits = false ∨
    (env.outcome .createRun = .ok ∧ env.outcome .startRun = .ok ∧
      match toolFailure env with
      | .error _ => False
      | .ok (.some _) => env.Ends
      | .ok .none =>
        match env.memory with
        | .none | .some .ok => env.RouteSettles
        | .some (.before e) | .some (.after e) => e.cancelled = false ∧ env.Ends)

end

/-! ## Ending a call -/

section
variable {db : AgentDb} {o oModel oAgent : Outcome} {slot : ModelSlot} {failure : ProviderFailure}
  {β : Type}

theorem failWith_settled {code : Text} (h : db.Idle) (hcode : failureCodeValid code = true) :
    (failWith o code ⟨db, db⟩).2.committed.Settled ↔ o.commits = true :=
  endsIn_then_iff (I := AgentDb.Settled) (failAgentRun_endsIn h.running hcode) h.not_settled
    (fun _ hs => hs)
    (h.move _ rfl) (Leaves.pure _)

/-- A code that is not well formed is refused before anything is written. -/
theorem failWith_settled_iff {code : Text} (h : db.Idle) :
    (failWith o code ⟨db, db⟩).2.committed.Settled ↔ failureCodeValid code = true ∧
    o.commits = true := by
  by_cases hcode : failureCodeValid code = true
  · simpa [hcode] using failWith_settled h hcode
  · have hx : failAgentRun o code ⟨db, db⟩ = (.error agentInvalidFailure, ⟨db, db⟩) := by
      rw [failAgentRun, if_neg hcode]
      rfl
    rw [failWith, bind_error hx]
    simp [h.not_settled, hcode]

theorem finishWith_settled {result : AgentResult} (h : db.Idle) :
    (finishWith o result ⟨db, db⟩).2.committed.Settled ↔ o.commits = true := by
  have hends : ∀ {x : Prog AgentDb Unit} {target : AgentRunStatus} {code : Option Text},
      x ⟨db, db⟩ = endsIn o ⟨db, db⟩ (db.moveAgent target code) → target.terminal = true →
      (((x >>= fun _ => pure (Executed.ofResult result)) ⟨db, db⟩).2.committed.Settled ↔
          o.commits = true) :=
    fun hx ht => endsIn_then_iff (I := AgentDb.Settled) hx h.not_settled (fun _ hs => hs)
      (h.move _ ht) (Leaves.pure _)
  unfold finishWith
  cases result.status with
  | completed | partialResult => exact hends (agentTransition_endsIn h.running) rfl
  | cancelled => exact hends (cancelAgentRun_endsIn h.running) rfl
  | blocked | needsInput | failed => exact hends (failAgentRun_endsIn h.running (by decide)) rfl

/-- The status a model run is given when its call failed. -/
theorem failed_terminal :
    (if failure = .cancellation then ModelRunStatus.cancelled else .failed).terminal = true := by
  split <;> rfl

/-- Ending the running call has to return, and then the rest decides. -/
theorem markFailed_seq_settled {f : Unit → Prog AgentDb β} {P : Prop} (h : db.Calling slot)
    (hrest : ∀ db' : AgentDb, db'.Idle → ((f () ⟨db', db'⟩).2.committed.Settled ↔ P)) :
    ((markFailed o slot failure >>= f) ⟨db, db⟩).2.committed.Settled ↔ o = .ok ∧ P := by
  have hidle : (db.moveModel slot (if failure = .cancellation then .cancelled else .failed)).Idle :=
    h.settle failed_terminal
  exact (endsIn_seq_iff (Q := AgentDb.Settled) (updateRunning_endsIn h.calling) h.not_settled
    hidle.not_settled).trans (and_congr_right fun _ => hrest _ hidle)

theorem failCall_settled {code : Text} (h : db.Calling slot)
    (hcode : failureCodeValid code = true) :
    (failCall oModel oAgent slot failure code ⟨db, db⟩).2.committed.Settled ↔ oModel = .ok ∧
    oAgent.commits = true :=
  markFailed_seq_settled h fun _ hidle => failWith_settled hidle hcode

theorem cancelCall_settled {raised : Exn} (h : db.Calling slot) :
    (cancelCall oModel oAgent slot raised ⟨db, db⟩).2.committed.Settled ↔ oModel = .ok ∧
    oAgent.commits = true :=
  markFailed_seq_settled h fun _ hidle =>
    endsIn_then_iff (I := AgentDb.Settled) (cancelAgentRun_endsIn hidle.running)
    hidle.not_settled (fun _ hs => hs) (hidle.move _ rfl) (Leaves.raise _)

theorem startModelRun_seq_settled {f : Unit → Prog AgentDb β} {P : Prop} (h : db.Idle)
    (hrest : ∀ db' : AgentDb, db'.Calling slot → ((f () ⟨db', db'⟩).2.committed.Settled ↔ P)) :
    ((startModelRun o slot >>= f) ⟨db, db⟩).2.committed.Settled ↔ o = .ok ∧ P := by
  have hcalling := h.start slot
  exact (endsIn_seq_iff (Q := AgentDb.Settled) store_endsIn h.not_settled
    hcalling.not_settled).trans
    (and_congr_right fun _ => hrest _ hcalling)

/-! ## Handlers that come too late

Every handler first ends the call's model run. After `mark_succeeded` took effect that
raises again, with the agent run still RUNNING. -/

/-- A program that first ends the call of `slot`. -/
def EndsCall (slot : ModelSlot) (p : Prog AgentDb β) : Prop :=
  ∃ (o : Outcome) (failure : ProviderFailure) (f : Unit → Prog AgentDb β),
    p = (markFailed o slot failure >>= f)

theorem EndsCall.stranded {p : Prog AgentDb β} {status : ModelRunStatus} (hp : EndsCall slot p)
    (hrun : db.agent = .some .running) (hslot : db.models slot = .some status)
    (ht : status.terminal = true) :
    ¬ (p ⟨db, db⟩).2.committed.Settled := by
  obtain ⟨o, failure, f, rfl⟩ := hp
  obtain ⟨e, hx⟩ : ∃ e, markFailed o slot failure ⟨db, db⟩ = (.error e, ⟨db, db⟩) :=
    updateRunning_terminal hslot ht
  rw [bind_error hx]
  exact AgentDb.not_settled hrun

theorem tryReturn_stranded {α : Type} {body : Prog AgentDb α}
    {handle : Exn → Option (Prog AgentDb β)} {rest : α → Prog AgentDb β} {s : Session AgentDb}
    {e : Exn} {status : ModelRunStatus} (hbody : body s = (.error e, ⟨db, db⟩))
    (hhandle : ∀ p, handle e = .some p → EndsCall slot p) (hrun : db.agent = .some .running)
    (hslot : db.models slot = .some status) (ht : status.terminal = true) :
    ¬ (tryReturn body handle rest s).2.committed.Settled := by
  cases hp : handle e with
  | none =>
    rw [tryReturn_raised hbody hp]
    exact AgentDb.not_settled hrun
  | some p =>
    rw [tryReturn_caught hbody hp]
    exact (hhandle p hp).stranded hrun hslot ht

theorem continueHandler_ends {env : ContinueEnv} {e : Exn} (p : Prog AgentDb Executed)
    (hp : continueHandler env e = .some p) : EndsCall .continuation p := by
  cases e <;> cases hp <;> exact ⟨_, _, _, rfl⟩

section
variable {env : ExecuteEnv} {e : Exn} (p : Prog AgentDb Executed)

theorem extraHandler_ends {rest : Prog AgentDb Executed} (hp : extraHandler env rest e = .some p) :
    EndsCall .extra p := by
  cases e <;> cases hp <;> exact ⟨_, _, _, rfl⟩

theorem repairUsageHandler_ends (hp : repairUsageHandler env e = .some p) : EndsCall .extra p := by
  cases e with
  | application => cases hp; exact ⟨_, _, _, rfl⟩
  | provider | providerCancelled | taskCancelled | other => cases hp

theorem usageHandler_ends (hp : usageHandler env e = .some p) : EndsCall .first p := by
  cases e with
  | application => cases hp; exact ⟨_, _, _, rfl⟩
  | provider | providerCancelled | taskCancelled | other => cases hp

theorem firstHandler_ends {target : Target} (hp : firstHandler env target e = .some p) :
    EndsCall .first p := by
  cases e with
  | provider failure =>
    simp only [firstHandler] at hp
    split at hp <;> cases hp <;> exact ⟨_, _, _, rfl⟩
  | application | providerCancelled | taskCancelled | other => cases hp; exact ⟨_, _, _, rfl⟩

end

/-! ## How `mark_succeeded` ends -/

theorem markSucceeded_ok (h : db.Calling slot) :
    markSucceeded .ok slot
      ⟨db, db⟩ = (.ok (), ⟨db.moveModel slot .succeeded, db.moveModel slot .succeeded⟩) :=
  updateRunning_endsIn h.calling

theorem markSucceeded_before {e : Exn} : markSucceeded (.before e) slot
    ⟨db, db⟩ = (.error e, ⟨db, db⟩) := rfl

theorem markSucceeded_after {e : Exn} (h : db.Calling slot) :
    markSucceeded (.after e) slot ⟨db, db⟩ =
      (.error e, ⟨db.moveModel slot .succeeded, db.moveModel slot .succeeded⟩) :=
  updateRunning_endsIn h.calling

end

/-! ## The continuation -/

section
variable {env : ContinueEnv} {db : AgentDb}

theorem continueHandler_settled {body : Prog AgentDb Continued} {e : Exn}
    (h : db.Calling .continuation) (hbody : body ⟨db, db⟩ = (.error e, ⟨db, db⟩)) :
    (tryReturn body (continueHandler env) (continueEnd env) ⟨db, db⟩).2.committed.Settled ↔
    env.HandlerSettles e := by
  cases e with
  | application | other =>
    rw [tryReturn_raised hbody rfl]
    exact iff_of_false h.not_settled id
  | provider failure =>
    rw [tryReturn_caught hbody rfl]
    exact failCall_settled h (by decide)
  | providerCancelled | taskCancelled =>
    rw [tryReturn_caught hbody rfl]
    exact cancelCall_settled h

theorem continueEnd_settled {continued : Continued} (h : db.Idle) :
    (continueEnd env continued ⟨db, db⟩).2.committed.Settled ↔
    (env.outcome .endAgent).commits = true := by
  cases continued with
  | roundLimit | invalid => exact failWith_settled h (by decide)
  | final result => exact finishWith_settled h

/-- The validation of a content, once its model run is SUCCEEDED. -/
theorem continueCall_settled (h : db.Calling .continuation) :
    (tryReturn (continueCall env) (continueHandler env) (continueEnd env) ⟨db,
      db⟩).2.committed.Settled ↔
      match env.complete with
      | .error e => env.HandlerSettles e
      | .ok continuation =>
        if !(continuation.identified env.initial &&
            upstreamConstraintMatches env.methods env.initial continuation.upstreamProviderId) then
          env.HandlerSettles (.provider .invalidRequest)
        else if continuation.truncated env.methods then
          env.HandlerSettles (.provider .malformedResponse)
        else
          match env.outcome .succeedModel with
          | .before e => env.HandlerSettles e
          | .after _ => False
          | .ok =>
            match continuation.content with
            | .raises _ => False
            | _ => (env.outcome .endAgent).commits = true := by
  cases hcomplete : env.complete with
  | error e => exact continueHandler_settled h (by rw [continueCall, hcomplete]; rfl)
  | ok continuation =>
    have hcall : continueCall env ⟨db, db⟩ =
        (if !(continuation.identified env.initial &&
            upstreamConstraintMatches env.methods env.initial continuation.upstreamProviderId) then
          raise (.provider .invalidRequest)
        else if continuation.truncated env.methods then raise (.provider .malformedResponse)
        else do
          markSucceeded (env.outcome .succeedModel) .continuation
          ofExcept (validateToolContinuationResult continuation.content)) ⟨db, db⟩ := by
      rw [continueCall, hcomplete]
      rfl
    dsimp only
    split at hcall
    · rename_i hidentity
      rw [if_pos hidentity]
      exact continueHandler_settled h hcall
    rename_i hidentity
    rw [if_neg hidentity]
    split at hcall
    · rename_i htruncated
      rw [if_pos htruncated]
      exact continueHandler_settled h hcall
    rename_i htruncated
    rw [if_neg htruncated]
    have hidle : (db.moveModel .continuation .succeeded).Idle := h.settle rfl
    cases hout : env.outcome .succeedModel with
    | before e =>
      rw [hout, bind_error markSucceeded_before] at hcall
      exact continueHandler_settled h hcall
    | after e =>
      rw [hout, bind_error (markSucceeded_after h)] at hcall
      exact iff_of_false (tryReturn_stranded hcall continueHandler_ends hidle.running
        (AgentDb.moveModel_self _) rfl) id
    | ok =>
      rw [hout, bind_ok (markSucceeded_ok h), ofExcept_apply] at hcall
      cases hcontent : continuation.content with
      | raises e =>
        rw [hcontent] at hcall
        exact iff_of_false
          (tryReturn_stranded hcall continueHandler_ends hidle.running
            (AgentDb.moveModel_self _) rfl) id
      | notJson =>
        rw [hcontent] at hcall
        rw [tryReturn_ok hcall]
        exact continueEnd_settled hidle
      | json parsed =>
        obtain ⟨continued, hvalid⟩ : ∃ continued, validateToolContinuationResult (.json parsed) =
            .ok continued := by
          unfold validateToolContinuationResult
          dsimp only
          split
          · exact ⟨_, rfl⟩
          · split <;> exact ⟨_, rfl⟩
        rw [hcontent, hvalid] at hcall
        rw [tryReturn_ok hcall]
        exact continueEnd_settled hidle

theorem continuationFailure_valid {code : Text} (h : continuationFailure env = .some code) :
    failureCodeValid code = true := by
  unfold continuationFailure at h
  split at h
  · cases h; decide
  split at h
  · cases h; decide
  split at h
  · cases h; decide
  split at h
  · cases h; decide
  · cases h

theorem continueWithToolEvidence_settled (h : db.Idle) :
    (continueWithToolEvidence env ⟨db, db⟩).2.committed.Settled ↔ env.Settles := by
  unfold continueWithToolEvidence ContinueEnv.Settles
  cases hfailure : continuationFailure env with
  | some code => exact failWith_settled h (continuationFailure_valid hfailure)
  | none =>
    refine startModelRun_seq_settled h fun db' h' => ?_
    exact (await_seq_iff (Q := AgentDb.Settled) h'.not_settled).trans
      (and_congr_right fun _ => continueCall_settled h')

end

/-! ## The execution -/

section
variable {env : ExecuteEnv} {db : AgentDb}

theorem gatewayCode_pending {status : ToolExecutionStatus} {evidence : Bool}
    {failureCode : Option Text} :
    executeProposal (.returned status evidence failureCode) ⟨db, db⟩ =
      (.ok (status, evidence, failureCode),
        ⟨{ db with call := .some status }, { db with call := .some status }⟩) := rfl

theorem deliver_settled {result : AgentResult} {proposals : Nat} (h : db.Idle) :
    (deliver env result proposals ⟨db, db⟩).2.committed.Settled ↔ env.DeliverSettles proposals := by
  unfold deliver ExecuteEnv.DeliverSettles
  by_cases hzero : proposals = 0
  · rw [if_pos hzero, if_pos (.inl (by omega))]
    exact finishWith_settled h
  rw [if_neg hzero]
  by_cases hrefused : proposals ≠ 1 ∨ env.permittedTools = []
  · rw [if_pos hrefused, if_pos hrefused]
    exact failWith_settled h (by decide)
  rw [if_neg hrefused, if_neg hrefused]
  cases env.gateway with
  | raised e left => exact iff_of_false (AgentDb.not_settled h.running) id
  | returned status evidence failureCode =>
    rw [bind_ok gatewayCode_pending]
    let called : AgentDb := { db with call := .some status }
    have hidle : called.Idle := ⟨h.running, h.done⟩
    dsimp only
    by_cases hpending : status = .pendingApproval
    · rw [if_pos hpending, if_pos hpending]
      have hcall : called.call = .some .pendingApproval := congrArg Option.some hpending
      exact endsIn_then_iff (I := AgentDb.Settled) (agentTransition_endsIn hidle.running)
        hidle.not_settled
        (fun _ hs => hs) (hidle.suspend hcall) (Leaves.pure _)
    rw [if_neg hpending, if_neg hpending]
    by_cases hfailed : status ≠ .succeeded ∨ evidence = false
    · rw [if_pos hfailed, if_pos hfailed]
      exact failWith_settled_iff hidle
    rw [if_neg hfailed, if_neg hfailed]
    exact (await_seq_iff (Q := AgentDb.Settled) hidle.not_settled).trans
      (and_congr_right fun _ => continueWithToolEvidence_settled hidle)

theorem invalidResult_settled (h : db.Idle) : (invalidResult env ⟨db, db⟩).2.committed.Settled ↔
    env.Ends :=
  failWith_settled h (by decide)

/-! ## The extra attempt -/

theorem completeExtra_apply {target : Target} {call : Except Exn Generation} {s : Session AgentDb} :
    completeExtra env target call s = (env.extra target call, s) := by
  cases call with
  | error e => rfl
  | ok generation =>
    rw [completeExtra, ExecuteEnv.extra, bind_ok (ofExcept_apply _ s)]
    split <;> rfl

/-- An exception of the extra attempt while its model run is RUNNING. -/
theorem extraHandler_settled {α : Type} {body : Prog AgentDb α} {rest : Prog AgentDb Executed}
    {after : α → Prog AgentDb Executed} {e : Exn} (h : db.Calling .extra)
    (hbody : body ⟨db, db⟩ = (.error e, ⟨db, db⟩))
    (hrest : ∀ db' : AgentDb, db'.Idle → ((rest ⟨db', db'⟩).2.committed.Settled ↔ env.Ends)) :
    (tryReturn body (extraHandler env rest) after ⟨db, db⟩).2.committed.Settled ↔
    env.ExtraEnds e := by
  unfold ExecuteEnv.ExtraEnds
  cases e with
  | taskCancelled =>
    rw [tryReturn_raised hbody rfl]
    exact iff_of_false h.not_settled fun hs => hs.1 rfl
  | providerCancelled =>
    rw [tryReturn_caught hbody rfl]
    exact (cancelCall_settled h).trans (by simp [ExecuteEnv.Ends])
  | application | provider | other =>
    rw [tryReturn_caught hbody rfl]
    exact (markFailed_seq_settled h hrest).trans (by simp)

theorem repaired_settled {content : Content} (h : db.Idle) :
    (repaired env content ⟨db, db⟩).2.committed.Settled ↔ env.ContentSettles env.Ends content := by
  cases content with
  | raises e => exact iff_of_false h.not_settled id
  | notJson => exact invalidResult_settled h
  | json parsed =>
    simp only [repaired, ExecuteEnv.ContentSettles]
    cases parsed.accepted with
    | none => exact invalidResult_settled h
    | some accepted => exact deliver_settled h

theorem repairContract_settled {target : Target} (h : db.Idle) :
    (repairContract env target ⟨db, db⟩).2.committed.Settled ↔ env.RepairSettles target := by
  unfold repairContract ExecuteEnv.RepairSettles
  refine startModelRun_seq_settled h fun db' h' => ?_
  have hcall : completeExtra env target env.repairCall ⟨db', db'⟩ =
      (env.extra target env.repairCall, ⟨db', db'⟩) :=
    completeExtra_apply
  cases hextra : env.extra target env.repairCall with
  | error e =>
    rw [hextra] at hcall
    exact extraHandler_settled h' hcall fun _ hidle => invalidResult_settled hidle
  | ok generation =>
    rw [hextra] at hcall
    rw [tryReturn_ok hcall]
    dsimp only
    have hidle : (db'.moveModel .extra .succeeded).Idle := h'.settle rfl
    cases env.outcome .succeedExtra with
    | ok =>
      rw [tryReturn_ok (markSucceeded_ok h')]
      exact repaired_settled hidle
    | before e =>
      cases e with
      | application code =>
        rw [tryReturn_caught markSucceeded_before rfl]
        exact markFailed_seq_settled h' fun _ hidle' => invalidResult_settled hidle'
      | provider | providerCancelled | taskCancelled | other =>
        rw [tryReturn_raised markSucceeded_before rfl]
        exact iff_of_false h'.not_settled id
    | after e =>
      exact iff_of_false
        (tryReturn_stranded (markSucceeded_after h') repairUsageHandler_ends hidle.running
        (AgentDb.moveModel_self _) rfl) id

theorem afterGeneration_settled {target : Target} {generation : Generation} {extraUsed : Bool}
    (h : db.Idle) :
    (afterGeneration env target generation extraUsed ⟨db, db⟩).2.committed.Settled ↔
      env.GenerationSettles target generation extraUsed := by
  unfold afterGeneration ExecuteEnv.GenerationSettles
  by_cases htruncated : generation.truncated env.methods = true
  · rw [if_pos htruncated, if_pos htruncated]
    exact failWith_settled h (by decide)
  rw [if_neg htruncated, if_neg htruncated]
  cases generation.content with
  | raises e => exact iff_of_false h.not_settled id
  | notJson => exact failWith_settled h (by decide)
  | json parsed =>
    simp only [ExecuteEnv.ContentSettles]
    cases parsed.accepted with
    | some accepted => exact deliver_settled h
    | none =>
      dsimp only
      split
      · exact repairContract_settled h
      · exact invalidResult_settled h

theorem recoverTruncation_settled {target : Target} {generation : Generation} (h : db.Idle)
    (htruncated : generation.truncated env.methods = true) :
    (recoverTruncation env target generation ⟨db, db⟩).2.committed.Settled ↔
    env.RecoverySettles target := by
  unfold recoverTruncation ExecuteEnv.RecoverySettles
  refine startModelRun_seq_settled h fun db' h' => ?_
  -- without a recovered generation the truncated one fails the agent run
  have hrest : ∀ db'' : AgentDb, db''.Idle →
      ((afterGeneration env target generation true ⟨db'', db''⟩).2.committed.Settled ↔
          env.Ends) := by
    intro db'' hidle
    rw [afterGeneration, if_pos htruncated]
    exact failWith_settled hidle (by decide)
  have hcall : completeExtra env target env.recoveryCall ⟨db', db'⟩ =
      (env.extra target env.recoveryCall, ⟨db', db'⟩) := completeExtra_apply
  cases hextra : env.extra target env.recoveryCall with
  | error e =>
    rw [hextra] at hcall
    exact extraHandler_settled h' (by rw [recoveryCall, bind_error hcall]) hrest
  | ok recovered =>
    rw [hextra] at hcall
    have hbody : recoveryCall env target ⟨db', db'⟩ =
        (markSucceeded (env.outcome .succeedExtra) .extra >>= fun _ => pure recovered) ⟨db',
            db'⟩ := by
      rw [recoveryCall, bind_ok hcall]
    have hidle : (db'.moveModel .extra .succeeded).Idle := h'.settle rfl
    dsimp only
    cases hout : env.outcome .succeedExtra with
    | ok =>
      rw [hout, bind_ok (markSucceeded_ok h')] at hbody
      rw [tryReturn_ok hbody]
      exact afterGeneration_settled hidle
    | before e =>
      rw [hout, bind_error markSucceeded_before] at hbody
      exact extraHandler_settled h' hbody hrest
    | after e =>
      rw [hout, bind_error (markSucceeded_after h')] at hbody
      exact iff_of_false (tryReturn_stranded hbody (fun _ => extraHandler_ends _) hidle.running
        (AgentDb.moveModel_self _) rfl) id

/-! ## The first call -/

theorem providerCode_valid (failure : ProviderFailure) :
    failureCodeValid ("provider_".toList ++ failure.text) = true := by
  cases failure <;> decide

/-- Every exception of the first call is caught. -/
theorem firstHandler_settled {target : Target} {body : Prog AgentDb (Executed ⊕ Generation)}
    {after : Executed ⊕ Generation → Prog AgentDb Executed} {e : Exn} (h : db.Calling .first)
    (hbody : body ⟨db, db⟩ = (.error e, ⟨db, db⟩)) :
    (tryReturn body (firstHandler env target) after ⟨db, db⟩).2.committed.Settled ↔
    env.FirstEnds := by
  cases e with
  | providerCancelled | taskCancelled =>
    rw [tryReturn_caught hbody rfl]
    exact cancelCall_settled h
  | application | other =>
    rw [tryReturn_caught hbody rfl]
    exact failCall_settled h (by decide)
  | provider failure =>
    by_cases hcancel : failure = .cancellation
    · rw [tryReturn_caught hbody (if_pos hcancel)]
      exact cancelCall_settled h
    · rw [tryReturn_caught hbody (if_neg hcancel)]
      refine failCall_settled h ?_
      split
      · decide
      · exact providerCode_valid failure

theorem afterFirstCall_settled {target : Target} {generation : Generation} (h : db.Calling .first) :
    (afterFirstCall env target generation ⟨db, db⟩).2.committed.Settled ↔
    env.FirstSettles target generation := by
  unfold afterFirstCall ExecuteEnv.FirstSettles
  by_cases hidentity : (!generation.identified target) = true
  · rw [if_pos hidentity, if_pos (.inl hidentity)]
    exact failCall_settled h (by decide)
  rw [if_neg hidentity]
  by_cases hupstream :
    (!upstreamConstraintMatches env.methods target generation.upstreamProviderId) = true
  · rw [if_pos hupstream, if_pos (.inr hupstream)]
    exact failCall_settled h (by decide)
  have hsame : ¬ ((!generation.identified target) = true ∨
      (!upstreamConstraintMatches env.methods target generation.upstreamProviderId) = true) :=
    fun hor => hor.elim hidentity hupstream
  rw [if_neg hupstream, if_neg hsame]
  have hidle : (db.moveModel .first .succeeded).Idle := h.settle rfl
  cases env.outcome .succeedModel with
  | ok =>
    rw [tryReturn_ok (markSucceeded_ok h)]
    dsimp only
    by_cases htruncated : generation.truncated env.methods = true
    · rw [if_pos htruncated, if_pos htruncated]
      exact recoverTruncation_settled hidle htruncated
    · rw [if_neg htruncated, if_neg htruncated]
      exact afterGeneration_settled hidle
  | before e =>
    cases e with
    | application code =>
      rw [tryReturn_caught markSucceeded_before rfl]
      exact failCall_settled h (by decide)
    | provider | providerCancelled | taskCancelled | other =>
      rw [tryReturn_raised markSucceeded_before rfl]
      exact iff_of_false h.not_settled id
  | after e =>
    exact iff_of_false (tryReturn_stranded (markSucceeded_after h) usageHandler_ends hidle.running
      (AgentDb.moveModel_self _) rfl) id

/-- The refusal inside the first call's `try`: its own exceptions reach the handlers. -/
theorem refused_settled {target : Target} {code : Text} (h : db.Calling .first)
    (hcode : failureCodeValid code = true) {body : Prog AgentDb (Executed ⊕ Generation)}
    (hbody : body ⟨db, db⟩ =
      (failCall (env.outcome .refuseModel) (env.outcome .refuse) .first .invalidRequest code >>=
        fun response =>
        pure (.inl response)) ⟨db, db⟩) :
    (tryReturn body (firstHandler env target) (fun
      | .inl response => pure response
      | .inr generation => afterFirstCall env target generation) ⟨db, db⟩).2.committed.Settled ↔
      match env.outcome .refuseModel with
      | .ok => (env.outcome .refuse).commits = true
      | .before _ => env.FirstEnds
      | .after _ => False := by
  let failed : AgentDb := db.moveModel .first .failed
  have hidle : failed.Idle := h.settle rfl
  have hmark : ∀ o : Outcome, markFailed o .first .invalidRequest ⟨db, db⟩ =
      endsIn o ⟨db, db⟩ failed :=
    fun o => updateRunning_endsIn h.calling
  have hslot : failed.models .first = .some .failed := AgentDb.moveModel_self _
  cases hout : env.outcome .refuseModel with
  | before e =>
    have hcall : failCall (.before e) (env.outcome .refuse) .first .invalidRequest code ⟨db, db⟩ =
        (.error e, ⟨db, db⟩) := bind_error (hmark _)
    rw [hout, bind_error hcall] at hbody
    exact firstHandler_settled h hbody
  | after e =>
    have hcall : failCall (.after e) (env.outcome .refuse) .first .invalidRequest code ⟨db, db⟩ =
        (.error e, ⟨failed, failed⟩) := bind_error (hmark _)
    rw [hout, bind_error hcall] at hbody
    exact iff_of_false
      (tryReturn_stranded hbody (fun _ => firstHandler_ends _) hidle.running hslot rfl) id
  | ok =>
    let ended : AgentDb := failed.moveAgent .failed (.some code)
    have hended : ended.Settled := hidle.move _ rfl
    have hfail : failAgentRun (env.outcome .refuse) code ⟨failed, failed⟩ =
        endsIn (env.outcome .refuse) ⟨failed, failed⟩ ended :=
          failAgentRun_endsIn hidle.running hcode
    have hcall : failCall .ok (env.outcome .refuse) .first .invalidRequest code ⟨db, db⟩ =
        failWith (env.outcome .refuse) code ⟨failed, failed⟩ := bind_ok (hmark _)
    dsimp only
    cases hrefuse : env.outcome .refuse with
    | ok =>
      rw [hrefuse] at hfail hcall
      have hresponse : failWith .ok code ⟨failed, failed⟩ =
          (.ok ⟨.failed, .some code, .none⟩, ⟨ended, ended⟩) :=
        bind_ok hfail
      rw [hout, hrefuse, bind_ok (hcall.trans hresponse)] at hbody
      rw [tryReturn_ok hbody]
      exact iff_of_true hended rfl
    | before e =>
      rw [hrefuse] at hfail hcall
      rw [hout, hrefuse, bind_error (hcall.trans (bind_error hfail))] at hbody
      exact iff_of_false
        (tryReturn_stranded hbody (fun _ => firstHandler_ends _) hidle.running hslot rfl) (by simp)
    | after e =>
      -- the handlers raise again, with both runs FAILED
      rw [hrefuse] at hfail hcall
      rw [hout, hrefuse, bind_error (hcall.trans (bind_error hfail))] at hbody
      refine iff_of_true ?_ rfl
      have hslot' : ended.models .first = .some .failed := by rw [AgentDb.moveAgent_models, hslot]
      cases hp : firstHandler env target e with
      | none =>
        rw [tryReturn_raised hbody hp]
        exact hended
      | some p =>
        rw [tryReturn_caught hbody hp]
        obtain ⟨o, failure, f, rfl⟩ := firstHandler_ends p hp
        obtain ⟨e', hx⟩ : ∃ e', markFailed o .first failure ⟨ended, ended⟩ =
            (.error e', ⟨ended, ended⟩) :=
          updateRunning_terminal hslot' rfl
        rw [bind_error hx]
        exact hended

/-- The first call, from its `try` on. -/
theorem firstCall_settled {target : Target} (h : db.Calling .first) :
    (tryReturn (firstCall env target) (firstHandler env target) (fun
      | .inl response => pure response
      | .inr generation => afterFirstCall env target generation) ⟨db, db⟩).2.committed.Settled ↔
      env.CallSettles target := by
  unfold ExecuteEnv.CallSettles
  cases hprovider : env.provider with
  | error e => exact firstHandler_settled h (by rw [firstCall, hprovider]; rfl)
  | ok providerId =>
    have hbody : firstCall env target ⟨db, db⟩ =
        (if providerId ≠ target.providerId then raise (.provider .invalidRequest)
        else do
          let selected ← ofExcept env.strategy
          if selected then do
            setExecutionDiagnostics (env.outcome .diagnostics) .first
            let generation ← ofExcept env.firstCall
            pure (.inr generation)
          else do
            let response ← failCall (env.outcome .refuseModel) (env.outcome .refuse) .first
              .invalidRequest
              "native_structured_output_required".toList
            pure (.inl response)) ⟨db, db⟩ := by
      rw [firstCall, hprovider]
      rfl
    dsimp only
    by_cases hid : providerId ≠ target.providerId
    · rw [if_pos hid] at hbody ⊢
      exact firstHandler_settled h hbody
    rw [if_neg hid] at hbody ⊢
    cases hstrategy : env.strategy with
    | error e =>
      rw [hstrategy] at hbody
      exact firstHandler_settled h hbody
    | ok selected =>
      rw [hstrategy, bind_ok (ofExcept_apply _ _)] at hbody
      cases selected with
      | false => exact refused_settled h (by decide) hbody
      | true =>
        have hdiagnostics : setExecutionDiagnostics (env.outcome .diagnostics) .first ⟨db, db⟩ =
            endsIn (env.outcome .diagnostics) ⟨db, db⟩ db := updateRunning_endsIn h.calling
        rw [if_pos rfl] at hbody
        dsimp only
        cases hout : env.outcome .diagnostics with
        | before e | after e =>
          rw [hout] at hdiagnostics hbody
          rw [if_neg (by simp)]
          exact firstHandler_settled h (hbody.trans (bind_error hdiagnostics))
        | ok =>
          rw [hout] at hdiagnostics hbody
          rw [bind_ok hdiagnostics] at hbody
          rw [if_pos rfl]
          cases hcall : env.firstCall with
          | error e =>
            rw [hcall] at hbody
            exact firstHandler_settled h hbody
          | ok generation =>
            rw [hcall] at hbody
            rw [tryReturn_ok (hbody.trans (bind_ok (ofExcept_apply _ _)))]
            exact afterFirstCall_settled h

/-! ## Routing and start -/

theorem runTarget_settled {target : Target} (h : db.Idle) (hlink : db.modelLinked = false) :
    (runTarget env target ⟨db, db⟩).2.committed.Settled ↔
      env.outcome .projection = .ok ∧ env.outcome .startModel = .ok ∧ env.outcome .linkModel = .ok ∧
        env.outcome .linkCommit = .ok ∧ env.CallSettles target := by
  unfold runTarget
  refine (await_seq_iff (Q := AgentDb.Settled) h.not_settled).trans (and_congr_right fun _ => ?_)
  let started : AgentDb := db.moveModel .first .running
  let linked : AgentDb := { started with modelLinked := true }
  have hstarted : started.Calling .first := h.start .first
  have hlinked : linked.Calling .first := ⟨hstarted.running, hstarted.calling, hstarted.done⟩
  refine (endsIn_seq_iff (Q := AgentDb.Settled) store_endsIn h.not_settled
    hstarted.not_settled).trans
    (and_congr_right fun _ => ?_)
  show ((linkModelRun (env.outcome .linkModel) >>= _) ⟨started, started⟩).2.committed.Settled ↔ _
  cases hout : env.outcome .linkModel with
  | before e | after e => exact iff_of_false hstarted.not_settled (by simp)
  | ok =>
    have hx : linkModelRun .ok ⟨started, started⟩ = (.ok true, ⟨started, linked⟩) := by
      have hcond : started.agent = .some .running ∧ started.modelLinked = false :=
        ⟨h.running, hlink⟩
      have hread : (read : Prog AgentDb AgentDb) ⟨started, started⟩ =
        (.ok started, ⟨started, started⟩) := rfl
      rw [linkModelRun, bind_ok (await_ok _), bind_ok hread, if_pos hcond]
      rfl
    rw [bind_ok hx]
    simp only [true_and]
    refine (endsIn_seq_iff (Q := AgentDb.Settled) (s := ⟨started, linked⟩) commit_endsIn
      hstarted.not_settled
      hlinked.not_settled).trans (and_congr_right fun _ => ?_)
    exact firstCall_settled hlinked

theorem runRoute_settled (h : db.Idle) (hlink : db.modelLinked = false) :
    (runRoute env ⟨db, db⟩).2.committed.Settled ↔ env.RouteSettles := by
  unfold runRoute ExecuteEnv.RouteSettles
  cases env.route with
  | error e => exact iff_of_false h.not_settled id
  | ok route =>
    cases route with
    | noSuitableModel contractUnsatisfied =>
      cases contractUnsatisfied <;> exact failWith_settled h (by decide)
    | selected target => exact runTarget_settled h hlink

theorem runMemory_settled (h : db.Idle) (hlink : db.modelLinked = false) :
    (runMemory env ⟨db, db⟩).2.committed.Settled ↔
      match env.memory with
      | .none | .some .ok => env.RouteSettles
      | .some (.before e) | .some (.after e) => e.cancelled = false ∧ env.Ends := by
  have hhandled : ∀ {x : Prog AgentDb Unit} {e : Exn}, x ⟨db, db⟩ = (.error e, ⟨db, db⟩) →
      ((tryReturn x (memoryHandler env) (fun _ => runRoute env) ⟨db, db⟩).2.committed.Settled ↔
        e.cancelled = false ∧ env.Ends) := by
    intro x e hx
    by_cases hcancel : e.cancelled = true
    · rw [tryReturn_raised hx (if_pos hcancel)]
      exact iff_of_false h.not_settled (by simp [hcancel])
    · rw [tryReturn_caught hx (if_neg hcancel)]
      exact (failWith_settled h (by decide)).trans (by simp [hcancel, ExecuteEnv.Ends])
  unfold runMemory
  cases env.memory with
  | none => exact runRoute_settled h hlink
  | some retrieval =>
    cases retrieval with
    | ok =>
      dsimp only
      rw [tryReturn_ok (await_ok _)]
      exact runRoute_settled h hlink
    | before e | after e => exact hhandled rfl

theorem toolFailure_valid {code : Text} (h : toolFailure env = .ok (.some code)) :
    failureCodeValid code = true := by
  unfold toolFailure at h
  split at h
  · cases h
  split at h
  · cases h; decide
  split at h
  · cases h; decide
  split at h
  · cases h
  · cases h
  · cases h; decide

theorem execute_settled : (execute env ⟨.new, .new⟩).2.committed.Settled ↔ env.Settles := by
  have hnew : AgentDb.new.Settled := ⟨fun _ => rfl, fun _ hstatus => by cases hstatus⟩
  unfold execute ExecuteEnv.Settles
  cases hdefinition : env.definition with
  | error e => exact iff_of_true hnew (.inl (by simp))
  | ok enabled =>
    rw [bind_ok (ofExcept_apply _ _)]
    cases enabled with
    | false => exact iff_of_true hnew (.inl (by simp))
    | true =>
      simp only [ne_eq, not_true_eq_false, false_or, if_true]
      let created : AgentDb := AgentDb.new.moveAgent .created .none
      let running : AgentDb := created.moveAgent .running .none
      have hcreated : ¬ created.Settled := by
        intro hs
        have := hs.agent .created rfl
        simp [AgentRunStatus.terminal] at this
      have hidle : running.Idle := ⟨rfl, fun _ => rfl⟩
      have hcreate : createAgentRun (env.outcome .createRun) ⟨.new, .new⟩ =
          endsIn (env.outcome .createRun) ⟨.new, .new⟩ created := store_endsIn
      have hstart : startAgentRun (env.outcome .startRun) ⟨created, created⟩ =
          endsIn (env.outcome .startRun) ⟨created, created⟩ running := agentTransition_endsIn rfl
      cases hout : env.outcome .createRun with
      | before e =>
        rw [hout] at hcreate
        rw [bind_error hcreate]
        exact iff_of_true hnew (.inl rfl)
      | after e =>
        rw [hout] at hcreate
        rw [bind_error hcreate]
        exact iff_of_false hcreated (by simp)
      | ok =>
        rw [hout] at hcreate
        rw [bind_ok hcreate]
        simp only [Outcome.commits_ok, Bool.true_eq_false, false_or, true_and]
        refine (endsIn_seq_iff (Q := AgentDb.Settled) hstart hcreated hidle.not_settled).trans
          (and_congr_right fun _ => ?_)
        cases htool : toolFailure env with
        | error e => exact iff_of_false hidle.not_settled id
        | ok denied =>
          rw [bind_ok (ofExcept_apply _ _)]
          cases denied with
          | some code => exact failWith_settled hidle (toolFailure_valid htool)
          | none => exact runMemory_settled hidle rfl

/-- **`execute` and `continue_with_tool_evidence` strand a run exactly outside `Settles`.**
Whatever the providers, the router, the memory, the tools and every await do: when
`execute` returns or raises, each model run it started is terminal and the agent run is
terminal or waits for a pending call, if and only if the endings are those of `Settles`;
and so for the continuation of any RUNNING agent run whose earlier calls have ended. -/
theorem execution_settles_iff (env : ExecuteEnv) (continueEnv : ContinueEnv) {resumed : AgentDb}
    (hresumed : resumed.Idle) :
    ((execute env ⟨.new, .new⟩).2.committed.Settled ↔ env.Settles) ∧
      ((continueWithToolEvidence continueEnv ⟨resumed, resumed⟩).2.committed.Settled ↔
        continueEnv.Settles) :=
  ⟨execute_settled, continueWithToolEvidence_settled hresumed⟩

end

/-! ## A recovery whose task is cancelled -/

def exampleTarget : Target := ⟨"openrouter".toList, "vendor/model".toList, .none⟩

/-- A generation of the target, accepted by the contract without tool proposals. -/
def exampleGeneration (finishReason : Text) : Generation :=
  ⟨"openrouter".toList, "vendor/model".toList, .none, .some finishReason,
    .json ⟨false, .some (⟨.completed, .none, .none⟩, 0), false⟩⟩

/-- Every await ends well and the continuation delivers a result. -/
def exampleContinue : ContinueEnv where
  outcome := fun _ => .ok
  methods := ⟨id, id, id⟩
  initial := exampleTarget
  fingerprintMatches := true
  providerRegistered := true
  strategyKnown := true
  budget := .some 1024
  complete := .ok (exampleGeneration "stop".toList)

/-- An execution without tools whose first call stops for `finishReason` and whose
recovery's call ends in `recovery`; every await ends well. -/
def exampleExecute (finishReason : Text) (recovery : Except Exn Generation) : ExecuteEnv where
  outcome := fun _ => .ok
  methods := ⟨id, id, id⟩
  definition := .ok true
  permittedTools := []
  permissions := []
  registered := []
  root := .ok .none
  memory := .none
  route := .ok (.selected exampleTarget)
  provider := .ok "openrouter".toList
  strategy := .ok true
  firstCall := .ok (exampleGeneration finishReason)
  recoveryCall := recovery
  repairCall := .error .other
  gateway := .raised .other .none
  continuation := exampleContinue

/-- The task is cancelled while the recovery of a truncated generation waits for its
provider: the first call would cancel both runs, the recovery leaves both RUNNING. -/
theorem recovery_strands_cancelled_task :
    let after := (execute (exampleExecute "length".toList (.error .taskCancelled)) ⟨.new,
      .new⟩).2.committed
    after.agent = .some .running ∧ after.models .extra = .some .running ∧ ¬ after.Settled := by
  refine ⟨rfl, rfl, AgentDb.not_settled rfl⟩

/-- A resumed agent run whose first model run ended. -/
def exampleResumed : AgentDb := ⟨.some .running, .none, true, fun _ => .none, .some .succeeded⟩

theorem execution_settles_completed :
    (execute (exampleExecute "stop".toList (.error .taskCancelled)) ⟨.new,
      .new⟩).2.committed.Settled ∧
      (continueWithToolEvidence exampleContinue ⟨exampleResumed,
        exampleResumed⟩).2.committed.Settled := by
  have hidle : exampleResumed.Idle := ⟨rfl, fun _ => rfl⟩
  have hsettles := execution_settles_iff (exampleExecute "stop".toList (.error .taskCancelled))
    exampleContinue hidle
  refine ⟨hsettles.1.mpr ?_, hsettles.2.mpr ⟨rfl, rfl, rfl⟩⟩
  exact .inr (.inr ⟨rfl, rfl, rfl, rfl, rfl, rfl, rfl⟩)

end Novalton
