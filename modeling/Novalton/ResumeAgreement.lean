/-
One call of `approve_and_resume` or of `reject_and_terminalize`
(`modules/approvals/mutation_resume.py`) and the three rows it moves: the agent run, its
step and the workflow run. What the approval service, the resumed mutation, the
assignment and the continuation do is the environment's: each returns or raises
anything, and the mutation's call is not among the rows here.

The three rows are moved one after the other, each in a transaction of its own, and no
request moves an agent run that is not WAITING_FOR_APPROVAL any more. So what one call
leaves apart a repeated one leaves apart too.
-/
import Novalton.AgentServices
import Novalton.Advance

namespace Novalton

open Prog

/-- The rows. -/
structure MutationDb where
  agents : AgentDb
  steps : StepDb

/-- A program on the agent's rows, between whose commits the others have nothing to commit. -/
def onAgents {α : Type} (p : Prog AgentDb α) : Prog MutationDb α := fun s =>
  let r := p ⟨s.committed.agents, s.view.agents⟩
  (r.1, ⟨{ s.committed with agents := r.2.committed }, { s.view with agents := r.2.view }⟩)

/-- A program on the rows of the workflow. -/
def onSteps {α : Type} (p : Prog StepDb α) : Prog MutationDb α := fun s =>
  let r := p ⟨s.committed.steps, s.view.steps⟩
  (r.1, ⟨{ s.committed with steps := r.2.committed }, { s.view with steps := r.2.view }⟩)

/-! ## The requests -/

/-- What `continue_assignment` leaves of the agent run and returns or raises. -/
structure Continuation where
  left : AgentRunStatus
  response : Except Exn Executed
  moved : left = .running ∨ left.terminal = true

/-- How the awaits of `_fail_waiting` end. -/
structure WaitingEnv where
  run : Outcome
  step : Outcome
  workflow : Outcome

/-- What one `approve_and_resume` meets. `mutation` is the failure code of the resumed call,
`none` for a call that SUCCEEDED with evidence; `context` says whether the proposal's model
run and definition are there. -/
structure ApproveEnv where
  approve : Outcome
  linked : Outcome
  root : Outcome
  mutation : Except Exn (Option Text)
  assignment : Outcome
  context : Except Exn Bool
  resumeRun : Outcome
  resumeStep : Outcome
  continuation : Continuation
  failStep : Outcome
  failRun : Outcome
  handoff : Outcome
  complete : Outcome
  waiting : WaitingEnv

/-- What one `reject_and_terminalize` meets. -/
structure RejectEnv where
  reject : Outcome
  linked : Outcome
  mutation : Outcome
  waiting : WaitingEnv

/-- `resume_run`. -/
def resumeAgentRun (o : Outcome) : Prog AgentDb Unit :=
  agentTransition o .waitingForApproval .running .none

/-- `fail_waiting_run`. -/
def failWaitingRun (o : Outcome) (code : Text) : Prog AgentDb Unit :=
  if failureCodeValid code then agentTransition o .waitingForApproval .failed (.some code)
    else raise agentInvalidFailure

/-- `_fail_waiting`. -/
def failWaiting (env : WaitingEnv) (code : Text) : Prog MutationDb Unit := do
  onAgents (failWaitingRun env.run code)
  onSteps (transitionStep env.step .waitingForApproval .failed (.some code))
  onSteps (failRun env.workflow code)

/-- `continue_assignment`. -/
def continueAssignment (continuation : Continuation) : Prog AgentDb Executed := do
  store .ok fun db => { db with agent := .some continuation.left }
  ofExcept continuation.response

section
variable (env : ApproveEnv)

/-- What follows the resumed agent run. -/
def resumedRun : Prog MutationDb Unit := do
  onSteps (transitionStep env.resumeStep .waitingForApproval .running .none)
  let response ← onAgents (continueAssignment env.continuation)
  match resumeGate response with
  | .fail code => do
    onSteps (transitionStep env.failStep .running .failed (.some code))
    onSteps (failRun env.failRun code)
  | _ => do
    onSteps (persistNextHandoff env.handoff)
    onSteps (transitionStep env.complete .running .completed .none)

/-- `except ApplicationError` around `resume_run`: another request has claimed the
continuation. -/
def resumeHandler : Exn → Option (Prog MutationDb Unit)
  | .application code => if code = "agent_run_invalid_transition".toList then .some (pure ())
    else .none
  | _ => .none

/-- `approve_and_resume`. -/
def approveAndResume : Prog MutationDb Unit := do
  await env.approve
  await env.linked
  let db ← read
  if db.steps.step = .completed then pure ()
  else do
    await env.root
    let failed ← ofExcept env.mutation
    match failed with
    | .some code =>
      if db.agents.agent = .some .waitingForApproval then failWaiting env.waiting code else pure ()
    | .none => do
      await env.assignment
      let valid ← ofExcept env.context
      if valid then tryReturn (onAgents (resumeAgentRun env.resumeRun)) resumeHandler fun _ => resumedRun env
      else failWaiting env.waiting "approval_resume_context_invalid".toList

end

/-- `reject_and_terminalize`. -/
def rejectAndTerminalize (env : RejectEnv) : Prog MutationDb Unit := do
  await env.reject
  await env.linked
  let db ← read
  if db.steps.step = .failed then pure ()
  else do
    await env.mutation
    if db.agents.agent = .some .waitingForApproval then
      failWaiting env.waiting "approval_rejected".toList else pure ()

/-! ## Agreement -/

/-- There is a challenge to decide. -/
def StepDb.challenged (db : StepDb) : Bool := db.challenge.any fun challenge => !challenge.decided

/-- The agent run, its step and the workflow run agree. -/
structure MutationDb.Agreed (db : MutationDb) : Prop where
  ended : db.agents.agent.any AgentRunStatus.terminal = true →
    (db.steps.step = .running → db.steps.challenged = true) ∧ db.steps.step ≠ .waitingForApproval
  resumed : db.agents.agent = .some .running → db.steps.step ≠ .waitingForApproval
  failed : db.steps.step = .failed → db.steps.run ≠ .running

/-- The rows of a suspended mutation. -/
structure MutationDb.Suspended (db : MutationDb) : Prop where
  agent : db.agents.agent = .some .waitingForApproval
  step : db.steps.step = .waitingForApproval
  run : db.steps.run = .running
  challenge : db.steps.challenge = .none

/-- What a request leaves committed. -/
def leaves {ε : Type} (request : ε → Prog MutationDb Unit) (env : ε) (db : MutationDb) :
    MutationDb :=
  (request env ⟨db, db⟩).2.committed

/-- A request leaves rows that agree, or that a repeated request makes agree. -/
def Repairable {ε : Type} (request : ε → Prog MutationDb Unit) (env : ε) (db : MutationDb) : Prop :=
  (leaves request env db).Agreed ∨ ∃ again, (leaves request again (leaves request env db)).Agreed

/-! ## When they agree -/

/-- `_fail_waiting` fails all three rows, or none. -/
def FailsTogether (env : WaitingEnv) (code : Text) : Prop :=
  failureCodeValid code = true → env.run.commits = true → env.run = .ok ∧ env.step = .ok ∧
    env.workflow.commits = true

/-- The step ends with the agent run. -/
def EndsTogether (env : ApproveEnv) : Prop :=
  match env.continuation.response with
  | .error _ => env.continuation.left = .running
  | .ok response =>
    match resumeGate response with
    | .fail code =>
      if failureCodeValid code = true ∧ env.failStep.commits = true then env.failStep = .ok ∧
        env.failRun.commits = true
      else env.continuation.left = .running
    | _ => (env.handoff = .ok ∧ env.complete.commits = true) ∨ env.continuation.left = .running

/-- The step is resumed with the agent run, and ends with it. -/
def ResumesTogether (env : ApproveEnv) : Prop :=
  env.resumeRun.commits = true → env.resumeRun = .ok ∧ env.resumeStep.commits = true ∧
    (env.resumeStep = .ok → EndsTogether env)

/-- The condition of `approve_and_resume`. -/
def ApprovesTogether (env : ApproveEnv) : Prop :=
  env.approve = .ok → env.linked = .ok → env.root = .ok → ∀ failed, env.mutation = .ok failed →
    match failed with
    | .some code => FailsTogether env.waiting code
    | .none => env.assignment = .ok → ∀ valid, env.context = .ok valid →
        if valid = true then ResumesTogether env
          else FailsTogether env.waiting "approval_resume_context_invalid".toList

/-- The condition of `reject_and_terminalize`. -/
def RejectsTogether (env : RejectEnv) : Prop :=
  env.reject = .ok → env.linked = .ok → env.mutation = .ok →
    FailsTogether env.waiting "approval_rejected".toList

/-! ## A repeated request -/

section
variable {db : MutationDb} {o : Outcome}

theorem onAgents_endsIn {p : Prog AgentDb Unit} {moved : AgentDb}
    (h : p ⟨db.agents, db.agents⟩ = endsIn o ⟨db.agents, db.agents⟩ moved) :
    onAgents p ⟨db, db⟩ = endsIn o ⟨db, db⟩ { db with agents := moved } := by
  simp only [onAgents, h]
  cases o <;> rfl

theorem onSteps_endsIn {p : Prog StepDb Unit} {moved : StepDb}
    (h : p ⟨db.steps, db.steps⟩ = endsIn o ⟨db.steps, db.steps⟩ moved) :
    onSteps p ⟨db, db⟩ = endsIn o ⟨db, db⟩ { db with steps := moved } := by
  simp only [onSteps, h]
  cases o <;> rfl

/-- The three rows. -/
def Same (db d : MutationDb) : Prop :=
  d.agents.agent = db.agents.agent ∧ d.steps.step = db.steps.step ∧ d.steps.run = db.steps.run ∧
    d.steps.challenge = db.steps.challenge

theorem Same.agreed {d : MutationDb} (h : Same db d) : d.Agreed ↔ db.Agreed := by
  obtain ⟨hagent, hstep, hrun, hchallenge⟩ := h
  have hchallenged : d.steps.challenged = db.steps.challenged := by
    rw [StepDb.challenged, StepDb.challenged, hchallenge]
  constructor
  · intro hd
    refine ⟨?_, ?_, ?_⟩
    · rw [← hagent, ← hstep, ← hchallenged]
      exact hd.ended
    · rw [← hagent, ← hstep]
      exact hd.resumed
    · rw [← hstep, ← hrun]
      exact hd.failed
  · intro hd
    refine ⟨?_, ?_, ?_⟩
    · rw [hagent, hstep, hchallenged]
      exact hd.ended
    · rw [hagent, hstep]
      exact hd.resumed
    · rw [hstep, hrun]
      exact hd.failed

variable (hdb : db.agents.agent ≠ .some .waitingForApproval)
include hdb

/-- No transition from WAITING_FOR_APPROVAL is made of another status. -/
theorem agentTransition_refused {target : AgentRunStatus} {code : Option Text}
    {s : Session MutationDb} (hs : Both (Same db) s) :
    ∃ e, onAgents (agentTransition o .waitingForApproval target code) s = (.error e, s) ∧
      (e = agentInvalidTransition ∨ o = .before e) := by
  have hne : s.view.agents.agent ≠ .some AgentRunStatus.waitingForApproval := by
    rw [hs.2.1]
    exact hdb
  cases o with
  | before e => exact ⟨e, rfl, .inr rfl⟩
  | ok => exact ⟨agentInvalidTransition,
      by simp [onAgents, agentTransition, bind_apply, hne], .inl rfl⟩
  | after e => exact ⟨agentInvalidTransition,
      by simp [onAgents, agentTransition, bind_apply, hne], .inl rfl⟩

theorem failWaiting_same (env : WaitingEnv) (code : Text) : Leaves (Same db)
    (failWaiting env code) := by
  intro s hs
  have hraised : ∃ e, onAgents (failWaitingRun env.run code) s = (.error e, s) := by
    rw [failWaitingRun]
    split
    · obtain ⟨e, he, -⟩ := agentTransition_refused hdb hs
      exact ⟨e, he⟩
    · exact ⟨agentInvalidFailure, rfl⟩
  obtain ⟨e, he⟩ := hraised
  rw [failWaiting, bind_error he]
  exact hs

/-- A repeated approval leaves the rows as they are. -/
theorem approveAndResume_same (env : ApproveEnv) : Leaves (Same db) (approveAndResume env) := by
  refine (Leaves.await _).bind fun _ => (Leaves.await _).bind fun _ => Leaves.read.bind fun d => ?_
  split
  · exact Leaves.pure _
  · refine (Leaves.await _).bind fun _ => Leaves.bind (fun _ h => h) fun failed => ?_
    cases failed with
    | some code =>
      dsimp only
      split
      · exact failWaiting_same hdb _ _
      · exact Leaves.pure _
    | none =>
      refine (Leaves.await _).bind fun _ => Leaves.bind (fun _ h => h) fun valid => ?_
      split
      · intro s hs
        have hrefused : ∃ e,
          onAgents (agentTransition env.resumeRun .waitingForApproval .running .none) s =
          (.error e, s) ∧
            (e = agentInvalidTransition ∨ env.resumeRun = .before e) :=
              agentTransition_refused hdb hs
        obtain ⟨e, he, -⟩ := hrefused
        cases hhandler : resumeHandler e with
        | none =>
          rw [resumeAgentRun, tryReturn_raised he hhandler]
          exact hs
        | some p =>
          rw [resumeAgentRun, tryReturn_caught he hhandler]
          cases e with
          | application code =>
            rw [resumeHandler] at hhandler
            split at hhandler <;> cases hhandler
            exact hs
          | taskCancelled | providerCancelled | provider failure | other => cases hhandler
      · exact failWaiting_same hdb _ _

/-- And so does a repeated rejection. -/
theorem rejectAndTerminalize_same (env : RejectEnv) : Leaves (Same db)
    (rejectAndTerminalize env) := by
  refine (Leaves.await _).bind fun _ => (Leaves.await _).bind fun _ => Leaves.read.bind fun d => ?_
  split
  · exact Leaves.pure _
  · refine (Leaves.await _).bind fun _ => ?_
    split
    · exact failWaiting_same hdb _ _
    · exact Leaves.pure _

end

/-- What a request leaves apart, a repeated one does not repair. -/
theorem repairable_iff {ε : Type} {request : ε → Prog MutationDb Unit} {env : ε} {db : MutationDb}
    (hsame : ∀ d : MutationDb, d.agents.agent ≠ .some .waitingForApproval → ∀ again,
      Leaves (Same d) (request again))
    (hmoved : (leaves request env db).Agreed ∨
      (leaves request env db).agents.agent ≠ .some .waitingForApproval) :
    Repairable request env db ↔ (leaves request env db).Agreed := by
  constructor
  · intro h
    rcases h with h | ⟨again, hagain⟩
    · exact h
    · rcases hmoved with h | hne
      · exact h
      · have hkept := hsame _ hne again ⟨leaves request env db, leaves request env db⟩
          ⟨⟨rfl, rfl, rfl, rfl⟩, ⟨rfl, rfl, rfl, rfl⟩⟩
        exact (Same.agreed hkept.1).mp hagain
  · exact .inl

/-! ## What a request leaves -/

/-- The rows do not agree, and the agent run waits no more. -/
structure MutationDb.Apart (db : MutationDb) : Prop where
  agreed : ¬ db.Agreed
  agent : db.agents.agent ≠ .some .waitingForApproval

/-- The rows agree under `cond`; else they are apart. -/
def Decided (cond : Prop) (db : MutationDb) : Prop := (cond → db.Agreed) ∧ (¬ cond → db.Apart)

theorem Decided.repairable_iff {ε : Type} {request : ε → Prog MutationDb Unit} {env : ε}
    {db : MutationDb} {cond : Prop} (h : Decided cond (leaves request env db))
    (hsame : ∀ d : MutationDb, d.agents.agent ≠ .some .waitingForApproval → ∀ again,
      Leaves (Same d) (request again)) :
    Repairable request env db ↔ cond := by
  by_cases hcond : cond
  · exact ⟨fun _ => hcond, fun _ => .inl (h.1 hcond)⟩
  · have hapart := h.2 hcond
    rw [Novalton.repairable_iff hsame (.inr hapart.agent)]
    exact ⟨fun hagreed => absurd hagreed hapart.agreed, fun h => absurd h hcond⟩

section
variable {cond cond' : Prop} {db moved : MutationDb} {o : Outcome} {x : Prog MutationDb Unit}
  {f : Unit → Prog MutationDb Unit}

theorem Decided.congr (h : Decided cond db) (hiff : cond ↔ cond') : Decided cond' db := by
  rw [← hiff]
  exact h

theorem Decided.agreed (hcond : cond) (h : db.Agreed) : Decided cond db :=
  ⟨fun _ => h, fun hnot => absurd hcond hnot⟩

theorem Decided.apart (hcond : ¬ cond) (h : db.Apart) : Decided cond db :=
  ⟨fun hyes => absurd hyes hcond, fun _ => h⟩

/-- The first of the moves takes the rows apart: it is not made, or the others have to follow. -/
theorem Decided.first (hx : x ⟨db, db⟩ = endsIn o ⟨db, db⟩ moved) (hdb : db.Agreed)
    (hmoved : moved.Apart) (hrest : Decided cond (f () ⟨moved, moved⟩).2.committed) :
    Decided (o.commits = true → o = .ok ∧ cond) ((x >>= f) ⟨db, db⟩).2.committed := by
  cases o with
  | ok =>
    rw [bind_ok hx]
    exact hrest.congr ⟨fun h _ => ⟨rfl, h⟩, fun h => (h rfl).2⟩
  | before e =>
    rw [bind_error hx]
    exact .agreed (fun h => by cases h) hdb
  | after e =>
    rw [bind_error hx]
    refine .apart (fun h => ?_) hmoved
    obtain ⟨hok, -⟩ := h rfl
    cases hok

/-- A move between rows that are apart has to return. -/
theorem Decided.between (hx : x ⟨db, db⟩ = endsIn o ⟨db, db⟩ moved) (hdb : db.Apart)
    (hmoved : moved.Apart) (hrest : Decided cond (f () ⟨moved, moved⟩).2.committed) : Decided
    (o = .ok ∧ cond) ((x >>= f) ⟨db, db⟩).2.committed := by
  cases o with
  | ok =>
    rw [bind_ok hx]
    exact hrest.congr ⟨fun h => ⟨rfl, h⟩, fun h => h.2⟩
  | before e =>
    rw [bind_error hx]
    refine .apart (fun h => ?_) hdb
    cases h.1
  | after e =>
    rw [bind_error hx]
    refine .apart (fun h => ?_) hmoved
    cases h.1

/-- A move that brings the rows together has to be committed. -/
theorem Decided.together (hx : x ⟨db, db⟩ = endsIn o ⟨db, db⟩ moved) (hdb : db.Apart)
    (hmoved : moved.Agreed) (hrest : Decided cond (f () ⟨moved, moved⟩).2.committed) :
    Decided (o.commits = true ∧ (o = .ok → cond)) ((x >>= f) ⟨db, db⟩).2.committed := by
  cases o with
  | ok =>
    rw [bind_ok hx]
    exact hrest.congr ⟨fun h => ⟨rfl, fun _ => h⟩, fun h => h.2 rfl⟩
  | before e =>
    rw [bind_error hx]
    refine .apart (fun h => ?_) hdb
    cases h.1
  | after e =>
    rw [bind_error hx]
    exact .agreed ⟨rfl, fun h => by cases h⟩ hmoved

/-- The last move. -/
theorem Decided.last (hx : x ⟨db, db⟩ = endsIn o ⟨db, db⟩ moved) (hdb : db.Apart)
    (hmoved : moved.Agreed) :
    Decided (o.commits = true) (x ⟨db, db⟩).2.committed := by
  rw [hx]
  cases o with
  | ok | after => exact .agreed rfl hmoved
  | before e => exact .apart (fun h => by cases h) hdb

end

section
variable {db : MutationDb}

theorem MutationDb.Suspended.agreed (h : db.Suspended) : db.Agreed := by
  refine ⟨?_, ?_, ?_⟩
  · rw [h.agent]
    exact fun hterminal => by cases hterminal
  · rw [h.agent]
    exact fun hrunning => by cases hrunning
  · rw [h.step]
    exact fun hfailed => by cases hfailed

/-- A terminal agent run and a step that runs or waits. -/
theorem apart_of_ended {status : AgentRunStatus} (hagent : db.agents.agent = .some status)
    (hterminal : status.terminal = true) (hchallenge : db.steps.challenge = .none)
    (hstep : db.steps.step = .running ∨ db.steps.step = .waitingForApproval) : db.Apart := by
  refine ⟨fun h => ?_, fun hwaiting => ?_⟩
  · obtain ⟨hchallenged, hnotWaiting⟩ := h.ended (by rw [hagent]; exact hterminal)
    rcases hstep with hstep | hstep
    · have := hchallenged hstep
      rw [StepDb.challenged, hchallenge] at this
      cases this
    · exact hnotWaiting hstep
  · rw [hagent] at hwaiting
    cases hwaiting
    cases hterminal

/-- A FAILED step in a RUNNING run. -/
theorem apart_of_failed (hstep : db.steps.step = .failed) (hrun : db.steps.run = .running)
    (hagent : db.agents.agent ≠ .some .waitingForApproval) : db.Apart :=
      ⟨fun h => h.failed hstep hrun, hagent⟩

/-- A RUNNING agent run and a step that waits. -/
theorem apart_of_resumed (hagent : db.agents.agent = .some .running)
    (hstep : db.steps.step = .waitingForApproval) : db.Apart := by
  refine ⟨fun h => h.resumed hagent hstep, ?_⟩
  rw [hagent]
  decide

/-- A step that has ended, in a run that is not RUNNING if it has failed. -/
theorem agreed_of_step (hrunning : db.steps.step ≠ .running)
    (hwaiting : db.steps.step ≠ .waitingForApproval)
    (hfailed : db.steps.step = .failed → db.steps.run ≠ .running) : db.Agreed :=
  ⟨fun _ => ⟨fun h => absurd h hrunning, hwaiting⟩, fun _ => hwaiting, hfailed⟩

/-- Both run. -/
theorem agreed_of_running (hagent : db.agents.agent = .some .running)
    (hstep : db.steps.step = .running) : db.Agreed := by
  refine ⟨?_, ?_, ?_⟩
  · rw [hagent]
    exact fun hterminal => by cases hterminal
  · rw [hstep]
    exact fun _ hwaiting => by cases hwaiting
  · rw [hstep]
    exact fun hfailed => by cases hfailed

/-! ### `_fail_waiting` -/

theorem failWaiting_decided (hdb : db.Suspended) (env : WaitingEnv) (code : Text) :
    Decided (FailsTogether env code) (failWaiting env code ⟨db, db⟩).2.committed := by
  by_cases hcode : failureCodeValid code = true
  · -- the agent run, the step and the workflow run as they fail in turn
    have hrun : onAgents (failWaitingRun env.run code) ⟨db, db⟩ =
        endsIn env.run ⟨db, db⟩ ⟨db.agents.moveAgent .failed (.some code), db.steps⟩ := by
      refine onAgents_endsIn ?_
      rw [failWaitingRun, if_pos hcode]
      exact agentTransition_endsIn hdb.agent
    have hagent : (db.agents.moveAgent .failed (.some code)).agent = .some .failed :=
      AgentDb.moveAgent_agent _ _
    generalize db.agents.moveAgent .failed (.some code) = agents at hrun hagent
    have hstep : onSteps (transitionStep env.step .waitingForApproval .failed (.some code))
      ⟨⟨agents, db.steps⟩, ⟨agents, db.steps⟩⟩ =
        endsIn env.step ⟨⟨agents, db.steps⟩, ⟨agents, db.steps⟩⟩ ⟨agents,
            db.steps.moveStep .failed (.some code)⟩ :=
      onSteps_endsIn (transitionStep_endsIn rfl (fun _ => hcode) hdb.step)
    have hworkflow :
      onSteps (failRun env.workflow code) ⟨⟨agents, db.steps.moveStep .failed (.some code)⟩,
        ⟨agents, db.steps.moveStep .failed (.some code)⟩⟩ =
          endsIn env.workflow ⟨⟨agents, db.steps.moveStep .failed (.some code)⟩,
            ⟨agents, db.steps.moveStep .failed (.some code)⟩⟩
            ⟨agents, (db.steps.moveStep .failed (.some code)).moveRun .failed (.some code)⟩ := by
      refine onSteps_endsIn ?_
      rw [failRun, if_pos hcode]
      exact transitionRun_endsIn hdb.run
    have hne : agents.agent ≠ .some .waitingForApproval := by
      rw [hagent]
      decide
    have hwaits : (⟨agents, db.steps⟩ : MutationDb).Apart :=
      apart_of_ended hagent rfl hdb.challenge (.inr hdb.step)
    have hfailed : (⟨agents, db.steps.moveStep .failed (.some code)⟩ : MutationDb).Apart :=
      apart_of_failed rfl hdb.run hne
    have hended : (⟨agents, (db.steps.moveStep .failed (.some code)).moveRun .failed (.some code)⟩ :
        MutationDb).Agreed :=
      agreed_of_step (fun h => by cases h) (fun h => by cases h) (fun _ h => by cases h)
    have hmoves : Decided (env.run.commits = true → env.run = .ok ∧ env.step = .ok ∧
      env.workflow.commits = true)
        (failWaiting env code ⟨db, db⟩).2.committed := by
      rw [failWaiting]
      exact Decided.first hrun hdb.agreed hwaits
        (Decided.between hstep hwaits hfailed (Decided.last hworkflow hfailed hended))
    exact hmoves.congr ⟨fun h _ => h, fun h => h hcode⟩
  · have hraised : onAgents (failWaitingRun env.run code) ⟨db, db⟩ =
        (.error agentInvalidFailure, ⟨db, db⟩) := by
      rw [failWaitingRun, if_neg hcode]
      rfl
    rw [failWaiting, bind_error hraised]
    exact .agreed (fun h => absurd h hcode) hdb.agreed

/-! ### The resumed step -/

variable {agents : AgentDb} {steps : StepDb}

/-- While the step runs, the rows agree as long as the agent run does. -/
theorem left_decided {continuation : Continuation} (hchallenge : steps.challenge = .none)
    (hstep : steps.step = .running) :
    Decided (continuation.left = .running)
      ⟨{ agents with agent := .some continuation.left }, steps⟩ := by
  refine ⟨fun hrunning => agreed_of_running (congrArg some hrunning) hstep, fun hnot => ?_⟩
  exact apart_of_ended rfl (continuation.moved.resolve_left hnot) hchallenge (.inl hstep)

/-- The failure of the step and of the run. -/
theorem failStep_decided (env : ApproveEnv) (code : Text) (hchallenge : steps.challenge = .none)
    (hstep : steps.step = .running) (hrun : steps.run = .running) :
    Decided (if failureCodeValid code = true ∧ env.failStep.commits = true then env.failStep = .ok ∧
      env.failRun.commits = true
        else env.continuation.left = .running)
      ((do
          onSteps (transitionStep env.failStep .running .failed (.some code))
          onSteps (failRun env.failRun code) : Prog MutationDb Unit)
        ⟨⟨{ agents with agent := .some env.continuation.left }, steps⟩,
          ⟨{ agents with agent := .some env.continuation.left }, steps⟩⟩).2.committed := by
  generalize hagents : ({ agents with agent := .some env.continuation.left } : AgentDb) = left
  have hleft : Decided (env.continuation.left = .running) ⟨left, steps⟩ := by
    rw [← hagents]
    exact left_decided hchallenge hstep
  have hne : left.agent ≠ .some .waitingForApproval := by
    rw [← hagents]
    intro hwaiting
    rcases env.continuation.moved with hmoved | hmoved
    · rw [hmoved] at hwaiting
      cases hwaiting
    · rw [Option.some.inj hwaiting] at hmoved
      cases hmoved
  by_cases hcode : failureCodeValid code = true
  · have hmove : onSteps (transitionStep env.failStep .running .failed (.some code)) ⟨⟨left, steps⟩,
      ⟨left, steps⟩⟩ =
        endsIn env.failStep ⟨⟨left, steps⟩, ⟨left, steps⟩⟩ ⟨left,
            steps.moveStep .failed (.some code)⟩ :=
      onSteps_endsIn (transitionStep_endsIn rfl (fun _ => hcode) hstep)
    have hfail : onSteps (failRun env.failRun code) ⟨⟨left, steps.moveStep .failed (.some code)⟩,
      ⟨left, steps.moveStep .failed (.some code)⟩⟩ =
        endsIn env.failRun ⟨⟨left, steps.moveStep .failed (.some code)⟩,
          ⟨left, steps.moveStep .failed (.some code)⟩⟩
          ⟨left, (steps.moveStep .failed (.some code)).moveRun .failed (.some code)⟩ := by
      refine onSteps_endsIn ?_
      rw [failRun, if_pos hcode]
      exact transitionRun_endsIn hrun
    have hfailed : (⟨left, steps.moveStep .failed (.some code)⟩ : MutationDb).Apart :=
      apart_of_failed rfl hrun hne
    have hended : (⟨left, (steps.moveStep .failed (.some code)).moveRun .failed (.some code)⟩ :
        MutationDb).Agreed :=
      agreed_of_step (fun h => by cases h) (fun h => by cases h) (fun _ h => by cases h)
    cases ho : env.failStep with
    | before e =>
      rw [ho] at hmove
      rw [bind_error hmove]
      simpa [hcode] using hleft
    | after e =>
      rw [ho] at hmove
      rw [bind_error hmove]
      refine .apart (fun h => ?_) hfailed
      rw [if_pos ⟨hcode, rfl⟩] at h
      cases h.1
    | ok =>
      rw [ho] at hmove
      rw [bind_ok hmove]
      refine (Decided.last hfail hfailed hended).congr ?_
      rw [if_pos ⟨hcode, rfl⟩]
      exact ⟨fun h => ⟨rfl, h⟩, fun h => h.2⟩
  · have hraised : ∃ e, onSteps (transitionStep env.failStep .running .failed (.some code))
      ⟨⟨left, steps⟩, ⟨left, steps⟩⟩ =
        (.error e, ⟨⟨left, steps⟩, ⟨left, steps⟩⟩) := by
      cases env.failStep with
      | before e => exact ⟨e, rfl⟩
      | ok => exact ⟨invalidStepFailure,
          by simp [onSteps, transitionStep, bind_apply, hcode, stepTransitionAllowed]⟩
      | after e => exact ⟨invalidStepFailure,
          by simp [onSteps, transitionStep, bind_apply, hcode, stepTransitionAllowed]⟩
    obtain ⟨e, he⟩ := hraised
    rw [bind_error he]
    refine hleft.congr ?_
    rw [if_neg fun h => hcode h.1]

/-- The hand-off and the end of the step. -/
theorem complete_decided (env : ApproveEnv) (hchallenge : steps.challenge = .none)
    (hstep : steps.step = .running) :
    Decided ((env.handoff = .ok ∧ env.complete.commits = true) ∨ env.continuation.left = .running)
      ((do
          onSteps (persistNextHandoff env.handoff)
          onSteps (transitionStep env.complete .running .completed .none) : Prog MutationDb Unit)
        ⟨⟨{ agents with agent := .some env.continuation.left }, steps⟩,
          ⟨{ agents with agent := .some env.continuation.left }, steps⟩⟩).2.committed := by
  generalize hagents : ({ agents with agent := .some env.continuation.left } : AgentDb) = left
  have hleft : Decided (env.continuation.left = .running) ⟨left, steps⟩ := by
    rw [← hagents]
    exact left_decided hchallenge hstep
  cases ho : env.handoff with
  | before e | after e => exact hleft.congr ⟨.inr, fun h => h.resolve_left fun h => by cases h.1⟩
  | ok =>
    have hhandoff : onSteps (persistNextHandoff .ok) ⟨⟨left, steps⟩, ⟨left, steps⟩⟩ =
        (.ok (), ⟨⟨left, steps⟩, ⟨left, { steps with handoff := true }⟩⟩) := rfl
    rw [bind_ok hhandoff]
    have hmove : transitionStep env.complete .running .completed .none ⟨steps,
      { steps with handoff := true }⟩ =
        endsIn env.complete ⟨steps, { steps with handoff := true }⟩
            (({ steps with handoff := true } : StepDb).moveStep .completed .none) :=
      transitionStep_endsIn rfl (fun h => by cases h) hstep
    have hended : (⟨left, ({ steps with handoff := true } : StepDb).moveStep .completed .none⟩ :
        MutationDb).Agreed :=
      agreed_of_step (fun h => by cases h) (fun h => by cases h) (fun h => by cases h)
    simp only [onSteps, hmove]
    cases env.complete with
    | before e => exact hleft.congr ⟨.inr, fun h => h.resolve_left fun h => by cases h.2⟩
    | ok | after => exact .agreed (.inl ⟨trivial, rfl⟩) hended

theorem resumedRun_decided (env : ApproveEnv) (hagent : agents.agent = .some .running)
    (hchallenge : steps.challenge = .none) (hstep : steps.step = .waitingForApproval)
    (hrun : steps.run = .running) :
    Decided (env.resumeStep.commits = true ∧ (env.resumeStep = .ok → EndsTogether env))
      (resumedRun env ⟨⟨agents, steps⟩, ⟨agents, steps⟩⟩).2.committed := by
  have hresume : onSteps (transitionStep env.resumeStep .waitingForApproval .running .none)
    ⟨⟨agents, steps⟩, ⟨agents, steps⟩⟩ =
      endsIn env.resumeStep ⟨⟨agents, steps⟩, ⟨agents, steps⟩⟩ ⟨agents,
          steps.moveStep .running .none⟩ :=
    onSteps_endsIn (transitionStep_endsIn rfl (fun h => by cases h) hstep)
  have hrunning : (⟨agents, steps.moveStep .running .none⟩ : MutationDb).Agreed :=
    agreed_of_running hagent rfl
  refine Decided.together hresume (apart_of_resumed hagent hstep) hrunning ?_
  generalize hsteps : steps.moveStep .running .none = resumed
  have hresumed : resumed.step = .running := by
    rw [← hsteps]
    rfl
  have hresumedRun : resumed.run = .running := by
    rw [← hsteps]
    exact hrun
  have hunchallenged : resumed.challenge = .none := by
    rw [← hsteps]
    exact hchallenge
  have hcontinue : onAgents (continueAssignment env.continuation) ⟨⟨agents, resumed⟩,
    ⟨agents, resumed⟩⟩ =
      (env.continuation.response, ⟨⟨{ agents with agent := .some env.continuation.left }, resumed⟩,
        ⟨{ agents with agent := .some env.continuation.left }, resumed⟩⟩) := rfl
  rw [EndsTogether]
  cases hresponse : env.continuation.response with
  | error e =>
    rw [hresponse] at hcontinue
    rw [bind_error hcontinue]
    exact left_decided hunchallenged hresumed
  | ok response =>
    rw [hresponse] at hcontinue
    rw [bind_ok hcontinue]
    dsimp only
    cases resumeGate response with
    | fail code => exact failStep_decided env code hunchallenged hresumed hresumedRun
    | waitForApproval => exact complete_decided env hunchallenged hresumed
    | challenge result handoff => exact complete_decided env hunchallenged hresumed
    | complete handoff => exact complete_decided env hunchallenged hresumed

theorem resume_decided (hdb : db.Suspended) (env : ApproveEnv) :
    Decided (ResumesTogether env)
      (tryReturn (onAgents (resumeAgentRun env.resumeRun)) resumeHandler (fun _ => resumedRun env)
        ⟨db, db⟩).2.committed := by
  have hresume : onAgents (resumeAgentRun env.resumeRun) ⟨db, db⟩ =
      endsIn env.resumeRun ⟨db, db⟩ ⟨db.agents.moveAgent .running .none, db.steps⟩ :=
    onAgents_endsIn (agentTransition_endsIn hdb.agent)
  have hagent : (db.agents.moveAgent .running .none).agent = .some .running :=
    AgentDb.moveAgent_agent _ _
  generalize db.agents.moveAgent .running .none = agents at hresume hagent
  -- a handler returns or goes on raising: the rows are those of the raise
  have hcaught : ∀ (e : Exn) (s : Session MutationDb),
    onAgents (resumeAgentRun env.resumeRun) ⟨db, db⟩ = (.error e, s) →
      (tryReturn (onAgents (resumeAgentRun env.resumeRun)) resumeHandler (fun _ => resumedRun env)
          ⟨db, db⟩).2.committed = s.committed := by
    intro e s he
    cases hhandler : resumeHandler e with
    | none => rw [tryReturn_raised he hhandler]
    | some p =>
      rw [tryReturn_caught he hhandler]
      cases e with
      | application code =>
        rw [resumeHandler] at hhandler
        split at hhandler <;> cases hhandler
        rfl
      | taskCancelled | providerCancelled | provider failure | other => cases hhandler
  rw [ResumesTogether]
  cases ho : env.resumeRun with
  | before e =>
    rw [ho] at hresume hcaught
    rw [hcaught e _ hresume]
    exact .agreed (fun h => by cases h) hdb.agreed
  | after e =>
    rw [ho] at hresume hcaught
    rw [hcaught e _ hresume]
    refine .apart (fun h => ?_) (apart_of_resumed hagent hdb.step)
    cases (h rfl).1
  | ok =>
    rw [ho] at hresume
    rw [tryReturn_ok hresume]
    exact (resumedRun_decided env hagent hdb.challenge hdb.step hdb.run).congr ⟨fun h _ => ⟨rfl, h⟩,
      fun h => (h rfl).2⟩

/-! ### The requests -/

/-- An await in front of the moves: raised, it leaves the rows as they are. -/
theorem await_decided {o : Outcome} {cond : Prop} {f : Unit → Prog MutationDb Unit}
    (hdb : db.Suspended) (hrest : Decided cond (f () ⟨db, db⟩).2.committed) : Decided
    (o = .ok → cond) ((await o >>= f) ⟨db, db⟩).2.committed := by
  cases o with
  | ok => exact hrest.congr ⟨fun h _ => h, fun h => h rfl⟩
  | before e | after e => exact .agreed (fun h => by cases h) hdb.agreed

theorem ofExcept_decided {α : Type} {r : Except Exn α} {cond : α → Prop}
    {f : α → Prog MutationDb Unit} (hdb : db.Suspended)
    (hrest : ∀ a, Decided (cond a) (f a ⟨db, db⟩).2.committed) :
    Decided (∀ a, r = .ok a → cond a) ((ofExcept r >>= f) ⟨db, db⟩).2.committed := by
  cases r with
  | error e => exact .agreed (fun a h => by cases h) hdb.agreed
  | ok a => exact (hrest a).congr ⟨fun h b hb => by cases hb; exact h, fun h => h a rfl⟩

theorem approveAndResume_decided (hdb : db.Suspended) (env : ApproveEnv) :
    Decided (ApprovesTogether env) (leaves approveAndResume env db) := by
  refine await_decided hdb (await_decided hdb ?_)
  rw [read_bind]
  dsimp only
  rw [if_neg (by rw [hdb.step]; decide)]
  refine await_decided hdb (ofExcept_decided hdb fun failed => ?_)
  cases failed with
  | some code =>
    dsimp only
    rw [if_pos hdb.agent]
    exact failWaiting_decided hdb _ _
  | none =>
    refine await_decided hdb (ofExcept_decided hdb fun valid => ?_)
    cases valid with
    | true => exact resume_decided hdb env
    | false => exact failWaiting_decided hdb _ _

theorem rejectAndTerminalize_decided (hdb : db.Suspended) (env : RejectEnv) :
    Decided (RejectsTogether env) (leaves rejectAndTerminalize env db) := by
  refine await_decided hdb (await_decided hdb ?_)
  rw [read_bind]
  dsimp only
  rw [if_neg (by rw [hdb.step]; decide)]
  refine await_decided hdb ?_
  rw [if_pos hdb.agent]
  exact failWaiting_decided hdb _ _

end

/-- **A decided mutation leaves agent, step and run in agreement, or rows a repeated request
brings together, exactly under these conditions.** `_fail_waiting` has to make its three
moves or none, and a resumed agent run has to take its step along, to its end. -/
theorem agreement_iff (db : MutationDb) (hdb : db.Suspended) :
    (∀ env : ApproveEnv, Repairable approveAndResume env db ↔ ApprovesTogether env) ∧
      ∀ env : RejectEnv, Repairable rejectAndTerminalize env db ↔ RejectsTogether env := by
  constructor
  · intro env
    exact (approveAndResume_decided hdb env).repairable_iff fun d hd again =>
      approveAndResume_same hd again
  · intro env
    exact (rejectAndTerminalize_decided hdb env).repairable_iff fun d hd again =>
      rejectAndTerminalize_same hd again

/-! ## The developer's step -/

/-- The suspended step of the fixed workflow. -/
def suspendedMutation : MutationDb :=
  ⟨⟨.some .waitingForApproval, .none, true, fun _ => .none, .some .pendingApproval⟩,
    ⟨.waitingForApproval, .none, .running, .none, true, .none, false,
      [⟨.completed, false, 0⟩, ⟨.pending, true, 0⟩]⟩⟩

theorem suspendedMutation_suspended : suspendedMutation.Suspended := ⟨rfl, rfl, rfl, rfl⟩

/-- A continuation that succeeds, with a hand-off that ends so. -/
def succeedingApproval (handoff : Outcome) : ApproveEnv where
  approve := .ok
  linked := .ok
  root := .ok
  mutation := .ok .none
  assignment := .ok
  context := .ok true
  resumeRun := .ok
  resumeStep := .ok
  continuation := ⟨.succeeded, .ok (.ofResult ⟨.completed, .none, .none⟩), .inr rfl⟩
  failStep := .ok
  failRun := .ok
  handoff := handoff
  complete := .ok
  waiting := ⟨.ok, .ok, .ok⟩

theorem succeedingApproval_together : ApprovesTogether (succeedingApproval .ok) := by
  intro _ _ _ failed hfailed
  cases hfailed
  intro _ valid hvalid
  cases hvalid
  exact fun _ => ⟨rfl, rfl, fun _ => .inl ⟨rfl, rfl⟩⟩

/-- The resumed step that ends COMPLETED. -/
theorem agreement_iff_completed : Repairable approveAndResume
    (succeedingApproval .ok) suspendedMutation :=
  ((agreement_iff suspendedMutation suspendedMutation_suspended).1 _).mpr
    succeedingApproval_together

/-- **It is not so for every hand-off**: one that is refused (an ill-formed objective, say)
raises out of the request, with the agent run SUCCEEDED and its step RUNNING for good. -/
theorem refused_handoff_strands_step :
    (leaves approveAndResume (succeedingApproval (.before (.application "handoff_invalid".toList)))
      suspendedMutation).agents.agent =
        .some .succeeded ∧
      (leaves approveAndResume
        (succeedingApproval (.before (.application "handoff_invalid".toList)))
        suspendedMutation).steps.step =
        .running ∧
      ¬ Repairable approveAndResume (succeedingApproval (.before (.application "handoff_invalid".toList))) suspendedMutation := by
  refine ⟨rfl, rfl, ?_⟩
  rintro (hagreed | ⟨again, hagain⟩)
  · have hchallenged := (hagreed.ended rfl).1 rfl
    cases hchallenged
  · have hresumed :
      (leaves approveAndResume
      (succeedingApproval (.before (.application "handoff_invalid".toList)))
        suspendedMutation).agents.agent ≠ .some .waitingForApproval := by decide
    have hkept :=
      approveAndResume_same hresumed again ⟨_, _⟩ ⟨⟨rfl, rfl, rfl, rfl⟩, ⟨rfl, rfl, rfl, rfl⟩⟩
    have hchallenged := (((Same.agreed hkept.1).mp hagain).ended rfl).1 rfl
    cases hchallenged

end Novalton
