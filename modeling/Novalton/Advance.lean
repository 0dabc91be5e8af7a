/-
`advance` from its claim on (`modules/orchestrator/service.py`): one request that
claimed a READY step as RUNNING, dispatches it, and brings it to a state a later
operation can move it from, with every await free to raise.

The claim, each `transition_step` and `transition_run` and each event are separate
commits, so the step is where the last commit before an exception left it. The
`try` around the dispatch catches application errors and cancellations, the one
around the hand-off application errors only, and nothing else is caught; the
theorem says exactly which endings strand the step.
-/
import Novalton.StepServices

namespace Novalton

open Prog

/-- The awaits of `advance` after it selected the step. -/
inductive AdvanceAwait where
  | claim | claimConflict | stepStarted | link
  | suspend | suspendEvent | suspendCommit
  | failStep | failRun | stepFailedEvent | runFailedEvent
  | cancelStep | cancelRun
  | handoff | createChallenge | challengeEvent | challengeCommit
  | complete | completedEvent | count | completeRun | runCompletedEvent
  | result
deriving DecidableEq, Repr

/-- What `dispatch`, or `execute` where there is no specialization, returns. -/
structure Dispatched where
  role : Option SpecializationRole
  executed : Executed
deriving DecidableEq, Repr

/-- One run of `advance`'s environment: how each await ends, what the dispatch returns
or raises, and the status other requests have left the run in by then (RUNNING where
none touched it). -/
structure AdvanceEnv where
  outcome : AdvanceAwait → Outcome
  dispatch : Except Exn Dispatched
  run : WorkflowRunStatus

section
variable (env : AdvanceEnv)

/-- `_fail`. -/
def failClaimed (code : Text) : Prog StepDb Unit := do
  transitionStep (env.outcome .failStep) .running .failed (.some code)
  failRun (env.outcome .failRun) code
  commit (env.outcome .stepFailedEvent)
  commit (env.outcome .runFailedEvent)
  await (env.outcome .result)

/-- The handler of a cancellation. -/
def cancelClaimed : Prog StepDb Unit := do
  transitionStep (env.outcome .cancelStep) .running .cancelled .none
  cancelRun (env.outcome .cancelRun)
  await (env.outcome .result)

/-- The branch of an execution that waits for a tool approval. -/
def suspendClaimed : Prog StepDb Unit := do
  transitionStep (env.outcome .suspend) .running .waitingForApproval .none
  commit (env.outcome .suspendEvent)
  commit (env.outcome .suspendCommit)
  await (env.outcome .result)

/-- `except ApplicationError as error: return await _fail(…, error.code)`. -/
def failOnApplication : Exn → Option (Prog StepDb Unit)
  | .application code => .some (failClaimed env code)
  | _ => .none

/-- `persist_next_handoff` where the branch asks for it, then the rest of the branch. -/
def handoffThen (wanted : Bool) (rest : Prog StepDb Unit) : Prog StepDb Unit :=
  if wanted then tryReturn (persistNextHandoff (env.outcome .handoff)) (failOnApplication env)
    (fun _ => rest)
  else rest

/-- The challenge branch after the hand-off. -/
def challengeClaimed (role : Option SpecializationRole) (result : AgentResult) :
    Prog StepDb Unit := do
  createPending (env.outcome .createChallenge) role result
  commit (env.outcome .challengeEvent)
  commit (env.outcome .challengeCommit)
  await (env.outcome .result)

/-- The completion branch after the hand-off. -/
def completeClaimed : Prog StepDb Unit := do
  transitionStep (env.outcome .complete) .running .completed .none
  commit (env.outcome .completedEvent)
  await (env.outcome .count)
  let db ← read
  if db.others.all (·.status == .completed) then do
    completeRun (env.outcome .completeRun)
    commit (env.outcome .runCompletedEvent)
    await (env.outcome .result)
  else await (env.outcome .result)

/-- What follows the dispatch. -/
def afterDispatch (dispatched : Dispatched) : Prog StepDb Unit := do
  linkAgentRun (env.outcome .link)
  match advanceGate dispatched.role dispatched.executed with
  | .waitForApproval => suspendClaimed env
  | .fail code => failClaimed env code
  | .challenge result handoff =>
    handoffThen env handoff (challengeClaimed env dispatched.role result)
  | .complete handoff => handoffThen env handoff (completeClaimed env)

/-- The `except` clauses around the dispatch. -/
def dispatchHandler : Exn → Option (Prog StepDb Unit)
  | .application code => .some (failClaimed env code)
  | .providerCancelled => .some (cancelClaimed env)
  | .taskCancelled => .some (cancelClaimed env)
  | _ => .none

/-- `dispatch` and `execute`, to what they return or raise. -/
def runDispatch : Prog StepDb Dispatched := fun s => (env.dispatch, s)

/-- What follows the claim. -/
def runClaimed : Prog StepDb Unit := do
  commit (env.outcome .stepStarted)
  meanwhile env.run
  tryReturn (runDispatch env) (dispatchHandler env) (afterDispatch env)

/-- The handler of a lost claim. -/
def claimHandler (e : Exn) : Option (Prog StepDb Unit) :=
  if e = invalidStepTransition then
    .some do
      rollback
      await (env.outcome .claimConflict)
  else .none

/-- `advance` from the claim of the selected step. -/
def advance : Prog StepDb Unit :=
  tryReturn (transitionStep (env.outcome .claim) .ready .running .none) (claimHandler env)
    (fun _ => runClaimed env)

end

/-! ## Settled steps -/

/-- A step that `advance` left where it is not stranded: unclaimed, in a state it may rest
in, FAILED with its run, or RUNNING with a challenge still to be decided. -/
def StepDb.Settled (db : StepDb) : Prop :=
  match db.step with
  | .failed => db.run = .failed
  | .running => ∃ challenge, db.challenge = .some challenge ∧ challenge.decided = false
  | _ => True

/-- A READY step of a RUNNING run, as `advance` selects it. A READY step was never
claimed, so no agent run is linked to it and no challenge recorded for it. -/
structure StepDb.Selected (db : StepDb) : Prop where
  ready : db.step = .ready
  running : db.run = .running
  unlinked : db.agentRunLinked = false
  unchallenged : db.challenge = .none

/-- The step once it is claimed. -/
structure StepDb.Claimed (db : StepDb) : Prop where
  claimed : db.step = .running
  unchallenged : db.challenge = .none

theorem StepDb.Claimed.not_settled {db : StepDb} (h : db.Claimed) : ¬ db.Settled := by
  simp [StepDb.Settled, h.claimed, h.unchallenged]

theorem StepDb.Selected.claim {db : StepDb} (h : db.Selected) :
    (db.moveStep .running .none).Claimed :=
  ⟨rfl, h.unchallenged⟩

section
variable (env : AdvanceEnv)

/-- Failing the step with `code` fails the run as well: the code is well formed, the
step's transition commits, and the run is failed by another request or by this one. -/
def AdvanceEnv.FailSettles (code : Text) : Prop :=
  failureCodeValid code = true ∧ (env.outcome .failStep).commits = true ∧
    (env.run = .failed ∨
      (env.outcome .failStep = .ok ∧ env.run = .running ∧ (env.outcome .failRun).commits = true))

/-- The hand-off, where one is asked for, is written and the rest settles the step, or
its application error fails the step. -/
def AdvanceEnv.HandoffSettles (wanted : Bool) (rest : Prop) : Prop :=
  if wanted then
    match env.outcome .handoff with
    | .ok => rest
    | .before (.application code) | .after (.application code) => env.FailSettles code
    | _ => False
  else rest

/-- The awaits that write the branch's terminal state end well. -/
def AdvanceEnv.BranchSettles (dispatched : Dispatched) : Prop :=
  match advanceGate dispatched.role dispatched.executed with
  | .waitForApproval => (env.outcome .suspend).commits = true
  | .fail code => env.FailSettles code
  | .challenge _ handoff =>
    env.HandoffSettles handoff (env.outcome .createChallenge = .ok ∧
      (env.outcome .challengeEvent).commits = true)
  | .complete handoff => env.HandoffSettles handoff ((env.outcome .complete).commits = true)

/-- The endings of awaits under which the claimed step is not stranded. -/
def AdvanceEnv.Settles : Prop :=
  (env.outcome .claim).commits = false ∨
    (env.outcome .claim = .ok ∧ env.outcome .stepStarted = .ok ∧
      match env.dispatch with
      | .ok dispatched => env.outcome .link = .ok ∧ env.BranchSettles dispatched
      | .error (.application code) => env.FailSettles code
      | .error .providerCancelled | .error .taskCancelled =>
        (env.outcome .cancelStep).commits = true
      | .error _ => False)

end

/-! ## Moves of the rows -/

section
variable {db : StepDb} {s : Session StepDb} {o : Outcome}

theorem transitionStep_endsIn {expected target : WorkflowStepRunStatus} {code : Option Text}
    (hallowed : stepTransitionAllowed expected target = true)
    (hcode : target = .failed → code.any failureCodeValid = true) (hs : s.view.step = expected) :
    transitionStep o expected target code s = endsIn o s (s.view.moveStep target code) := by
  have hfailed : (decide (target = .failed) && !code.any failureCodeValid) = false := by
    by_cases ht : target = .failed
    · simp [ht, hcode ht]
    · simp [ht]
  cases o with
  | before e => rfl
  | ok => simp [transitionStep, bind_apply, hallowed, hfailed, hs, endsIn]
  | after e => simp [transitionStep, bind_apply, hallowed, hfailed, hs, endsIn]

theorem transitionRun_endsIn {expected target : WorkflowRunStatus} {code : Option Text}
    (hs : s.view.run = expected) :
    transitionRun o expected target code s = endsIn o s (s.view.moveRun target code) := by
  cases o with
  | before e => rfl
  | ok => simp [transitionRun, bind_apply, hs, endsIn]
  | after e => simp [transitionRun, bind_apply, hs, endsIn]

theorem linkAgentRun_endsIn (hs : s.view.agentRunLinked = false) :
    linkAgentRun o s = endsIn o s { s.view with agentRunLinked := true } := by
  cases o with
  | before e => rfl
  | ok => simp [linkAgentRun, bind_apply, hs, endsIn]
  | after e => simp [linkAgentRun, bind_apply, hs, endsIn]

/-- Moving the run leaves what is said about the step alone. -/
theorem Leaves.transitionRun {I : StepDb → Prop} {expected target : WorkflowRunStatus}
    {code : Option Text} (hI : ∀ db, I db → I (db.moveRun target code)) : Leaves I
    (transitionRun o expected target code) := by
  intro s hs
  by_cases hrun : s.view.run = expected
  · rw [transitionRun_endsIn hrun]
    cases o with
    | ok | after => exact ⟨hI _ hs.2, hI _ hs.2⟩
    | before => exact hs
  · cases o with
    | before => exact hs
    | ok | after => simpa [Novalton.transitionRun, bind_apply, hrun] using hs

theorem Leaves.cancelRun {I : StepDb → Prop} (hI : ∀ db, I db → I (db.moveRun .cancelled .none)) :
    Leaves I (cancelRun o) := by
  refine Leaves.bind Leaves.read fun db => ?_
  split
  · exact Leaves.transitionRun hI
  · exact Leaves.raise _

end

/-! ## Each block settles the step under its condition -/

section
variable {env : AdvanceEnv} {s : Session StepDb}

theorem suspendClaimed_settled (hs : s.committed.Claimed) (hview : s.view.step = .running) :
    (suspendClaimed env s).2.committed.Settled ↔ (env.outcome .suspend).commits = true := by
  refine endsIn_then_iff (I := fun db => db.step = .waitingForApproval)
    (transitionStep_endsIn rfl (by simp) hview) hs.not_settled
      (fun db h => by simp [StepDb.Settled, h]) rfl ?_
  exact (Leaves.commit _).bind fun _ => (Leaves.commit _).bind fun _ => Leaves.await _

theorem cancelClaimed_settled (hs : s.committed.Claimed) (hview : s.view.step = .running) :
    (cancelClaimed env s).2.committed.Settled ↔ (env.outcome .cancelStep).commits = true := by
  refine endsIn_then_iff (I := fun db => db.step = .cancelled)
    (transitionStep_endsIn rfl (by simp) hview) hs.not_settled
      (fun db h => by simp [StepDb.Settled, h]) rfl ?_
  exact (Leaves.cancelRun fun _ h => h).bind fun _ => Leaves.await _

theorem completeClaimed_settled (hs : s.committed.Claimed) (hview : s.view.step = .running) :
    (completeClaimed env s).2.committed.Settled ↔ (env.outcome .complete).commits = true := by
  refine endsIn_then_iff (I := fun db => db.step = .completed)
    (transitionStep_endsIn rfl (by simp) hview) hs.not_settled
      (fun db h => by simp [StepDb.Settled, h]) rfl ?_
  refine (Leaves.commit _).bind fun _ => (Leaves.await _).bind fun _ => Leaves.read.bind fun db =>
    ?_
  split
  · exact (Leaves.transitionRun fun _ h => h).bind fun _ => (Leaves.commit _).bind fun _ =>
      Leaves.await _
  · exact Leaves.await _

/-- A challenge is pending once its event is committed. -/
theorem challengeClaimed_settled {role : Option SpecializationRole} {result : AgentResult}
    (hs : s.committed.Claimed) (hview : s.view.step = .running) :
    (challengeClaimed env role result s).2.committed.Settled ↔
      env.outcome .createChallenge = .ok ∧ (env.outcome .challengeEvent).commits = true := by
  cases hcreate : env.outcome .createChallenge with
  | ok =>
    let pending : Session StepDb := ⟨s.committed, { s.view with
      challenge := .some ⟨result.challenge, result.status, role, result.verdict, .none⟩ }⟩
    have hx : createPending (env.outcome .createChallenge) role result s = (.ok (), pending) := by
      rw [hcreate]
      rfl
    rw [challengeClaimed, bind_ok hx]
    refine (endsIn_then_iff (s := pending)
      (I := fun db => db.step = .running ∧ ∃ c, db.challenge = .some c ∧ c.decided = false)
        commit_endsIn hs.not_settled (fun db h => by simp only [StepDb.Settled, h.1]; exact h.2)
      ⟨hview, ⟨result.challenge, result.status, role, result.verdict, .none⟩, rfl, rfl⟩
        ((Leaves.commit _).bind fun _ => Leaves.await _)).trans ?_
    simp
  | before e =>
    have hx : createPending (env.outcome .createChallenge) role result s = (.error e, s) := by
      rw [hcreate]; rfl
    rw [challengeClaimed, bind_error hx]
    simp [hs.not_settled]
  | after e =>
    have hx : createPending (env.outcome .createChallenge) role result s = (.error e, s) := by
      rw [hcreate]; rfl
    rw [challengeClaimed, bind_error hx]
    simp [hs.not_settled]

/-- Failing the step settles it exactly when its run ends FAILED too. -/
theorem failClaimed_settled {code : Text} (hs : s.committed.Claimed)
    (hview : s.view.step = .running) (hrun : s.view.run = env.run) :
    (failClaimed env code s).2.committed.Settled ↔ env.FailSettles code := by
  by_cases hcode : failureCodeValid code = true
  swap
  · -- the code is refused before anything is written
    have hx : ∃ e, transitionStep (env.outcome .failStep) .running .failed (.some code) s =
        (.error e, s) := by
      cases env.outcome .failStep with
      | before e => exact ⟨e, rfl⟩
      | ok => exact ⟨invalidStepFailure,
          by simp [transitionStep, bind_apply, stepTransitionAllowed, hcode]⟩
      | after e => exact ⟨invalidStepFailure,
          by simp [transitionStep, bind_apply, stepTransitionAllowed, hcode]⟩
    obtain ⟨e, hx⟩ := hx
    rw [failClaimed, bind_error hx]
    simp [hs.not_settled, AdvanceEnv.FailSettles, hcode]
  let moved : StepDb := s.view.moveStep .failed (.some code)
  have hstep : moved.step = .failed := rfl
  have hmrun : moved.run = env.run := hrun
  have hsettled : moved.Settled ↔ env.run = .failed := by simp only [StepDb.Settled, hstep, hmrun]
  have hx : transitionStep (env.outcome .failStep) .running .failed (.some code) s =
      endsIn (env.outcome .failStep) s moved := transitionStep_endsIn rfl (by simp [hcode]) hview
  let tail : Prog StepDb Unit := do
    commit (env.outcome .stepFailedEvent)
    commit (env.outcome .runFailedEvent)
    await (env.outcome .result)
  have htail : Leaves (fun db : StepDb => db.step = .failed ∧ db.run = .failed) tail :=
    (Leaves.commit _).bind fun _ => (Leaves.commit _).bind fun _ => Leaves.await _
  have hboth : ∀ db : StepDb, db.step = .failed ∧ db.run = .failed → db.Settled := by
    intro db h
    simp only [StepDb.Settled, h.1]
    exact h.2
  simp only [AdvanceEnv.FailSettles, hcode, true_and]
  cases hfail : env.outcome .failStep with
  | before e =>
    rw [hfail] at hx
    rw [failClaimed, hfail, bind_error hx]
    simp [hs.not_settled]
  | after e =>
    rw [hfail] at hx
    rw [failClaimed, hfail, bind_error hx]
    simpa using hsettled
  | ok =>
    rw [hfail] at hx
    rw [failClaimed, hfail, bind_ok hx]
    simp only [failRun, hcode, if_true, Outcome.commits_ok, true_and]
    by_cases hrunning : env.run = .running
    · have hrun' : moved.run = .running := hmrun.trans hrunning
      have hr : transitionRun (env.outcome .failRun) .running .failed (.some code) ⟨moved, moved⟩ =
          endsIn (env.outcome .failRun) ⟨moved, moved⟩ (moved.moveRun .failed (.some code)) :=
        transitionRun_endsIn hrun'
      refine (endsIn_then_iff hr ?_ hboth ⟨hstep, rfl⟩ htail).trans ?_
      · simp only [hsettled, hrunning]
        decide
      · simp [hrunning]
    · by_cases hfailed : env.run = .failed
      · -- another request failed the run: nothing the rest does unsettles the step
        have hkeep : Leaves (fun db : StepDb => db.step = .failed ∧ db.run = .failed)
            (transitionRun (env.outcome .failRun) .running .failed (.some code) >>=
                fun _ => tail) :=
          (Leaves.transitionRun fun db h => ⟨h.1, rfl⟩).bind fun _ => htail
        have hend := hkeep ⟨moved, moved⟩ ⟨⟨hstep, hmrun.trans hfailed⟩, hstep, hmrun.trans hfailed⟩
        exact ⟨fun _ => .inl hfailed, fun _ => hboth _ hend.1⟩
      · have hr : ∃ e,
          transitionRun (env.outcome .failRun) .running .failed (.some code) ⟨moved, moved⟩ =
            (.error e, ⟨moved, moved⟩) := by
          cases env.outcome .failRun with
          | before e => exact ⟨e, rfl⟩
          | ok => exact ⟨invalidRunTransition, by simp [transitionRun, bind_apply, hmrun, hrunning]⟩
          | after e => exact ⟨invalidRunTransition,
              by simp [transitionRun, bind_apply, hmrun, hrunning]⟩
        obtain ⟨e, hr⟩ := hr
        rw [bind_error hr]
        simp [hsettled, hfailed, hrunning]

/-- The hand-off's `try`: its application errors fail the step, its other exceptions
leave it claimed. -/
theorem handoffThen_settled {wanted : Bool} {rest : Prog StepDb Unit} {P : Prop}
    (hs : s.committed.Claimed) (hview : s.view.step = .running) (hrun : s.view.run = env.run)
    (hrest : ∀ s' : Session StepDb, s'.committed.Claimed → s'.view.step = .running →
      ((rest s').2.committed.Settled ↔ P)) :
    (handoffThen env wanted rest s).2.committed.Settled ↔ env.HandoffSettles wanted P := by
  cases wanted with
  | false =>
    simp only [handoffThen, AdvanceEnv.HandoffSettles, Bool.false_eq_true, if_false]
    exact hrest s hs hview
  | true =>
    simp only [handoffThen, AdvanceEnv.HandoffSettles, if_true]
    cases hout : env.outcome .handoff with
    | ok =>
      rw [tryReturn_ok persistNextHandoff_ok]
      exact hrest _ hs hview
    | before e | after e =>
      have hx : persistNextHandoff (.before e) s = (.error e, s) := rfl
      have hx' : persistNextHandoff (.after e) s = (.error e, s) := rfl
      cases e with
      | application code =>
        first
        | rw [tryReturn_caught hx rfl]
        | rw [tryReturn_caught hx' rfl]
        exact failClaimed_settled hs hview hrun
      | provider | providerCancelled | taskCancelled | other =>
        first
        | rw [tryReturn_raised hx rfl]
        | rw [tryReturn_raised hx' rfl]
        simp [hs.not_settled]

/-- What follows a dispatch that returned. -/
theorem afterDispatch_settled {dispatched : Dispatched} (hs : s.committed.Claimed)
    (hview : s.view.step = .running) (hsame : s.view = s.committed) (hrun : s.view.run = env.run)
    (hlink : s.view.agentRunLinked = false) :
    (afterDispatch env dispatched s).2.committed.Settled ↔
      env.outcome .link = .ok ∧ env.BranchSettles dispatched := by
  let linked : StepDb := { s.view with agentRunLinked := true }
  have hclaimed : linked.Claimed := ⟨hview, by rw [← hsame] at hs; exact hs.unchallenged⟩
  have hx : linkAgentRun (env.outcome .link) s = endsIn (env.outcome .link) s linked :=
    linkAgentRun_endsIn hlink
  cases hout : env.outcome .link with
  | before e =>
    rw [hout] at hx
    rw [afterDispatch, hout, bind_error hx]
    simp [hs.not_settled]
  | after e =>
    rw [hout] at hx
    rw [afterDispatch, hout, bind_error hx]
    simp [hclaimed.not_settled]
  | ok =>
    rw [hout] at hx
    rw [afterDispatch, hout, bind_ok hx]
    simp only [AdvanceEnv.BranchSettles, true_and]
    cases advanceGate dispatched.role dispatched.executed with
    | waitForApproval => exact suspendClaimed_settled hclaimed hview
    | fail code => exact failClaimed_settled hclaimed hview hrun
    | challenge result handoff =>
      exact handoffThen_settled hclaimed hview hrun fun _ hs' hview' =>
        challengeClaimed_settled hs' hview'
    | complete handoff =>
      exact handoffThen_settled hclaimed hview hrun fun _ hs' hview' =>
        completeClaimed_settled hs' hview'

/-- **`advance` strands the step it claimed exactly outside `Settles`.** Whatever every
await, the dispatch and the other requests do, once `advance` returned or raised the
step is unclaimed, resting, failed with its run or awaiting a decision, if and only if
the awaits up to the branch's terminal commit end as `Settles` says. -/
theorem advance_settles_iff {db : StepDb} (hdb : db.Selected) :
    (advance env ⟨db, db⟩).2.committed.Settled ↔ env.Settles := by
  let claimed : StepDb := db.moveStep .running .none
  have hclaimed : claimed.Claimed := hdb.claim
  have hready : db.Settled := by simp [StepDb.Settled, hdb.ready]
  have hx : transitionStep (env.outcome .claim) .ready .running .none ⟨db, db⟩ =
      endsIn (env.outcome .claim) ⟨db, db⟩ claimed := transitionStep_endsIn rfl (by simp) hdb.ready
  -- a lost claim changes nothing, handled or not
  have hconflict : ∀ (e : Exn) (d : StepDb),
      transitionStep (env.outcome .claim) .ready .running .none ⟨db, db⟩ = (.error e, ⟨d, d⟩) →
      (advance env ⟨db, db⟩).2.committed = d := by
    intro e d hd
    by_cases he : e = invalidStepTransition
    · rw [advance, tryReturn_caught hd (if_pos he)]
      cases env.outcome .claimConflict <;> rfl
    · rw [advance, tryReturn_raised hd (if_neg he)]
  simp only [AdvanceEnv.Settles]
  cases hout : env.outcome .claim with
  | before e =>
    rw [hconflict e db (by rw [hx, hout]; rfl)]
    simp [hready]
  | after e =>
    rw [hconflict e claimed (by rw [hx, hout]; rfl)]
    simp [hclaimed.not_settled]
  | ok =>
    rw [hout] at hx
    rw [advance, hout, tryReturn_ok hx]
    simp only [Outcome.commits_ok, Bool.true_eq_false, false_or, true_and]
    cases hstart : env.outcome .stepStarted with
    | before e | after e =>
      simp only [runClaimed, hstart, bind_apply, commit_before, commit_after]
      simp [hclaimed.not_settled]
    | ok =>
      let observed : StepDb := { claimed with run := env.run }
      have hobserved : observed.Claimed := ⟨hclaimed.claimed, hclaimed.unchallenged⟩
      have hrun : runClaimed env ⟨claimed, claimed⟩ =
          tryReturn (runDispatch env) (dispatchHandler env) (afterDispatch env) ⟨observed,
              observed⟩ := by
        rw [runClaimed, hstart]
        rfl
      rw [hrun]
      simp only [true_and]
      cases hdispatch : env.dispatch with
      | ok dispatched =>
        rw [tryReturn_ok (x := runDispatch env) (by rw [runDispatch, hdispatch])]
        exact afterDispatch_settled hobserved hobserved.claimed rfl rfl hdb.unlinked
      | error e =>
        have hraise : runDispatch env ⟨observed, observed⟩ = (.error e, ⟨observed, observed⟩) := by
          rw [runDispatch, hdispatch]
        cases e with
        | application code =>
          rw [tryReturn_caught hraise rfl]
          exact failClaimed_settled hobserved hobserved.claimed rfl
        | providerCancelled | taskCancelled =>
          rw [tryReturn_caught hraise rfl]
          exact cancelClaimed_settled hobserved hobserved.claimed
        | provider | other =>
          rw [tryReturn_raised hraise rfl]
          simp [hobserved.not_settled]

end

/-! ## A run whose link is cancelled -/

/-- A generic step whose agent succeeds, with the await of its link ending in `link` and
every other await well. -/
def exampleAdvance (link : Outcome) : AdvanceEnv where
  outcome := fun point => if point = .link then link else .ok
  dispatch := .ok ⟨.none, Executed.ofResult ⟨.completed, .none, .none⟩⟩
  run := .running

/-- The one READY step of a RUNNING run. -/
def exampleSelected : StepDb := ⟨.ready, .none, .running, .none, false, .none, false, []⟩

/-- Cancelling the task while it links the agent run leaves the step RUNNING, with no
challenge, although the agent had finished. -/
theorem advance_strands_cancelled_link :
    (advance (exampleAdvance (.before .taskCancelled)) ⟨exampleSelected,
      exampleSelected⟩).2.committed.step = .running ∧
      ¬ (advance (exampleAdvance (.before .taskCancelled)) ⟨exampleSelected,
        exampleSelected⟩).2.committed.Settled := by
  refine ⟨rfl, ?_⟩
  rintro ⟨challenge, h, -⟩
  cases h

theorem advance_settles_completed :
    (advance (exampleAdvance .ok) ⟨exampleSelected, exampleSelected⟩).2.committed.Settled :=
  (advance_settles_iff ⟨rfl, rfl, rfl, rfl⟩).mpr (.inr ⟨rfl, rfl, rfl, rfl⟩)

end Novalton
