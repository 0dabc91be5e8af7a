/-
The tail of `approve_and_resume` (`modules/approvals/mutation_resume.py`): the step of
an approved mutation runs again, its continuation delivers a result, and the step
ends. `advance` ends a step that ran through without an approval; both write the
same decision, and the question is where they decide alike.

`advance` looks at the role, the challenge level and the result's own status;
`approve_and_resume` looks at the agent run's status only, which counts a PARTIAL
result as SUCCEEDED.
-/
import Novalton.Advance

namespace Novalton

open Prog

inductive ResumeAwait where
  | resumeStep | failStep | failRun | handoff | complete
deriving DecidableEq, Repr

/-- `approve_and_resume` from the resumed step on. `continuation` is what
`continue_assignment` returns or raises. -/
def resumeStep (outcome : ResumeAwait → Outcome) (continuation : Except Exn Executed) :
    Prog StepDb Unit := do
  transitionStep (outcome .resumeStep) .waitingForApproval .running .none
  let response ← (fun s => (continuation, s) : Prog StepDb Executed)
  match resumeGate response with
  | .fail code => do
    transitionStep (outcome .failStep) .running .failed (.some code)
    failRun (outcome .failRun) code
  | _ => do
    persistNextHandoff (outcome .handoff)
    transitionStep (outcome .complete) .running .completed .none

/-! ## What a gate makes of a running step -/

/-- The rows once a RUNNING step went through a gate and every write was made. -/
def StepDb.through (db : StepDb) (role : Option SpecializationRole) : Gate → StepDb
  | .waitForApproval => db.moveStep .waitingForApproval .none
  | .fail code => (db.moveStep .failed (.some code)).moveRun .failed (.some code)
  | .challenge result handoff => { db with
      challenge := .some ⟨result.challenge, result.status, role, result.verdict, .none⟩
      handoff := db.handoff || handoff }
  | .complete handoff => ({ db with handoff := db.handoff || handoff }).moveStep .completed .none

/-- The gate's failure code, if it has one, is well formed. -/
def Gate.CodeValid : Gate → Prop
  | .fail code => failureCodeValid code = true
  | _ => True

/-- The environment in which every await ends well. -/
def AdvanceEnv.smooth (dispatched : Dispatched) : AdvanceEnv :=
  ⟨fun _ => .ok, .ok dispatched, .running⟩

@[simp] theorem AdvanceEnv.smooth_outcome {dispatched : Dispatched} (point : AdvanceAwait) :
    (smooth dispatched).outcome point = .ok := rfl

/-- The claimed step with its agent run linked. -/
def StepDb.running (db : StepDb) : StepDb := { db with step := .running, agentRunLinked := true }

section
variable {db : StepDb} {role : Option SpecializationRole} {dispatched : Dispatched} {code : Text}

theorem failClaimed_smooth (hstep : db.step = .running) (hrun : db.run = .running)
    (hcode : failureCodeValid code = true) :
    (failClaimed (.smooth dispatched) code ⟨db, db⟩).2.committed = db.through role
    (.fail code) := by
  have hfail : transitionStep .ok .running .failed (.some code) ⟨db, db⟩ =
      endsIn .ok ⟨db, db⟩ (db.moveStep .failed (.some code)) :=
        transitionStep_endsIn rfl (by simp [hcode]) hstep
  have hrunFail :
    failRun .ok code ⟨db.moveStep .failed (.some code), db.moveStep .failed (.some code)⟩ =
      endsIn .ok ⟨db.moveStep .failed (.some code), db.moveStep .failed (.some code)⟩
          (db.through role (.fail code)) := by
    rw [failRun, if_pos hcode]
    exact transitionRun_endsIn hrun
  simp only [failClaimed, AdvanceEnv.smooth_outcome]
  rw [bind_ok hfail, bind_ok hrunFail]
  rfl

theorem completeClaimed_smooth {s : Session StepDb} (hstep : s.view.step = .running)
    (hothers : (s.view.others.map OtherStep.readied).all (·.status == .completed) = false) :
    (completeClaimed (.smooth dispatched) s).2.committed = s.view.moveStep .completed .none := by
  have hmove : transitionStep .ok .running .completed .none s =
      endsIn .ok s (s.view.moveStep .completed .none) :=
    transitionStep_endsIn rfl (by simp) hstep
  simp only [completeClaimed, AdvanceEnv.smooth_outcome]
  rw [bind_ok hmove]
  simp only [bind_apply, commit_ok, await_ok, read_apply, StepDb.moveStep, hothers,
    Bool.false_eq_true, if_false]

/-- Where every await ends well, `advance` takes the step it claims through the gate of
what the dispatch returned. -/
theorem advance_smooth (hdb : db.Selected)
    (hothers : (db.others.map OtherStep.readied).all (·.status == .completed) = false)
    (hcode : (advanceGate dispatched.role dispatched.executed).CodeValid) :
    (advance (.smooth dispatched) ⟨db, db⟩).2.committed =
      db.running.through dispatched.role (advanceGate dispatched.role dispatched.executed) := by
  have hclaim : transitionStep .ok .ready .running .none ⟨db, db⟩ =
      endsIn .ok ⟨db, db⟩ (db.moveStep .running .none) :=
        transitionStep_endsIn rfl (by simp) hdb.ready
  have hobserved : ({ db.moveStep .running .none with run := .running } : StepDb) =
      db.moveStep .running .none := by
    show ({ db with step := .running, run := .running } : StepDb) = { db with step := .running }
    rw [← hdb.running]
  have hdispatch : advance (.smooth dispatched) ⟨db, db⟩ =
      afterDispatch (.smooth dispatched) dispatched ⟨db.moveStep .running .none,
          db.moveStep .running .none⟩ := by
    simp only [advance, AdvanceEnv.smooth_outcome]
    rw [tryReturn_ok hclaim]
    show afterDispatch (.smooth dispatched) dispatched
      ⟨{ db.moveStep .running .none with run := .running },
        { db.moveStep .running .none with run := .running }⟩ = _
    rw [hobserved]
  have hlink : linkAgentRun .ok ⟨db.moveStep .running .none, db.moveStep .running .none⟩ =
      endsIn .ok _ db.running := linkAgentRun_endsIn hdb.unlinked
  simp only [hdispatch, afterDispatch, AdvanceEnv.smooth_outcome]
  rw [bind_ok hlink]
  cases hgate : advanceGate dispatched.role dispatched.executed with
  | waitForApproval =>
    have hmove : transitionStep .ok .running .waitingForApproval .none ⟨db.running, db.running⟩ =
        endsIn .ok _ (db.running.moveStep .waitingForApproval .none) :=
          transitionStep_endsIn rfl (by simp) rfl
    simp only [suspendClaimed, AdvanceEnv.smooth_outcome]
    rw [bind_ok hmove]
    rfl
  | fail code =>
    rw [hgate] at hcode
    exact failClaimed_smooth rfl hdb.running hcode
  | challenge result handoff =>
    cases handoff with
    | false => simp [handoffThen, challengeClaimed, bind_apply, createPending, StepDb.through]
    | true => simp [handoffThen, challengeClaimed, bind_apply, createPending, StepDb.through,
        tryReturn, persistNextHandoff]
  | complete handoff =>
    cases handoff with
    | false =>
      simp only [handoffThen, Bool.false_eq_true, if_false, StepDb.through, Bool.or_false]
      exact completeClaimed_smooth (s := ⟨db.running, db.running⟩) rfl hothers
    | true =>
      simp only [handoffThen, if_true, AdvanceEnv.smooth_outcome, StepDb.through, Bool.or_true]
      rw [tryReturn_ok persistNextHandoff_ok]
      exact completeClaimed_smooth (s :=
        ⟨db.running, { db.running with handoff := true }⟩) rfl hothers

/-- Where every await ends well, `approve_and_resume` takes the waiting step through its
own gate. -/
theorem resumeStep_smooth {response : Executed} (hwait : db.step = .waitingForApproval)
    (hrun : db.run = .running) (hcode : (resumeGate response).CodeValid) :
    (resumeStep (fun _ => .ok) (.ok response) ⟨db, db⟩).2.committed =
      ({ db with step := .running } : StepDb).through role (resumeGate response) := by
  have hresume : transitionStep .ok .waitingForApproval .running .none ⟨db, db⟩ =
      endsIn .ok ⟨db, db⟩ { db with step := .running } := transitionStep_endsIn rfl (by simp) hwait
  rw [resumeStep, bind_ok hresume]
  have hgates : (∃ code, resumeGate response = .fail code) ∨
      resumeGate response = .complete true := by
    unfold resumeGate
    split
    · exact .inr rfl
    · exact .inl ⟨_, rfl⟩
  rcases hgates with ⟨code, hgate⟩ | hgate
  · have hvalid : failureCodeValid code = true := by
      rw [hgate] at hcode
      exact hcode
    rw [hgate]
    have hfail : transitionStep .ok .running .failed (.some code) ⟨{ db with step := .running },
      { db with step := .running }⟩ =
        endsIn .ok ⟨{ db with step := .running }, { db with step := .running }⟩
          (({ db with step := .running } : StepDb).moveStep .failed (.some code)) :=
      transitionStep_endsIn rfl (fun _ => hvalid) rfl
    rw [bind_ok (a := response) rfl]
    simp only [hgate]
    rw [bind_ok hfail, failRun, if_pos hvalid, transitionRun_endsIn hrun]
    rfl
  · rw [hgate]
    rw [bind_ok (a := response) rfl]
    simp only [hgate]
    have hmove : transitionStep .ok .running .completed .none
        ⟨{ db with step := .running }, { db with step := .running, handoff := true }⟩ =
        endsIn .ok ⟨{ db with step := .running }, { db with step := .running, handoff := true }⟩
          (({ db with step := .running, handoff := true } : StepDb).moveStep .completed .none) :=
      transitionStep_endsIn rfl (by simp) rfl
    rw [bind_ok persistNextHandoff_ok]
    refine (congrArg (fun r => r.2.committed) hmove).trans ?_
    simp [endsIn, StepDb.through]

end

/-! ## The developer's step -/

/-- A step that `advance` selects, in a run with another step that is not COMPLETED, as the QA
step is while the developer's is READY. -/
structure StepDb.Developing (db : StepDb) : Prop extends db.Selected where
  waited : ∃ other ∈ db.others, other.status ≠ .completed

/-- The same step suspended for the approval of a mutation. -/
def StepDb.suspended (db : StepDb) : StepDb :=
  { db with step := .waitingForApproval, agentRunLinked := true }

/-- A developer's result: its status and the level of its challenge. -/
def developerResult (status : AgentResultStatus) (challenge : ChallengeLevel) : AgentResult :=
  ⟨status, challenge, .none⟩

/-- What the agent of a developer's step responds in the end: with a result, or without one and
with a well-formed code or none. -/
inductive Executed.Developed : Executed → Prop where
  | result (status : AgentResultStatus) (challenge : ChallengeLevel) :
    Executed.Developed (.ofResult (developerResult status challenge))
  | error (status : AgentRunStatus) (errorCode : Option Text) (hstatus : status = .failed ∨
      status = .cancelled)
    (hcode : failureCodeValid (codeOrFailed errorCode) = true) :
      Executed.Developed ⟨status, errorCode, .none⟩

/-- The rows after `advance` executed the step to this response. -/
def advanced (db : StepDb) (response : Executed) : StepDb :=
  (advance (.smooth ⟨.some .developerWorker, response⟩) ⟨db, db⟩).2.committed

/-- The rows after the approved step was resumed to this response. -/
def resumed (db : StepDb) (response : Executed) : StepDb :=
  (resumeStep (fun _ => .ok) (.ok response) ⟨db.suspended, db.suspended⟩).2.committed

theorem advanceGate_completed (challenge : ChallengeLevel) :
    advanceGate (.some .developerWorker) (.ofResult (developerResult .completed challenge)) =
      if challenge.meaningful then .challenge ⟨.completed, challenge, .none⟩ true
        else .complete true := by
  cases challenge <;> rfl

theorem advanceGate_partialResult (challenge : ChallengeLevel) :
    advanceGate (.some .developerWorker) (.ofResult (developerResult .partialResult challenge)) =
      if challenge.meaningful then .challenge ⟨.partialResult, challenge, .none⟩ false
      else .fail (notCompletedCode .developerWorker) := by
  cases challenge <;> rfl

/-- Outside SUCCEEDED executions both paths fail the step with the execution's code. -/
theorem advanceGate_not_succeeded {status : AgentResultStatus} {challenge : ChallengeLevel}
    (h : (mapResultStatus status).1 ≠ .succeeded) :
    advanceGate (.some .developerWorker) (.ofResult (developerResult status challenge)) =
      resumeGate (.ofResult (developerResult status challenge)) := by
  cases status with
  | completed | partialResult => exact absurd rfl h
  | blocked | needsInput | failed | cancelled => rfl

/-- So they do without a result. -/
theorem advanceGate_error {status : AgentRunStatus} {errorCode : Option Text}
    (h : status = .failed ∨ status = .cancelled) :
    advanceGate (.some .developerWorker) ⟨status, errorCode, .none⟩ = .fail
      (codeOrFailed errorCode) ∧
      resumeGate ⟨status, errorCode, .none⟩ = .fail (codeOrFailed errorCode) := by
  rcases h with rfl | rfl <;> exact ⟨rfl, rfl⟩

section
variable {db : StepDb} {response : Executed}

/-- Another step that is not COMPLETED is not after the step's own completion. -/
theorem StepDb.Developing.others (hdb : db.Developing) :
    (db.others.map OtherStep.readied).all (·.status == .completed) = false := by
  obtain ⟨other, hmem, hstatus⟩ := hdb.waited
  rw [List.all_eq_false]
  refine ⟨other.readied, List.mem_map_of_mem hmem, ?_⟩
  unfold OtherStep.readied
  split
  · exact Bool.false_ne_true
  · simpa using hstatus

theorem resumeGate_valid (h : response.Developed) : (resumeGate response).CodeValid := by
  cases h with
  | result status challenge =>
    cases status with
    | completed | partialResult => trivial
    | blocked | needsInput | failed | cancelled => exact codeOrFailed_valid _
  | error status errorCode hstatus hcode =>
    rw [(advanceGate_error hstatus).2]
    exact hcode

theorem advanceGate_valid (h : response.Developed) :
    (advanceGate (.some .developerWorker) response).CodeValid := by
  have hresume := resumeGate_valid h
  cases h with
  | result status challenge =>
    cases status with
    | completed =>
      rw [advanceGate_completed]
      split <;> trivial
    | partialResult =>
      rw [advanceGate_partialResult]
      split
      · trivial
      · show failureCodeValid _ = true
        decide
    | blocked | needsInput | failed | cancelled =>
      rw [advanceGate_not_succeeded (by decide)]
      exact hresume
  | error status errorCode hstatus hcode =>
    rw [(advanceGate_error hstatus).1]
    exact hcode

theorem advanced_eq (hdb : db.Developing) (h : response.Developed) :
    advanced db response = db.running.through (.some .developerWorker)
      (advanceGate (.some .developerWorker) response) :=
  advance_smooth hdb.toSelected hdb.others (advanceGate_valid h)

theorem resumed_eq (hdb : db.Developing) (h : response.Developed) :
    resumed db response = db.running.through (.some .developerWorker) (resumeGate response) :=
  resumeStep_smooth rfl hdb.running (resumeGate_valid h)

/-- **The resumed step ends as `advance` would have ended it exactly for responses both gates
judge by their agent run**, whatever rows the step is suspended in. A PARTIAL result and a
COMPLETED one with a challenge to review are completed by the resume; every other response
leaves the same rows. -/
theorem resumed_eq_advanced_iff (hdb : db.Developing) (h : response.Developed) :
    resumed db response = advanced db response ↔
      ∀ result, response.result = .some result →
        result.status ≠ .partialResult ∧
          ¬ (result.status = .completed ∧ result.challenge.meaningful = true) := by
  rw [resumed_eq hdb h, advanced_eq hdb h]
  cases h with
  | result status challenge =>
    have hresult :
      (∀ result, (Executed.ofResult (developerResult status challenge)).result = .some result →
        result.status ≠ .partialResult ∧
          ¬ (result.status = .completed ∧ result.challenge.meaningful = true)) ↔
        status ≠ .partialResult ∧ ¬ (status = .completed ∧ challenge.meaningful = true) := by
      constructor
      · exact fun hall => hall _ rfl
      · intro hone result hresult
        cases hresult
        exact hone
    rw [hresult]
    cases status with
    | completed =>
      rw [advanceGate_completed]
      by_cases hlevel : challenge.meaningful = true
      · rw [if_pos hlevel]
        simp only [hlevel, and_self, not_true, and_false, iff_false]
        intro h
        have hstep : WorkflowStepRunStatus.completed = .running := congrArg StepDb.step h
        cases hstep
      · rw [if_neg hlevel]
        exact ⟨fun _ => ⟨by decide, fun h => hlevel h.2⟩, fun _ => rfl⟩
    | partialResult =>
      rw [advanceGate_partialResult]
      simp only [ne_eq, not_true, false_and, iff_false]
      intro h
      split at h
      · have hstep : WorkflowStepRunStatus.completed = .running := congrArg StepDb.step h
        cases hstep
      · have hstep : WorkflowStepRunStatus.completed = .failed := congrArg StepDb.step h
        cases hstep
    | blocked | needsInput | failed | cancelled =>
      rw [advanceGate_not_succeeded (by decide)]
      exact ⟨fun _ => ⟨by decide, fun h => absurd h.1 (by decide)⟩, fun _ => rfl⟩
  | error status errorCode hstatus =>
    rw [(advanceGate_error hstatus).1, (advanceGate_error hstatus).2]
    exact ⟨fun _ _ hnone => (by cases hnone), fun _ => rfl⟩

end

/-- The developer step of the fixed workflow while it is READY: the manager's step is
COMPLETED, the QA step waits for the developer's. -/
def developerReady : StepDb :=
  ⟨.ready, .none, .running, .none, false, .none, false,
    [⟨.completed, false, 0⟩, ⟨.pending, true, 0⟩]⟩

theorem developerReady_developing : developerReady.Developing where
  ready := rfl
  running := rfl
  unlinked := rfl
  unchallenged := rfl
  waited := ⟨⟨.pending, true, 0⟩, by decide, by decide⟩

/-- An unchallenged COMPLETED result. -/
theorem resumed_completes_unchallenged :
    resumed developerReady (.ofResult (developerResult .completed .none)) =
      advanced developerReady (.ofResult (developerResult .completed .none)) :=
  (resumed_eq_advanced_iff developerReady_developing (.result .completed .none)).mpr
      fun result h => by
    cases h
    decide

/-- A COMPLETED result that recommends human review. -/
def reviewedResult : Executed := .ofResult (developerResult .completed .humanReviewRecommended)

/-- `advance` leaves its step RUNNING with the challenge to be decided, the resume completes it
and readies the QA step. -/
theorem resumed_ignores_challenge :
    (advanced developerReady reviewedResult).step = .running ∧
      (advanced developerReady reviewedResult).challenge =
        .some ⟨.humanReviewRecommended, .completed, .some .developerWorker, .none, .none⟩ ∧
      (resumed developerReady reviewedResult).step = .completed ∧
      (resumed developerReady reviewedResult).challenge = .none ∧
      (resumed developerReady reviewedResult).others = [⟨.completed, false, 0⟩, ⟨.ready, true, 0⟩] ∧
      resumed developerReady reviewedResult ≠ advanced developerReady reviewedResult :=
  ⟨rfl, rfl, rfl, rfl, rfl, by decide⟩

end Novalton
