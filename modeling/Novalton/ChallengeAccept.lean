/-
A step that `advance` leaves waiting on a challenge and that `resolve` then accepts, and
the same step with an unchallenged result: when the two end in the same rows.
-/
import Novalton.PlanServices

namespace Novalton.PlanServices

open Prog Contracts Workflow Specializations

section
variable {n : ℕ} (plan : Plan n)

/-! ## The two gates -/

section
variable (execution : Execution)

@[simp] theorem unchallenged_agentRun : execution.unchallenged.agentRun = execution.agentRun := by
  obtain ⟨id, handoffId, result⟩ := execution
  cases result <;> rfl

/-- What is stored for the next role does not depend on the challenge. -/
theorem withHandoff_unchallenged (db : PlanDb n) (run : WorkflowRun) (k : Fin n) :
    db.withHandoff plan run k execution.unchallenged = db.withHandoff plan run k execution := by
  obtain ⟨id, handoffId, result⟩ := execution
  cases result with
  | generic | manager | developer => rfl
  | qa result =>
    simp only [PlanDb.withHandoff]
    cases nextStep plan k <;> rfl

@[simp] theorem handoffThen_unchallenged (run : WorkflowRun) (k : Fin n) (wanted : Bool)
    (rest : Prog (PlanDb n) OrchestrationOutcome) :
    handoffThen plan run k execution.unchallenged wanted rest =
      handoffThen plan run k execution wanted rest := by
  simp only [handoffThen, withHandoff_unchallenged]

end

section
variable {role : Option SpecializationRole} {result : AgentResult}
  (hs : (mapResultStatus result.status).1 = .succeeded)
include hs

/-- The gate of a result with a meaningful challenge. -/
theorem advanceGate_meaningful (hm : result.challenge.meaningful = true) :
    advanceGate role (Executed.ofResult result) =
      .challenge result (role.any SpecializationRole.developer && result.status == .completed) := by
  have hwait : (Executed.ofResult result).status ≠ .waitingForApproval := by
    rw [show (Executed.ofResult result).status = .succeeded from hs]
    nofun
  rw [advanceGate, if_neg hwait]
  simp only [Executed.ofResult, hs, hm, if_true]

/-- The gate of a result without one: the checks on the status and the verdict, which are
those made of a challenge record when it is accepted. -/
theorem advanceGate_plain (hm : result.challenge.meaningful = false)
    (hrole : result.verdict.isSome = true ↔ role = .some .qaWorker)
    (decision : Option ChallengeResolutionRequest) :
    advanceGate role (Executed.ofResult result) =
      match failureAfterAcceptance
        ⟨result.challenge, result.status, role, result.verdict, decision⟩ with
      | .some code => .fail code
      | .none => .complete (role.any SpecializationRole.developer) := by
  have hwait : (Executed.ofResult result).status ≠ .waitingForApproval := by
    rw [show (Executed.ofResult result).status = .succeeded from hs]
    nofun
  obtain ⟨status, level, verdict⟩ := result
  rw [advanceGate, if_neg hwait]
  simp only [Executed.ofResult, hs, hm, Bool.false_eq_true, if_false]
  cases role with
  | none =>
    cases verdict with
    | none => rfl
    | some verdict => simp at hrole
  | some role =>
    cases role with
    | developerManager | developerWorker =>
      cases verdict with
      | none => cases hc : status != .completed <;>
          simp [failureAfterAcceptance, hc, SpecializationRole.developer, advanceGate.qaGate]
      | some verdict => simp at hrole
    | qaWorker =>
      cases verdict with
      | none => simp at hrole
      | some verdict =>
        cases hc : status != .completed <;> cases verdict <;>
          simp [failureAfterAcceptance, hc, SpecializationRole.developer, advanceGate.qaGate]

/-- A result the gate does not challenge fails its step or completes it. -/
theorem advanceGate_plain_ne_challenge (hm : result.challenge.meaningful = false)
    (hrole : result.verdict.isSome = true ↔ role = .some .qaWorker) {r : AgentResult}
    {handoff : Bool} :
    advanceGate role (Executed.ofResult result) ≠ .challenge r handoff := by
  rw [advanceGate_plain hs hm hrole .none]
  split <;> nofun

end

/-- Only a `QAWorkerResult` has a verdict. -/
theorem gated_verdict (result : RoleResult) : result.gated.verdict.isSome = true ↔
    result.role = .some .qaWorker := by
  cases result <;> simp [RoleResult.gated, RoleResult.role]

/-- The gate challenges the result of an agent run that succeeded. -/
theorem challenge_gated {execution : Execution} {r : AgentResult} {handoff : Bool}
    (h : advanceGate execution.result.role execution.executed = .challenge r handoff) :
    execution.executed.status = .succeeded ∧
      handoff = (execution.result.role.any SpecializationRole.developer &&
        execution.result.gated.status == .completed) := by
  have hexec : execution.executed = Executed.ofResult execution.result.gated := rfl
  rw [hexec] at h
  have hs : (mapResultStatus execution.result.gated.status).1 = .succeeded := by
    cases hstatus : execution.result.gated.status with
    | completed | partialResult => rfl
    | blocked | needsInput | failed | cancelled =>
      simp [advanceGate, Executed.ofResult, hstatus, mapResultStatus] at h
  refine ⟨hs, ?_⟩
  cases hm : execution.result.gated.challenge.meaningful with
  | true =>
    rw [advanceGate_meaningful hs hm] at h
    cases h
    rfl
  | false => exact absurd h (advanceGate_plain_ne_challenge hs hm (gated_verdict _))

/-- The code `_failure_after_acceptance` gives is a failure code, of a result that is handed
to no one. -/
theorem failureAfterAcceptance_valid {resolution : Challenge} {code : Text}
    (h : failureAfterAcceptance resolution = .some code) :
    failureCodeValid code = true ∧
      (resolution.role.any SpecializationRole.developer && resolution.resultStatus == .completed) =
      false := by
  obtain ⟨level, status, role, verdict, decision⟩ := resolution
  cases role with
  | none => cases h
  | some role =>
    cases role with
    | developerManager | developerWorker =>
      cases status with
      | completed => cases h
      | partialResult | blocked | needsInput | failed | cancelled =>
        cases h
        exact ⟨by decide, rfl⟩
    | qaWorker =>
      refine ⟨?_, rfl⟩
      by_cases hfail : verdict = .some .fail
      · subst hfail
        cases h
        decide
      by_cases hinconclusive : verdict = .some .inconclusive
      · subst hinconclusive
        cases h
        decide
      simp only [failureAfterAcceptance, if_neg hfail, if_neg hinconclusive] at h
      cases status with
      | completed => cases h
      | partialResult | blocked | needsInput | failed | cancelled =>
        cases h
        decide

/-- An accepted result that completes its step is handed on by a developer role. -/
theorem failure_none {execution : Execution} (h : (pendingResolution execution).failure = .none) :
    (execution.result.role.any SpecializationRole.developer && execution.result.gated.status ==
      .completed) =
      execution.result.role.any SpecializationRole.developer := by
  obtain ⟨id, handoffId, result⟩ := execution
  cases result with
  | generic | qa => rfl
  | manager level result | developer level result =>
    have hc : result.status = .completed := by
      by_contra hc
      simp [AgentChallengeResolution.failure, pendingResolution, failureAfterAcceptance,
        RoleResult.role, RoleResult.gated, hc] at h
    simp [RoleResult.role, RoleResult.gated, hc]

/-- **What the gate of `advance` makes of a result without its challenge is what
`_failure_after_acceptance` makes of the challenge record.** -/
theorem gate_unchallenged {execution : Execution} {r : AgentResult} {handoff : Bool}
    (h : advanceGate execution.result.role execution.executed = .challenge r handoff) :
    advanceGate execution.unchallenged.result.role execution.unchallenged.executed =
      match (pendingResolution execution).failure with
      | .some code => .fail code
      | .none => .complete handoff := by
  obtain ⟨hs, hhandoff⟩ := challenge_gated h
  have hstatus : (mapResultStatus execution.unchallenged.result.gated.status).1 = .succeeded := by
    rw [← hs]
    obtain ⟨id, handoffId, result⟩ := execution
    cases result <;> rfl
  have hm : execution.unchallenged.result.gated.challenge.meaningful = false := by
    obtain ⟨id, handoffId, result⟩ := execution
    cases result <;> rfl
  have hfailure : failureAfterAcceptance ⟨execution.unchallenged.result.gated.challenge,
      execution.unchallenged.result.gated.status, execution.unchallenged.result.role,
      execution.unchallenged.result.gated.verdict, .none⟩ =
          (pendingResolution execution).failure := by
    obtain ⟨id, handoffId, result⟩ := execution
    cases result <;> rfl
  have hrole : execution.unchallenged.result.role = execution.result.role := by
    obtain ⟨id, handoffId, result⟩ := execution
    cases result <;> rfl
  have hgate := advanceGate_plain hstatus hm (gated_verdict _) .none
  rw [hfailure] at hgate
  rw [show execution.unchallenged.executed =
    Executed.ofResult execution.unchallenged.result.gated from rfl, hgate, hhandoff]
  cases hf : (pendingResolution execution).failure with
  | some code => rfl
  | none => rw [failure_none hf, hrole]

/-! ## Rows -/

/-- The rows without the challenge record of `k`. -/
def PlanDb.without (db : PlanDb n) (k : Fin n) : PlanDb n :=
  { db with challenge := Function.update db.challenge k .none }

/-- The rows `advance` has when it has started the run and moved the step to RUNNING. -/
def PlanDb.moved (db : PlanDb n) (k : Fin n) : PlanDb n :=
  (if db.run = .created then db.moveRun .running .none else db).moveStep k .running .none

/-- The rows with the agent run linked. -/
def PlanDb.claimed (db : PlanDb n) (k : Fin n) (agentRun : AgentRun) : PlanDb n :=
  { db.moved k with agentRun := Function.update db.agentRun k (.some agentRun) }

/-- The rows of a completed step, and of the run if it was the last. -/
def PlanDb.completed (db : PlanDb n) (k : Fin n) : PlanDb n :=
  let db := (db.moveStep k .completed .none).readied plan k
  if db.allCompleted plan then db.moveRun .completed .none else db

/-- The rows of a failed step and its run. -/
def PlanDb.failed (db : PlanDb n) (k : Fin n) (code : Text) : PlanDb n :=
  (db.moveStep k .failed (.some code)).moveRun .failed (.some code)

section
variable (db : PlanDb n) (k : Fin n)

@[simp] theorem setChallenge_step (r : AgentChallengeResolution) :
    (db.setChallenge k r).step = db.step := rfl

@[simp] theorem setChallenge_run (r : AgentChallengeResolution) :
    (db.setChallenge k r).run = db.run := rfl

@[simp] theorem setChallenge_agentRun (r : AgentChallengeResolution) :
    (db.setChallenge k r).agentRun = db.agentRun := rfl

@[simp] theorem setChallenge_challenge (r : AgentChallengeResolution) :
    (db.setChallenge k r).challenge k = .some r :=
  Function.update_self ..

@[simp] theorem without_setChallenge (r : AgentChallengeResolution) :
    (db.setChallenge k r).without k = db.without k := by
  simp [PlanDb.without, PlanDb.setChallenge]

theorem completed_without : (db.completed plan k).without k = (db.without k).completed plan k := by
  have hall : (((db.without k).moveStep k .completed .none).readied plan k).allCompleted plan =
      ((db.moveStep k .completed .none).readied plan k).allCompleted plan := rfl
  simp only [PlanDb.completed, hall]
  split <;> rfl

@[simp] theorem moveStep_step (target : WorkflowStepRunStatus) (code : Option Text) :
    (db.moveStep k target code).step k = target :=
  Function.update_self ..

@[simp] theorem moveStep_run (target : WorkflowStepRunStatus) (code : Option Text) :
    (db.moveStep k target code).run = db.run := rfl

@[simp] theorem readied_run : (db.readied plan k).run = db.run := rfl

/-- A completed step is left completed by the loop over the dependents. -/
theorem readied_step_completed (h : db.step k = .completed) :
    (db.readied plan k).step k = .completed := by
  simp [PlanDb.readied, h]

theorem completed_step : (db.completed plan k).step k = .completed := by
  have h := readied_step_completed plan (db.moveStep k .completed .none) k (moveStep_step ..)
  simp only [PlanDb.completed]
  split
  · exact h
  · exact h

theorem failed_step (code : Text) : (db.failed k code).step k = .failed :=
  moveStep_step db k .failed (.some code)

theorem moved_run (h : db.run = .created ∨ db.run = .running) : (db.moved k).run = .running := by
  unfold PlanDb.moved
  split
  · rfl
  · rename_i hne
    exact h.resolve_left hne

@[simp] theorem moved_step : (db.moved k).step = Function.update db.step k .running := by
  unfold PlanDb.moved
  split <;> rfl

@[simp] theorem moved_agentRun : (db.moved k).agentRun = db.agentRun := by
  unfold PlanDb.moved
  split <;> rfl

@[simp] theorem moved_challenge : (db.moved k).challenge = db.challenge := by
  unfold PlanDb.moved
  split <;> rfl

theorem claimed_run (agentRun : AgentRun) (h : db.run = .created ∨ db.run = .running) :
    (db.claimed k agentRun).run = .running :=
  moved_run db k h

@[simp] theorem claimed_step (agentRun : AgentRun) :
    (db.claimed k agentRun).step = Function.update db.step k .running :=
  moved_step db k

@[simp] theorem claimed_agentRun (agentRun : AgentRun) :
    (db.claimed k agentRun).agentRun k = .some agentRun :=
  Function.update_self ..

@[simp] theorem claimed_challenge (agentRun : AgentRun) :
    (db.claimed k agentRun).challenge = db.challenge :=
  moved_challenge db k

end

/-! ## What the services write -/

section
variable {db db₀ : PlanDb n} {k : Fin n}

theorem transitionStep_ok {expected target : WorkflowStepRunStatus} {code : Option Text}
    (hallowed : stepTransitionAllowed expected target = true)
    (hcode : target = .failed → code.any failureCodeValid = true) (h : db.step k = expected) :
    transitionStep plan k expected target code ⟨db₀, db⟩ =
      (.ok (), ⟨if target = .completed then (db.moveStep k target code).readied plan k
        else db.moveStep k target code, if target = .completed then
          (db.moveStep k target code).readied plan k else db.moveStep k target code⟩) := by
  have hvalid : (target = .failed && !code.any failureCodeValid) = false := by
    by_cases ht : target = .failed
    · simp [hcode ht]
    · simp [ht]
  rw [transitionStep, bind_ok (read_apply _)]
  simp only [hallowed, hvalid, h, bne_self_eq_false, Bool.not_true, Bool.false_eq_true, if_false]
  rw [bind_ok (write_apply _ _)]
  rfl

theorem transitionRun_ok {expected target : WorkflowRunStatus} {code : Option Text}
    (h : db.run = expected) :
    transitionRun expected target code
      ⟨db, db⟩ = (.ok (), ⟨db.moveRun target code, db.moveRun target code⟩) := by
  rw [transitionRun, bind_ok (read_apply _)]
  simp only [h, bne_self_eq_false, Bool.false_eq_true, if_false]
  rw [bind_ok (write_apply _ _)]
  rfl

theorem linkAgentRun_ok {agentRun : AgentRun} (h : db.agentRun k = .none) :
    linkAgentRun k agentRun ⟨db, db⟩ =
      (.ok (), ⟨{ db with agentRun := Function.update db.agentRun k (.some agentRun) },
        { db with agentRun := Function.update db.agentRun k (.some agentRun) }⟩) := by
  rw [linkAgentRun, bind_ok (read_apply _)]
  simp only [h, Option.isSome_none, Bool.false_eq_true, if_false]
  rw [bind_ok (write_apply _ _)]
  rfl

/-- `_fail` of a claimed step. -/
theorem failStep_ok {code : Text} (hcode : failureCodeValid code = true) (hrun : db.run = .running)
    (hstep : db.step k = .running) :
    failStep plan k code
      ⟨db, db⟩ = (.ok .workflowFailed, ⟨db.failed k code, db.failed k code⟩) := by
  have hmove : transitionStep plan k .running .failed (.some code) ⟨db, db⟩ =
      (.ok (), ⟨db.moveStep k .failed (.some code), db.moveStep k .failed (.some code)⟩) :=
    transitionStep_ok plan rfl (fun _ => hcode) hstep
  have hfail : transitionRun .running .failed (.some code) ⟨db.moveStep k .failed (.some code),
    db.moveStep k .failed (.some code)⟩ =
      (.ok (), ⟨db.failed k code, db.failed k code⟩) := transitionRun_ok hrun
  rw [failStep, bind_ok hmove, failRun, if_pos hcode, bind_ok hfail]
  rfl

/-- The completion branch on a claimed step. -/
theorem completeStep_ok (hrun : db.run = .running) (hstep : db.step k = .running) :
    (completeStep plan k ⟨db₀, db⟩).2 = ⟨db.completed plan k, db.completed plan k⟩ := by
  have hmove : transitionStep plan k .running .completed .none ⟨db₀, db⟩ =
      (.ok (), ⟨(db.moveStep k .completed .none).readied plan k,
          (db.moveStep k .completed .none).readied plan k⟩) :=
    transitionStep_ok plan rfl nofun hstep
  rw [completeStep, bind_ok hmove, bind_ok (read_apply _)]
  have hrun' : ((db.moveStep k .completed .none).readied plan k).run = .running := hrun
  simp only [PlanDb.completed]
  generalize (db.moveStep k .completed .none).readied plan k = moved at hrun' ⊢
  cases moved.allCompleted plan with
  | true =>
    simp only [if_true]
    rw [completeRun, bind_ok (transitionRun_ok hrun')]
    rfl
  | false => rfl

/-- The challenge branch on a claimed step. -/
theorem challengeStep_ok {execution : Execution} (h : db.challenge k = .none) :
    (challengeStep k execution ⟨db₀, db⟩).2 =
      ⟨db.setChallenge k (pendingResolution execution),
        db.setChallenge k (pendingResolution execution)⟩ := by
  rw [challengeStep, bind_ok (read_apply _)]
  simp only [h, Option.isSome_none, Bool.false_eq_true, if_false]
  rw [bind_ok (write_apply _ _), bind_ok (commit_ok _)]
  rfl

/-- The rest of the branch finds the hand-off among the rows. -/
theorem handoffThen_ok {run : WorkflowRun} {execution : Execution}
    {rest : Prog (PlanDb n) OrchestrationOutcome} {stored : PlanDb n}
    (h : db.withHandoff plan run k execution = .ok stored) :
    handoffThen plan run k execution true rest ⟨db, db⟩ = rest ⟨db, stored⟩ := by
  have hbody : (do
      let db ← read
      let stored ← ofExcept (db.withHandoff plan run k execution)
      write fun _ => stored : Prog (PlanDb n) Unit) ⟨db, db⟩ = (.ok (), ⟨db, stored⟩) := by
    rw [bind_ok (read_apply _),
      bind_ok (x := ofExcept (db.withHandoff plan run k execution)) (by rw [ofExcept_apply, h])]
    rfl
  exact tryReturn_ok hbody

/-- `advance` on the READY step it has selected, up to the link. -/
theorem advanceStep_moved {run : WorkflowRun} {execution : Execution}
    (hassigned : plan.stepType k = .agentTask ∧ plan.assigned k = true)
    (hstep : db.step k = .ready) :
    advanceStep plan run k execution ⟨db, db⟩ =
      (linkAgentRun k execution.agentRun >>= fun _ => conclude plan run k execution)
      ⟨db.moved k, db.moved k⟩ := by
  have hensure : ensureRunning ⟨db, db⟩ =
      (.ok (), ⟨if db.run = .created then db.moveRun .running .none else db,
        if db.run = .created then db.moveRun .running .none else db⟩) := by
    rw [ensureRunning, bind_ok (read_apply _)]
    split
    · rename_i h
      exact transitionRun_ok h
    · rfl
  have hready : (if db.run = .created then db.moveRun .running .none else db).step k = .ready := by
    split <;> exact hstep
  have hclaim : transitionStep plan k .ready .running .none ⟨if db.run = .created then
    db.moveRun .running .none else db,
      if db.run = .created then db.moveRun .running .none else db⟩ = _ :=
        transitionStep_ok plan rfl nofun hready
  rw [advanceStep, if_pos hassigned, bind_ok hensure, bind_ok hclaim]
  simp only [reduceCtorEq, if_false]
  rfl

theorem advanceStep_linked {run : WorkflowRun} {execution : Execution}
    (hassigned : plan.stepType k = .agentTask ∧ plan.assigned k = true) (hstep : db.step k = .ready)
    (hagent : db.agentRun k = .none) :
    advanceStep plan run k execution ⟨db, db⟩ =
      conclude plan run k execution
        ⟨db.claimed k execution.agentRun, db.claimed k execution.agentRun⟩ := by
  have hlinked : (db.moved k).agentRun k = .none := by rw [moved_agentRun, hagent]
  rw [advanceStep_moved plan hassigned hstep, bind_ok (linkAgentRun_ok hlinked), moved_agentRun]
  rfl

/-- A step that has an agent run is not given another. -/
theorem advanceStep_conflict {run : WorkflowRun} {execution : Execution}
    (hassigned : plan.stepType k = .agentTask ∧ plan.assigned k = true) (hstep : db.step k = .ready)
    (hagent : db.agentRun k ≠ .none) :
    advanceStep plan run k execution
      ⟨db, db⟩ = (.error agentLinkConflict, ⟨db.moved k, db.moved k⟩) := by
  have hlinked : ((db.moved k).agentRun k).isSome = true := by
    rw [moved_agentRun]
    exact Option.isSome_iff_ne_none.mpr hagent
  have hconflict : linkAgentRun k execution.agentRun ⟨db.moved k, db.moved k⟩ =
      (.error agentLinkConflict, ⟨db.moved k, db.moved k⟩) := by
    rw [linkAgentRun, bind_ok (read_apply _)]
    simp only [hlinked, if_true]
    rfl
  rw [advanceStep_moved plan hassigned hstep, bind_error hconflict]

end

/-! ## Where a challenge is recorded -/

/-- `k` has no challenge record. -/
def Unchallenged (k : Fin n) (db : PlanDb n) : Prop := db.challenge k = .none

section
variable {k : Fin n}

theorem leaves_transitionStep (j : Fin n) (expected target : WorkflowStepRunStatus)
    (code : Option Text) :
    Leaves (Unchallenged k) (transitionStep plan j expected target code) := by
  refine Leaves.bind Leaves.read fun db => ?_
  split
  · exact Leaves.raise _
  · split
    · exact Leaves.raise _
    · split
      · exact Leaves.raise _
      · refine Leaves.bind (Leaves.write fun db h => ?_) fun _ => Leaves.commit _
        split
        · exact h
        · exact h

theorem leaves_transitionRun (expected target : WorkflowRunStatus) (code : Option Text) :
    Leaves (Unchallenged k) (transitionRun (n := n) expected target code) := by
  refine Leaves.bind Leaves.read fun db => ?_
  split
  · exact Leaves.raise _
  · exact Leaves.bind (Leaves.write fun db h => h) fun _ => Leaves.commit _

theorem leaves_failStep (j : Fin n) (code : Text) : Leaves (Unchallenged k)
    (failStep plan j code) := by
  refine Leaves.bind (leaves_transitionStep plan j _ _ _) fun _ => Leaves.bind ?_ fun _ =>
    Leaves.pure _
  unfold failRun
  split
  · exact leaves_transitionRun _ _ _
  · exact Leaves.raise _

theorem leaves_completeRun : Leaves (Unchallenged k) (completeRun (n := n)) :=
  leaves_transitionRun _ _ _

theorem leaves_completeStep (j : Fin n) : Leaves (Unchallenged k) (completeStep plan j) := by
  refine Leaves.bind (leaves_transitionStep plan j _ _ _) fun _ => Leaves.bind Leaves.read fun db =>
    ?_
  split
  · exact Leaves.bind leaves_completeRun fun _ => Leaves.pure _
  · exact Leaves.pure _

theorem leaves_ensureRunning : Leaves (Unchallenged k) (ensureRunning (n := n)) := by
  refine Leaves.bind Leaves.read fun db => ?_
  split
  · exact leaves_transitionRun _ _ _
  · exact Leaves.pure _

theorem leaves_challengeStep {j : Fin n} (hj : j ≠ k) (execution : Execution) :
    Leaves (Unchallenged k) (challengeStep j execution) := by
  refine Leaves.bind Leaves.read fun db => ?_
  split
  · exact Leaves.raise _
  · refine Leaves.bind (Leaves.write fun db h => ?_) fun _ => Leaves.bind (Leaves.commit _) fun _ =>
      Leaves.pure _
    exact (Function.update_of_ne hj.symm _ _).trans h

/-- A hand-off that is stored is all that changes. -/
theorem withHandoff_eq {db stored : PlanDb n} {run : WorkflowRun} {j : Fin n}
    {execution : Execution} (h : db.withHandoff plan run j execution = .ok stored) :
    ∃ handoff, stored = { db with handoff := handoff } := by
  unfold PlanDb.withHandoff at h
  split at h
  · split at h
    · split at h
      · cases h
      · cases h
        exact ⟨_, rfl⟩
    · cases h
      exact ⟨_, rfl⟩
    · cases h
  · cases h
    exact ⟨_, rfl⟩

section
variable {run : WorkflowRun} {j : Fin n} {execution : Execution} {wanted : Bool}
  {rest : Prog (PlanDb n) OrchestrationOutcome}

theorem leaves_handoffThen (hrest : Leaves (Unchallenged k) rest) :
    Leaves (Unchallenged k) (handoffThen plan run j execution wanted rest) := by
  unfold handoffThen
  split
  · refine Leaves.tryReturn ?_ (fun e p he => ?_) fun _ => hrest
    · intro s hs
      rw [bind_ok (read_apply s)]
      cases h : s.view.withHandoff plan run j execution with
      | error e => exact hs
      | ok stored =>
        obtain ⟨handoff, rfl⟩ := withHandoff_eq plan h
        exact ⟨hs.1, hs.2⟩
    · cases e with
      | application code =>
        cases he
        exact leaves_failStep plan j code
      | provider | providerCancelled | taskCancelled | other => cases he
  · exact hrest

/-- The rows a branch goes on with after the hand-off, where it asks for one. -/
def Handed (run : WorkflowRun) (k : Fin n) (execution : Execution) (wanted : Bool)
    (db base : PlanDb n) : Prop :=
  match wanted with
  | true => db.withHandoff plan run k execution = .ok base
  | false => base = db

theorem Handed.eq {db base : PlanDb n} (h : Handed plan run k execution wanted db base) :
    ∃ handoff, base = { db with handoff := handoff } := by
  cases wanted with
  | true => exact withHandoff_eq plan h
  | false => exact ⟨db.handoff, h⟩

theorem Handed.then {db base : PlanDb n} (h : Handed plan run k execution wanted db base) :
    handoffThen plan run k execution wanted rest ⟨db, db⟩ = rest ⟨db, base⟩ := by
  cases wanted with
  | true => exact handoffThen_ok plan h
  | false =>
    cases h
    rfl

/-- A branch that records a challenge has its hand-off. -/
theorem handed_of_recorded {db : PlanDb n} (hnone : db.challenge k = .none)
    (h : (handoffThen plan run j execution wanted rest ⟨db, db⟩).2.committed.challenge k ≠ .none) :
    ∃ base, Handed plan run j execution wanted db base := by
  cases wanted with
  | false => exact ⟨db, rfl⟩
  | true =>
    cases hstore : db.withHandoff plan run j execution with
    | ok stored => exact ⟨stored, hstore⟩
    | error e =>
      exfalso
      have hleft : Leaves (Unchallenged k) (handoffThen plan run j execution true (raise e)) :=
        leaves_handoffThen plan (Leaves.raise e)
      have hsame : handoffThen plan run j execution true rest ⟨db, db⟩ =
          handoffThen plan run j execution true (raise e) ⟨db, db⟩ := by
        have hbody : (do
            let db ← read
            let stored ← ofExcept (db.withHandoff plan run j execution)
            write fun _ => stored : Prog (PlanDb n) Unit) ⟨db, db⟩ = (.error e, ⟨db, db⟩) := by
          rw [bind_ok (read_apply _), bind_error (x :=
            ofExcept (db.withHandoff plan run j execution)) (by rw [ofExcept_apply, hstore])]
        simp only [handoffThen, if_true]
        cases e with
        | application code => rw [tryReturn_caught hbody rfl, tryReturn_caught hbody rfl]
        | provider | providerCancelled | taskCancelled | other =>
          rw [tryReturn_raised hbody rfl, tryReturn_raised hbody rfl]
      rw [hsame] at h
      exact h (hleft ⟨db, db⟩ ⟨hnone, hnone⟩).1

/-- **A challenge is recorded by the challenge branch of the step's own execution.** -/
theorem conclude_recorded {db : PlanDb n} (hnone : db.challenge k = .none)
    (h : (conclude plan run j execution ⟨db, db⟩).2.committed.challenge k ≠ .none) :
    j = k ∧ ∃ r handoff base, advanceGate execution.result.role execution.executed =
      .challenge r handoff ∧
      Handed plan run k execution handoff db base := by
  have hboth : Both (Unchallenged k) ⟨db, db⟩ := ⟨hnone, hnone⟩
  unfold conclude at h
  cases hgate : advanceGate execution.result.role execution.executed with
  | waitForApproval =>
    rw [hgate] at h
    have hleft :=
        Leaves.bind (leaves_transitionStep (k := k) plan j .running .waitingForApproval .none)
        fun _ =>
      Leaves.pure OrchestrationOutcome.waitingForHuman
    exact absurd (hleft _ hboth).1 h
  | fail code =>
    rw [hgate] at h
    exact absurd (leaves_failStep plan j code _ hboth).1 h
  | complete handoff =>
    rw [hgate] at h
    exact absurd (leaves_handoffThen plan (leaves_completeStep plan j) _ hboth).1 h
  | challenge r handoff =>
    rw [hgate] at h
    by_cases hj : j = k
    · subst hj
      obtain ⟨base, hbase⟩ := handed_of_recorded plan hnone h
      exact ⟨rfl, r, handoff, base, rfl, hbase⟩
    · exact absurd (leaves_handoffThen plan (leaves_challengeStep hj execution) _ hboth).1 h

/-- `advanceStep` records a challenge of the step it is for, which it claims. -/
theorem advanceStep_recorded {db : PlanDb n} (hnone : db.challenge k = .none)
    (hstep : db.step j = .ready)
    (h : (advanceStep plan run j execution ⟨db, db⟩).2.committed.challenge k ≠ .none) :
    j = k ∧ (plan.stepType k = .agentTask ∧ plan.assigned k = true) ∧ db.agentRun k = .none ∧
      ∃ r handoff base, advanceGate execution.result.role execution.executed =
        .challenge r handoff ∧
        Handed plan run k execution handoff (db.claimed k execution.agentRun) base := by
  by_cases hassigned : plan.stepType j = .agentTask ∧ plan.assigned j = true
  · by_cases hagent : db.agentRun j = .none
    · rw [advanceStep_linked plan hassigned hstep hagent] at h
      have hclaimed : (db.claimed j execution.agentRun).challenge k = .none := by
        rw [claimed_challenge, hnone]
      obtain ⟨rfl, hgate⟩ := conclude_recorded plan hclaimed h
      exact ⟨rfl, hassigned, hagent, hgate⟩
    · rw [advanceStep_conflict plan hassigned hstep hagent] at h
      exact absurd ((moved_challenge db j).symm ▸ hnone) h
  · rw [advanceStep, if_neg hassigned] at h
    have hleft : Leaves (Unchallenged k) (do
        ensureRunning (n := n)
        return OrchestrationOutcome.waitingForHuman) :=
      Leaves.bind leaves_ensureRunning fun _ => Leaves.pure _
    exact absurd (hleft ⟨db, db⟩ ⟨hnone, hnone⟩).1 h

theorem advance_allCompleted {db : PlanDb n} (hopen : db.run = .created ∨ db.run = .running)
    (hall : (db.allCompleted plan && !plan.order.isEmpty) = true) :
    advance plan run execution ⟨db, db⟩ =
      (completeRun >>= fun _ => pure OrchestrationOutcome.workflowCompleted :
      Prog (PlanDb n) OrchestrationOutcome) ⟨db, db⟩ := by
  rw [advance, bind_ok (read_apply _)]
  obtain hrun | hrun := hopen <;> simp only [hrun, hall, if_true]

theorem advance_none {db : PlanDb n} (hopen : db.run = .created ∨ db.run = .running)
    (hall : (db.allCompleted plan && !plan.order.isEmpty) = false)
    (hfind : (plan.order.find? fun k => db.step k = .ready) = .none) :
    (advance plan run execution ⟨db, db⟩).2 = ⟨db, db⟩ := by
  rw [advance, bind_ok (read_apply _)]
  obtain hrun | hrun := hopen <;> simp only [hrun, hall, hfind, Bool.false_eq_true, if_false] <;>
    rfl

/-- `advance` on a run that is not over goes on with the first READY step. -/
theorem advance_selected {db : PlanDb n} (hopen : db.run = .created ∨ db.run = .running)
    (hall : (db.allCompleted plan && !plan.order.isEmpty) = false)
    (hfind : (plan.order.find? fun k => db.step k = .ready) = .some j) :
    advance plan run execution ⟨db, db⟩ = advanceStep plan run j execution ⟨db, db⟩ := by
  rw [advance, bind_ok (read_apply _)]
  obtain hrun | hrun := hopen <;> simp only [hrun, hall, hfind, Bool.false_eq_true, if_false]

/-- What `advance` found if it left `k` with a challenge it did not have: a run not ended
and `k` the READY step to select. -/
theorem advance_recorded {db : PlanDb n} (hnone : db.challenge k = .none)
    (h : (advance plan run execution ⟨db, db⟩).2.committed.challenge k ≠ .none) :
    (∀ execution', advance plan run execution' ⟨db, db⟩ =
      advanceStep plan run k execution' ⟨db, db⟩) ∧
      (db.run = .created ∨ db.run = .running) ∧ db.step k = .ready ∧
      (plan.stepType k = .agentTask ∧ plan.assigned k = true) ∧ db.agentRun k = .none ∧
      ∃ r handoff base, advanceGate execution.result.role execution.executed =
        .challenge r handoff ∧
        Handed plan run k execution handoff (db.claimed k execution.agentRun) base := by
  have hopen : db.run = .created ∨ db.run = .running := by
    by_contra hclosed
    rw [advance, bind_ok (read_apply _)] at h
    cases hrun : db.run with
    | created => exact hclosed (.inl hrun)
    | running => exact hclosed (.inr hrun)
    | completed | failed | cancelled =>
      simp only [hrun] at h
      exact h hnone
  cases hall : db.allCompleted plan && !plan.order.isEmpty with
  | true =>
    rw [advance_allCompleted plan hopen hall] at h
    have hleft := Leaves.bind (leaves_completeRun (k := k) (n := n)) fun _ =>
      Leaves.pure OrchestrationOutcome.workflowCompleted
    exact absurd (hleft ⟨db, db⟩ ⟨hnone, hnone⟩).1 h
  | false =>
    cases hfind : plan.order.find? fun k => db.step k = .ready with
    | none =>
      rw [advance_none plan hopen hall hfind] at h
      exact absurd hnone h
    | some j =>
      rw [advance_selected plan hopen hall hfind] at h
      have hready : db.step j = .ready := by simpa using List.find?_some hfind
      obtain ⟨rfl, hassigned, hagent, hgate⟩ := advanceStep_recorded plan hnone hready h
      exact ⟨fun _ => advance_selected plan hopen hall hfind, hopen, hready, hassigned, hagent,
        hgate⟩

end

end

/-! ## Acceptance -/

/-- The rows of a step whose result is accepted without a challenge. -/
def PlanDb.accepted (db : PlanDb n) (k : Fin n) (failure : Option Text) : PlanDb n :=
  match failure with
  | .some code => db.failed k code
  | .none => db.completed plan k

/-- The rows on which a challenge is recorded: the step is claimed and its agent run,
which succeeded, is linked. -/
structure Waiting (k : Fin n) (agentRunId : ℕ) (base : PlanDb n) : Prop where
  run : base.run = .running
  step : base.step k = .running
  agentRun : base.agentRun k = .some ⟨agentRunId, .succeeded⟩
  challenge : base.challenge k = .none

section
variable {k : Fin n} {run : WorkflowRun} {execution : Execution} {base : PlanDb n}

theorem accepted_without (failure : Option Text) :
    (base.accepted plan k failure).without k = (base.without k).accepted plan k failure := by
  cases failure with
  | some code => rfl
  | none => exact completed_without plan base k

/-- A step that has been accepted is not RUNNING. -/
theorem accepted_step_ne_running (failure : Option Text) :
    (base.accepted plan k failure).step k ≠ .running := by
  intro h
  cases failure with
  | some code =>
    have hfailed := failed_step base k code
    rw [PlanDb.accepted] at h
    simp [hfailed] at h
  | none =>
    have hcompleted := completed_step plan base k
    rw [PlanDb.accepted] at h
    simp [hcompleted] at h

/-- What `advance` makes of the unchallenged result of a claimed step. -/
theorem conclude_unchallenged {db : PlanDb n} (hwaiting : Waiting k execution.agentRunId base)
    {r : AgentResult} {handoff : Bool}
    (hgate : advanceGate execution.result.role execution.executed = .challenge r handoff)
    (hhanded : Handed plan run k execution handoff db base)
    (hdb : db.run = .running ∧ db.step k = .running) :
    (conclude plan run k execution.unchallenged ⟨db, db⟩).2.committed = base.accepted plan k
    (pendingResolution execution).failure := by
  unfold conclude
  rw [gate_unchallenged hgate]
  cases hfailure : (pendingResolution execution).failure with
  | some code =>
    obtain ⟨hcode, hnot⟩ := failureAfterAcceptance_valid hfailure
    obtain ⟨_, hhandoff⟩ := challenge_gated hgate
    have hfalse : handoff = false := hhandoff.trans hnot
    subst hfalse
    cases hhanded
    simp only
    rw [failStep_ok plan hcode hdb.1 hdb.2]
    rfl
  | none =>
    simp only
    rw [handoffThen_unchallenged, hhanded.then, completeStep_ok plan hwaiting.run hwaiting.step]
    rfl

/-- The check of `resolve` on the rows passes when no other step is RUNNING. -/
theorem activeWaitingStep_iff (hwaiting : Waiting k execution.agentRunId base)
    (r : AgentChallengeResolution) :
    activeWaitingStep plan (base.setChallenge k r) k (pendingResolution execution) = true ↔
      ∀ p, p ≠ k → base.step p ≠ .running := by
  simp only [activeWaitingStep, setChallenge_run, setChallenge_step, setChallenge_agentRun,
    hwaiting.run, hwaiting.step, hwaiting.agentRun, pendingResolution, decide_true, Bool.true_and,
      List.all_eq_true, decide_eq_true_eq, Bool.or_eq_true]
  constructor
  · intro h p hp
    exact of_decide_eq_true ((h p (plan.order_all p)).resolve_left hp)
  · intro h p _
    by_cases hp : p = k
    · exact .inl hp
    · exact .inr (decide_eq_true (h p hp))

/-- `_transition_accepted` on the rows of a waiting step. -/
theorem transitionAccepted_ok (db₀ base : PlanDb n) (resolution : AgentChallengeResolution)
    (hrun : base.run = .running) (hstep : base.step k = .running) :
    ∃ outcome, transitionAccepted plan k resolution
      ⟨db₀, base⟩ = (.ok outcome, ⟨db₀, base.accepted plan k resolution.failure⟩) := by
  unfold transitionAccepted
  cases resolution.failure with
  | some code =>
    refine ⟨.workflowFailed, ?_⟩
    simp only [transitionFailed]
    rw [bind_ok (read_apply _)]
    simp only [hstep, hrun, and_self, if_true]
    rfl
  | none =>
    have hrun' : ((base.moveStep k .completed .none).readied plan k).run = .running := hrun
    simp only
    rw [bind_ok (read_apply _)]
    simp only [hstep, if_true]
    rw [bind_ok (write_apply _ _), bind_ok (read_apply _)]
    simp only [PlanDb.accepted, PlanDb.completed]
    generalize (base.moveStep k .completed .none).readied plan k = moved at hrun' ⊢
    cases moved.allCompleted plan with
    | true =>
      simp only [Bool.not_true, Bool.false_eq_true, if_false, hrun', if_true]
      exact ⟨.workflowCompleted, rfl⟩
    | false => exact ⟨.stepCompleted, rfl⟩

section
variable (hwaiting : Waiting k execution.agentRunId base)
  (hlevel : execution.result.gated.challenge = .humanReviewRecommended) (policy : PolicyEffect)
  (reason : Option Text)
include hlevel

/-- `resolve` up to its check of the rows. -/
theorem resolve_checked :
    resolve plan k ⟨.acceptResult, reason⟩ policy
      ⟨base.setChallenge k (pendingResolution execution),
      base.setChallenge k (pendingResolution execution)⟩ =
      (if !activeWaitingStep plan (base.setChallenge k (pendingResolution execution)) k
        (pendingResolution execution) then
        raise resolutionConflict
      else if policy = .block then raise (.application "challenge_resolution_policy_blocked".toList)
      else do
        write (·.setChallenge k { pendingResolution execution with decision := .some ⟨.acceptResult, reason⟩ })
        let outcome ← transitionAccepted plan k { pendingResolution execution with decision := .some ⟨.acceptResult, reason⟩ }
        commit .ok
        return outcome)
      ⟨base.setChallenge k (pendingResolution execution), base.setChallenge k (pendingResolution execution)⟩ := by
  have hblock : (pendingResolution execution).challengeLevel ≠ .blockRecommended := by
    rw [show (pendingResolution execution).challengeLevel = .humanReviewRecommended from hlevel]
    nofun
  have hdecision : (pendingResolution execution).decision = .none := rfl
  rw [resolve, bind_ok (read_apply _)]
  simp only [setChallenge_challenge, hdecision, hblock, false_and, if_false]

include hwaiting

/-- Where the check passes, the result is accepted as an unchallenged one is. -/
theorem resolve_accepts (hpolicy : policy ≠ .block) (halone : ∀ p, p ≠ k → base.step p ≠ .running) :
    (resolve plan k ⟨.acceptResult, reason⟩ policy
        ⟨base.setChallenge k (pendingResolution execution), base.setChallenge k (pendingResolution execution)⟩).2.committed.without k =
      (base.accepted plan k (pendingResolution execution).failure).without k := by
  have hactive := (activeWaitingStep_iff plan hwaiting (pendingResolution execution)).mpr halone
  rw [resolve_checked plan hlevel]
  simp only [hactive, Bool.not_true, Bool.false_eq_true, if_false, if_neg hpolicy]
  rw [bind_ok (write_apply _ _)]
  obtain ⟨outcome, haccepted⟩ := transitionAccepted_ok plan
    (base.setChallenge k (pendingResolution execution))
    ((base.setChallenge k (pendingResolution execution)).setChallenge k
      { pendingResolution execution with decision := .some ⟨.acceptResult, reason⟩ })
    { pendingResolution execution with decision := .some ⟨.acceptResult, reason⟩ } hwaiting.run hwaiting.step
  rw [bind_ok haccepted, bind_ok (commit_ok _), pure_apply]
  change PlanDb.without (PlanDb.accepted plan _ k _) k = _
  rw [accepted_without, accepted_without, without_setChallenge, without_setChallenge]
  rfl

/-- Where it does not, nothing is written. -/
theorem resolve_refuses (h : ¬ (policy ≠ .block ∧ ∀ p, p ≠ k → base.step p ≠ .running)) :
    (resolve plan k ⟨.acceptResult, reason⟩ policy
        ⟨base.setChallenge k (pendingResolution execution), base.setChallenge k (pendingResolution execution)⟩).2.committed =
      base.setChallenge k (pendingResolution execution) := by
  rw [resolve_checked plan hlevel]
  cases hactive : activeWaitingStep plan (base.setChallenge k (pendingResolution execution)) k
      (pendingResolution execution) with
  | false => rfl
  | true =>
    have halone := (activeWaitingStep_iff plan hwaiting _).mp hactive
    have hpolicy : policy = .block := by
      by_contra hpolicy
      exact h ⟨hpolicy, halone⟩
    simp only [Bool.not_true, Bool.false_eq_true, if_false, if_pos hpolicy]
    rfl

end

/-- **Accepting the challenge of a step ends where an unchallenged result would have,
if and only if no other step was RUNNING and the policy does not block the decision.** -/
theorem accepted_as_unchallenged (db : PlanDb n) (policy : PolicyEffect) (reason : Option Text)
    (hnone : db.challenge k = .none)
    (hlevel : execution.result.gated.challenge = .humanReviewRecommended)
    (hwaits : ∃ resolution, (advance plan run execution ⟨db, db⟩).2.committed.challenge k =
    .some resolution ∧ resolution.decision = .none) :
    (resolve plan k ⟨.acceptResult, reason⟩ policy
        ⟨(advance plan run execution ⟨db, db⟩).2.committed,
          (advance plan run execution ⟨db, db⟩).2.committed⟩).2.committed.without k =
      (advance plan run execution.unchallenged ⟨db, db⟩).2.committed.without k ↔
      policy ≠ .block ∧ ∀ p, p ≠ k → db.step p ≠ .running := by
  obtain ⟨resolution, hrecorded, _⟩ := hwaits
  have hsome : (advance plan run execution ⟨db, db⟩).2.committed.challenge k ≠ .none := by
    rw [hrecorded]
    nofun
  obtain ⟨hadvance, hopen, hready, hassigned, hagent, r, handoff, base, hgate, hhanded⟩ :=
    advance_recorded plan hnone hsome
  obtain ⟨hsucceeded, _⟩ := challenge_gated hgate
  obtain ⟨stored, hbase⟩ := hhanded.eq
  have hrunning : (db.claimed k execution.agentRun).run = .running := claimed_run db k _ hopen
  have hclaimed : (db.claimed k execution.agentRun).step k = .running := by
    rw [claimed_step]
    exact Function.update_self ..
  have hwaiting : Waiting k execution.agentRunId base := by
    rw [hbase]
    refine ⟨hrunning, hclaimed, ?_, ?_⟩
    · rw [show ({ db.claimed k execution.agentRun with handoff := stored } :
        PlanDb n).agentRun = _ from rfl, claimed_agentRun, Execution.agentRun, hsucceeded]
    · rw [show ({ db.claimed k execution.agentRun with handoff := stored } :
        PlanDb n).challenge = _ from rfl, claimed_challenge, hnone]
  have hothers : (∀ p, p ≠ k → base.step p ≠ .running) ↔ ∀ p, p ≠ k → db.step p ≠ .running := by
    have hstep : base.step = Function.update db.step k .running := by
      rw [hbase]
      exact claimed_step db k execution.agentRun
    rw [hstep]
    refine forall_congr' fun p => imp_congr_right fun hp => ?_
    rw [Function.update_of_ne hp]
  have hwaits : (advance plan run execution ⟨db, db⟩).2.committed =
      base.setChallenge k (pendingResolution execution) := by
    rw [hadvance, advanceStep_linked plan hassigned hready hagent, conclude, hgate]
    simp only
    rw [hhanded.then, challengeStep_ok hwaiting.challenge]
  have hplain : (advance plan run execution.unchallenged ⟨db, db⟩).2.committed =
      base.accepted plan k (pendingResolution execution).failure := by
    rw [hadvance, advanceStep_linked plan hassigned hready hagent, unchallenged_agentRun]
    exact conclude_unchallenged plan hwaiting hgate hhanded ⟨hrunning, hclaimed⟩
  rw [hwaits, hplain, ← hothers]
  constructor
  · intro hsame
    by_contra hnot
    rw [resolve_refuses plan hwaiting hlevel policy reason hnot] at hsame
    have hstep : base.step k = (base.accepted plan k (pendingResolution execution).failure).step
        k :=
      congrArg (fun db => db.step k) hsame
    exact accepted_step_ne_running plan _ (hstep.symm.trans hwaiting.step)
  · intro ⟨hpolicy, halone⟩
    exact resolve_accepts plan hwaiting hlevel policy reason hpolicy halone

end

end

/-- The execution of a step with a COMPLETED result a human is to review. -/
def reviewed (agentRunId : ℕ) : Execution :=
  ⟨agentRunId, 4, .generic .completed .humanReviewRecommended⟩

/-- The first step of a run, challenged and accepted. -/
theorem accepted_as_unchallenged_first :
    (resolve joinPlan 0 ⟨.acceptResult, .some ['r']⟩ .allow
        ⟨(advance joinPlan ⟨1, 2, 3⟩ (reviewed 5) ⟨createRun joinPlan,
          createRun joinPlan⟩).2.committed,
            (advance joinPlan ⟨1, 2, 3⟩ (reviewed 5) ⟨createRun joinPlan,
            createRun joinPlan⟩).2.committed⟩).2.committed.without 0 =
      (advance joinPlan ⟨1, 2, 3⟩ (reviewed 5).unchallenged ⟨createRun joinPlan,
        createRun joinPlan⟩).2.committed.without 0 :=
  (accepted_as_unchallenged joinPlan (createRun joinPlan) .allow (.some ['r']) rfl rfl ⟨_, rfl,
    rfl⟩).mpr ⟨by decide, by decide⟩

/-- A branch that is challenged while another is: unchallenged it completes, and accepting
its challenge is refused. -/
theorem challenged_branch_refused :
    ¬ ∀ (plan : Plan 3) (run : WorkflowRun) (first execution : Execution) (db : PlanDb 3) (k :
    Fin 3),
      db = (advance plan run first ⟨createRun plan, createRun plan⟩).2.committed →
        db.challenge k = .none →
      execution.result.gated.challenge = .humanReviewRecommended →
      (∃ resolution, (advance plan run execution ⟨db, db⟩).2.committed.challenge k =
        .some resolution ∧ resolution.decision = .none) →
      (resolve plan k ⟨.acceptResult, .none⟩ .allow
          ⟨(advance plan run execution ⟨db, db⟩).2.committed,
            (advance plan run execution ⟨db, db⟩).2.committed⟩).2.committed.without k =
        (advance plan run execution.unchallenged ⟨db, db⟩).2.committed.without k := by
  intro h
  have hsame := h joinPlan ⟨1, 2, 3⟩ (reviewed 5) (reviewed 6) _ 1 rfl rfl rfl ⟨_, rfl, rfl⟩
  have hstep := congrArg (fun db => db.step 1) hsame
  revert hstep
  decide

end Novalton.PlanServices
