/-
The link between the criteria `dispatch` puts into a request to quality assurance and the
acceptance results of a verdict that lets the step complete.

`QAWorkerResult` is validated alone (`modules/qa_worker/contracts.py`), the gates of
`advance` and of an accepted challenge read its status and verdict
(`modules/orchestrator`), and neither sees the request: the ids of the acceptance results
are those the model chose.
-/
import Novalton.HandoffDispatch
import Novalton.StepServices

namespace Novalton.Specializations
open Contracts

variable {w : WordClass}

/-- The result as the orchestrator's gates read it. -/
def gated (result : QAWorkerResult) : AgentResult where
  status := result.status
  challenge := result.challenge
  verdict := .some result.verdict

/-- The step of a result completes: at once, or when the challenge written for it is
accepted. -/
def stepCompletes (role : SpecializationRole) (result : AgentResult) : Bool :=
  match advanceGate (.some role) (Executed.ofResult result) with
  | .complete _ => true
  | .challenge result _ =>
    (failureAfterAcceptance ⟨result.challenge, result.status, .some role, result.verdict,
      .some ⟨.acceptResult, .none⟩⟩).isNone
  | _ => false

/-- The step of quality assurance completes as passing. -/
def CompletesPassing (result : QAWorkerResult) : Prop :=
  stepCompletes .qaWorker (gated result) = true ∧
    (result.verdict = .pass ∨ result.verdict = .passWithWarnings)

/-- The acceptance results are for the criteria, and for no other id. -/
def Covers (criteria : List ValidationCriterion) (result : QAWorkerResult) : Prop :=
  ∀ id, id ∈ result.acceptanceResults.map (·.criterionId) ↔ id ∈ criteria.map (·.criterionId)

/-- The gates ask for a completed result with a passing verdict, and nothing else. -/
theorem completesPassing_iff {result : QAWorkerResult} :
    CompletesPassing result ↔ result.status = .completed ∧
      (result.verdict = .pass ∨ result.verdict = .passWithWarnings) := by
  have hall : ∀ (status : AgentResultStatus) (challenge : ChallengeLevel) (verdict : QAVerdict),
      (stepCompletes .qaWorker ⟨status, challenge, .some verdict⟩ = true ∧
        (verdict = .pass ∨ verdict = .passWithWarnings)) ↔
        status = .completed ∧ (verdict = .pass ∨ verdict = .passWithWarnings) := by
    intro status challenge verdict
    cases status <;> cases challenge <;> cases verdict <;> decide
  exact hall result.status result.challenge result.verdict

/-! ## The ids of a request and of a result -/

/-- The ids of the criteria in a request are `criterion_01` and so on. -/
theorem request_ids {workspaceRoot : Bool} {run : WorkflowRun} {handoff : WorkflowStepHandoff}
    {request : RoleRequest}
    (h : dispatchRequest w workspaceRoot run .qaWorker handoff = .ok request) :
    handoff.acceptanceCriteria.length ≤ 24 ∧ ∀ id, id ∈ request.acceptanceCriteria.map
      (·.criterionId) ↔
      id ∈ (List.range handoff.acceptanceCriteria.length).map criterionId := by
  simp only [dispatchRequest, RoleRequest.validate, Py.bind_eq_ok] at h
  obtain ⟨input, -, criteria, hcriteria, -, -, -, -, hrequest⟩ := h
  cases hrequest
  simp only [roleCriteria, validateCriteria, Py.bind_eq_ok, countBetween_ok] at hcriteria
  obtain ⟨-, hcount, values, hvalues, -, -, hsorted⟩ := hcriteria
  cases hsorted
  have hlen : handoff.acceptanceCriteria.length ≤ 24 := by
    have hmap : (requestedCriteria handoff.acceptanceCriteria).length =
        handoff.acceptanceCriteria.length := by
      rw [requestedCriteria, List.length_map, List.length_zipIdx]
    omega
  refine ⟨hlen, fun id => ?_⟩
  rw [← requestedCriteria_ids, ← map_of_mapM hvalues fun item hmem out hout =>
    ValidationCriterion_validate_id (requestedCriteria_item hlen hmem).2 hout]
  exact ((List.perm_insertionSort _ values).map _).mem_iff

theorem criterionIds_sorted {n : ℕ} (h : n ≤ 24) :
    ((List.range n).map criterionId).Pairwise (· ≤ ·) ∧ ((List.range n).map criterionId).Nodup := by
  have hall : ((List.range 24).map criterionId).Pairwise (· ≤ ·) ∧
    ((List.range 24).map criterionId).Nodup := by decide
  have hsublist : ((List.range n).map criterionId).Sublist ((List.range 24).map criterionId) :=
    (List.range_sublist.mpr h).map criterionId
  exact ⟨hall.1.sublist hsublist, hall.2.sublist hsublist⟩

/-- The acceptance results of an accepted result are in the order of their ids, each id once. -/
theorem result_ids {data result : QAWorkerResult} (h : data.validate w = .ok result) :
    (result.acceptanceResults.map (·.criterionId)).Pairwise (· ≤ ·) ∧
    (result.acceptanceResults.map (·.criterionId)).Nodup := by
  simp only [QAWorkerResult.validate, Py.bind_eq_ok, distinct, raiseIf_eq_ok, Bool.not_eq_false',
    decide_eq_true_eq] at h
  obtain ⟨-, -, values, -, -, -, defects, -, -, -, blockers, -, -, -, -, hnodup, -, -, -, -, -, -,
    hresult⟩ := h
  cases hresult
  constructor
  · rw [List.pairwise_map]
    exact List.pairwise_insertionSort (fun a b : AcceptanceResult => a.criterionId ≤ b.criterionId)
      values
  · exact ((List.perm_insertionSort _ values).map _).nodup_iff.mpr hnodup

/-- An accepted result covers the criteria of a request when it names exactly their ids. -/
theorem covers_iff {workspaceRoot : Bool} {run : WorkflowRun} {handoff : WorkflowStepHandoff}
    {request : RoleRequest}
    (hbuilt : dispatchRequest w workspaceRoot run .qaWorker handoff = .ok request)
    {data result : QAWorkerResult} (hresult : data.validate w = .ok result) :
    Covers request.acceptanceCriteria result ↔
      result.acceptanceResults.map
        (·.criterionId) = (List.range handoff.acceptanceCriteria.length).map criterionId := by
  obtain ⟨hcount, hids⟩ := request_ids hbuilt
  obtain ⟨hsorted, hnodup⟩ := result_ids hresult
  obtain ⟨hrange, hrangeNodup⟩ := criterionIds_sorted hcount
  constructor
  · intro hcovers
    have hperm := (List.perm_ext_iff_of_nodup hnodup hrangeNodup).mpr fun id =>
      (hcovers id).trans (hids id)
    exact hperm.eq_of_pairwise (fun _ _ _ _ hab hba => le_antisymm hab hba) hsorted hrange
  · intro heq id
    rw [heq, hids id]

/-! ## Coverage -/

/-- A result of one passing assessment of a criterion of the model's own. -/
def unrelatedPass : QAWorkerResult where
  status := .completed
  challenge := .none
  verdict := .pass
  acceptanceResults := [⟨"unrelated".toList, .pass⟩]
  defects := []
  blockers := []

theorem unrelatedPass_accepted (w : WordClass) : unrelatedPass.validate w = .ok unrelatedPass := by
  have hitem : identifierItem "unrelated".toList = .ok "unrelated".toList := by decide
  simp only [QAWorkerResult.validate, unrelatedPass, List.mapM_cons, List.mapM_nil,
    AcceptanceResult.validate, hitem, Py.ok_bind, pure_bind]
  rfl

theorem unrelated_ne_criterionId (index : ℕ) : "unrelated".toList ≠ criterionId index := by
  intro h
  have hhead : Option.some 'u' = .some 'c' := congrArg List.head? h
  exact absurd hhead (by decide)

/-- **What links the verdict to the request**: nothing. For the request `dispatch` builds
from any hand-off, an accepted result that completes the step as passing covers the
criteria exactly when the ids the model chose are `criterion_01` to the last one; and some
accepted result completes the step as passing and assesses none of the criteria. -/
theorem qa_coverage (w : WordClass) (workspaceRoot : Bool) (run : WorkflowRun)
    (handoff : WorkflowStepHandoff) (request : RoleRequest)
    (hbuilt : dispatchRequest w workspaceRoot run .qaWorker handoff = .ok request) :
    (∀ data result : QAWorkerResult, data.validate w = .ok result →
      ((CompletesPassing result → Covers request.acceptanceCriteria result) ↔
        (result.status ≠ .completed ∨ result.verdict = .fail ∨ result.verdict = .inconclusive ∨
          result.acceptanceResults.map
            (·.criterionId) = (List.range handoff.acceptanceCriteria.length).map criterionId))) ∧
      ∃ data result : QAWorkerResult, data.validate w = .ok result ∧ CompletesPassing result ∧
        ∀ id ∈ request.acceptanceCriteria.map (·.criterionId), id ∉ result.acceptanceResults.map
          (·.criterionId) := by
  constructor
  · intro data result hresult
    rw [completesPassing_iff, covers_iff hbuilt hresult]
    constructor
    · intro h
      by_cases hstatus : result.status = .completed
      · cases hverdict : result.verdict with
        | pass => exact .inr (.inr (.inr (h ⟨hstatus, .inl hverdict⟩)))
        | passWithWarnings => exact .inr (.inr (.inr (h ⟨hstatus, .inr hverdict⟩)))
        | fail => exact .inr (.inl rfl)
        | inconclusive => exact .inr (.inr (.inl rfl))
      · exact .inl hstatus
    · intro h ⟨hstatus, hverdict⟩
      rcases h with h | h | h | h
      · exact absurd hstatus h
      · rw [h] at hverdict
        exact absurd hverdict (by decide)
      · rw [h] at hverdict
        exact absurd hverdict (by decide)
      · exact h
  · refine ⟨unrelatedPass, unrelatedPass, unrelatedPass_accepted w,
      completesPassing_iff.mpr ⟨rfl, .inl rfl⟩, fun id hid hmem => ?_⟩
    rw [(request_ids hbuilt).2 id] at hid
    obtain ⟨index, -, hindex⟩ := List.mem_map.mp hid
    have hunrelated : id = "unrelated".toList := List.mem_singleton.mp hmem
    exact unrelated_ne_criterionId index (hunrelated.symm.trans hindex.symm)

/-- The evidence of a workflow with one criterion. -/
def parserEvidence : WorkflowStepHandoff where
  id := 4
  workflowPlanId := 3
  handoffType := .workerEvidence
  objective := "Fix the parser".toList
  acceptanceCriteria := ["It parses".toList]
  evidenceItems := []

theorem parserEvidence_built : ∃ request, dispatchRequest asciiWord true
    ⟨1, 2, 3⟩ .qaWorker parserEvidence = .ok request :=
  Py.isOk_iff.mp (by decide +kernel)

theorem qa_coverage_evidence :
    ∃ request, dispatchRequest asciiWord true ⟨1, 2, 3⟩ .qaWorker parserEvidence = .ok request ∧
      ∃ data result : QAWorkerResult, data.validate asciiWord = .ok result ∧
        CompletesPassing result ∧
        ∀ id ∈ request.acceptanceCriteria.map (·.criterionId), id ∉ result.acceptanceResults.map
          (·.criterionId) := by
  obtain ⟨request, hbuilt⟩ := parserEvidence_built
  exact ⟨request, hbuilt, (qa_coverage asciiWord true ⟨1, 2, 3⟩ parserEvidence request hbuilt).2⟩

/-- A verdict on another criterion than the requested one lets the step complete. -/
theorem unrelated_criterion_passes :
    ¬ ∀ (w : WordClass) (workspaceRoot : Bool) (run : WorkflowRun) (handoff :
    WorkflowStepHandoff) (request : RoleRequest)
      (data result : QAWorkerResult), dispatchRequest w workspaceRoot run .qaWorker handoff =
      .ok request →
        data.validate w = .ok result → CompletesPassing result →
          Covers request.acceptanceCriteria result := by
  intro h
  obtain ⟨request, hbuilt⟩ := parserEvidence_built
  have hpassing : CompletesPassing unrelatedPass := completesPassing_iff.mpr ⟨rfl, .inl rfl⟩
  have hcovers :=
    h asciiWord true ⟨1, 2, 3⟩ parserEvidence request unrelatedPass unrelatedPass hbuilt
    (unrelatedPass_accepted asciiWord) hpassing "unrelated".toList
  obtain ⟨index, -, hindex⟩ :=
    List.mem_map.mp (((request_ids hbuilt).2 _).mp (hcovers.mp (List.mem_singleton_self _)))
  exact unrelated_ne_criterionId index hindex.symm

end Novalton.Specializations
