/-
Which persisted hand-offs `dispatch` can build a request from.

Lengths and counts always fit: what a schema admits is shorter than what the next one
allows, also with the words put before it. What does not fit is text: the creation of a
workflow looks for executable content, `AgentInput` and `ValidationCriterion` look for
control characters and credentials; and an identifier or a path can be free of
credentials where the line composed of it is not.
-/
import Mathlib.Data.List.Dedup
import Novalton.HandoffText

namespace Novalton.Specializations
open Contracts

variable {w : WordClass}

/-! ## Lines -/

/-- What stands before the first colon of a value in the evidence. -/
def evidenceTags : List Text :=
  ["task", "output", "capability", "acceptance", "change:CREATE", "change:MODIFY", "change:DELETE",
    "change:CONFIG", "change:TEST"].map String.toList

/-- A constant text that is fit for a line. -/
def fits (text : Text) : Bool :=
  text.head?.any (fun c => !isSpace c) && text.getLast?.any (fun c => !isSpace c) &&
    text.all fun c => !isControl c

theorem fit_of_fits {text : Text} (h : fits text = true) : Fit text.length text := by
  rw [fits, Bool.and_eq_true, Bool.and_eq_true] at h
  obtain ⟨⟨hhead, hlast⟩, hcontrol⟩ := h
  refine ⟨⟨fun c hc => ?_, fun c hc => ?_⟩, fun hnil => ?_, Nat.le_refl _, fun c hc => ?_⟩
  · rw [hc] at hhead
    exact Bool.not_eq_true' _ ▸ hhead
  · rw [hc] at hlast
    exact Bool.not_eq_true' _ ▸ hlast
  · rw [hnil] at hhead
    exact Bool.false_ne_true hhead
  · have hall := List.all_eq_true.mp hcontrol c hc
    exact Bool.not_eq_true' _ ▸ hall

/-- The beginnings of the lines of evidence: each fits, and no credential stands in it. -/
theorem evidenceTags_checked : ∀ tag ∈ evidenceTags, (CREDENTIAL asciiWord).erase.search
    (metadataLine tag ++ [':']) = false ∧
    fits (metadataLine tag ++ [':']) = true ∧ (metadataLine tag ++ [':']).length ≤ 45 := by
  decide

/-- No credential stands in a tag, nor across it and the words before it. -/
theorem tag_no_credential {tag : Text} (h : tag ∈ evidenceTags) : (CREDENTIAL w).search
    (metadataLine tag ++ [':']) = false :=
  Regex.search_eq_false_of_erase (evidenceTags_checked tag h).1

theorem tag_fits {tag : Text} (h : tag ∈ evidenceTags) :
    fits (metadataLine tag ++ [':']) = true ∧ (metadataLine tag ++ [':']).length ≤ 45 :=
  (evidenceTags_checked tag h).2

/-- A line of evidence is accepted when its value holds no credential. -/
theorem line_isOk (tag : Text) {value : Text} (htag : tag ∈ evidenceTags) (hvalue : Fit 300 value) :
    (shortText w (metadataLine (tag ++ ':' :: value))).isOk = true ↔
    (CREDENTIAL w).search value = false := by
  have hcolon : metadataLine (tag ++ ':' :: value) = metadataLine tag ++ ':' :: value :=
    (List.append_assoc _ _ _).symm
  have hline : metadataLine tag ++ ':' :: value = (metadataLine tag ++ [':']) ++ value := by
    simp only [List.append_assoc, List.cons_append, List.nil_append]
  obtain ⟨hfits, hlen⟩ := tag_fits htag
  have hfit : Fit 500 (metadataLine tag ++ ':' :: value) := by
    rw [hline]
    exact ((fit_of_fits hfits).append hvalue).mono
      (Nat.le_trans (Nat.add_le_add_right hlen 300) (by decide))
  have hsearch : (CREDENTIAL w).search (metadataLine tag ++ ':' :: value) =
      (CREDENTIAL w).search value := by
    rw [CREDENTIAL_split, tag_no_credential htag, Bool.false_or]
  rw [hcolon, shortText_fit hfit, hsearch]
  cases (CREDENTIAL w).search value <;> simp

/-! ## Evidence -/

theorem mem_uniqueSorted {text : Text} {values : List Text} : text ∈ uniqueSorted values ↔
    text ∈ values := by
  rw [uniqueSorted, List.mem_insertionSort, List.mem_dedup]

theorem uniqueSorted_length_le (values : List Text) :
    (uniqueSorted values).length ≤ values.length := by
  rw [uniqueSorted, List.length_insertionSort]
  exact (List.dedup_sublist values).length_le

/-- What a validated task hands on. -/
structure ValidTask (proposal : ProposedWorkerTask) : Prop where
  taskKey : Fit 64 proposal.taskKey ∧ ∀ c ∈ proposal.taskKey, identifierChar c = true
  expectedOutput : Fit 100 proposal.expectedOutput
  capabilities : ∀ value ∈ proposal.requiredCapabilities, Fit 100 value
  count : proposal.requiredCapabilities.length ≤ 12

theorem ProposedWorkerTask_validate_ok {data proposal : ProposedWorkerTask}
    (h : data.validate = .ok proposal) : ValidTask proposal := by
  simp only [ProposedWorkerTask.validate, Py.bind_eq_ok, countBetween_ok] at h
  obtain ⟨key, hkey, -, hcount, capabilities, hcapabilities, -, -, dependencies, -, -, -, output,
    houtput, hproposal⟩ := h
  cases hproposal
  refine ⟨taskKeyItem_ok hkey, (identifierItem_ok houtput).1, fun value hvalue => ?_, ?_⟩
  · obtain ⟨raw, -, hraw⟩ := mem_of_mapM hcapabilities value (mem_uniqueSorted.mp hvalue)
    exact (identifierItem_ok hraw).1
  · have hlen := mapM_ok_length hcapabilities
    have hle := uniqueSorted_length_le capabilities
    change (uniqueSorted capabilities).length ≤ 12
    omega

theorem DeveloperManagerResult_validate_ok {data result : DeveloperManagerResult}
    (h : data.validate = .ok result) :
    ∀ proposal ∈ result.proposedTasks, ValidTask proposal := by
  simp only [DeveloperManagerResult.validate, Py.bind_eq_ok] at h
  obtain ⟨-, -, tasks, htasks, -, -, hresult⟩ := h
  cases hresult
  intro proposal hproposal
  obtain ⟨raw, -, hraw⟩ := mem_of_mapM htasks proposal hproposal
  exact ProposedWorkerTask_validate_ok hraw

/-- No credential stands in a task key: it has no blank, no colon and no hyphen. -/
theorem taskKey_no_credential {key : Text} (h : ∀ c ∈ key, identifierChar c = true) :
    (CREDENTIAL w).search key = false := by
  refine Regex.search_eq_false_of_needs (p := fun c => identifierChar c = false) ?_ fun c hc hp =>
    ?_
  · refine CREDENTIAL_needs (fun c hc => ?_) (by decide) (by decide)
      (SECRET_KEY_needs '-' (by decide) fun c hc => ?_)
    · rw [← Bool.not_eq_true]
      intro hid
      have hplain : plainChar c = true := by rw [plainChar, hid, Bool.true_or, Bool.true_or]
      rw [plainChar_not_space hplain] at hc
      exact Bool.false_ne_true hc
    · rw [← Bool.not_eq_true]
      intro hid
      have hplain : plainChar c = true := by rw [plainChar, hid, Bool.true_or, Bool.true_or]
      have hfold : foldCase c = c := by
        refine foldCase_of_lower ?_
        have hrange : (97 ≤ c.toNat ∧ c.toNat ≤ 122) ∨ (48 ≤ c.toNat ∧ c.toNat ≤ 57) ∨ c = '_' := by
          simpa [identifierChar, lowercase_iff, digit_iff, or_assoc] using hid
        rcases hrange with hrange | hrange | hrange
        · omega
        · omega
        · rw [hrange]
          decide
      rw [← hfold, hc] at hid
      revert hid
      decide
  · rw [h c hc] at hp
    exact Bool.false_ne_true hp.symm

/-- The evidence of an assignment is accepted when neither the expected output nor a
capability of the task holds a credential. -/
theorem assignmentEvidence_accepted {proposal : ProposedWorkerTask} (h : ValidTask proposal) :
    (∀ item ∈ (assignmentEvidence proposal).take 29, (shortText w (metadataLine item)).isOk =
      true) ↔
      (CREDENTIAL w).search proposal.expectedOutput = false ∧
        ∀ value ∈ proposal.requiredCapabilities, (CREDENTIAL w).search value = false := by
  have hall : (assignmentEvidence proposal).take 29 = assignmentEvidence proposal := by
    refine List.take_of_length_le ?_
    have hcount := h.count
    simp only [assignmentEvidence, List.length_append, List.length_cons, List.length_nil,
      List.length_map]
    omega
  have htask : (shortText w (metadataLine ("task:".toList ++ proposal.taskKey))).isOk = true :=
    (line_isOk "task".toList (by decide) (h.taskKey.1.mono (by decide))).mpr
      (taskKey_no_credential h.taskKey.2)
  have houtput :
      (shortText w (metadataLine ("output:".toList ++ proposal.expectedOutput))).isOk = true ↔ _ :=
    line_isOk "output".toList (by decide) (h.expectedOutput.mono (by decide))
  have hcapability : ∀ value ∈ proposal.requiredCapabilities,
      ((shortText w (metadataLine ("capability:".toList ++ value))).isOk = true ↔
          (CREDENTIAL w).search value = false) :=
    fun value hvalue =>
      line_isOk "capability".toList (by decide) ((h.capabilities value hvalue).mono (by decide))
  rw [hall, assignmentEvidence]
  constructor
  · intro hitems
    refine ⟨houtput.mp (hitems _ (by simp)), fun value hvalue =>
      (hcapability value hvalue).mp (hitems _ ?_)⟩
    exact List.mem_append_right _ (List.mem_map.mpr ⟨value, hvalue, rfl⟩)
  · intro ⟨hout, hcap⟩ item hitem
    rcases List.mem_append.mp hitem with hitem | hitem
    · rcases List.mem_cons.mp hitem with heq | hitem
      · rw [heq]
        exact htask
      · rw [List.mem_singleton.mp hitem]
        exact houtput.mpr hout
    · obtain ⟨value, hvalue, heq⟩ := List.mem_map.mp hitem
      rw [← heq]
      exact (hcapability value hvalue).mpr (hcap value hvalue)

/-- What a validated implementation result hands on. -/
structure ValidWork (result : DeveloperWorkerResult) : Prop where
  paths : ∀ item ∈ result.changes, Fit 300 item.path
  criterionIds : ∀ item ∈ result.acceptanceChecks, Fit 100 item.criterionId
  checkCount : result.acceptanceChecks.length ≤ 24

theorem DeveloperWorkerResult_validate_ok {data result : DeveloperWorkerResult}
    (h : data.validate w = .ok result) :
    ValidWork result := by
  simp only [DeveloperWorkerResult.validate, Py.bind_eq_ok, countBetween_ok] at h
  obtain ⟨-, -, changes, hchanges, -, hcount, checks, hchecks, -, -, -, -, hresult⟩ := h
  cases hresult
  refine ⟨fun item hitem => ?_, fun item hitem => ?_, ?_⟩
  · obtain ⟨raw, -, hraw⟩ := mem_of_mapM hchanges item ((List.mem_insertionSort _).mp hitem)
    simp only [ProposedChange.validate, Py.bind_eq_ok] at hraw
    obtain ⟨-, -, path, hpath, hout⟩ := hraw
    cases hout
    exact (relativePath_ok hpath).1
  · obtain ⟨raw, -, hraw⟩ := mem_of_mapM hchecks item ((List.mem_insertionSort _).mp hitem)
    simp only [AcceptanceCheck.validate, Py.bind_eq_ok] at hraw
    obtain ⟨id, hid, hout⟩ := hraw
    cases hout
    exact (identifierItem_ok hid).1
  · have hlen := mapM_ok_length hchecks
    rw [List.length_insertionSort]
    omega

/-- A status word, behind its colon, adds no credential to what stands before it. -/
theorem status_no_credential (status : AcceptanceStatus) : fits status.value = true ∧
    status.value.length ≤ 14 ∧
    (CREDENTIAL w).search status.value = false := by
  have hall : ∀ status : AcceptanceStatus, (CREDENTIAL asciiWord).erase.search status.value =
      false := by
    intro status
    cases status <;> decide
  refine ⟨?_, ?_, Regex.search_eq_false_of_erase (hall status)⟩
  · cases status <;> decide
  · cases status <;> decide

/-- The line of a check is accepted when its criterion's id, with a colon behind it, holds
no credential. -/
theorem checkLine_isOk {id : Text} (hid : Fit 100 id) (status : AcceptanceStatus) :
    (shortText w (metadataLine
      ("acceptance:".toList ++ (id ++ (":".toList ++ status.value))))).isOk = true ↔
      (CREDENTIAL w).search (id ++ [':']) = false := by
  obtain ⟨hfits, hlen, hclean⟩ := status_no_credential (w := w) status
  have hone : fits [':'] = true := by decide
  have hcolon : Fit (1 + 14) (':' :: status.value) :=
    (fit_of_fits hone).append ((fit_of_fits hfits).mono hlen)
  have hvalue : Fit 300 (id ++ ':' :: status.value) := (hid.append hcolon).mono (by decide)
  have hline := line_isOk (w := w) "acceptance".toList (by decide) hvalue
  rw [CREDENTIAL_split, hclean, Bool.or_false] at hline
  exact hline

theorem changeLine_isOk {path : Text} (hpath : Fit 300 path) (kind : ChangeKind) :
    (shortText w (metadataLine ("change:".toList ++ (kind.value ++ (":".toList ++ path))))).isOk =
    true ↔
      (CREDENTIAL w).search path = false := by
  have htag : "change:".toList ++ kind.value ∈ evidenceTags := by cases kind <;> decide
  have hline := line_isOk (w := w) _ htag hpath
  rw [List.append_assoc] at hline
  exact hline

/-- The evidence of a result is accepted when no criterion's id holds a credential, with a
colon behind it, and no path that stands among the first 29 items does. -/
theorem workerEvidence_accepted {result : DeveloperWorkerResult} (h : ValidWork result) :
    (∀ item ∈ (workerEvidence result).take 29, (shortText w (metadataLine item)).isOk = true) ↔
      (∀ check ∈ result.acceptanceChecks, (CREDENTIAL w).search (check.criterionId ++ [':']) =
        false) ∧
        ∀ change ∈ result.changes.take (29 - result.acceptanceChecks.length),
          (CREDENTIAL w).search change.path = false := by
  have hcount : result.acceptanceChecks.length ≤ 29 := Nat.le_trans h.checkCount (by decide)
  rw [workerEvidence, List.take_append,
    List.take_of_length_le (by rw [List.length_map]; exact hcount), List.length_map,
      ← List.map_take, List.forall_mem_append, List.forall_mem_map, List.forall_mem_map]
  constructor
  · intro ⟨hchecks, hchanges⟩
    refine ⟨fun check hcheck => ?_, fun change hchange => ?_⟩
    · exact (checkLine_isOk (h.criterionIds check hcheck) check.status).mp (hchecks check hcheck)
    · exact (changeLine_isOk (h.paths change (List.mem_of_mem_take hchange)) change.kind).mp
        (hchanges change hchange)
  · intro ⟨hchecks, hchanges⟩
    refine ⟨fun check hcheck => ?_, fun change hchange => ?_⟩
    · exact (checkLine_isOk (h.criterionIds check hcheck) check.status).mpr (hchecks check hcheck)
    · exact (changeLine_isOk (h.paths change (List.mem_of_mem_take hchange)) change.kind).mpr
        (hchanges change hchange)

/-! ## Criteria -/

/-- The id of the criterion at an index. -/
def criterionId (index : ℕ) : Text := "criterion_".toList ++ twoDigits (index + 1)

theorem criterionIds_checked : ∀ i : Fin 24, identifierItem (criterionId i) = .ok (criterionId i) ∧
    ∀ j : Fin 24, twoDigits (i + 1) = twoDigits (j + 1) → i = j := by
  decide

theorem criterionId_ok {index : ℕ} (h : index < 24) : identifierItem (criterionId index) = .ok
    (criterionId index) :=
  (criterionIds_checked ⟨index, h⟩).1

theorem criterionId_inj {i j : ℕ} (hi : i < 24) (hj : j < 24) (h : criterionId i = criterionId j) :
    i = j :=
  congrArg Fin.val ((criterionIds_checked ⟨i, hi⟩).2 ⟨j, hj⟩ (List.append_cancel_left h))

theorem requestedCriteria_ids (criteria : List Text) :
    (requestedCriteria criteria).map
    (·.criterionId) = (List.range criteria.length).map criterionId := by
  have hindex : criteria.zipIdx.map Prod.snd = List.range criteria.length := by
    rw [List.zipIdx_map_snd, List.range_eq_range']
  rw [← hindex, requestedCriteria, List.map_map, List.map_map]
  rfl

theorem requestedCriteria_ids_nodup {criteria : List Text} (h : criteria.length ≤ 24) :
    ((requestedCriteria criteria).map (·.criterionId)).Nodup := by
  rw [requestedCriteria_ids]
  refine List.Nodup.map_on (fun i hi j hj heq => ?_) List.nodup_range
  rw [List.mem_range] at hi hj
  exact criterionId_inj (by omega) (by omega) heq

theorem UNSAFE_TEXT_uses {word : Char → Bool} (h : (UNSAFE_TEXT w).uses word) : word = w.holds := by
  simp only [UNSAFE_TEXT, Regex.not_uses_literal, Regex.uses, Regex.uses_chars, Regex.optional,
    false_or, or_false] at h
  exact h.symm

/-- Stripping a text adds nothing unsafe. -/
theorem strip_safe {text : Text} (h : (UNSAFE_TEXT w).search text = false) : (UNSAFE_TEXT w).search
    (strip text) = false := by
  rw [← Bool.not_eq_true] at h ⊢
  intro hfound
  obtain ⟨left, right, htext, hleft, hright⟩ := stripped_infix isSpace text
  refine h ?_
  rw [htext, ← strip_eq]
  refine Regex.search_of_infix (fun c hc word huse => ?_) (fun c hc word huse => ?_) hfound
  · rw [UNSAFE_TEXT_uses huse]
    exact w.space c (hleft c (List.mem_of_getLast? hc))
  · rw [UNSAFE_TEXT_uses huse]
    exact w.space c (hright c (List.mem_of_mem_head? hc))

theorem boundedQaText_isOk {text : Text} (h : (UNSAFE_TEXT w).search text = false) :
    (boundedQaText w text).isOk = true ↔ (safeText w text).isOk = true := by
  rw [boundedQaText, Py.isOk_bind, Py.isOk_iff]
  constructor
  · intro ⟨out, hout, _⟩
    exact ⟨out, hout⟩
  · intro ⟨out, hout⟩
    refine ⟨out, hout, ?_⟩
    rw [(safeText_ok hout).1, strip_safe h]
    rfl

theorem requestedCriteria_item {criteria : List Text} (hcount : criteria.length ≤ 24)
    {item : ValidationCriterion} (h : item ∈ requestedCriteria criteria) :
    item.description ∈ criteria ∧ identifierItem item.criterionId = .ok item.criterionId := by
  rw [requestedCriteria] at h
  obtain ⟨⟨value, index⟩, hentry, heq⟩ := List.mem_map.mp h
  obtain ⟨-, hindex, hvalue⟩ := List.mem_zipIdx hentry
  rw [← heq]
  refine ⟨?_, criterionId_ok (show index < 24 by omega)⟩
  change value ∈ criteria
  rw [hvalue]
  exact List.getElem_mem _

theorem exists_requestedCriterion {criteria : List Text} {value : Text} (h : value ∈ criteria) :
    ∃ item ∈ requestedCriteria criteria, item.description = value := by
  obtain ⟨index, hindex, hget⟩ := List.getElem_of_mem h
  have hentry : (value, index) ∈ criteria.zipIdx := by
    rw [List.mk_mem_zipIdx_iff_getElem?, List.getElem?_eq_getElem hindex, hget]
  exact ⟨_, List.mem_map.mpr ⟨_, hentry, rfl⟩, rfl⟩

theorem ValidationCriterion_validate_isOk {item : ValidationCriterion}
    (hid : identifierItem item.criterionId = .ok item.criterionId)
    (hlength : 1 ≤ item.description.length ∧ item.description.length ≤ 1000)
    (hsafe : (UNSAFE_TEXT w).search item.description = false) :
    (ValidationCriterion.validate w item).isOk = true ↔
    (safeText w item.description).isOk = true := by
  have hbound : lengthBetween 1 1000 item.description = .ok () := lengthBetween_ok.mpr hlength
  rw [← boundedQaText_isOk hsafe, ValidationCriterion.validate, hid, Py.ok_bind, hbound, Py.ok_bind,
    Py.isOk_bind, Py.isOk_iff]
  constructor
  · intro ⟨out, hout, _⟩
    exact ⟨out, hout⟩
  · intro ⟨out, hout⟩
    exact ⟨out, hout, rfl⟩

theorem ValidationCriterion_validate_id {item out : ValidationCriterion}
    (hid : identifierItem item.criterionId = .ok item.criterionId)
    (h : ValidationCriterion.validate w item = .ok out) : out.criterionId = item.criterionId := by
  simp only [ValidationCriterion.validate, hid, Py.ok_bind, Py.bind_eq_ok] at h
  obtain ⟨-, -, description, -, hout⟩ := h
  cases hout
  rfl

/-- The criteria of a workflow make valid criteria for quality assurance when each of
them is a safe text. -/
theorem criteria_isOk {criteria : List Text} (hcount : 1 ≤ criteria.length ∧ criteria.length ≤ 24)
    (hlength : ∀ value ∈ criteria, 1 ≤ value.length ∧ value.length ≤ 1000)
    (hsafe : ∀ value ∈ criteria, (UNSAFE_TEXT w).search value = false) :
    (validateCriteria w (requestedCriteria criteria)).isOk = true ↔ ∀ value ∈ criteria,
    (safeText w value).isOk = true := by
  have hlen : (requestedCriteria criteria).length = criteria.length := by
    rw [requestedCriteria, List.length_map, List.length_zipIdx]
  have hbound : countBetween 1 24 (requestedCriteria criteria) = .ok () :=
    countBetween_ok.mpr (by rw [hlen]; exact hcount)
  have hitem : ∀ item ∈ requestedCriteria criteria,
    ((ValidationCriterion.validate w item).isOk = true ↔
      (safeText w item.description).isOk = true) := by
    intro item hmem
    obtain ⟨hvalue, hid⟩ := requestedCriteria_item hcount.2 hmem
    exact ValidationCriterion_validate_isOk hid (hlength _ hvalue) (hsafe _ hvalue)
  rw [validateCriteria, hbound, Py.ok_bind, Py.isOk_bind]
  constructor
  · intro ⟨values, hvalues, _⟩ value hvalue
    obtain ⟨item, hmem, hdescription⟩ := exists_requestedCriterion hvalue
    have hall := mapM_isOk.mp (Py.isOk_iff.mpr ⟨values, hvalues⟩) item hmem
    rw [← hdescription]
    exact (hitem item hmem).mp hall
  · intro hall
    have hitems : ∀ item ∈ requestedCriteria criteria, (ValidationCriterion.validate w item).isOk =
        true :=
      fun item hmem => (hitem item hmem).mpr (hall _ (requestedCriteria_item hcount.2 hmem).1)
    obtain ⟨values, hvalues⟩ := Py.isOk_iff.mp (mapM_isOk.mpr hitems)
    have hnodup : (values.map (·.criterionId)).Nodup := by
      rw [map_of_mapM hvalues fun item hmem out hout =>
        ValidationCriterion_validate_id (requestedCriteria_item hcount.2 hmem).2 hout]
      exact requestedCriteria_ids_nodup hcount.2
    refine ⟨values, hvalues, ?_⟩
    rw [distinct, decide_eq_true hnodup]
    rfl

/-! ## Requests -/

theorem fixedLines_isOk (tools : List Text) : ∀ line ∈ constraintLines tools [],
    (shortText w line).isOk = true := by
  have hall : ∀ line ∈ "Use only the explicitly permitted read-only workspace tools".toList ::
      constraintLines [] [],
      fits line = true ∧ line.length ≤ 500 ∧
        (CREDENTIAL asciiWord).erase.search line = false := by decide
  intro line hline
  have hmem : line ∈ "Use only the explicitly permitted read-only workspace tools".toList ::
      constraintLines [] [] := by
    cases tools with
    | nil => exact List.mem_cons_of_mem _ hline
    | cons tool tools =>
      simp only [constraintLines, List.isEmpty_cons, List.isEmpty_nil, Bool.false_eq_true, if_false,
        if_true, List.map_nil, List.append_nil, List.mem_cons, List.not_mem_nil, or_false]
        at hline ⊢
      rcases hline with haction | huse | hremain
      · exact .inr (.inl haction)
      · exact .inl huse
      · exact .inr (.inr (.inr hremain))
  obtain ⟨hfits, hlen, hclean⟩ := hall line hmem
  rw [shortText_fit ((fit_of_fits hfits).mono hlen),
    Regex.search_eq_false_of_erase (r := CREDENTIAL w) hclean]
  rfl

/-- What a request holds for its role alone passes. -/
theorem roleConstants_ok (workspaceRoot : Bool) (role : SpecializationRole) :
    (atMost (maxTools role) (permittedTools workspaceRoot role) = .ok () ∧
      (permittedTools workspaceRoot role).mapM identifierItem = .ok
      (permittedTools workspaceRoot role) ∧
      (uniqueSorted (permittedTools workspaceRoot role)).any
      (fun tool => !DEVELOPER_WORKER_TOOLS.contains tool) = false) ∧
    identifierItem (expectedOutputType role) = .ok (expectedOutputType role) ∧
      [assignedCapability role].mapM identifierItem = .ok [assignedCapability role] := by
  cases workspaceRoot <;> cases role <;> decide

theorem optionalReference_uuid (w : WordClass) (id : Uuid) : optionalReference w
    (.some id.str) = .ok (.some id.str) := by
  rw [optionalReference, referenceItem_uuid]
  rfl

/-- Of the common fields, only the objective and the constraints can be refused. -/
theorem validateInput_common {workspaceRoot : Bool} {run : WorkflowRun} {role : SpecializationRole}
    {handoff : WorkflowStepHandoff} (hobjective : 1 ≤ handoff.objective.length ∧
      handoff.objective.length ≤ 4000) (hevidence : handoff.evidenceItems.length ≤ 29) :
    validateInput w (maxTools role) (common workspaceRoot run role handoff) = (do
      let objective ← safeText w handoff.objective
      let constraints ← (constraintLines (permittedTools workspaceRoot role)
        handoff.evidenceItems).mapM (shortText w)
      return {
        objective := objective
        constraints := uniqueSorted constraints
        projectId := .some run.projectId.str
        taskId := .some run.taskId.str
        priorResultReferences := uniqueSorted [handoff.id.str]
        expectedOutputType := expectedOutputType role
        permittedTools := uniqueSorted (permittedTools workspaceRoot role)
        requiredCapabilities := uniqueSorted [assignedCapability role] }) := by
  have hlength : lengthBetween 1 4000 handoff.objective = .ok () := lengthBetween_ok.mpr hobjective
  have hlines :
      atMost 32 (constraintLines (permittedTools workspaceRoot role) handoff.evidenceItems) =
      .ok () := by
    have hle : (constraintLines (permittedTools workspaceRoot role) handoff.evidenceItems).length ≤
        32 := by
      rw [constraintLines, List.length_append, List.length_map]
      change 3 + _ ≤ 32
      omega
    rw [atMost, decide_eq_true hle]
    rfl
  have hreferences : [handoff.id.str].mapM (referenceItem w) = .ok [handoff.id.str] := by
    rw [List.mapM_cons, referenceItem_uuid]
    rfl
  obtain ⟨⟨htools, hpermitted, -⟩, houtput, hcapability⟩ := roleConstants_ok workspaceRoot role
  have hone : ∀ value : Text, atMost 16 [value] = .ok () := fun _ => rfl
  simp only [validateInput, common, hlength, hlines, optionalReference_uuid, hone, hreferences,
    houtput, htools, hpermitted, hcapability, Py.ok_bind, Option.isSome_some, Option.isNone_some,
      Bool.and_false, raiseIf_false]

/-- **A request is built** from a hand-off within the bounds when its objective, each line
of its evidence and, for quality assurance, its criteria are accepted. -/
theorem dispatchRequest_isOk {workspaceRoot : Bool} {run : WorkflowRun} {role : SpecializationRole}
    {handoff : WorkflowStepHandoff} (hobjective : 1 ≤ handoff.objective.length ∧
      handoff.objective.length ≤ 4000) (hevidence : handoff.evidenceItems.length ≤ 29) :
    (dispatchRequest w workspaceRoot run role handoff).isOk = true ↔
    (safeText w handoff.objective).isOk = true ∧
      (∀ item ∈ handoff.evidenceItems, (shortText w (metadataLine item)).isOk = true) ∧
      (roleCriteria w (requestedCriteria handoff.acceptanceCriteria) role).isOk = true := by
  have hsplit : constraintLines (permittedTools workspaceRoot role) handoff.evidenceItems =
      constraintLines (permittedTools workspaceRoot role) [] ++
          handoff.evidenceItems.map metadataLine := by
    rw [constraintLines, constraintLines, List.map_nil, List.append_nil]
  have hlines :
    ((constraintLines (permittedTools workspaceRoot role) handoff.evidenceItems).mapM
    (shortText w)).isOk = true ↔
      ∀ item ∈ handoff.evidenceItems, (shortText w (metadataLine item)).isOk = true := by
    rw [mapM_isOk, hsplit, List.forall_mem_append, List.forall_mem_map]
    exact and_iff_right (fixedLines_isOk _)
  rw [← hlines, dispatchRequest, RoleRequest.validate, validateInput_common hobjective hevidence]
  have htools := (roleConstants_ok workspaceRoot role).1.2.2
  constructor
  · intro h
    obtain ⟨input, hinput, h⟩ := Py.isOk_bind.mp h
    obtain ⟨criteria, hcriteria, -⟩ := Py.isOk_bind.mp h
    obtain ⟨objective, hsafe, hrest⟩ := Py.bind_eq_ok.mp hinput
    obtain ⟨constraints, hconstraints, -⟩ := Py.bind_eq_ok.mp hrest
    exact ⟨Py.isOk_iff.mpr ⟨_, hsafe⟩, Py.isOk_iff.mpr ⟨_, hconstraints⟩,
      Py.isOk_iff.mpr ⟨_, hcriteria⟩⟩
  · intro ⟨hsafe, hconstraints, hcriteria⟩
    obtain ⟨objective, hsafe⟩ := Py.isOk_iff.mp hsafe
    obtain ⟨constraints, hconstraints⟩ := Py.isOk_iff.mp hconstraints
    obtain ⟨criteria, hcriteria⟩ := Py.isOk_iff.mp hcriteria
    rw [hsafe, Py.ok_bind, hconstraints, Py.ok_bind, hcriteria]
    change Except.isOk (do
      raiseIf (expectedOutputType role != expectedOutputType role) .valueError
      raiseIf ((uniqueSorted (permittedTools workspaceRoot role)).any fun tool =>
        !DEVELOPER_WORKER_TOOLS.contains tool) .valueError
      _) = true
    rw [bne_self_eq_false, htools]
    rfl

/-! ## Hand-offs -/

/-- What the creation of a workflow has checked. -/
structure ValidRequest (w : WordClass) (request : DevelopmentWorkflowCreate) : Prop where
  objective : 1 ≤ request.objective.length ∧ request.objective.length ≤ 1500
  count : 1 ≤ request.acceptanceCriteria.length ∧ request.acceptanceCriteria.length ≤ 24
  lengths : ∀ value ∈ request.acceptanceCriteria, 1 ≤ value.length ∧ value.length ≤ 1000
  safe : ∀ value ∈ request.acceptanceCriteria, (UNSAFE_TEXT w).search value = false

theorem boundedText_ok {least most : ℕ} {value out : Text}
    (h : boundedText least most value = .ok out) :
    least ≤ out.length ∧ out.length ≤ most := by
  simp only [boundedText, Py.bind_eq_ok, lengthBetween_ok] at h
  obtain ⟨-, hlen, hout⟩ := h
  cases hout
  exact hlen

theorem DevelopmentWorkflowCreate_validate_ok {data request : DevelopmentWorkflowCreate}
    (h : data.validate w = .ok request) :
    ValidRequest w request := by
  simp only [DevelopmentWorkflowCreate.validate, Py.bind_eq_ok, raiseIf_eq_ok, countBetween_ok] at h
  obtain ⟨objective, hobjective, -, -, -, hcount, criteria, hcriteria, -, -, -, hsafe, hrequest⟩ :=
    h
  cases hrequest
  refine ⟨boundedText_ok hobjective, ?_, fun value hvalue => ?_, fun value hvalue => ?_⟩
  · have hlen := mapM_ok_length hcriteria
    change 1 ≤ criteria.length ∧ criteria.length ≤ 24
    omega
  · obtain ⟨raw, -, hraw⟩ := mem_of_mapM hcriteria value hvalue
    exact boundedText_ok hraw
  · rw [List.any_eq_false] at hsafe
    exact Bool.not_eq_true _ ▸ hsafe value hvalue

/-- What the manager's result makes of the request, when it is handed on. -/
theorem persistNextHandoff_manager {run : WorkflowRun} {id : Uuid}
    {stored handoff : WorkflowStepHandoff} {result : DeveloperManagerResult}
    (h : persistNextHandoff run id (.some stored) (.manager result) = .ok (.some handoff)) :
    ∃ proposal, result.proposedTasks = [proposal] ∧ handoff = { stored with
      id := id
      handoffType := .managerAssignment
      evidenceItems := (assignmentEvidence proposal).take 29 } := by
  rw [persistNextHandoff, inputHandoff] at h
  split at h
  next =>
    generalize result.proposedTasks = tasks at h ⊢
    cases tasks with
    | nil => cases h
    | cons proposal rest =>
      cases rest with
      | nil =>
        cases hdepends : proposal.dependsOn.isEmpty with
        | true =>
          dsimp only [bind, Except.bind] at h
          rw [if_pos hdepends] at h
          cases h
          exact ⟨proposal, rfl, rfl⟩
        | false =>
          dsimp only [bind, Except.bind] at h
          rw [if_neg (by rw [hdepends]; exact Bool.false_ne_true)] at h
          cases h
      | cons second rest => cases h
  next => cases h

theorem persistNextHandoff_developer {run : WorkflowRun} {id : Uuid}
    {stored handoff : WorkflowStepHandoff} {result : DeveloperWorkerResult}
    (h : persistNextHandoff run id (.some stored) (.developer result) = .ok (.some handoff)) :
    handoff = { stored with
      id := id
      handoffType := .workerEvidence
      evidenceItems := (workerEvidence result).take 29 } := by
  rw [persistNextHandoff, inputHandoff] at h
  split at h
  next =>
    cases h
    rfl
  next => cases h

/-- **Which hand-offs are dispatchable.** Of an accepted request, the hand-off to the
manager is when the objective is a safe text: no control character, no credential. That
to the developer is when, besides, no credential stands in the expected output or the
capabilities of the task; and that to quality assurance when, besides the objective, every
criterion is a safe text, no credential stands in a check's criterion id with the colon
that follows it, nor in a path among the first 29 pieces of evidence. -/
theorem handoff_dispatchable_iff (w : WordClass) (workspaceRoot : Bool) (run : WorkflowRun)
    (data request : DevelopmentWorkflowCreate) (hrequest : data.validate w = .ok request)
    (first second third : Uuid) :
    ((dispatchRequest w workspaceRoot run .developerManager
      (developmentRequest run first request)).isOk = true ↔
      (safeText w request.objective).isOk = true) ∧
    ∀ (planned plan : DeveloperManagerResult) (assignment : WorkflowStepHandoff),
      planned.validate = .ok plan →
      persistNextHandoff run second (.some (developmentRequest run first request))
        (.manager plan) = .ok (.some assignment) →
      ((dispatchRequest w workspaceRoot run .developerWorker assignment).isOk = true ↔
        (safeText w request.objective).isOk = true ∧ ∀ proposal ∈ plan.proposedTasks,
          (CREDENTIAL w).search proposal.expectedOutput = false ∧
            ∀ value ∈ proposal.requiredCapabilities, (CREDENTIAL w).search value = false) ∧
      ∀ (worked work : DeveloperWorkerResult) (evidence : WorkflowStepHandoff),
        worked.validate w = .ok work →
        persistNextHandoff run third (.some assignment) (.developer work) = .ok (.some evidence) →
        ((dispatchRequest w workspaceRoot run .qaWorker evidence).isOk = true ↔
          ((safeText w request.objective).isOk = true ∧ ∀ value ∈ request.acceptanceCriteria,
            (safeText w value).isOk = true) ∧
            (∀ check ∈ work.acceptanceChecks, (CREDENTIAL w).search (check.criterionId ++ [':']) =
              false) ∧
            ∀ change ∈ work.changes.take (29 - work.acceptanceChecks.length),
              (CREDENTIAL w).search change.path = false) := by
  have hvalid := DevelopmentWorkflowCreate_validate_ok hrequest
  have hobjective : 1 ≤ request.objective.length ∧ request.objective.length ≤ 4000 :=
    ⟨hvalid.objective.1, Nat.le_trans hvalid.objective.2 (by decide)⟩
  refine ⟨?_, fun planned plan assignment hplan hassignment =>
    ⟨?_, fun worked work evidence hwork hevidence => ?_⟩⟩
  · rw [dispatchRequest_isOk hobjective (Nat.zero_le _)]
    exact ⟨fun h => h.1, fun h => ⟨h, nofun, rfl⟩⟩
  · obtain ⟨proposal, hproposal, hhandoff⟩ := persistNextHandoff_manager hassignment
    have htask :=
      DeveloperManagerResult_validate_ok hplan proposal
      (by rw [hproposal]; exact List.mem_singleton_self _)
    rw [hhandoff, dispatchRequest_isOk hobjective (List.length_take_le _ _),
      assignmentEvidence_accepted htask, hproposal, List.forall_mem_singleton]
    exact ⟨fun h => ⟨h.1, h.2.1⟩, fun h => ⟨h.1, h.2, rfl⟩⟩
  · obtain ⟨proposal, -, hhandoff⟩ := persistNextHandoff_manager hassignment
    rw [hhandoff] at hevidence
    have hcriteria := criteria_isOk hvalid.count hvalid.lengths hvalid.safe
    rw [persistNextHandoff_developer hevidence,
      dispatchRequest_isOk hobjective (List.length_take_le _ _),
        workerEvidence_accepted (DeveloperWorkerResult_validate_ok hwork)]
    exact ⟨fun h => ⟨⟨h.1, hcriteria.mp h.2.2⟩, h.2.1⟩, fun h => ⟨h.1.1, h.2, hcriteria.mpr h.1.2⟩⟩

/-- A workflow handed on from the manager to quality assurance. -/
theorem handoff_dispatchable_fix :
    (dispatchRequest asciiWord true ⟨1, 2, 3⟩ .qaWorker {
        id := 6, workflowPlanId := 3, handoffType := .workerEvidence, objective :=
          "Fix the parser".toList
        acceptanceCriteria := ["It parses".toList]
        evidenceItems :=
            ["acceptance:parses:SATISFIED".toList, "change:MODIFY:src/parser.py".toList] }).isOk =
            true := by
  have hplan :=
    (handoff_dispatchable_iff asciiWord true ⟨1, 2, 3⟩ ⟨" Fix the parser".toList,
    ["It parses".toList]⟩
    ⟨"Fix the parser".toList, ["It parses".toList]⟩ (by decide) 4 5 6).2
    ⟨.completed, [⟨"fix".toList, ["software".toList], [], "code.patch".toList⟩]⟩
    ⟨.completed, [⟨"fix".toList, ["software".toList], [], "code.patch".toList⟩]⟩ _ (by decide) rfl
  have hwork :=
    hplan.2 ⟨.completed, [⟨"src\\parser.py".toList, .modify⟩], [⟨"parses".toList, .satisfied⟩]⟩
    ⟨.completed, [⟨"src/parser.py".toList, .modify⟩], [⟨"parses".toList, .satisfied⟩]⟩ _
      (by decide) rfl
  exact hwork.mpr (by decide)

/-- An objective that names a header is accepted at creation, and no request for the
manager can be built from it. -/
theorem objective_with_header_not_dispatchable :
    ¬ ∀ (w : WordClass) (workspaceRoot : Bool) (run : WorkflowRun) (data request :
    DevelopmentWorkflowCreate) (id : Uuid),
      data.validate w = .ok request →
        (dispatchRequest w workspaceRoot run .developerManager
          (developmentRequest run id request)).isOk = true := by
  intro h
  have hbuilt :=
    h asciiWord true ⟨1, 2, 3⟩ ⟨"Check the Authorization: header".toList, ["It is checked".toList]⟩
    ⟨"Check the Authorization: header".toList, ["It is checked".toList]⟩ 4 (by decide)
  revert hbuilt
  decide

end Novalton.Specializations
