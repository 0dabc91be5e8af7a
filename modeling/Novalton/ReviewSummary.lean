/-
Human review summaries of validated results: what validating a value again does, what the
summary of a result is, how many bytes its row takes, and what the operator view makes of it.
-/
import Mathlib.Data.List.Dedup
import Novalton.HandoffText
import Novalton.QaReview

namespace Novalton.QaReview

open Contracts

variable {w : WordClass}

/-! ## Texts that are kept -/

/-- A text that the validators keep as it is. -/
structure Kept (w : WordClass) (most : ℕ) (text : Text) : Prop extends Fit most text where
  credential : (CREDENTIAL w).search text = false
  safe : (UNSAFE_TEXT w).search text = false

theorem fit_of_safeText {most : ℕ} {value text : Text} (hlength : value.length ≤ most)
    (h : safeText w value = .ok text) :
    Fit most text ∧ (CREDENTIAL w).search text = false := by
  obtain ⟨hstrip, -, -, hcredential⟩ := safeText_ok h
  refine ⟨(safeText_fits h).mono ?_, hcredential⟩
  rw [hstrip]
  exact Nat.le_trans (stripped_length_le value) hlength

theorem kept_of_boundedQaText {most : ℕ} {value text : Text} (hlength : value.length ≤ most)
    (h : boundedQaText w value = .ok text) :
    Kept w most text := by
  simp only [boundedQaText, Py.bind_eq_ok, raiseIf_eq_ok] at h
  obtain ⟨out, hout, -, hsafe, heq⟩ := h
  cases heq
  obtain ⟨hfit, hcredential⟩ := fit_of_safeText hlength hout
  exact ⟨hfit, hcredential, hsafe⟩

theorem safeText_fit {most : ℕ} {text : Text} (h : Fit most text)
    (hcredential : (CREDENTIAL w).search text = false) :
    Contracts.safeText w text = .ok text := by
  rw [safeText_tight h.tight h.nonempty h.control, hcredential]
  rfl

theorem Kept.boundedQaText {most : ℕ} {text : Text} (h : Kept w most text) :
    Contracts.boundedQaText w text = .ok text := by
  rw [Contracts.boundedQaText, safeText_fit h.toFit h.credential, Py.ok_bind, h.safe]
  rfl

theorem lengthBetween_fit {most : ℕ} {text : Text} (h : Fit most text) :
    Contracts.lengthBetween 1 most text = .ok () :=
  lengthBetween_ok.mpr ⟨List.length_pos_iff.mpr h.nonempty, h.length⟩

theorem qaText_ok {most : ℕ} {value text : Text} (h : qaText w most value = .ok text) :
    Kept w most text := by
  simp only [qaText, Py.bind_eq_ok, lengthBetween_ok] at h
  obtain ⟨-, hlength, htext⟩ := h
  exact kept_of_boundedQaText hlength.2 htext

theorem Kept.qaText {most : ℕ} {text : Text} (h : Kept w most text) :
    QaReview.qaText w most text = .ok text := by
  rw [QaReview.qaText, lengthBetween_fit h.toFit, Py.ok_bind, h.boundedQaText]

theorem qaShortText_ok {value text : Text} (h : qaShortText w value = .ok text) :
    Kept w 500 text := by
  simp only [qaShortText, boundedText, Py.bind_eq_ok, lengthBetween_ok] at h
  obtain ⟨trimmed, ⟨-, hlength, htrimmed⟩, htext⟩ := h
  cases htrimmed
  exact kept_of_boundedQaText hlength.2 htext

theorem Kept.qaShortText {text : Text} (h : Kept w 500 text) :
    QaReview.qaShortText w text = .ok text := by
  rw [QaReview.qaShortText, boundedText, trim_eq h.tight, lengthBetween_fit h.toFit, Py.ok_bind,
    pure_bind, h.boundedQaText]

/-! ## Validating again -/

/-- An identifier is its own lower case. -/
theorem toLower_plain {c : Char} (h : plainChar c = true) : c.toLower = c := by
  have hrange : ¬ (65 ≤ c.toNat ∧ c.toNat ≤ 90) := by
    rcases plainChar_cases h with h | h | h | h | h
    · omega
    · omega
    all_goals
      rw [h]
      decide
  exact dif_neg hrange

theorem identifierItem_again {value text : Text} (h : identifierItem value = .ok text) :
    identifierItem text = .ok text := by
  obtain ⟨hfit, hplain⟩ := identifierItem_ok h
  have hfull : IDENTIFIER.fullmatch text = true := by
    simp only [identifierItem, identifier, Py.bind_eq_ok, raiseIf_eq_ok, Bool.not_eq_false'] at h
    obtain ⟨-, -, -, -, -, hfull, heq⟩ := h
    cases heq
    exact hfull
  have hlower : text.map Char.toLower = text :=
    (List.map_congr_left fun c hc => toLower_plain (hplain c hc)).trans (List.map_id' text)
  have hstrip : strip text = text := hfit.tight.stripped_eq
  rw [identifierItem, trim_eq hfit.tight, lengthBetween_fit hfit, Py.ok_bind, hfull, Bool.not_true,
    raiseIf_false, Py.ok_bind, identifier, hstrip, hlower, hfull]
  rfl

theorem reference_again {value text : Text} (h : reference w value = .ok text) :
    reference w text = .ok text := by
  simp only [reference, Py.bind_eq_ok, raiseIf_eq_ok] at h
  obtain ⟨out, hout, -, hreference, heq⟩ := h
  cases heq
  obtain ⟨hfit, hcredential⟩ := fit_of_safeText le_rfl hout
  rw [reference, safeText_fit hfit hcredential, Py.ok_bind, hreference]
  rfl

theorem referenceItem_reference {value text : Text} (h : referenceItem w value = .ok text) :
    reference w text = .ok text := by
  simp only [referenceItem, Py.bind_eq_ok] at h
  obtain ⟨-, -, -, -, hreference⟩ := h
  exact reference_again hreference

/-- Values in order, none of them twice, each of which is kept, are kept. -/
theorem sortedTexts_self {most : ℕ} {validate : Text → Py Text} {values : List Text}
    (hkept : ∀ value ∈ values, validate value = .ok value) (hlength : values.length ≤ most)
    (hnodup : values.Nodup) (hsorted : values.Pairwise (· ≤ ·)) :
    sortedTexts most validate values = .ok values := by
  have hcount : countBetween 0 most values = .ok () := countBetween_ok.mpr ⟨Nat.zero_le _, hlength⟩
  rw [sortedTexts, hcount, Py.ok_bind, mapM_self hkept, Py.ok_bind, distinct, decide_eq_true hnodup,
    Bool.not_true, raiseIf_false, Py.ok_bind, hsorted.insertionSort_eq]
  rfl

theorem sortedTexts_ok {most : ℕ} {validate : Text → Py Text} {values out : List Text}
    (h : sortedTexts most validate values = .ok out) :
    (∀ text ∈ out, ∃ value, validate value = .ok text) ∧ out.length ≤ most ∧ out.Nodup ∧
    out.Pairwise (· ≤ ·) := by
  simp only [sortedTexts, distinct, Py.bind_eq_ok, raiseIf_eq_ok, countBetween_ok,
    Bool.not_eq_false', decide_eq_true_eq] at h
  obtain ⟨-, hcount, texts, htexts, -, hnodup, heq⟩ := h
  cases heq
  have hperm := List.perm_insertionSort (· ≤ ·) texts
  refine ⟨fun text htext => ?_, ?_, hperm.nodup_iff.mpr hnodup,
    List.pairwise_insertionSort (· ≤ ·) texts⟩
  · obtain ⟨value, -, hvalue⟩ := mem_of_mapM htexts text (hperm.mem_iff.mp htext)
    exact ⟨value, hvalue⟩
  · rw [hperm.length_eq, mapM_ok_length htexts]
    exact hcount.2

theorem sortedTexts_again {most : ℕ} {validate : Text → Py Text}
    (hagain : ∀ {value text}, validate value = .ok text → validate text = .ok text)
    {values out : List Text} (h : sortedTexts most validate values = .ok out) :
    sortedTexts most validate out = .ok out := by
  obtain ⟨hvalues, hlength, hnodup, hsorted⟩ := sortedTexts_ok h
  refine sortedTexts_self (fun text htext => ?_) hlength hnodup hsorted
  obtain ⟨value, hvalue⟩ := hvalues text htext
  exact hagain hvalue

theorem AcceptanceResult.again {data item : AcceptanceResult} (h : data.validate w = .ok item) :
    item.validate w = .ok item := by
  simp only [AcceptanceResult.validate, Py.bind_eq_ok] at h
  obtain ⟨criterionId, hid, rationale, hrationale, references, hreferences, heq⟩ := h
  cases heq
  rw [AcceptanceResult.validate]
  simp only [identifierItem_again hid, (qaText_ok hrationale).qaText,
    sortedTexts_again reference_again hreferences, Py.ok_bind]
  rfl

/-- A path that was accepted is accepted again unless it reads as a credential, which the
turned backslashes may make of it. -/
theorem validatePath_again {value path : Text} (h : validatePath w value = .ok path)
    (hsafe : (UNSAFE_TEXT w).search path = false) :
    validatePath w path = if (CREDENTIAL w).search path then .error .valueError else .ok path := by
  simp only [validatePath, qaRelativePath, boundedQaText, Py.bind_eq_ok, raiseIf_eq_ok,
    Bool.or_eq_false_iff, bne_eq_false_iff_eq, decide_eq_false_iff_not] at h
  obtain ⟨-, -, text, ⟨out, hout, -, -, heq⟩, -, hparts, -, ⟨hsame, hlength⟩, hpath⟩ := h
  cases heq
  cases hpath
  rw [hsame] at hlength hsafe ⊢
  set turned := replace ['\\'] ['/'] text with hturned
  have hmap : turned = text.map fun c => if c = '\\' then '/' else c := replace_singleton _ _ text
  have hfit : Fit 300 turned := by
    rw [hmap] at hlength ⊢
    exact { fit_turned (safeText_fits hout) with length := Nat.not_lt.mp hlength }
  have hagain : replace ['\\'] ['/'] turned = turned := by
    rw [replace_singleton, hmap, List.map_map]
    refine List.map_congr_left fun c _ => ?_
    by_cases hc : c = '\\' <;> simp [hc]
  rw [validatePath, lengthBetween_fit hfit, Py.ok_bind, qaRelativePath, boundedQaText,
    safeText_tight hfit.tight hfit.nonempty hfit.control]
  cases (CREDENTIAL w).search turned with
  | true => rfl
  | false =>
    simp only [Bool.false_eq_true, if_false, Py.ok_bind, hsafe, raiseIf_false, pure_bind, hagain,
      hparts.1.1, hparts.1.2, hparts.2, Bool.or_false, hsame, bne_self_eq_false,
        decide_eq_false hlength]
    rfl

theorem DefectDescriptor.again {data defect : DefectDescriptor} (h : data.validate w = .ok defect)
    (hsafe : ∀ path ∈ defect.componentPath, (UNSAFE_TEXT w).search path = false) :
    defect.validate w = if defect.componentPath.any (CREDENTIAL w).search then .error .valueError
      else .ok defect := by
  simp only [DefectDescriptor.validate, Py.bind_eq_ok] at h
  obtain ⟨defectKey, hkey, title, htitle, path, hpath, description, hdescription, criteria,
    hcriteria, remediation, hremediation, heq⟩ := h
  cases heq
  have hagain : whenGiven (validatePath w) path = if path.any (CREDENTIAL w).search then
      .error .valueError else .ok path := by
    cases hdata : data.componentPath with
    | none =>
      rw [hdata] at hpath
      cases hpath
      rfl
    | some value =>
      rw [hdata, whenGiven, Py.bind_eq_ok] at hpath
      obtain ⟨kept, hkept, hsome⟩ := hpath
      cases hsome
      rw [whenGiven, validatePath_again hkept (hsafe kept rfl), Option.any_some]
      cases (CREDENTIAL w).search kept <;> rfl
  rw [DefectDescriptor.validate]
  simp only [identifierItem_again hkey, (qaText_ok htitle).qaText, hagain,
    (qaText_ok hdescription).qaText, sortedTexts_again identifierItem_again hcriteria,
      (qaText_ok hremediation).qaText, Py.ok_bind]
  cases path.any (CREDENTIAL w).search <;> rfl

/-! ## Unsafe content -/

theorem rejected_array (items : List JsonTree) : rejected w (.array items) = items.any
    (rejected w) := by
  have h : ∀ items : List JsonTree, rejected.rejectedItems w items = items.any (rejected w) := by
    intro items
    induction items with
    | nil => rfl
    | cons item items ih => rw [rejected.rejectedItems, ih, List.any_cons]
  exact h items

theorem rejected_object (fields : List (Text × JsonTree)) :
    rejected w (.object fields) = fields.any fun field => rejected w field.2 := by
  have h : ∀ fields : List (Text × JsonTree), rejected.rejectedFields w fields =
      fields.any fun field => rejected w field.2 := by
    intro fields
    induction fields with
    | nil => rfl
    | cons field fields ih => rw [rejected.rejectedFields, ih, List.any_cons]
  exact h fields

@[simp] theorem rejected_string (value : Text) : rejected w
    (.string value) = (UNSAFE_TEXT w).search value := rfl

@[simp] theorem rejected_int (value : Int) : rejected w (.int value) = false := rfl

@[simp] theorem rejected_textOrNull (value : Option Text) : rejected w
    (textOrNull value) = value.any (UNSAFE_TEXT w).search := by
  cases value <;> rfl

@[simp] theorem rejected_texts (values : List Text) : rejected w (texts values) = values.any
    (UNSAFE_TEXT w).search := by
  rw [texts, rejected_array, List.any_map]
  rfl

theorem rejected_map {α} (dump : α → JsonTree) (items : List α) :
    rejected w (.array (items.map dump)) = items.any fun item => rejected w (dump item) := by
  rw [rejected_array, List.any_map]
  rfl

/-- The categories of messages are safe. -/
theorem safe_of_erase {text : Text} (h : (UNSAFE_TEXT asciiWord).erase.search text = false) :
    (UNSAFE_TEXT w).search text = false :=
  Regex.search_eq_false_of_erase h

theorem warningValue_safe (category : WarningCategory) : (UNSAFE_TEXT w).search
    (warningValue category) = false := by
  cases category <;> exact safe_of_erase (by decide)

theorem recommendationValue_safe (category : RecommendationCategory) : (UNSAFE_TEXT w).search
    (recommendationValue category) = false := by
  cases category <;> exact safe_of_erase (by decide)

theorem levelValue_safe (level : ReviewLevel) : (UNSAFE_TEXT w).search
    (levelValue level) = false := by
  cases level <;> exact safe_of_erase (by decide)

/-! ## Validated results -/

/-- What the validation of a result leaves of the texts that a summary takes. -/
structure ResultFacts (w : WordClass) (result : QAWorkerResult) : Prop where
  reason : ∀ reason ∈ result.challenge.reason, Kept w 2000 reason
  required : result.challenge.level ≠ .none → result.challenge.reason.isSome = true
  evidence : sortedTexts 16 (reference w) result.challenge.evidenceSourceReferences =
    .ok result.challenge.evidenceSourceReferences
  action : ∀ action ∈ result.challenge.suggestedAction, Kept w 500 action
  summary : Kept w 3000 result.validationSummary
  acceptance_count : 1 ≤ result.acceptanceResults.length ∧ result.acceptanceResults.length ≤ 24
  acceptance : ∀ item ∈ result.acceptanceResults, item.validate w = .ok item
  defect_count : result.defects.length ≤ 32
  defects : ∀ defect ∈ result.defects,
    defect.validate w = if defect.componentPath.any (CREDENTIAL w).search then .error .valueError
      else .ok defect
  tests : (∀ text ∈ result.testRecommendations, Kept w 500 text) ∧
    result.testRecommendations.length ≤ 24
  risks : (∀ text ∈ result.regressionRisks, Kept w 500 text) ∧ result.regressionRisks.length ≤ 24
  security : (∀ text ∈ result.securityReviewRecommendations, Kept w 500 text) ∧
    result.securityReviewRecommendations.length ≤ 24
  manual : (∀ text ∈ result.manualReviewRecommendations, Kept w 500 text) ∧
    result.manualReviewRecommendations.length ≤ 24
  blockers : (∀ text ∈ result.blockers, Kept w 500 text) ∧ result.blockers.length ≤ 16
  safe : rejected w result.modelDump = false

theorem sortedTexts_kept {most : ℕ} {values out : List Text}
    (h : sortedTexts most (qaShortText w) values = .ok out) :
    (∀ text ∈ out, Kept w 500 text) ∧ out.length ≤ most := by
  obtain ⟨hvalues, hlength, -, -⟩ := sortedTexts_ok h
  refine ⟨fun text htext => ?_, hlength⟩
  obtain ⟨value, hvalue⟩ := hvalues text htext
  exact qaShortText_ok hvalue

/-- The reason and the suggestion of a challenge. -/
theorem whenGiven_safeText {most : ℕ} {value out : Option Text}
    (h : whenGiven (fun value => do lengthBetween 1 most value; safeText w value) value = .ok out)
    (hsafe : out.any (UNSAFE_TEXT w).search = false) : ∀ text ∈ out, Kept w most text := by
  intro text htext
  cases htext
  cases value with
  | none => cases h
  | some value =>
    simp only [whenGiven, Py.bind_eq_ok, lengthBetween_ok] at h
    obtain ⟨kept, ⟨-, hlength, hkept⟩, heq⟩ := h
    cases heq
    obtain ⟨hfit, hcredential⟩ := fit_of_safeText hlength.2 hkept
    exact ⟨hfit, hcredential, hsafe⟩

theorem Challenge.facts {data challenge : Challenge} (h : data.validate w = .ok challenge)
    (hsafe : rejected w challenge.modelDump = false) :
    (∀ reason ∈ challenge.reason, Kept w 2000 reason) ∧
    (challenge.level ≠ .none → challenge.reason.isSome = true) ∧
    sortedTexts 16 (reference w) challenge.evidenceSourceReferences =
      .ok challenge.evidenceSourceReferences ∧
    ∀ action ∈ challenge.suggestedAction, Kept w 500 action := by
  simp only [Challenge.validate, Py.bind_eq_ok, atMost, raiseIf_eq_ok, Bool.not_eq_false',
    decide_eq_true_eq, Bool.and_eq_false_iff] at h
  obtain ⟨reason, hreason, -, hcount, evidence, hevidence, action, haction, -, -, -, hrequired,
    heq⟩ := h
  cases heq
  rw [Challenge.modelDump, rejected_object] at hsafe
  simp only [List.any_cons, List.any_nil, rejected_textOrNull, Bool.or_eq_false_iff] at hsafe
  obtain ⟨-, hreasonSafe, -, hactionSafe, -⟩ := hsafe
  refine ⟨whenGiven_safeText hreason hreasonSafe, fun hlevel => ?_, ?_,
    whenGiven_safeText haction hactionSafe⟩
  · rcases hrequired with hnone | hsome
    · exact absurd hlevel (of_decide_eq_false hnone)
    · cases hgiven : reason with
      | none =>
        rw [hgiven] at hsome
        cases hsome
      | some value => rfl
  · have hperm := List.perm_insertionSort (· ≤ ·) evidence.dedup
    refine sortedTexts_self (fun text htext => ?_) ?_ ?_ (List.pairwise_insertionSort (· ≤ ·) _)
    · obtain ⟨value, -, hvalue⟩ :=
        mem_of_mapM hevidence text (List.mem_dedup.mp (hperm.mem_iff.mp htext))
      exact referenceItem_reference hvalue
    · rw [uniqueSorted, hperm.length_eq]
      exact Nat.le_trans (List.dedup_sublist evidence).length_le
        (by rw [mapM_ok_length hevidence]; exact hcount)
    · exact hperm.nodup_iff.mpr (List.nodup_dedup evidence)

/-- Sorting its items changes nothing of what a result holds. -/
theorem rejected_sorted (result : QAWorkerResult) {items : List AcceptanceResult}
    {defects : List DefectDescriptor} (hitems : items.Perm result.acceptanceResults)
    (hdefects : defects.Perm result.defects) :
    rejected w { result with acceptanceResults := items, defects := defects }.modelDump =
      rejected w result.modelDump := by
  simp only [QAWorkerResult.modelDump, rejected_object, List.any_cons, rejected_map, hitems.any_eq,
    hdefects.any_eq]

theorem result_facts {data result : QAWorkerResult} (h : data.validate w = .ok result) :
    ResultFacts w result := by
  simp only [QAWorkerResult.validate, Py.bind_eq_ok, countBetween_ok, rejectUnsafeContent,
    raiseIf_eq_ok] at h
  obtain ⟨challenge, hchallenge, summary, hsummary, -, hitemCount, items, hitems, -, hdefectCount,
    defects, hdefects, tests, htests, risks, hrisks, security, hsecurity, manual, hmanual, blockers,
      hblockers, -, hsafe, -, -, -, -, -, -, -, -, heq⟩ := h
  cases heq
  have hitemPerm :=
    List.perm_insertionSort (fun a b : AcceptanceResult => a.criterionId ≤ b.criterionId) items
  have hdefectPerm :=
    List.perm_insertionSort (fun a b : DefectDescriptor => a.defectKey ≤ b.defectKey) defects
  have hparts := hsafe
  rw [QAWorkerResult.modelDump, rejected_object] at hparts
  simp only [List.any_cons, Bool.or_eq_false_iff, rejected_map] at hparts
  obtain ⟨hreason, hrequired, hevidence, haction⟩ := Challenge.facts hchallenge hparts.1
  have hdefectSafe : ∀ defect ∈ defects, ∀ path ∈ defect.componentPath,
      (UNSAFE_TEXT w).search path = false := by
    intro defect hdefect path hpath
    have hdump := List.any_eq_false.mp hparts.2.2.2.2.1 defect hdefect
    rw [Bool.not_eq_true, DefectDescriptor.modelDump, rejected_object] at hdump
    simp only [List.any_cons, Bool.or_eq_false_iff, rejected_textOrNull] at hdump
    have hany := hdump.2.2.2.1
    rw [hpath] at hany
    exact hany
  exact
    { reason := hreason
      required := hrequired
      evidence := hevidence
      action := haction
      summary := qaText_ok hsummary
      acceptance_count := by
        rw [hitemPerm.length_eq, mapM_ok_length hitems]
        exact hitemCount
      acceptance := fun item hitem => by
        obtain ⟨raw, -, hraw⟩ := mem_of_mapM hitems item (hitemPerm.mem_iff.mp hitem)
        exact AcceptanceResult.again hraw
      defect_count := by
        rw [hdefectPerm.length_eq, mapM_ok_length hdefects]
        exact hdefectCount.2
      defects := fun defect hdefect => by
        have hmem := hdefectPerm.mem_iff.mp hdefect
        obtain ⟨raw, -, hraw⟩ := mem_of_mapM hdefects defect hmem
        exact DefectDescriptor.again hraw (hdefectSafe defect hmem)
      tests := sortedTexts_kept htests
      risks := sortedTexts_kept hrisks
      security := sortedTexts_kept hsecurity
      manual := sortedTexts_kept hmanual
      blockers := sortedTexts_kept hblockers
      safe := (rejected_sorted _ hitemPerm hdefectPerm).trans hsafe }

/-! ## The summary -/

/-- The summary of a result. -/
def summaryOf (result : QAWorkerResult) (level : ReviewLevel) (reason : Text) :
    QAHumanReviewSummary where
  verdict := result.verdict
  challengeLevel := level
  challengeReason := reason
  challengeEvidenceReferences := result.challenge.evidenceSourceReferences
  suggestedAction := result.challenge.suggestedAction
  validationSummary := result.validationSummary
  warnings := result.regressionRisks.map (QAHumanReviewWarning.mk .regressionRisk) ++
    result.blockers.map (QAHumanReviewWarning.mk .blocker)
  recommendations := result.testRecommendations.map (QAHumanReviewRecommendation.mk .test) ++
    result.securityReviewRecommendations.map (QAHumanReviewRecommendation.mk .securityReview) ++
    result.manualReviewRecommendations.map (QAHumanReviewRecommendation.mk .manualReview)
  acceptanceResults := result.acceptanceResults
  concerns := result.defects

/-- What no defect's path says, the summary's texts do not say. -/
theorem summaryOf_safe {result : QAWorkerResult} (h : ResultFacts w result) (level : ReviewLevel)
    {reason : Text} (hreason : result.challenge.reason = .some reason) : rejected w
    (summaryOf result level reason).modelDump = false := by
  have hparts := h.safe
  rw [QAWorkerResult.modelDump, rejected_object] at hparts
  simp only [List.any_cons, Bool.or_eq_false_iff, rejected_map, rejected_texts, rejected_string,
    List.any_nil] at hparts
  obtain ⟨hchallenge, hsummary, hverdict, hitems, hdefects, htests, hrisks, hsecurity, hmanual,
    hblockers, -⟩ := hparts
  rw [Challenge.modelDump, rejected_object] at hchallenge
  simp only [List.any_cons, List.any_nil, rejected_textOrNull, rejected_texts, Bool.or_eq_false_iff,
    hreason, Option.any_some] at hchallenge
  have hwarning : ∀ category, ∀ values : List Text, values.any (UNSAFE_TEXT w).search = false →
      (values.map (QAHumanReviewWarning.mk category)).any (fun item => rejected w item.modelDump) =
          false := by
    intro category values hvalues
    rw [List.any_map, ← hvalues]
    refine congrArg values.any (funext fun value => ?_)
    simp [QAHumanReviewWarning.modelDump, rejected_object, warningValue_safe]
  have hrecommendation : ∀ category, ∀ values : List Text, values.any (UNSAFE_TEXT w).search =
    false →
      (values.map (QAHumanReviewRecommendation.mk category)).any (fun item =>
          rejected w item.modelDump) = false := by
    intro category values hvalues
    rw [List.any_map, ← hvalues]
    refine congrArg values.any (funext fun value => ?_)
    simp [QAHumanReviewRecommendation.modelDump, rejected_object, recommendationValue_safe]
  rw [QAHumanReviewSummary.modelDump, rejected_object]
  simp only [summaryOf, List.any_cons, List.any_nil, rejected_int, rejected_string, rejected_texts,
    rejected_textOrNull, rejected_map, List.any_append, hwarning _ _ hrisks, hwarning _ _ hblockers,
      hrecommendation _ _ htests, hrecommendation _ _ hsecurity,
    hrecommendation _ _ hmanual, hverdict, levelValue_safe, hchallenge.2.1, hchallenge.2.2.1,
      hchallenge.2.2.2.1, hsummary, hitems,
    hdefects, Bool.or_false]

theorem QAHumanReviewWarning.validate_kept {warning : QAHumanReviewWarning}
    (h : Kept w 500 warning.message) :
    warning.validate w = .ok warning := by
  rw [QAHumanReviewWarning.validate, h.qaShortText]
  rfl

theorem QAHumanReviewRecommendation.validate_kept {recommendation : QAHumanReviewRecommendation}
    (h : Kept w 500 recommendation.message) : recommendation.validate w = .ok recommendation := by
  rw [QAHumanReviewRecommendation.validate, h.qaShortText]
  rfl

/-- The class accepts the summary, whatever defects stand in for those of the result. -/
theorem summaryOf_validate {result : QAWorkerResult} (h : ResultFacts w result)
    (level : ReviewLevel) {reason : Text} (hreason : result.challenge.reason = .some reason) :
    (summaryOf result level reason).validate w = .ok (summaryOf result level reason) := by
  have haction : whenGiven (qaShortText w) result.challenge.suggestedAction =
      .ok result.challenge.suggestedAction := by
    cases hgiven : result.challenge.suggestedAction with
    | none => rfl
    | some action =>
      rw [whenGiven, (h.action action hgiven).qaShortText]
      rfl
  have hwarnings : countBetween 0 40 (summaryOf result level reason).warnings = .ok () := by
    have hrisks := h.risks.2
    have hblockers := h.blockers.2
    rw [countBetween_ok, summaryOf, List.length_append, List.length_map, List.length_map]
    omega
  have hrecommendations : countBetween 0 72 (summaryOf result level reason).recommendations =
      .ok () := by
    have htests := h.tests.2
    have hsecurity := h.security.2
    have hmanual := h.manual.2
    rw [countBetween_ok, summaryOf, List.length_append, List.length_append, List.length_map,
      List.length_map, List.length_map]
    omega
  have hitems : countBetween 1 24 (summaryOf result level reason).acceptanceResults = .ok () :=
    countBetween_ok.mpr h.acceptance_count
  have hdefects : countBetween 0 32 (summaryOf result level reason).concerns = .ok () :=
    countBetween_ok.mpr ⟨Nat.zero_le _, h.defect_count⟩
  have hreasonKept : qaText w 2000 (summaryOf result level reason).challengeReason = .ok reason :=
    (h.reason reason hreason).qaText
  have hevidence :
    sortedTexts 16 (reference w) (summaryOf result level reason).challengeEvidenceReferences =
      .ok result.challenge.evidenceSourceReferences := h.evidence
  have hactionKept : whenGiven (qaShortText w) (summaryOf result level reason).suggestedAction =
      .ok result.challenge.suggestedAction := haction
  have hsummary : qaText w 3000 (summaryOf result level reason).validationSummary =
    .ok result.validationSummary := h.summary.qaText
  rw [QAHumanReviewSummary.validate, hreasonKept, Py.ok_bind, hevidence, Py.ok_bind, hactionKept,
    Py.ok_bind, hsummary, Py.ok_bind, hwarnings, Py.ok_bind, hrecommendations, Py.ok_bind, hitems,
      Py.ok_bind, hdefects, Py.ok_bind]
  change (rejectUnsafeContent w (summaryOf result level reason).modelDump >>=
    fun _ => pure (summaryOf result level reason)) = _
  rw [rejectUnsafeContent, summaryOf_safe h level hreason]
  rfl

theorem humanReviewSummary_eq {result : QAWorkerResult} (h : ResultFacts w result)
    {level : ReviewLevel} {reason : Text}
    (hlevel : reviewLevel result.challenge.level = .some level)
    (hreason : result.challenge.reason = .some reason) :
    humanReviewSummary w result = .ok (summaryOf result level reason) := by
  have hwarnings : ∀ category, ∀ values : List Text, (∀ text ∈ values, Kept w 500 text) →
      values.mapM (fun value => QAHumanReviewWarning.validate w ⟨category, value⟩) =
        .ok (values.map (QAHumanReviewWarning.mk category)) :=
    fun category values hvalues => mapM_eq_map fun value hvalue =>
      QAHumanReviewWarning.validate_kept (hvalues value hvalue)
  have hrecommendations : ∀ category, ∀ values : List Text, (∀ text ∈ values, Kept w 500 text) →
      values.mapM (fun value => QAHumanReviewRecommendation.validate w ⟨category, value⟩) =
        .ok (values.map (QAHumanReviewRecommendation.mk category)) :=
    fun category values hvalues => mapM_eq_map fun value hvalue =>
      QAHumanReviewRecommendation.validate_kept (hvalues value hvalue)
  rw [humanReviewSummary, hlevel, orRaise_some, Py.ok_bind, hreason, orRaise_some, Py.ok_bind,
    hwarnings _ _ h.risks.1, Py.ok_bind, hwarnings _ _ h.blockers.1, Py.ok_bind,
      hrecommendations _ _ h.tests.1, Py.ok_bind, hrecommendations _ _ h.security.1, Py.ok_bind,
    hrecommendations _ _ h.manual.1, Py.ok_bind]
  exact summaryOf_validate h level hreason

/-! ## The operator view -/

theorem readList_map {α β} {dump : β → JsonTree} {read : JsonTree → Py α} {f : β → Py α}
    (h : ∀ item, read (dump item) = f item) :
    ∀ items : List β, readList read (.array (items.map dump)) = items.mapM f
  | [] => rfl
  | item :: items => by
    have ih := readList_map h items
    rw [readList] at ih ⊢
    rw [List.map_cons, List.mapM_cons, List.mapM_cons, h, ih]

theorem readList_texts (values : List Text) : readList readText (texts values) = .ok values :=
  (readList_map (fun _ => rfl) values).trans (mapM_self fun _ _ => rfl)

theorem readOptional_textOrNull (value : Option Text) : readOptional
    (textOrNull value) = .ok value := by
  cases value <;> rfl

theorem readAcceptanceResult_dump (item : AcceptanceResult) :
    readAcceptanceResult w item.modelDump = item.validate w := by
  have hstatus : readMember [.pass, .fail, .notVerified] statusValue
      (.string (statusValue item.status)) = .ok item.status := by
    cases item.status <;> rfl
  change (readMember [.pass, .fail, .notVerified] statusValue
      (.string (statusValue item.status)) >>= fun status =>
    readList readText (texts item.evidenceReferences) >>= fun references =>
    AcceptanceResult.validate w ⟨item.criterionId, status, item.rationale, references⟩) = _
  rw [hstatus, Py.ok_bind, readList_texts, Py.ok_bind]

theorem readDefect_dump (defect : DefectDescriptor) :
    readDefect w defect.modelDump = defect.validate w := by
  have hseverity : readMember [.low, .medium, .high, .critical] severityValue
    (.string (severityValue defect.severity)) =
      .ok defect.severity := by
    cases defect.severity <;> rfl
  change (readMember [.low, .medium, .high, .critical] severityValue
      (.string (severityValue defect.severity)) >>= fun severity =>
    readOptional (textOrNull defect.componentPath) >>= fun path =>
    readList readText (texts defect.affectedCriteria) >>= fun criteria =>
    DefectDescriptor.validate w ⟨defect.defectKey, defect.title, severity, path, defect.description,
      criteria, defect.remediationSummary⟩) = _
  rw [hseverity, Py.ok_bind, readOptional_textOrNull, Py.ok_bind, readList_texts, Py.ok_bind]

theorem readWarning_dump (warning : QAHumanReviewWarning) :
    readWarning w warning.modelDump = warning.validate w := by
  have hcategory :
    readMember [.regressionRisk, .blocker] warningValue (.string (warningValue warning.category)) =
      .ok warning.category := by
    cases warning.category <;> rfl
  change (readMember [.regressionRisk, .blocker] warningValue
      (.string (warningValue warning.category)) >>= fun category =>
    QAHumanReviewWarning.validate w ⟨category, warning.message⟩) = _
  rw [hcategory, Py.ok_bind]

theorem readRecommendation_dump (recommendation : QAHumanReviewRecommendation) :
    readRecommendation w recommendation.modelDump = recommendation.validate w := by
  have hcategory : readMember [.test, .securityReview, .manualReview] recommendationValue
      (.string (recommendationValue recommendation.category)) = .ok recommendation.category := by
    cases recommendation.category <;> rfl
  change (readMember [.test, .securityReview, .manualReview] recommendationValue
    (.string (recommendationValue recommendation.category)) >>= fun category =>
    QAHumanReviewRecommendation.validate w ⟨category, recommendation.message⟩) = _
  rw [hcategory, Py.ok_bind]

/-- The operator view validates what the row holds: each nested value, and then the class. -/
theorem operatorSummary_dump (summary : QAHumanReviewSummary) :
    operatorSummary w summary.modelDump = (do
      let warnings ← summary.warnings.mapM (QAHumanReviewWarning.validate w)
      let recommendations ← summary.recommendations.mapM (QAHumanReviewRecommendation.validate w)
      let acceptanceResults ← summary.acceptanceResults.mapM (AcceptanceResult.validate w)
      let concerns ← summary.concerns.mapM (DefectDescriptor.validate w)
      QAHumanReviewSummary.validate w { summary with
        warnings := warnings
        recommendations := recommendations
        acceptanceResults := acceptanceResults
        concerns := concerns }) := by
  have hverdict : readMember [.pass, .passWithWarnings, .fail, .inconclusive] verdictValue
    (.string (verdictValue summary.verdict)) =
      .ok summary.verdict := by
    cases summary.verdict <;> rfl
  have hlevel : readMember [.humanReviewRecommended, .blockRecommended] levelValue
    (.string (levelValue summary.challengeLevel)) =
      .ok summary.challengeLevel := by
    cases summary.challengeLevel <;> rfl
  change (readMember [.pass, .passWithWarnings, .fail, .inconclusive] verdictValue
      (.string (verdictValue summary.verdict)) >>= fun verdict =>
    readMember [.humanReviewRecommended, .blockRecommended] levelValue
        (.string (levelValue summary.challengeLevel)) >>= fun level =>
    readList readText (texts summary.challengeEvidenceReferences) >>= fun evidence =>
    readOptional (textOrNull summary.suggestedAction) >>= fun suggestedAction =>
    readList (readWarning w) (.array (summary.warnings.map QAHumanReviewWarning.modelDump)) >>=
        fun warnings =>
    readList (readRecommendation w)
        (.array (summary.recommendations.map QAHumanReviewRecommendation.modelDump)) >>=
        fun recommendations =>
    readList (readAcceptanceResult w)
        (.array (summary.acceptanceResults.map AcceptanceResult.modelDump)) >>=
        fun acceptanceResults =>
    readList (readDefect w) (.array (summary.concerns.map DefectDescriptor.modelDump)) >>=
        fun concerns =>
    QAHumanReviewSummary.validate w ⟨verdict, level, summary.challengeReason, evidence,
      suggestedAction, summary.validationSummary, warnings, recommendations, acceptanceResults,
        concerns⟩) = _
  rw [hverdict, Py.ok_bind, hlevel, Py.ok_bind, readList_texts, Py.ok_bind, readOptional_textOrNull,
    Py.ok_bind, readList_map readWarning_dump, readList_map readRecommendation_dump,
      readList_map readAcceptanceResult_dump,
    readList_map readDefect_dump]

/-- The view accepts a summary again, as it is, exactly if no defect's path reads as a
credential. -/
theorem operatorSummary_iff {result : QAWorkerResult} (h : ResultFacts w result)
    (level : ReviewLevel) {reason : Text} (hreason : result.challenge.reason = .some reason) :
    operatorSummary w (summaryOf result level reason).modelDump = .ok
      (summaryOf result level reason) ↔
      ∀ defect ∈ result.defects, defect.componentPath.any (CREDENTIAL w).search = false := by
  have hwarnings : (summaryOf result level reason).warnings.mapM (QAHumanReviewWarning.validate w) =
      .ok (summaryOf result level reason).warnings := by
    refine mapM_self fun warning hwarning => QAHumanReviewWarning.validate_kept ?_
    simp only [summaryOf, List.mem_append, List.mem_map] at hwarning
    rcases hwarning with ⟨text, htext, heq⟩ | ⟨text, htext, heq⟩ <;> rw [← heq]
    · exact h.risks.1 text htext
    · exact h.blockers.1 text htext
  have hrecommendations :
    (summaryOf result level reason).recommendations.mapM (QAHumanReviewRecommendation.validate w) =
      .ok (summaryOf result level reason).recommendations := by
    refine mapM_self fun recommendation hrecommendation =>
      QAHumanReviewRecommendation.validate_kept ?_
    simp only [summaryOf, List.mem_append, List.mem_map] at hrecommendation
    rcases hrecommendation with (⟨text, htext, heq⟩ | ⟨text, htext, heq⟩) | ⟨text, htext, heq⟩ <;>
      rw [← heq]
    · exact h.tests.1 text htext
    · exact h.security.1 text htext
    · exact h.manual.1 text htext
  have hitems :
    (summaryOf result level reason).acceptanceResults.mapM (AcceptanceResult.validate w) =
      .ok result.acceptanceResults := mapM_self h.acceptance
  rw [operatorSummary_dump, hwarnings, Py.ok_bind, hrecommendations, Py.ok_bind, hitems, Py.ok_bind]
  constructor
  · intro hview defect hdefect
    obtain ⟨concerns, hconcerns, -⟩ := Py.bind_eq_ok.mp hview
    have hok : (defect.validate w).isOk = true :=
      mapM_isOk.mp (Py.isOk_iff.mpr ⟨concerns, hconcerns⟩) defect hdefect
    rw [h.defects defect hdefect] at hok
    cases hpath : defect.componentPath.any (CREDENTIAL w).search with
    | false => rfl
    | true =>
      rw [hpath] at hok
      cases hok
  · intro hpaths
    have hconcerns : (summaryOf result level reason).concerns.mapM (DefectDescriptor.validate w) =
        .ok result.defects := by
      refine mapM_self fun defect hdefect => ?_
      rw [h.defects defect hdefect, hpaths defect hdefect]
      rfl
    rw [hconcerns, Py.ok_bind]
    exact summaryOf_validate h level hreason

/-! ## Bytes -/

/-- The bytes of a text in the row: its characters in UTF-8, escaped, and the quotes. -/
def textBytes (value : Text) : ℕ := (JsonTree.string value).size

def optionBytes : Option Text → ℕ
  | .none => 4
  | .some value => textBytes value

/-- The bytes of an array of so many items, which take `contents` bytes. -/
def arrayBytes (contents count : ℕ) : ℕ := contents + 2 * (count - 1) + 2

def listBytes {α} (bytes : α → ℕ) (items : List α) : ℕ :=
  arrayBytes (items.map bytes).sum items.length

def acceptanceBytes (item : AcceptanceResult) : ℕ :=
  70 + textBytes item.criterionId + textBytes (statusValue item.status) + textBytes item.rationale +
    listBytes textBytes item.evidenceReferences

def defectBytes (defect : DefectDescriptor) : ℕ :=
  126 + textBytes defect.defectKey + textBytes defect.title +
    textBytes (severityValue defect.severity) +
    optionBytes defect.componentPath + textBytes defect.description +
      listBytes textBytes defect.affectedCriteria +
    textBytes defect.remediationSummary

/-- The bytes of messages of one category. -/
def messageBytes (category : Text) (values : List Text) : ℕ :=
  (values.map fun value => 27 + textBytes category + textBytes value).sum

/-- How many bytes the row of a result's summary takes. -/
def reviewBytes (result : QAWorkerResult) : ℕ :=
  231 + textBytes (verdictValue result.verdict) +
    textBytes (challengeLevelValue result.challenge.level) +
    optionBytes result.challenge.reason +
      listBytes textBytes result.challenge.evidenceSourceReferences +
    optionBytes result.challenge.suggestedAction + textBytes result.validationSummary +
    arrayBytes (messageBytes (warningValue .regressionRisk) result.regressionRisks +
      messageBytes (warningValue .blocker) result.blockers) (result.regressionRisks.length +
        result.blockers.length) +
    arrayBytes (messageBytes (recommendationValue .test) result.testRecommendations +
      messageBytes (recommendationValue .securityReview) result.securityReviewRecommendations +
      messageBytes (recommendationValue .manualReview) result.manualReviewRecommendations)
      (result.testRecommendations.length + result.securityReviewRecommendations.length +
        result.manualReviewRecommendations.length) +
    listBytes acceptanceBytes result.acceptanceResults + listBytes defectBytes result.defects

section
open JsonTree

theorem sizeIn_string (value : Text) : (string value).sizeIn jsonbStyle = textBytes value := rfl

theorem sizeIn_textOrNull (value : Option Text) :
    (textOrNull value).sizeIn jsonbStyle = optionBytes value := by
  cases value <;> rfl

theorem sizeIn_items (items : List JsonTree) :
    (array items).sizeIn jsonbStyle = arrayBytes
    (items.map fun item => item.sizeIn jsonbStyle).sum items.length := by
  have hcomma : measure utf8Width jsonbStyle.comma = 2 := rfl
  rw [sizeIn_array, hcomma, arrayBytes]

theorem sizeIn_list {α} {dump : α → JsonTree} {bytes : α → ℕ}
    (h : ∀ item, (dump item).sizeIn jsonbStyle = bytes item) (items : List α) :
    (array (items.map dump)).sizeIn jsonbStyle = listBytes bytes items := by
  rw [sizeIn_items, List.map_map, List.length_map, listBytes]
  exact congrArg (fun contents => arrayBytes contents items.length)
    (congrArg List.sum (List.map_congr_left fun item _ => h item))

theorem sizeIn_texts (values : List Text) :
    (texts values).sizeIn jsonbStyle = listBytes textBytes values :=
  sizeIn_list sizeIn_string values

theorem sizeIn_acceptanceResult (item : AcceptanceResult) :
    item.modelDump.sizeIn jsonbStyle = acceptanceBytes item := by
  have hframe : frameIn jsonbStyle ["criterion_id".toList, "status".toList, "rationale".toList,
      "evidence_references".toList] = 70 := by
    rw [frameIn_verbatim jsonbStyle (by decide)]
    rfl
  rw [AcceptanceResult.modelDump, sizeIn_object, acceptanceBytes]
  simp only [List.map_cons, List.map_nil, List.sum_cons, List.sum_nil, hframe, sizeIn_string,
    sizeIn_texts]
  omega

theorem sizeIn_defect (defect : DefectDescriptor) :
    defect.modelDump.sizeIn jsonbStyle = defectBytes defect := by
  have hframe : frameIn jsonbStyle ["defect_key".toList, "title".toList, "severity".toList,
    "component_path".toList,
      "description".toList, "affected_criteria".toList, "remediation_summary".toList] = 126 := by
    rw [frameIn_verbatim jsonbStyle (by decide)]
    rfl
  rw [DefectDescriptor.modelDump, sizeIn_object, defectBytes]
  simp only [List.map_cons, List.map_nil, List.sum_cons, List.sum_nil, hframe, sizeIn_string,
    sizeIn_texts, sizeIn_textOrNull]
  omega

theorem frameIn_message : frameIn jsonbStyle ["category".toList, "message".toList] = 27 := by
  rw [frameIn_verbatim jsonbStyle (by decide)]
  rfl

theorem sizeIn_warnings (category : WarningCategory) (values : List Text) :
    ((values.map fun value => (QAHumanReviewWarning.mk category value).modelDump).map fun item =>
      item.sizeIn jsonbStyle).sum =
      messageBytes (warningValue category) values := by
  rw [List.map_map]
  refine congrArg List.sum (List.map_congr_left fun value _ => ?_)
  simp only [Function.comp, QAHumanReviewWarning.modelDump, sizeIn_object, List.map_cons,
    List.map_nil, List.sum_cons, List.sum_nil, frameIn_message, sizeIn_string]
  omega

theorem sizeIn_recommendations (category : RecommendationCategory) (values : List Text) :
    ((values.map fun value => (QAHumanReviewRecommendation.mk category value).modelDump).map
      fun item => item.sizeIn jsonbStyle).sum =
      messageBytes (recommendationValue category) values := by
  rw [List.map_map]
  refine congrArg List.sum (List.map_congr_left fun value _ => ?_)
  simp only [Function.comp, QAHumanReviewRecommendation.modelDump, sizeIn_object, List.map_cons,
    List.map_nil, List.sum_cons, List.sum_nil, frameIn_message, sizeIn_string]
  omega

/-- The row of a summary takes the bytes that are counted of the result. -/
theorem sizeIn_summaryOf {result : QAWorkerResult} {level : ReviewLevel} {reason : Text}
    (hlevel : reviewLevel result.challenge.level = .some level)
    (hreason : result.challenge.reason = .some reason) :
    (encode ((summaryOf result level reason).modelDump.write jsonbStyle)).length =
    reviewBytes result := by
  have hframe : frameIn jsonbStyle ["schema_version".toList, "verdict".toList,
    "challenge_level".toList, "challenge_reason".toList,
      "challenge_evidence_references".toList, "suggested_action".toList,
        "validation_summary".toList, "warnings".toList,
      "recommendations".toList, "acceptance_results".toList, "concerns".toList] = 230 := by
    rw [frameIn_verbatim jsonbStyle (by decide)]
    rfl
  have hvalue : levelValue level = challengeLevelValue result.challenge.level := by
    cases hcase : result.challenge.level <;> rw [hcase, reviewLevel] at hlevel <;> cases hlevel <;>
      rfl
  have hone : (int 1).sizeIn jsonbStyle = 1 := by decide
  have hwarnings :
    (array ((summaryOf result level reason).warnings.map QAHumanReviewWarning.modelDump)).sizeIn
    jsonbStyle =
      arrayBytes (messageBytes (warningValue .regressionRisk) result.regressionRisks +
        messageBytes (warningValue .blocker) result.blockers) (result.regressionRisks.length +
            result.blockers.length) := by
    simp only [sizeIn_items, summaryOf, List.map_append, List.map_map, List.sum_append,
      List.length_append, List.length_map, ← sizeIn_warnings]
    rfl
  have hrecommendations :
      (array ((summaryOf result level reason).recommendations.map
        QAHumanReviewRecommendation.modelDump)).sizeIn jsonbStyle =
      arrayBytes (messageBytes (recommendationValue .test) result.testRecommendations +
        messageBytes (recommendationValue .securityReview) result.securityReviewRecommendations +
        messageBytes (recommendationValue .manualReview) result.manualReviewRecommendations)
        (result.testRecommendations.length + result.securityReviewRecommendations.length +
          result.manualReviewRecommendations.length) := by
    simp only [sizeIn_items, summaryOf, List.map_append, List.map_map, List.sum_append,
      List.length_append, List.length_map, ← sizeIn_recommendations]
    rfl
  change (summaryOf result level reason).modelDump.sizeIn jsonbStyle = _
  rw [QAHumanReviewSummary.modelDump, sizeIn_object]
  simp only [List.map_cons, List.map_nil, List.sum_cons, List.sum_nil, hframe, hwarnings,
    hrecommendations, hone, sizeIn_string, sizeIn_texts, sizeIn_textOrNull,
      sizeIn_list sizeIn_acceptanceResult, sizeIn_list sizeIn_defect]
  simp only [summaryOf, hvalue, reviewBytes, hreason, optionBytes]
  omega

end

theorem storable_iff {result : QAWorkerResult} {level : ReviewLevel} {reason : Text}
    (hlevel : reviewLevel result.challenge.level = .some level)
    (hreason : result.challenge.reason = .some reason) :
    storable (summaryOf result level reason) = true ↔ reviewBytes result ≤ 524288 := by
  rw [storable, sizeIn_summaryOf hlevel hreason, decide_eq_true_eq]

/-! ## The summary of a valid result -/

/-- The summary of a valid result that asks for review is always made, and accepted by its own
class. Its row is stored, and read back as it was, exactly if its bytes fit the constraint and
no defect's path reads as a credential. -/
theorem review_iff {data result : QAWorkerResult} (h : data.validate w = .ok result)
    {level : ReviewLevel} (hlevel : reviewLevel result.challenge.level = .some level) :
    ∃ summary, humanReviewSummary w result = .ok summary ∧ summary.validate w = .ok summary ∧
      ((storable summary = true ∧ operatorSummary w summary.modelDump = .ok summary) ↔
        reviewBytes result ≤ 524288 ∧ ∀ defect ∈ result.defects, defect.componentPath.any
          (CREDENTIAL w).search = false) := by
  have hfacts := result_facts h
  have hreviewed : result.challenge.level ≠ .none := by
    intro hnone
    rw [hnone] at hlevel
    cases hlevel
  obtain ⟨reason, hreason⟩ := Option.isSome_iff_exists.mp (hfacts.required hreviewed)
  refine ⟨summaryOf result level reason, humanReviewSummary_eq hfacts hlevel hreason,
    summaryOf_validate hfacts level hreason, ?_⟩
  rw [storable_iff hlevel hreason, operatorSummary_iff hfacts level hreason]

/-- A result that fails a criterion and asks for review, with one defect at `path`. -/
def failedCheck (path : Text) : QAWorkerResult where
  status := .completed
  challenge := ⟨.humanReviewRecommended, .some ['r'], [], .none⟩
  validationSummary := ['s']
  verdict := .fail
  acceptanceResults := [⟨['c'], .fail, ['n'], []⟩]
  defects := [⟨['d'], ['t'], .low, .some path, ['x'], [['c']], ['m']⟩]
  testRecommendations := []
  regressionRisks := []
  securityReviewRecommendations := []
  manualReviewRecommendations := []
  blockers := []

theorem failedCheck_runs :
    (failedCheck ['p']).validate asciiWord = .ok (failedCheck ['p']) ∧
      (failedCheck "basic \\foo".toList).validate asciiWord = .ok
      (failedCheck "basic /foo".toList) ∧
        (humanReviewSummary asciiWord (failedCheck "basic /foo".toList) >>= fun summary =>
          operatorSummary asciiWord summary.modelDump) = .error .valueError := by
  decide +kernel

theorem plain_path_read : ∃ summary, humanReviewSummary asciiWord
    (failedCheck ['p']) = .ok summary ∧
    summary.validate asciiWord = .ok summary ∧
      ((storable summary = true ∧ operatorSummary asciiWord summary.modelDump = .ok summary) ↔
        reviewBytes (failedCheck ['p']) ≤ 524288 ∧
          ∀ defect ∈ (failedCheck ['p']).defects, defect.componentPath.any
            (CREDENTIAL asciiWord).search = false) :=
  review_iff failedCheck_runs.1 rfl

/-- A path whose backslash follows the word `basic`: the summary is made and stored with a
slash in its place, and the view refuses it. -/
theorem basic_path_refused : ∃ result summary,
    (failedCheck "basic \\foo".toList).validate asciiWord = .ok result ∧
    humanReviewSummary asciiWord result = .ok summary ∧
      operatorSummary asciiWord summary.modelDump = .error .valueError := by
  obtain ⟨-, hvalid, hview⟩ := failedCheck_runs
  have hsummary :=
    humanReviewSummary_eq (result_facts hvalid)
    (show reviewLevel _ = .some .humanReviewRecommended from rfl) rfl
  rw [hsummary, Py.ok_bind] at hview
  exact ⟨_, _, hvalid, hsummary, hview⟩

end Novalton.QaReview
