/-
What the assembly of a context package conserves, and what its filter does
(`assemble_context_package` and `filter_context_package_for_target`): every result is in
one place of the package or is counted as omitted, the package fits its bounds and holds
its own size, and neither raises what it keeps for its own faults.
-/
import Mathlib.Data.List.Induction
import Novalton.ContextPackages

namespace Novalton.ContextPackages

open Catalog (ExecutionTargetClass)

variable {F : Type} (lib : FloatText F) (call : AssemblyArguments)

/-! ## Groups -/

/-- A result that is taken, with the item made of it. -/
abbrev Pick (F : Type) := MemoryRetrievalResult F × ContextPackageItem F

/-- The picks by their groups, in their order. -/
def gather (picks : List (Pick F)) : Groups F :=
  fun name => (picks.filter fun pick => decide (groupOf pick.1 = name)).map Prod.snd

theorem countItems_append (groups : Groups F) (name : Group) (item : ContextPackageItem F) :
    countItems (groups.append name item) = countItems groups + 1 := by
  cases name <;> simp [countItems, groupNames, Groups.append] <;> omega

theorem pop_append (groups : Groups F) (name : Group) (item : ContextPackageItem F) :
    (groups.append name item).pop name = groups := by
  funext other
  by_cases h : other = name <;> simp [Groups.pop, Groups.append, h]

theorem gather_append (picks : List (Pick F)) (pick : Pick F) :
    gather (picks ++ [pick]) = (gather picks).append (groupOf pick.1) pick.2 := by
  funext name
  by_cases h : name = groupOf pick.1
  · simp [gather, Groups.append, h]
  · have hne : groupOf pick.1 ≠ name := fun heq => h heq.symm
    simp [gather, Groups.append, h, hne]

theorem countItems_gather (picks : List (Pick F)) : countItems (gather picks) = picks.length := by
  induction picks using List.reverseRecOn with
  | nil => rfl
  | append_singleton picks pick ih =>
    rw [gather_append, countItems_append, ih, List.length_append, List.length_singleton]

/-! ## Sizes -/

theorem package_eq (groups : Groups F) (totalResults provenanceOmittedCount : ℕ)
    (hcount : countItems groups ≤ totalResults)
    (htask : (call.request.taskId.isSome && call.request.projectId.isNone) = false) :
    package call groups totalResults provenanceOmittedCount = .ok
      (draft call groups totalResults provenanceOmittedCount) := by
  rw [package, if_neg (by omega), htask]
  rfl

/-- A package of no items fits every bound that is admitted. -/
theorem settledSize_empty {totalResults : ℕ} (h : totalResults ≤ maxsize) :
    (draft call (fun _ => []) totalResults 0 : ContextPackage F).settledSize lib ≤
    call.bounds.maxSerializedBytes := by
  refine Nat.le_trans (m := 1024) (settled_le ?_) call.bounds.maxSerializedBytes_valid.1
  have hcontent : content lib (fun _ => [] : Groups F) = 14 := by
    simp [content, groupNames, JsonTree.size_array]
  have hfew : numeralLength call.bounds.maxItems ≤ 2 :=
    (numeralLength_le_iff (by decide)).mpr
      (Nat.lt_of_le_of_lt call.bounds.maxItems_valid.2 (by decide))
  have hbytes : numeralLength call.bounds.maxSerializedBytes ≤ 6 :=
    (numeralLength_le_iff (by decide)).mpr
      (Nat.lt_of_le_of_lt call.bounds.maxSerializedBytes_valid.2 (by decide))
  have heach : numeralLength call.bounds.maxProvenancePerItem ≤ 2 :=
    (numeralLength_le_iff (by decide)).mpr
      (Nat.lt_of_le_of_lt call.bounds.maxProvenancePerItem_valid.2 (by decide))
  have hall : numeralLength call.bounds.maxProvenanceReferences ≤ 3 :=
    (numeralLength_le_iff (by decide)).mpr
      (Nat.lt_of_le_of_lt call.bounds.maxProvenanceReferences_valid.2 (by decide))
  have htotal : numeralLength (totalResults - 0) ≤ 19 :=
    (numeralLength_le_iff (by decide)).mpr (Nat.lt_of_le_of_lt h (by decide))
  have hproject := size_optional_uuid call.request.projectId
  have htask := size_optional_uuid call.request.taskId
  have hrun := size_optional_uuid call.request.workflowRunId
  have hassembled := call.assembledAt.json_length
  have hasOf := call.asOf.json_length
  have hzero : numeralLength 0 = 1 := rfl
  have hown : numeralLength 1024 = 4 := rfl
  have hnone : countItems (fun _ => [] : Groups F) = 0 := rfl
  rw [ContextPackage.envelope, frame_packageKeys, size_bounds, Datetime.size_json,
    Datetime.size_json, size_uuid]
  simp only [draft, hcontent, hnone, hzero, hown]
  omega

/-! ## The loop -/

/-- The loop after the results of `done`: what it has taken is `picks`. -/
structure Built (totalResults : ℕ) (done : List (MemoryRetrievalResult F)) (loop : Assembling F)
    (picks : List (Pick F)) : Prop where
  sublist : (picks.map Prod.fst).Sublist done
  groups : loop.groups = gather picks
  cut : ∀ pick ∈ picks, ∃ remaining, pick.2 = item call.bounds remaining pick.1
  retained : loop.retainedProvenance = (picks.map fun pick => pick.2.provenance.length).sum
  referenced : loop.retainedProvenance ≤ call.bounds.maxProvenanceReferences
  omitted : loop.omittedProvenance = (picks.map fun pick => pick.2.provenanceOmittedCount).sum
  few : picks.length ≤ call.bounds.maxItems
  fits : picks = [] ∨
    (draft call loop.groups totalResults loop.omittedProvenance).settledSize lib ≤
      call.bounds.maxSerializedBytes

theorem item_provenance_le (bounds : ContextPackageBounds) (remaining : ℕ)
    (result : MemoryRetrievalResult F) :
    (item bounds remaining result).provenance.length ≤
    min bounds.maxProvenancePerItem remaining := by
  simp only [item, List.length_map]
  exact List.length_take_le _ _

/-- One round that has room for an item: its package is measured, and the item stays if that
fits. -/
theorem consider_eq (totalResults : ℕ) (loop : Assembling F) (result : MemoryRetrievalResult F)
    (htask : (call.request.taskId.isSome && call.request.projectId.isNone) = false)
    (hfull : ¬ call.bounds.maxItems ≤ countItems loop.groups)
    (hcount : countItems loop.groups + 1 ≤ totalResults) {made : ContextPackageItem F}
    (hmade : made = item call.bounds (call.bounds.maxProvenanceReferences - loop.retainedProvenance)
    result) :
    consider lib call totalResults loop result =
      if call.bounds.maxSerializedBytes <
        (draft call (loop.groups.append (groupOf result) made) totalResults
          (loop.omittedProvenance + made.provenanceOmittedCount)).settledSize lib then .ok loop
      else
        .ok ⟨loop.groups.append (groupOf result) made, loop.retainedProvenance +
          made.provenance.length, loop.omittedProvenance + made.provenanceOmittedCount⟩ := by
  have hpackage := package_eq call (loop.groups.append (groupOf result) made) totalResults
    (loop.omittedProvenance + made.provenanceOmittedCount) (by rw [countItems_append]; exact hcount)
      htask
  have hsize :=
    serializedBytes_eq lib (draft call (loop.groups.append (groupOf result) made) totalResults
    (loop.omittedProvenance + made.provenanceOmittedCount)) rfl
  rw [consider, if_neg hfull]
  simp only [← hmade, hpackage, bind, Except.bind, hsize, pop_append]

variable {lib call}

theorem Built.skip {totalResults : ℕ} {done : List (MemoryRetrievalResult F)} {loop : Assembling F}
    {picks : List (Pick F)} (h : Built lib call totalResults done loop picks)
    (result : MemoryRetrievalResult F) :
    Built lib call totalResults (done ++ [result]) loop picks :=
  { h with sublist := h.sublist.trans (List.sublist_append_left done [result]) }

theorem Built.count {totalResults : ℕ} {done : List (MemoryRetrievalResult F)} {loop : Assembling F}
    {picks : List (Pick F)} (h : Built lib call totalResults done loop picks) :
    countItems loop.groups = picks.length := by
  rw [h.groups, countItems_gather]

theorem Built.count_le {totalResults : ℕ} {done : List (MemoryRetrievalResult F)}
    {loop : Assembling F} {picks : List (Pick F)}
    (h : Built lib call totalResults done loop picks) : countItems loop.groups ≤ done.length := by
  rw [h.count]
  simpa using h.sublist.length_le

/-- One round skips a result or takes it. -/
theorem Built.consider {totalResults : ℕ} {done : List (MemoryRetrievalResult F)}
    {loop : Assembling F} {picks : List (Pick F)} (h : Built lib call totalResults done loop picks)
    (htask : (call.request.taskId.isSome && call.request.projectId.isNone) = false)
    (result : MemoryRetrievalResult F) (hroom : done.length < totalResults) :
    ∃ loop' picks', ContextPackages.consider lib call totalResults loop result = .ok loop' ∧
      Built lib call totalResults (done ++ [result]) loop' picks' := by
  have hcount := h.count_le
  by_cases hfull : call.bounds.maxItems ≤ countItems loop.groups
  · exact ⟨loop, picks, by rw [ContextPackages.consider, if_pos hfull], h.skip result⟩
  set made := item call.bounds (call.bounds.maxProvenanceReferences - loop.retainedProvenance)
    result with hmade
  have hround := consider_eq lib call totalResults loop result htask hfull (by omega) hmade
  by_cases hlarge : call.bounds.maxSerializedBytes <
    (draft call (loop.groups.append (groupOf result) made) totalResults
      (loop.omittedProvenance + made.provenanceOmittedCount)).settledSize lib
  · exact ⟨loop, picks, by rw [hround, if_pos hlarge], h.skip result⟩
  · refine ⟨_, picks ++ [(result, made)], by rw [hround, if_neg hlarge], ?_⟩
    have hprovenance :=
      item_provenance_le call.bounds (call.bounds.maxProvenanceReferences - loop.retainedProvenance)
      result
    have hreferenced := h.referenced
    exact
      { sublist := by
          rw [List.map_append]
          exact h.sublist.append (List.Sublist.refl [result])
        groups := by rw [gather_append, h.groups]
        cut := fun pick hpick => by
          rcases List.mem_append.mp hpick with hold | hnew
          · exact h.cut pick hold
          · rw [List.mem_singleton.mp hnew]
            exact ⟨_, hmade⟩
        retained := by simp [h.retained]
        referenced := by
          rw [← hmade] at hprovenance
          have := Nat.le_min.mp hprovenance
          show loop.retainedProvenance + made.provenance.length ≤
            call.bounds.maxProvenanceReferences
          omega
        omitted := by simp [h.omitted]
        few := by
          rw [h.count] at hfull
          rw [List.length_append, List.length_singleton]
          omega
        fits := .inr (Nat.le_of_not_lt hlarge) }

/-- The whole loop. -/
theorem Built.run {totalResults : ℕ}
    (htask : (call.request.taskId.isSome && call.request.projectId.isNone) = false) :
    ∀ (rest : List (MemoryRetrievalResult F)) {done : List (MemoryRetrievalResult F)} {loop :
    Assembling F} {picks : List (Pick F)},
      Built lib call totalResults done loop picks → done.length + rest.length = totalResults →
      ∃ loop' picks', rest.foldlM (ContextPackages.consider lib call totalResults) loop =
        .ok loop' ∧
        Built lib call totalResults (done ++ rest) loop' picks'
  | [], done, loop, picks, h, _ => ⟨loop, picks, rfl, by simpa using h⟩
  | result :: rest, done, loop, picks, h, hlength => by
    rw [List.length_cons] at hlength
    obtain ⟨next, taken, hnext, hbuilt⟩ := h.consider htask result (by omega)
    obtain ⟨last, picked, hlast, hdone⟩ := Built.run htask rest hbuilt (by
      rw [List.length_append, List.length_singleton]
      omega)
    refine ⟨last, picked, ?_, by simpa using hdone⟩
    rw [List.foldlM_cons, hnext]
    exact hlast

/-! ## Assembly -/

variable (lib call)

/-- What a package keeps of the results it is assembled from: the picks are results in their
order, each with its item, and every other result is counted as omitted. -/
structure Conserves (results : List (MemoryRetrievalResult F)) (picks : List (Pick F))
    (package : ContextPackage F) : Prop where
  sublist : (picks.map Prod.fst).Sublist results
  included : package.includedCount = picks.length
  counted : package.includedCount + package.omittedCount = results.length
  cut : ∀ pick ∈ picks, ∃ remaining, pick.2 = item call.bounds remaining pick.1
  grouped : ∀ name,
    package.groups name = (picks.filter fun pick => decide (groupOf pick.1 = name)).map Prod.snd
  items_le : picks.length ≤ call.bounds.maxItems
  provenance_le : ∀ pick ∈ picks, pick.2.provenance.length ≤ call.bounds.maxProvenancePerItem
  references_le :
    (picks.map fun pick => pick.2.provenance.length).sum ≤ call.bounds.maxProvenanceReferences
  provenance_counted : ∀ pick ∈ picks, pick.2.provenance.length + pick.2.provenanceOmittedCount =
    pick.1.provenance.length
  provenance_omitted :
    package.provenanceOmittedCount = (picks.map fun pick => pick.2.provenanceOmittedCount).sum
  recorded : package.serializedBytes = (encode (package.modelDumpJson lib)).length
  bounded : package.serializedBytes ≤ call.bounds.maxSerializedBytes

/-- A package that counts its items and has settled on its size within its bound. -/
structure Sound (package : ContextPackage F) : Prop where
  count : package.includedCount = countItems package.groups
  settled : package.serializedBytes = package.settledSize lib
  bounded : package.serializedBytes ≤ package.bounds.maxSerializedBytes

theorem item_provenance (bounds : ContextPackageBounds) (remaining : ℕ)
    (result : MemoryRetrievalResult F) :
    (item bounds remaining result).provenance.length +
    (item bounds remaining result).provenanceOmittedCount =
      result.provenance.length := by
  have hle := List.length_take_le (min bounds.maxProvenancePerItem remaining) result.provenance
  have htake : (result.provenance.take (min bounds.maxProvenancePerItem remaining)).length ≤
      result.provenance.length := by
    rw [List.length_take]
    exact Nat.min_le_right _ _
  simp only [item, List.length_map]
  omega

theorem forM_ok {α ε} {f : α → Except ε Unit} : ∀ {items : List α},
    (∀ item ∈ items, f item = .ok ()) → items.forM f = .ok ()
  | [], _ => rfl
  | item :: items, h => by
    rw [List.forM, h item List.mem_cons_self]
    exact forM_ok fun other hother => h other (List.mem_cons_of_mem item hother)

theorem built_start (totalResults : ℕ) : Built lib call totalResults []
    (⟨fun _ => [], 0, 0⟩ : Assembling F) [] where
  sublist := List.Sublist.refl []
  groups := rfl
  cut := fun _ hpick => absurd hpick List.not_mem_nil
  retained := rfl
  referenced := Nat.zero_le _
  omitted := rfl
  few := Nat.zero_le _
  fits := .inl rfl

variable {results : Sequence (MemoryRetrievalResult F)}

/-- Of results in scope and a task with its project, a package is assembled. -/
theorem assemble_ok (hscope : ∀ result ∈ results.items, validateResultScope call result = .ok ())
    (htask : (call.request.taskId.isSome && call.request.projectId.isNone) = false) :
    ∃ package picks, assembleContextPackage lib call results = .ok package ∧
      Conserves lib call results.items picks package ∧
      Sound lib package ∧ package.bounds = call.bounds := by
  obtain ⟨loop, picks, hrun, hbuilt⟩ :=
    Built.run htask results.items (built_start lib call results.items.length)
    (Nat.zero_add _)
  rw [List.nil_append] at hbuilt
  have hcount := hbuilt.count_le
  have hpackage :=
    package_eq call loop.groups results.items.length loop.omittedProvenance hcount htask
  set made := draft call loop.groups results.items.length loop.omittedProvenance with hmade
  have hfits : made.settledSize lib ≤ call.bounds.maxSerializedBytes := by
    rcases hbuilt.fits with hnil | hfits
    · have hgroups : loop.groups = fun _ => [] := by rw [hbuilt.groups, hnil]; rfl
      have homitted : loop.omittedProvenance = 0 := by rw [hbuilt.omitted, hnil]; rfl
      rw [hmade, hgroups, homitted]
      exact settledSize_empty lib call results.length_le
    · exact hfits
  have hsound : Sound lib { made with serializedBytes := made.settledSize lib } := ⟨rfl, rfl, hfits⟩
  refine ⟨{ made with serializedBytes := made.settledSize lib }, picks, ?_, ?_, hsound, rfl⟩
  · have hsize := serializedBytes_eq lib made rfl
    simp only [assembleContextPackage, forM_ok hscope, hrun, hpackage, hsize, bind, Except.bind,
      if_neg (Nat.not_lt.mpr hfits)]
  · exact
      { sublist := hbuilt.sublist
        included := hbuilt.count
        counted := Nat.add_sub_cancel' hcount
        cut := hbuilt.cut
        grouped := fun name => congrFun hbuilt.groups name
        items_le := hbuilt.few
        provenance_le := fun pick hpick => by
          obtain ⟨remaining, hitem⟩ := hbuilt.cut pick hpick
          rw [hitem]
          exact (Nat.le_min.mp (item_provenance_le call.bounds remaining pick.1)).1
        references_le := hbuilt.retained ▸ hbuilt.referenced
        provenance_counted := fun pick hpick => by
          obtain ⟨remaining, hitem⟩ := hbuilt.cut pick hpick
          rw [hitem]
          exact item_provenance call.bounds remaining pick.1
        provenance_omitted := hbuilt.omitted
        recorded := settled_recorded lib hsound.settled
        bounded := hfits }

/-- A task without its project is refused by the class, as soon as a package is made. -/
theorem assemble_task_error
    (hscope : ∀ result ∈ results.items, validateResultScope call result = .ok ())
    (htask : (call.request.taskId.isSome && call.request.projectId.isNone) = true) :
    assembleContextPackage lib call results = .error
      (.validationError "task_id requires project_id") := by
  have hpackage : ∀ (groups : Groups F) (totalResults omitted : ℕ),
    countItems groups ≤ totalResults →
      package call groups totalResults omitted =
          .error (.validationError "task_id requires project_id") := by
    intro groups totalResults omitted hcount
    rw [package, if_neg (by omega), htask]
    rfl
  have hempty : countItems (fun _ => [] : Groups F) = 0 := rfl
  have hvalid : results.items.forM (validateResultScope call) = pure () := forM_ok hscope
  rw [assembleContextPackage, hvalid, pure_bind]
  cases results.items with
  | nil =>
    rw [List.foldlM_nil, pure_bind, hpackage _ _ _ (Nat.zero_le _)]
    rfl
  | cons result rest =>
    have hroom := call.bounds.maxItems_valid.1
    have hfirst : consider lib call (result :: rest).length ⟨fun _ => [], 0, 0⟩ result =
        .error (.validationError "task_id requires project_id") := by
      rw [consider, if_neg (by rw [hempty]; omega)]
      show (package call _ _ _ >>= _) = _
      rw [hpackage]
      · rfl
      · rw [countItems_append, hempty, List.length_cons]
        omega
    rw [List.foldlM_cons, hfirst]
    rfl

/-! ### Results that fit -/

/-- A result with all of its provenance. -/
def whole (bounds : ContextPackageBounds) (result : MemoryRetrievalResult F) : Pick F :=
  (result, item bounds bounds.maxProvenancePerItem result)

theorem item_whole (bounds : ContextPackageBounds) {remaining : ℕ}
    {result : MemoryRetrievalResult F}
    (heach : result.provenance.length ≤ bounds.maxProvenancePerItem)
    (hremaining : result.provenance.length ≤ remaining) :
    item bounds remaining result = (whole bounds result).2 := by
  have htake : result.provenance.take (min bounds.maxProvenancePerItem remaining) =
      result.provenance.take (min bounds.maxProvenancePerItem bounds.maxProvenancePerItem) := by
    rw [List.take_of_length_le (Nat.le_min.mpr ⟨heach, hremaining⟩),
      List.take_of_length_le (Nat.le_min.mpr ⟨heach, heach⟩)]
  simp only [whole, item, htake]

theorem whole_provenance {bounds : ContextPackageBounds} {result : MemoryRetrievalResult F}
    (heach : result.provenance.length ≤ bounds.maxProvenancePerItem) :
    (whole bounds result).2.provenance.length = result.provenance.length ∧
    (whole bounds result).2.provenanceOmittedCount = 0 := by
  have htake : result.provenance.take
      (min bounds.maxProvenancePerItem bounds.maxProvenancePerItem) = result.provenance :=
    List.take_of_length_le (Nat.le_min.mpr ⟨heach, heach⟩)
  simp only [whole, item, htake, List.length_map, Nat.sub_self, and_self]

/-- The loop that has taken these results whole. -/
def wholeLoop (bounds : ContextPackageBounds) (results : List (MemoryRetrievalResult F)) :
    Assembling F :=
  ⟨gather (results.map (whole bounds)), (results.map fun result => result.provenance.length).sum, 0⟩

theorem content_append (groups : Groups F) (name : Group) (item : ContextPackageItem F) :
    content lib groups + 2 ≤ content lib (groups.append name item) := by
  have hitem : 2 ≤ (item.modelDump lib).size := JsonTree.two_le_size_object _
  have hgroup : (JsonTree.array ((groups name).map fun item => item.modelDump lib)).size + 2 ≤
      (JsonTree.array ((groups name ++ [item]).map fun item => item.modelDump lib)).size := by
    simp only [JsonTree.size_array, List.map_append, List.map_cons, List.map_nil, List.sum_append,
      List.sum_cons, List.sum_nil, List.length_append, List.length_cons, List.length_nil]
    omega
  cases name <;>
    simp only [content, groupNames, Groups.append, List.map_cons, List.map_nil, List.sum_cons,
      List.sum_nil, reduceCtorEq, if_true, if_false] at hgroup ⊢ <;> omega

theorem content_gather_append (picks : List (Pick F)) : ∀ rest : List (Pick F),
    content lib (gather picks) + 2 * rest.length ≤ content lib (gather (picks ++ rest))
  | [] => by simp
  | pick :: rest => by
    have hone := content_append lib (gather picks) (groupOf pick.1) pick.2
    have hrest := content_gather_append (picks ++ [pick]) rest
    rw [← gather_append] at hone
    rw [List.append_assoc, List.singleton_append] at hrest
    rw [List.length_cons]
    omega

/-- What is taken up to some result settles on no more than the whole: an item takes two
bytes, and the count of what is omitted until then takes no more digits than that. -/
theorem settledSize_gather_le (picks rest : List (Pick F)) :
    (draft call (gather picks) (picks ++ rest).length 0).settledSize lib ≤
      (draft call (gather (picks ++ rest)) (picks ++ rest).length 0).settledSize lib := by
  refine settled_mono ?_
  have hcontent := content_gather_append lib picks rest
  have hlength : (picks ++ rest).length = picks.length + rest.length := List.length_append
  have hincluded : numeralLength picks.length ≤ numeralLength (picks ++ rest).length :=
    numeralLength_mono (by omega)
  have homitted : numeralLength (0 + rest.length) ≤ numeralLength 0 + rest.length :=
    numeralLength_add_le 0 rest.length
  have hleft : (picks ++ rest).length - picks.length = 0 + rest.length := by omega
  simp only [ContextPackage.envelope, draft, countItems_gather, hleft, Nat.sub_self]
  omega

/-- Results that fit the bounds together are all taken, with all of their provenance. -/
theorem assemble_whole (hscope : ∀ result ∈ results.items, validateResultScope call result = .ok ())
    (htask : (call.request.taskId.isSome && call.request.projectId.isNone) = false)
    (hitems : results.items.length ≤ call.bounds.maxItems)
    (heach : ∀ result ∈ results.items, result.provenance.length ≤ call.bounds.maxProvenancePerItem)
    (hall : (results.items.map fun result => result.provenance.length).sum ≤
      call.bounds.maxProvenanceReferences)
    {made : ContextPackage F}
    (hmade : made = draft call (gather (results.items.map (whole call.bounds))) results.items.length
      0)
    (hfits : made.settledSize lib ≤ call.bounds.maxSerializedBytes) :
    assembleContextPackage lib call results = .ok
      { made with serializedBytes := made.settledSize lib } := by
  have hloop : ∀ rest done : List (MemoryRetrievalResult F), done ++ rest = results.items →
      rest.foldlM (consider lib call results.items.length) (wholeLoop call.bounds done) =
        .ok (wholeLoop call.bounds results.items) := by
    intro rest
    induction rest with
    | nil =>
      intro done hdone
      rw [List.append_nil] at hdone
      rw [hdone]
      rfl
    | cons result rest ih =>
      intro done hdone
      have hmem : result ∈ results.items := hdone ▸ List.mem_append_right done List.mem_cons_self
      have hlength : done.length + (rest.length + 1) = results.items.length := by
        rw [← hdone, List.length_append, List.length_cons]
      have hsum : (done.map fun result => result.provenance.length).sum +
        (result.provenance.length +
          (rest.map fun result => result.provenance.length).sum) =
              (results.items.map fun result => result.provenance.length).sum := by
        rw [← hdone, List.map_append, List.sum_append, List.map_cons, List.sum_cons]
      have hcount : countItems (wholeLoop call.bounds done).groups = done.length := by
        rw [wholeLoop, countItems_gather, List.length_map]
      have hgather :
        (wholeLoop call.bounds done).groups.append (groupOf result) (whole call.bounds result).2 =
          gather ((done ++ [result]).map (whole call.bounds)) := by
        rw [wholeLoop, List.map_append, List.map_singleton, gather_append]
        rfl
      have hitem : (whole call.bounds result).2 = item call.bounds
          (call.bounds.maxProvenanceReferences - (wholeLoop call.bounds done).retainedProvenance)
              result :=
        (item_whole call.bounds (heach result hmem) (by simp only [wholeLoop]; omega)).symm
      obtain ⟨hprovenance, hnone⟩ := whole_provenance (heach result hmem)
      have hround := consider_eq lib call results.items.length (wholeLoop call.bounds done) result
        htask (by rw [hcount]; omega) (by rw [hcount]; omega) hitem
      have hsmaller := settledSize_gather_le lib call ((done ++ [result]).map (whole call.bounds))
        (rest.map (whole call.bounds))
      rw [← List.map_append, List.append_assoc, List.singleton_append, hdone, List.length_map,
        ← hmade] at hsmaller
      have htaken : (wholeLoop call.bounds done).retainedProvenance + result.provenance.length =
          (wholeLoop call.bounds (done ++ [result])).retainedProvenance := by
        simp [wholeLoop]
      have hzero : (wholeLoop call.bounds done).omittedProvenance + 0 = 0 := rfl
      rw [List.foldlM_cons, hround, hnone, hprovenance, hzero, hgather, if_neg (by omega), htaken]
      exact ih (done ++ [result]) (by rw [List.append_assoc, List.singleton_append, hdone])
  have hcount :
      countItems (gather (results.items.map (whole call.bounds))) ≤ results.items.length := by
    rw [countItems_gather, List.length_map]
  have hpackage := package_eq call (gather (results.items.map (whole call.bounds)))
    results.items.length 0 hcount htask
  have hsize := serializedBytes_eq lib made (by rw [hmade]; rfl)
  have hrun := hloop results.items [] rfl
  have hstart : wholeLoop call.bounds ([] : List (MemoryRetrievalResult F)) = ⟨fun _ => [], 0, 0⟩ :=
    rfl
  rw [hstart, wholeLoop] at hrun
  rw [← hmade] at hpackage
  simp only [assembleContextPackage, forM_ok hscope, hrun, hpackage, hsize, bind, Except.bind]
  exact if_neg (Nat.not_lt.mpr hfits)

/-! ## Filtering -/

/-- What a filter for a target does: it keeps the eligible items and counts the others, and
the package is as it was beside. -/
structure Filtered (target : ExecutionTargetClass) (package filtered : ContextPackage F) :
    Prop where
  groups : ∀ name, filtered.groups name = (package.groups name).filter (eligible target)
  included : filtered.includedCount = countItems filtered.groups
  conserved : filtered.includedCount + filtered.omittedCount = package.includedCount +
    package.omittedCount
  policy : filtered.policyOmittedCount + filtered.includedCount = package.policyOmittedCount +
    package.includedCount
  recorded : filtered.serializedBytes = (encode (filtered.modelDumpJson lib)).length
  bounded : filtered.serializedBytes ≤ package.bounds.maxSerializedBytes
  unchanged : { filtered with
    groups := package.groups
    includedCount := package.includedCount
    omittedCount := package.omittedCount
    policyOmittedCount := package.policyOmittedCount
    serializedBytes := package.serializedBytes } = package

/-- How many items a target may not be given. -/
def ineligible (target : ExecutionTargetClass) (groups : Groups F) : ℕ :=
  (groupNames.map fun name => (groups name).countP fun item => !eligible target item).sum

theorem countItems_filter (target : ExecutionTargetClass) (groups : Groups F) :
    countItems (fun name => (groups name).filter (eligible target)) + ineligible target groups =
      countItems groups := by
  have hgroup : ∀ items : List (ContextPackageItem F),
      (items.filter (eligible target)).length + items.countP (fun item => !eligible target item) =
          items.length := by
    intro items
    rw [← List.countP_eq_length_filter, List.length_eq_countP_add_countP (eligible target) (l :=
      items)]
    simp
  rw [countItems, ineligible, countItems, ← List.sum_map_add]
  simp only [hgroup]

theorem content_filter (target : ExecutionTargetClass) (groups : Groups F) :
    content lib (fun name => (groups name).filter (eligible target)) + 2 *
      ineligible target groups ≤ content lib groups := by
  have hitem : ∀ item : ContextPackageItem F, 2 ≤ (item.modelDump lib).size :=
    fun item => JsonTree.two_le_size_object _
  rw [content, content, ineligible]
  induction groupNames with
  | nil => simp
  | cons name names ih =>
    have hgroup := JsonTree.size_array_filter (fun item => item.modelDump lib) hitem
      (eligible target) (groups name)
    simp only [List.map_cons, List.sum_cons]
    omega

/-- A sound package is filtered without fail, and stays sound. -/
theorem Sound.filter {package : ContextPackage F} (h : Sound lib package)
    (target : ExecutionTargetClass) :
    ∃ filtered, filterContextPackageForTarget lib package target = .ok filtered ∧
      Filtered lib target package filtered ∧
      Sound lib filtered ∧ filtered.settledSize lib ≤ package.settledSize lib := by
  have hitems := countItems_filter target package.groups
  have hcontent := content_filter lib target package.groups
  set removed := ineligible target package.groups with hremoved
  set kept : ContextPackage F :=
    { package with
      groups := fun name => (package.groups name).filter (eligible target)
      includedCount := package.includedCount - removed
      omittedCount := package.omittedCount + removed
      policyOmittedCount := package.policyOmittedCount + removed
      serializedBytes := 0 } with hkept
  -- each item that goes frees two bytes at least, and two counts grow by it
  have hsmaller : kept.settledSize lib ≤ package.settledSize lib := by
    refine settled_mono ?_
    have hincluded := numeralLength_mono (Nat.sub_le package.includedCount removed)
    have homitted := numeralLength_add_le package.omittedCount removed
    have hpolicy := numeralLength_add_le package.policyOmittedCount removed
    simp only [ContextPackage.envelope, hkept]
    omega
  have hcount := h.count
  have hincluded : package.includedCount - removed = countItems kept.groups := by
    show package.includedCount - removed =
      countItems (fun name => (package.groups name).filter (eligible target))
    omega
  have hbounded : kept.settledSize lib ≤ package.bounds.maxSerializedBytes := by
    have hbound := h.bounded
    rw [h.settled] at hbound
    exact Nat.le_trans hsmaller hbound
  have hsound : Sound lib { kept with serializedBytes := kept.settledSize lib } :=
    ⟨hincluded, rfl, hbounded⟩
  refine ⟨{ kept with serializedBytes := kept.settledSize lib }, ?_, ?_, hsound, hsmaller⟩
  · have hsize := serializedBytes_eq lib kept rfl
    have hfold : (groupNames.map fun name => (package.groups name).countP fun item =>
      !eligible target item).sum = removed := rfl
    simp only [filterContextPackageForTarget, hfold, ← hkept, hsize, bind, Except.bind]
    exact if_neg (Nat.not_lt.mpr hbounded)
  · exact
      { groups := fun name => rfl
        included := hincluded
        conserved := by
          show package.includedCount - removed + (package.omittedCount + removed) =
            package.includedCount + package.omittedCount
          omega
        policy := by
          show package.policyOmittedCount + removed + (package.includedCount - removed) =
            package.policyOmittedCount + package.includedCount
          omega
        recorded := settled_recorded lib hsound.settled
        bounded := hbounded
        unchanged := rfl }

/-- A sound package of eligible items is filtered to itself. -/
theorem Sound.filter_eligible {package : ContextPackage F} (h : Sound lib package)
    {target : ExecutionTargetClass}
    (hall : ∀ name, (package.groups name).filter (eligible target) = package.groups name) :
    filterContextPackageForTarget lib package target = .ok package := by
  obtain ⟨filtered, hfilter, hdone, hsound, -⟩ := h.filter lib target
  have hgroups : filtered.groups = package.groups :=
    funext fun name => (hdone.groups name).trans (hall name)
  have hincluded : filtered.includedCount = package.includedCount := by
    rw [hdone.included, hgroups, h.count]
  have homitted : filtered.omittedCount = package.omittedCount := by
    have := hdone.conserved
    omega
  have hpolicy : filtered.policyOmittedCount = package.policyOmittedCount := by
    have := hdone.policy
    omega
  have hsize : filtered.serializedBytes = package.serializedBytes := by
    rw [hsound.settled, h.settled]
    refine Eq.trans ?_ (congrArg (ContextPackage.settledSize lib) hdone.unchanged)
    simp only [ContextPackage.settledSize, ContextPackage.envelope, hgroups, hincluded, homitted,
      hpolicy]
  have hsame : filtered = package := by
    refine Eq.trans ?_ hdone.unchanged
    rw [← hgroups, ← hincluded, ← homitted, ← hpolicy, ← hsize]
  rw [hfilter, hsame]

/-- Filters one after the other. -/
theorem Sound.filterAll : ∀ (targets : List ExecutionTargetClass) {package : ContextPackage F},
    Sound lib package →
    ∃ reached, targets.foldlM (filterContextPackageForTarget lib) package = .ok reached ∧
      Sound lib reached
  | [], package, h => ⟨package, rfl, h⟩
  | target :: targets, package, h => by
    obtain ⟨filtered, hfilter, -, hsound, -⟩ := h.filter lib target
    obtain ⟨reached, hrest, hreached⟩ := Sound.filterAll targets hsound
    refine ⟨reached, ?_, hreached⟩
    rw [List.foldlM_cons, hfilter]
    exact hrest

/-- A filter that is made again changes nothing. -/
theorem Filtered.again {target : ExecutionTargetClass} {package filtered : ContextPackage F}
    (h : Filtered lib target package filtered) (hsound : Sound lib filtered) :
    filterContextPackageForTarget lib filtered target = .ok filtered := by
  refine hsound.filter_eligible lib fun name => ?_
  rw [h.groups, List.filter_filter]
  simp only [Bool.and_self]

theorem forM_ok_mem {α ε} {f : α → Except ε Unit} : ∀ {items : List α}, items.forM f = .ok
    () → ∀ item ∈ items, f item = .ok ()
  | item :: items, h, other, hother => by
    rw [List.forM] at h
    cases hitem : f item with
    | error e =>
      rw [hitem] at h
      cases h
    | ok u =>
      rw [hitem] at h
      rcases List.mem_cons.mp hother with rfl | hrest
      · exact hitem
      · exact forM_ok_mem h other hrest

/-- A package that is assembled is sound. -/
theorem assemble_sound {package : ContextPackage F}
    (h : assembleContextPackage lib call results = .ok package) :
    (∃ picks, Conserves lib call results.items picks package) ∧ Sound lib package ∧
    package.bounds = call.bounds := by
  have hscope : ∀ result ∈ results.items, validateResultScope call result = .ok () := by
    cases hvalid : results.items.forM (validateResultScope call) with
    | ok u => exact forM_ok_mem hvalid
    | error e =>
      rw [assembleContextPackage, hvalid] at h
      cases h
  cases htask : call.request.taskId.isSome && call.request.projectId.isNone with
  | true =>
    rw [assemble_task_error lib call hscope htask] at h
    cases h
  | false =>
    obtain ⟨made, picks, hmade, hconserves, hsound, hbounds⟩ := assemble_ok lib call hscope htask
    rw [h] at hmade
    cases hmade
    exact ⟨⟨picks, hconserves⟩, hsound, hbounds⟩

/-- Of results in scope a package is assembled that holds each of them once or counts it as
omitted, in the order of their retrieval within their groups, within its bounds; nothing is
raised but what its class says of a task without a project. Filtered for targets, one after
the other, it keeps what each of them may be given and its count of results, and a filter
made twice is made once. -/
theorem memories_conserved (results : Sequence (MemoryRetrievalResult F))
    (hscope : ∀ result ∈ results.items, validateResultScope call result = .ok ()) :
    (∀ raised, assembleContextPackage lib call results = .error raised →
      raised = .validationError "task_id requires project_id" ∧ call.request.taskId.isSome = true ∧
        call.request.projectId = .none) ∧
    ∀ package, assembleContextPackage lib call results = .ok package →
      (∃ picks, Conserves lib call results.items picks package) ∧
      ∀ (targets : List ExecutionTargetClass) (target : ExecutionTargetClass), ∃ reached filtered,
        targets.foldlM (filterContextPackageForTarget lib) package = .ok reached ∧
        filterContextPackageForTarget lib reached target = .ok filtered ∧
        Filtered lib target reached filtered ∧
        filterContextPackageForTarget lib filtered target = .ok filtered := by
  constructor
  · intro raised hraised
    cases htask : call.request.taskId.isSome && call.request.projectId.isNone with
    | true =>
      rw [assemble_task_error lib call hscope htask] at hraised
      rw [Bool.and_eq_true] at htask
      cases hraised
      exact ⟨rfl, htask.1, Option.isNone_iff_eq_none.mp htask.2⟩
    | false =>
      obtain ⟨package, picks, hpackage, -⟩ := assemble_ok lib call hscope htask
      rw [hpackage] at hraised
      cases hraised
  · intro package hpackage
    obtain ⟨hconserves, hsound, -⟩ := assemble_sound lib call hpackage
    refine ⟨hconserves, fun targets target => ?_⟩
    obtain ⟨reached, hreached, hsoundReached⟩ := hsound.filterAll lib targets
    obtain ⟨filtered, hfilter, hfiltered, hsoundFiltered, -⟩ := hsoundReached.filter lib target
    exact ⟨reached, filtered, hreached, hfilter, hfiltered, hfiltered.again lib hsoundFiltered⟩

/-! ### An assembly -/

/-- Tenths from 0.0 to 1.0, which both writers write alike. -/
def tenths : FloatText (Fin 11) where
  json n := (Nat.digitChar (n.val / 10)) :: '.' :: [Nat.digitChar (n.val % 10)]
  repr n := (Nat.digitChar (n.val / 10)) :: '.' :: [Nat.digitChar (n.val % 10)]

def exampleTime : Datetime :=
  ⟨2026, 8, 29, 0, 0, 0, 0, .some 0,
    by decide, by decide, fun seconds hseconds => by cases hseconds; decide⟩

theorem exampleTime_size : (JsonTree.string exampleTime.json).size = 22 :=
  exampleTime.size_json

def exampleMemory (id : Uuid) (statement : Text) : MemoryRetrievalResult (Fin 11) where
  id := id
  workspaceId := 2
  projectId := .none
  taskId := .none
  workflowRunId := .none
  kind := .fact
  knowledgeState := .disputed
  statement := statement
  confidence := 5
  importance := 4
  validFrom := exampleTime
  validTo := .none
  lifecycle := .active
  modelAccess := .localOnly
  provenance := [⟨3, .document, .some "source-1".toList, exampleTime⟩]
  lexicalRelevance := .none

def exampleCall : AssemblyArguments :=
  ⟨2, ⟨.none, .none, .none⟩, exampleTime, exampleTime, defaultContextPackageBounds⟩

/-- Ten memories: their count takes two digits once all of them are held. -/
def exampleMemories : Sequence (MemoryRetrievalResult (Fin 11)) :=
  ⟨(List.range 10).map fun id => exampleMemory id "Approve.".toList, by decide⟩

theorem disputed_memory_conserved :
    ∃ package, assembleContextPackage tenths exampleCall exampleMemories = .ok package ∧
    (∃ picks, Conserves tenths exampleCall exampleMemories.items picks package) ∧
    ∀ (targets : List ExecutionTargetClass) (target : ExecutionTargetClass), ∃ reached filtered,
      targets.foldlM (filterContextPackageForTarget tenths) package = .ok reached ∧
      filterContextPackageForTarget tenths reached target = .ok filtered ∧
      Filtered tenths target reached filtered ∧
      filterContextPackageForTarget tenths filtered target = .ok filtered := by
  have hscope : ∀ result ∈ exampleMemories.items, validateResultScope exampleCall result =
      .ok () := by
    intro result hresult
    obtain ⟨id, -, rfl⟩ := List.mem_map.mp hresult
    rfl
  obtain ⟨hraised, hassembled⟩ := memories_conserved tenths exampleCall exampleMemories hscope
  cases hpackage : assembleContextPackage tenths exampleCall exampleMemories with
  | error raised => cases (hraised raised hpackage).2.1
  | ok package => exact ⟨package, rfl, hassembled package hpackage⟩

end Novalton.ContextPackages
