/-
What a remote target learns of memories that only a local one may be given: a package that
is assembled and then filtered for it holds none of them, and their statements tell on what
it is given only through which results the byte budget takes.
-/
import Novalton.MemoryProjection

namespace Novalton.ContextPackages

open Catalog (ExecutionTargetClass)
open JsonTree (string)

section
variable {F : Type} (lib : FloatText F) (call : AssemblyArguments)

/-! ## What is told apart -/

/-- A result, without the statement of one that is LOCAL_ONLY. -/
def withheld (result : MemoryRetrievalResult F) : MemoryRetrievalResult F :=
  if result.modelAccess = .localOnly then { result with statement := [] } else result

def withheldItem (item : ContextPackageItem F) : ContextPackageItem F :=
  if item.modelAccess = .localOnly then { item with statement := [] } else item

/-- A package without the statements of items that are LOCAL_ONLY, and without its size. -/
def ContextPackage.withheld (package : ContextPackage F) : ContextPackage F :=
  { package with
    groups := fun name => (package.groups name).map withheldItem
    serializedBytes := 0 }

/-- The memory context that a target is given: assembled, filtered and projected. -/
def disclosedContext (results : Sequence (MemoryRetrievalResult F))
    (target : ExecutionTargetClass) : Except Raised JsonTree := do
  let package ← assembleContextPackage lib call results
  let filtered ← filterContextPackageForTarget lib package target
  providerMemoryContext lib filtered

/-- Which results the loop takes, one after the other. -/
def takes (totalResults : ℕ) : Assembling F → List (MemoryRetrievalResult F) → List Bool
  | _, [] => []
  | loop, result :: rest =>
    match consider lib call totalResults loop result with
    | .error _ => []
    | .ok next => decide (countItems loop.groups < countItems next.groups) ::
        takes totalResults next rest

/-- Which results an assembly takes. -/
def taken (results : Sequence (MemoryRetrievalResult F)) : List Bool :=
  takes lib call results.items.length ⟨fun _ => [], 0, 0⟩ results.items

/-- The bytes of a statement in a package. -/
def statementBytes (result : MemoryRetrievalResult F) : ℕ := (string result.statement).size

/-! ## Withheld statements -/

theorem withheldItem_item (bounds : ContextPackageBounds) (remaining : ℕ)
    (result : MemoryRetrievalResult F) :
    withheldItem (item bounds remaining result) = item bounds remaining (withheld result) := by
  by_cases h : result.modelAccess = .localOnly <;> simp [withheldItem, withheld, item, h]

theorem groupOf_withheld (result : MemoryRetrievalResult F) : groupOf
    (withheld result) = groupOf result := by
  by_cases h : result.modelAccess = .localOnly <;> simp [withheld, groupOf, h]

theorem validateResultScope_withheld (result : MemoryRetrievalResult F) :
    validateResultScope call (withheld result) = validateResultScope call result := by
  by_cases h : result.modelAccess = .localOnly <;> simp [withheld, validateResultScope, h]

/-- An item that a remote target may be given keeps its statement. -/
theorem filter_withheldItem (items : List (ContextPackageItem F)) :
    (items.map withheldItem).filter (eligible .remote) = items.filter (eligible .remote) := by
  induction items with
  | nil => rfl
  | cons item items ih =>
    cases h : item.modelAccess <;>
      simp [withheldItem, eligible, evaluateMemoryDisclosure, h] at ih ⊢ <;> exact ih

theorem countP_withheldItem (items : List (ContextPackageItem F)) :
    (items.map withheldItem).countP (fun item => !eligible .remote item) = items.countP fun item =>
    !eligible .remote item := by
  rw [List.countP_map]
  refine List.countP_congr fun item _ => ?_
  by_cases h : item.modelAccess = .localOnly <;> simp [withheldItem, eligible, h]

/-- A filter for a remote target tells no withheld statement. -/
theorem filter_withheld (package : ContextPackage F) :
    filterContextPackageForTarget lib package.withheld .remote =
      filterContextPackageForTarget lib package .remote := by
  simp only [filterContextPackageForTarget, ContextPackage.withheld, countP_withheldItem,
    filter_withheldItem]

/-! ## Two loops -/

/-- Two loops that have taken the same, but for withheld statements. -/
structure Alike (first second : Assembling F) : Prop where
  groups : ∀ name, (first.groups name).map withheldItem = (second.groups name).map withheldItem
  retained : first.retainedProvenance = second.retainedProvenance
  omitted : first.omittedProvenance = second.omittedProvenance

/-- The loop after it has taken a result. -/
def Assembling.take (bounds : ContextPackageBounds) (loop : Assembling F)
    (result : MemoryRetrievalResult F) : Assembling F :=
  let made := item bounds (bounds.maxProvenanceReferences - loop.retainedProvenance) result
  ⟨loop.groups.append (groupOf result) made, loop.retainedProvenance + made.provenance.length,
    loop.omittedProvenance + made.provenanceOmittedCount⟩

/-- The loop has room for a result. -/
def room (totalResults : ℕ) (loop : Assembling F) (result : MemoryRetrievalResult F) : Bool :=
  decide (countItems loop.groups < call.bounds.maxItems) &&
    decide ((draft call (loop.take call.bounds result).groups totalResults
      (loop.take call.bounds result).omittedProvenance).settledSize lib ≤
        call.bounds.maxSerializedBytes)

variable {lib call}

theorem consider_room {totalResults : ℕ} {loop : Assembling F} {result : MemoryRetrievalResult F}
    (htask : (call.request.taskId.isSome && call.request.projectId.isNone) = false)
    (hcount : countItems loop.groups + 1 ≤ totalResults) :
    consider lib call totalResults loop result =
      .ok (if room lib call totalResults loop result then loop.take call.bounds result
        else loop) := by
  by_cases hfull : call.bounds.maxItems ≤ countItems loop.groups
  · have hroom : room lib call totalResults loop result = false := by
      rw [room, decide_eq_false (Nat.not_lt.mpr hfull), Bool.false_and]
    rw [consider, if_pos hfull, hroom]
    rfl
  · have hround := consider_eq lib call totalResults loop result htask hfull hcount rfl
    rw [hround, room, decide_eq_true (Nat.lt_of_not_le hfull), Bool.true_and]
    by_cases hlarge : call.bounds.maxSerializedBytes <
      (draft call (loop.take call.bounds result).groups totalResults
        (loop.take call.bounds result).omittedProvenance).settledSize lib
    · rw [decide_eq_false (Nat.not_le.mpr hlarge)]
      exact if_pos hlarge
    · rw [decide_eq_true (Nat.le_of_not_lt hlarge)]
      exact if_neg hlarge

theorem countItems_take (bounds : ContextPackageBounds) (loop : Assembling F)
    (result : MemoryRetrievalResult F) :
    countItems (loop.take bounds result).groups = countItems loop.groups + 1 :=
      countItems_append _ _ _

/-- What the loop takes of a list that begins with a result. -/
theorem takes_cons {totalResults : ℕ} {loop : Assembling F} {result : MemoryRetrievalResult F}
    {rest : List (MemoryRetrievalResult F)}
    (htask : (call.request.taskId.isSome && call.request.projectId.isNone) = false)
    (hcount : countItems loop.groups + 1 ≤ totalResults) :
    takes lib call totalResults loop (result :: rest) =
      room lib call totalResults loop result ::
        takes lib call totalResults
          (if room lib call totalResults loop result then loop.take call.bounds result else loop)
          rest := by
  rw [takes, consider_room htask hcount]
  cases room lib call totalResults loop result with
  | true => simp [countItems_take]
  | false => simp

theorem Alike.countItems {first second : Assembling F} (h : Alike first second) :
    ContextPackages.countItems first.groups = ContextPackages.countItems second.groups := by
  have hlength : ∀ name, (first.groups name).length = (second.groups name).length := fun name => by
    simpa using congrArg List.length (h.groups name)
  simp only [ContextPackages.countItems, hlength]

theorem Alike.take {first second : Assembling F} (h : Alike first second)
    {a b : MemoryRetrievalResult F} (hresult : withheld a = withheld b)
    (bounds : ContextPackageBounds) : Alike (first.take bounds a) (second.take bounds b) := by
  have hgroup : groupOf a = groupOf b := by rw [← groupOf_withheld, hresult, groupOf_withheld]
  set remaining := bounds.maxProvenanceReferences - first.retainedProvenance with hremaining
  have hitem : withheldItem (item bounds remaining a) = withheldItem (item bounds remaining b) := by
    rw [withheldItem_item, hresult, withheldItem_item]
  have hkept : ∀ made : ContextPackageItem F, (withheldItem made).provenance = made.provenance ∧
      (withheldItem made).provenanceOmittedCount = made.provenanceOmittedCount := fun made => by
    by_cases h : made.modelAccess = .localOnly <;> simp [withheldItem, h]
  have hprovenance :
      (item bounds remaining a).provenance = (item bounds remaining b).provenance := by
    rw [← (hkept _).1, hitem, (hkept _).1]
  have homitted : (item bounds remaining a).provenanceOmittedCount =
      (item bounds remaining b).provenanceOmittedCount := by
    rw [← (hkept _).2, hitem, (hkept _).2]
  have hsecond : bounds.maxProvenanceReferences - second.retainedProvenance = remaining := by
    rw [← h.retained]
  simp only [Assembling.take, hsecond, ← hremaining]
  exact
    { groups := fun name => by
        by_cases hname : name = groupOf b
        · simp [Groups.append, hgroup, hname, h.groups, hitem]
        · simp [Groups.append, hgroup, hname, h.groups]
      retained := by rw [h.retained, hprovenance]
      omitted := by rw [h.omitted, homitted] }

/-- Two loops that take the same of two lists stay alike. -/
theorem Alike.run {totalResults : ℕ}
    (htask : (call.request.taskId.isSome && call.request.projectId.isNone) = false) :
    ∀ {firsts seconds : List (MemoryRetrievalResult F)} {first second : Assembling F},
      Alike first second →
      firsts.map withheld = seconds.map withheld → ContextPackages.countItems first.groups +
        firsts.length ≤ totalResults →
      takes lib call totalResults first firsts = takes lib call totalResults second seconds →
      ∃ last other, firsts.foldlM (consider lib call totalResults) first = .ok last ∧
        seconds.foldlM (consider lib call totalResults) second = .ok other ∧ Alike last other ∧
        ContextPackages.countItems last.groups ≤ totalResults
  | [], [], first, second, h, _, hcount, _ => ⟨first, second, rfl, rfl, h, hcount⟩
  | [], _ :: _, _, _, _, hlists, _, _ => by cases hlists
  | _ :: _, [], _, _, _, hlists, _, _ => by cases hlists
  | a :: firsts, b :: seconds, first, second, h, hlists, hcount, htakes => by
    rw [List.map_cons, List.map_cons] at hlists
    obtain ⟨hresult, hrest⟩ := List.cons.inj hlists
    rw [List.length_cons] at hcount
    have hsecond := h.countItems
    rw [takes_cons htask (by omega), takes_cons htask (by omega)] at htakes
    obtain ⟨hroom, htail⟩ := List.cons.inj htakes
    rw [List.foldlM_cons, List.foldlM_cons, consider_room htask (by omega),
      consider_room htask (by omega)]
    rw [hroom] at htail ⊢
    cases hcase : room lib call totalResults second b with
    | true =>
      rw [hcase] at htail
      exact Alike.run htask (h.take hresult call.bounds) hrest
        (by rw [if_pos rfl, countItems_take]; omega) htail
    | false =>
      rw [hcase] at htail
      exact Alike.run htask h hrest (by rw [if_neg Bool.false_ne_true]; omega) htail

/-! ## Statements of one size -/

variable (lib) in
/-- Two loops that have taken the same, but for withheld statements of the same size. -/
structure SameSize (first second : Assembling F) : Prop extends Alike first second where
  sizes : ∀ name, (first.groups name).map (fun item => (item.modelDump lib).size) =
    (second.groups name).map fun item => (item.modelDump lib).size

theorem eq_of_withheld {a b : MemoryRetrievalResult F} (h : withheld a = withheld b) :
    b = { a with statement := b.statement } := by
  cases a
  cases b
  simp only [withheld] at h
  split at h <;> split at h <;> simp_all

theorem item_size {a b : MemoryRetrievalResult F} (h : withheld a = withheld b)
    (hbytes : statementBytes a = statementBytes b) (bounds : ContextPackageBounds) (remaining : ℕ) :
    ((item bounds remaining a).modelDump lib).size =
    ((item bounds remaining b).modelDump lib).size := by
  have hsize : (string b.statement).size = (string a.statement).size := hbytes.symm
  rw [eq_of_withheld h]
  simp only [ContextPackageItem.modelDump, item, JsonTree.size_object, List.map_cons, List.map_nil,
    List.sum_cons, hsize]

theorem SameSize.content {first second : Assembling F} (h : SameSize lib first second) :
    ContextPackages.content lib first.groups = ContextPackages.content lib second.groups := by
  have hgroup : ∀ name,
    (JsonTree.array ((first.groups name).map fun item => item.modelDump lib)).size =
      (JsonTree.array ((second.groups name).map fun item => item.modelDump lib)).size := by
    intro name
    have hlength : (first.groups name).length = (second.groups name).length := by
      simpa using congrArg List.length (h.groups name)
    rw [JsonTree.size_array, JsonTree.size_array, List.length_map, List.length_map, List.map_map,
      List.map_map, hlength]
    exact congrArg (fun sizes => List.sum sizes + _ + _) (h.sizes name)
  simp only [ContextPackages.content, hgroup]

theorem SameSize.take {first second : Assembling F} (h : SameSize lib first second)
    {a b : MemoryRetrievalResult F} (hresult : withheld a = withheld b)
    (hbytes : statementBytes a = statementBytes b) (bounds : ContextPackageBounds) :
    SameSize lib (first.take bounds a) (second.take bounds b) where
  toAlike := h.toAlike.take hresult bounds
  sizes name := by
    have hgroup : groupOf a = groupOf b := by rw [← groupOf_withheld, hresult, groupOf_withheld]
    have hitem :=
      @item_size F lib a b hresult hbytes bounds (bounds.maxProvenanceReferences -
      second.retainedProvenance)
    simp only [Assembling.take, h.retained]
    by_cases hname : name = groupOf b
    · simp [Groups.append, hgroup, hname, h.sizes, hitem]
    · simp [Groups.append, hgroup, hname, h.sizes]

theorem SameSize.room {totalResults : ℕ} {first second : Assembling F}
    (h : SameSize lib first second) {a b : MemoryRetrievalResult F}
    (hresult : withheld a = withheld b) (hbytes : statementBytes a = statementBytes b) :
    ContextPackages.room lib call totalResults first a =
      ContextPackages.room lib call totalResults second b := by
  have hnext := h.take hresult hbytes call.bounds
  have hsettled :
    (draft call (first.take call.bounds a).groups totalResults
    (first.take call.bounds a).omittedProvenance).settledSize lib =
      (draft call (second.take call.bounds b).groups totalResults
          (second.take call.bounds b).omittedProvenance).settledSize lib := by
    simp only [ContextPackage.settledSize, ContextPackage.envelope, draft, hnext.countItems,
      hnext.omitted, hnext.content]
  rw [Bool.eq_iff_iff]
  simp only [ContextPackages.room, Bool.and_eq_true, decide_eq_true_eq, h.countItems, hsettled]

/-- Statements of the same sizes are taken alike. -/
theorem SameSize.takes {totalResults : ℕ}
    (htask : (call.request.taskId.isSome && call.request.projectId.isNone) = false) :
    ∀ {firsts seconds : List (MemoryRetrievalResult F)} {first second : Assembling F},
      SameSize lib first second →
      firsts.map withheld = seconds.map withheld →
        firsts.map statementBytes = seconds.map statementBytes →
      ContextPackages.countItems first.groups + firsts.length ≤ totalResults →
      ContextPackages.takes lib call totalResults first firsts = ContextPackages.takes lib call totalResults second seconds
  | [], [], _, _, _, _, _, _ => rfl
  | [], _ :: _, _, _, _, hlists, _, _ => by cases hlists
  | _ :: _, [], _, _, _, hlists, _, _ => by cases hlists
  | a :: firsts, b :: seconds, first, second, h, hlists, hsizes, hcount => by
    rw [List.map_cons, List.map_cons] at hlists hsizes
    obtain ⟨hresult, hrest⟩ := List.cons.inj hlists
    obtain ⟨hbytes, hrestBytes⟩ := List.cons.inj hsizes
    rw [List.length_cons] at hcount
    have hsecond := h.countItems
    rw [takes_cons htask (by omega), takes_cons htask (by omega), h.room hresult hbytes]
    refine congrArg _ ?_
    cases ContextPackages.room lib call totalResults second b with
    | true => exact SameSize.takes htask (h.take hresult hbytes call.bounds) hrest hrestBytes (by rw [if_pos rfl, countItems_take]; omega)
    | false => exact SameSize.takes htask h hrest hrestBytes (by rw [if_neg Bool.false_ne_true]; omega)

/-! ## Two assemblies -/

theorem assemble_eq {results : Sequence (MemoryRetrievalResult F)} {loop : Assembling F}
    {package : ContextPackage F}
    (hscope : ∀ result ∈ results.items, validateResultScope call result = .ok ())
    (htask : (call.request.taskId.isSome && call.request.projectId.isNone) = false)
    (hrun : results.items.foldlM (consider lib call results.items.length) ⟨fun _ => [], 0, 0⟩ =
    .ok loop)
    (hcount : countItems loop.groups ≤ results.items.length)
    (h : assembleContextPackage lib call results = .ok package) :
    package = { draft call loop.groups results.items.length
      loop.omittedProvenance with serializedBytes := package.serializedBytes } := by
  have hpackage :=
    package_eq call loop.groups results.items.length loop.omittedProvenance hcount htask
  have hsize :=
    serializedBytes_eq lib (draft call loop.groups results.items.length loop.omittedProvenance) rfl
  simp only [assembleContextPackage, forM_ok hscope, hrun, hpackage, hsize, bind, Except.bind] at h
  split at h
  · cases h
  · cases h
    rfl

theorem forM_withheld (results : List (MemoryRetrievalResult F)) :
    (results.map withheld).forM (validateResultScope call) = results.forM
    (validateResultScope call) := by
  induction results with
  | nil => rfl
  | cons result results ih =>
    rw [List.map_cons, List.forM, List.forM, validateResultScope_withheld, ih]

variable {first second : Sequence (MemoryRetrievalResult F)}

/-- Both assemblies raise the same, or both of them have what it takes. -/
theorem assemble_admitted (h : first.items.map withheld = second.items.map withheld) :
    (∃ raised, assembleContextPackage lib call first = .error raised ∧
      assembleContextPackage lib call second = .error raised) ∨
    ((∀ result ∈ first.items, validateResultScope call result = .ok ()) ∧
      (∀ result ∈ second.items, validateResultScope call result = .ok ()) ∧
      (call.request.taskId.isSome && call.request.projectId.isNone) = false) := by
  have hforM : first.items.forM (validateResultScope call) =
      second.items.forM (validateResultScope call) := by
    rw [← forM_withheld, h, forM_withheld]
  cases hvalid : first.items.forM (validateResultScope call) with
  | error raised =>
    refine .inl ⟨raised, ?_, ?_⟩
    · rw [assembleContextPackage, hvalid]
      rfl
    · rw [assembleContextPackage, ← hforM, hvalid]
      rfl
  | ok u =>
    have hfirst := forM_ok_mem hvalid
    have hsecond := forM_ok_mem (hforM ▸ hvalid)
    cases htask : call.request.taskId.isSome && call.request.projectId.isNone with
    | true => exact .inl ⟨_, assemble_task_error lib call hfirst htask,
        assemble_task_error lib call hsecond htask⟩
    | false => exact .inr ⟨hfirst, hsecond, rfl⟩

/-- Packages of which the same is taken differ in withheld statements and sizes only. -/
theorem assemble_withheld (h : first.items.map withheld = second.items.map withheld)
    (hfirst : ∀ result ∈ first.items, validateResultScope call result = .ok ())
    (hsecond : ∀ result ∈ second.items, validateResultScope call result = .ok ())
    (htask : (call.request.taskId.isSome && call.request.projectId.isNone) = false)
    (htaken : taken lib call first = taken lib call second) :
    ∃ package other, assembleContextPackage lib call first = .ok package ∧
      assembleContextPackage lib call second = .ok other ∧
      package.withheld = other.withheld := by
  have hlength : first.items.length = second.items.length := by simpa using congrArg List.length h
  rw [taken, taken, ← hlength] at htaken
  obtain ⟨last, lastOther, hrun, hrunOther, halike, hcount⟩ := Alike.run htask
    (⟨fun _ => rfl, rfl, rfl⟩ : Alike (⟨fun _ => [], 0, 0⟩ : Assembling F) ⟨fun _ => [], 0, 0⟩) h
      (Nat.zero_add _).le htaken
  have hcountOther : countItems lastOther.groups ≤ second.items.length := by
    rw [← halike.countItems, ← hlength]
    exact hcount
  rw [hlength] at hrunOther
  obtain ⟨package, -, hpackage, -⟩ := assemble_ok lib call hfirst htask
  obtain ⟨other, -, hother, -⟩ := assemble_ok lib call hsecond htask
  refine ⟨package, other, hpackage, hother, ?_⟩
  rw [assemble_eq hfirst htask hrun hcount hpackage,
    assemble_eq hsecond htask hrunOther hcountOther hother]
  simp only [ContextPackage.withheld, draft, halike.groups, halike.countItems, halike.omitted,
    hlength]

/-- Whether an assembly fails does not depend on the statements of LOCAL_ONLY results, and what
a remote target is given holds none of these results. It depends on their statements only
through which results the byte budget takes: assembled, filtered and projected, two lists that
differ in such statements give the same or fail alike if the same of them is taken, and in
particular if the statements have the same sizes. -/
theorem remote_context_withheld (first second : Sequence (MemoryRetrievalResult F))
    (h : first.items.map withheld = second.items.map withheld) :
    (assembleContextPackage lib call first).isOk = (assembleContextPackage lib call second).isOk ∧
    (taken lib call first = taken lib call second ∨
      first.items.map statementBytes = second.items.map statementBytes →
      disclosedContext lib call first .remote = disclosedContext lib call second .remote) ∧
    ∀ package filtered, assembleContextPackage lib call first = .ok package →
      filterContextPackageForTarget lib package .remote = .ok filtered →
      ∀ name, ∀ item ∈ filtered.groups name, item.modelAccess ≠ .localOnly := by
  refine ⟨?_, fun hsame => ?_, fun package filtered hpackage hfilter name item hitem => ?_⟩
  · rcases assemble_admitted h with ⟨raised, hfirst, hsecond⟩ | ⟨hfirst, hsecond, htask⟩
    · rw [hfirst, hsecond]
    · obtain ⟨package, -, hpackage, -⟩ := assemble_ok lib call hfirst htask
      obtain ⟨other, -, hother, -⟩ := assemble_ok lib call hsecond htask
      rw [hpackage, hother]
      rfl
  · rcases assemble_admitted h with ⟨raised, hfirst, hsecond⟩ | ⟨hfirst, hsecond, htask⟩
    · rw [disclosedContext, disclosedContext, hfirst, hsecond]
    have hlength : first.items.length = second.items.length := by simpa using congrArg List.length h
    have htaken : taken lib call first = taken lib call second := by
      rcases hsame with htaken | hbytes
      · exact htaken
      · rw [taken, taken, ← hlength]
        exact SameSize.takes htask ⟨⟨fun _ => rfl, rfl, rfl⟩, fun _ => rfl⟩ h hbytes
          (Nat.zero_add _).le
    obtain ⟨package, other, hpackage, hother, hwithheld⟩ :=
      assemble_withheld h hfirst hsecond htask htaken
    have hfilter : filterContextPackageForTarget lib package .remote =
        filterContextPackageForTarget lib other .remote := by
      rw [← filter_withheld, hwithheld, filter_withheld]
    simp only [disclosedContext, hpackage, hother, bind, Except.bind, hfilter]
  · obtain ⟨-, hsound, -⟩ := assemble_sound lib call hpackage
    obtain ⟨other, hother, hfiltered, -, -⟩ := hsound.filter lib .remote
    rw [hfilter] at hother
    cases hother
    rw [hfiltered.groups] at hitem
    have heligible := (List.mem_filter.mp hitem).2
    intro hlocal
    rw [eligible, evaluateMemoryDisclosure, hlocal] at heligible
    cases heligible

end

/-! ### A statement that displaces a memory -/

/-- A memory that a remote target may be given. -/
def visibleMemory : MemoryRetrievalResult (Fin 11) :=
  { exampleMemory 5 "Approve.".toList with modelAccess := .localAndRemote }

theorem hiddenFirst_fits (statement : Text) :
    [exampleMemory 1 statement, exampleMemory 4 statement, visibleMemory].length ≤ maxsize := by
  show 3 ≤ maxsize
  decide

/-- Two memories with the statement, which are LOCAL_ONLY, before one that is not. -/
def hiddenFirst (statement : Text) : Sequence (MemoryRetrievalResult (Fin 11)) :=
  ⟨[exampleMemory 1 statement, exampleMemory 4 statement, visibleMemory],
    hiddenFirst_fits statement⟩

theorem hiddenFirst_withheld (statement other : Text) :
    (hiddenFirst statement).items.map withheld = (hiddenFirst other).items.map withheld := rfl

theorem short_statement_withheld :
    (assembleContextPackage tenths exampleCall (hiddenFirst ['a'])).isOk =
      (assembleContextPackage tenths exampleCall (hiddenFirst ['b'])).isOk ∧
    (taken tenths exampleCall (hiddenFirst ['a']) = taken tenths exampleCall (hiddenFirst ['b']) ∨
        (hiddenFirst ['a']).items.map statementBytes =
        (hiddenFirst ['b']).items.map statementBytes →
      disclosedContext tenths exampleCall (hiddenFirst ['a']) .remote =
        disclosedContext tenths exampleCall (hiddenFirst ['b']) .remote) ∧
    ∀ package filtered, assembleContextPackage tenths exampleCall
      (hiddenFirst ['a']) = .ok package →
      filterContextPackageForTarget tenths package .remote = .ok filtered →
      ∀ name, ∀ item ∈ filtered.groups name, item.modelAccess ≠ .localOnly :=
  remote_context_withheld (hiddenFirst ['a']) (hiddenFirst ['b']) (hiddenFirst_withheld ['a'] ['b'])

def visibleItem : ContextPackageItem (Fin 11) := (whole exampleCall.bounds visibleMemory).2

theorem visibleItem_sizes : (visibleItem.modelDump tenths).size = 466 ∧
    (providerItem tenths visibleItem).size ≤ 466 := by
  decide +kernel

/-- The groups of the example hold the disputed memories only. -/
def disputedGroups (items : List (ContextPackageItem (Fin 11))) : Groups (Fin 11) :=
  fun name => if name = .disputed then items else []

theorem draft_bytes (items : List (ContextPackageItem (Fin 11))) (hfew : items.length ≤ 3) :
    (draft exampleCall (disputedGroups items) 3 0).envelope + content tenths
    (disputedGroups items) =
      520 + (items.map fun item => (item.modelDump tenths).size).sum + (items.length - 1) := by
  have hcontent : content tenths (disputedGroups items) =
      14 + (items.map fun item => (item.modelDump tenths).size).sum + (items.length - 1) := by
    simp only [content, disputedGroups, groupNames, List.map_cons, List.map_nil, List.sum_cons,
      List.sum_nil, reduceCtorEq, if_true, if_false, JsonTree.size_array, List.length_map,
        List.map_map, List.length_nil]
    show 0 + 0 + 2 + _ = _
    simp only [Function.comp_def]
    omega
  have hcount : countItems (disputedGroups items) = items.length := by
    simp [countItems, disputedGroups, groupNames]
  have hbounds := size_bounds defaultContextPackageBounds
  have hzero : numeralLength 0 = 1 := rfl
  have hdigit : ∀ n ≤ 3, numeralLength n = 1 := fun n hn =>
    Nat.le_antisymm ((numeralLength_le_iff (by decide)).mpr (by omega)) (numeralLength_pos n)
  have hincluded := hdigit items.length hfew
  have homitted := hdigit (3 - items.length) (by omega)
  rw [hcontent]
  change JsonTree.frame packageKeys + (string (Uuid.str 2)).size + JsonTree.null.size +
    JsonTree.null.size + JsonTree.null.size +
    (string exampleTime.json).size + (string exampleTime.json).size +
      numeralLength (countItems (disputedGroups items)) +
    numeralLength (3 - countItems (disputedGroups items)) + numeralLength 0 + numeralLength 0 +
    defaultContextPackageBounds.modelDump.size + _ = _
  rw [frame_packageKeys, size_uuid, JsonTree.size_null, exampleTime_size, hcount, hincluded, homitted,
    hzero, hbounds]
  change 304 + 38 + 4 + 4 + 4 + 22 + 22 + 1 + 1 + 1 + 1 + (94 + 2 + 5 + 1 + 2) + _ = _
  omega

/-- The loop that holds these disputed memories. -/
def disputedLoop (items : List (ContextPackageItem (Fin 11))) : Assembling (Fin 11) :=
  ⟨disputedGroups items, items.length, 0⟩

/-- The loop takes another disputed memory with its one reference whole. -/
theorem disputedLoop_take (items : List (ContextPackageItem (Fin 11))) (hfew : items.length ≤ 2)
    {memory : MemoryRetrievalResult (Fin 11)} (hgroup : groupOf memory = .disputed)
    (hprovenance : memory.provenance.length = 1) :
    (disputedLoop items).take exampleCall.bounds memory = disputedLoop
    (items ++ [(whole exampleCall.bounds memory).2]) := by
  have hmaxima : exampleCall.bounds.maxProvenancePerItem = 4 ∧
    exampleCall.bounds.maxProvenanceReferences = 32 := ⟨rfl, rfl⟩
  have heach : memory.provenance.length ≤ exampleCall.bounds.maxProvenancePerItem := by omega
  have hitem : item exampleCall.bounds (exampleCall.bounds.maxProvenanceReferences - items.length)
      memory = (whole exampleCall.bounds memory).2 :=
    item_whole exampleCall.bounds heach (by omega)
  obtain ⟨hlength, homitted⟩ := whole_provenance heach
  have hgroups : (disputedGroups items).append .disputed (whole exampleCall.bounds memory).2 =
      disputedGroups (items ++ [(whole exampleCall.bounds memory).2]) := by
    funext name
    cases name <;> rfl
  simp only [Assembling.take, disputedLoop, hitem, hgroup, hgroups, hlength, homitted, hprovenance,
    List.length_append, List.length_singleton]

theorem countItems_disputed (items : List (ContextPackageItem (Fin 11))) : countItems
    (disputedLoop items).groups = items.length := by
  simp [disputedLoop, countItems, disputedGroups, groupNames]

/-- It has room for the memory where the bytes of all of them settle within the bound. -/
theorem disputedLoop_consider (items : List (ContextPackageItem (Fin 11))) (hfew : items.length ≤ 2)
    {memory : MemoryRetrievalResult (Fin 11)} {bytes : ℕ} (hgroup : groupOf memory = .disputed)
    (hprovenance : memory.provenance.length = 1)
    (hbytes : 520 + ((items ++ [(whole exampleCall.bounds memory).2]).map fun item =>
    (item.modelDump tenths).size).sum + items.length = bytes) :
    consider tenths exampleCall 3 (disputedLoop items) memory =
      .ok (if settled bytes ≤ 16384 then
        disputedLoop (items ++ [(whole exampleCall.bounds memory).2]) else disputedLoop items) := by
  have hcount := countItems_disputed items
  have htake := disputedLoop_take items hfew hgroup hprovenance
  have hround :=
    @consider_room _ tenths exampleCall 3 (disputedLoop items) memory rfl (by rw [hcount]; omega)
  have hmore : (items ++ [(whole exampleCall.bounds memory).2]).length = items.length + 1 := by simp
  have hdrafted := draft_bytes (items ++ [(whole exampleCall.bounds memory).2]) (by omega)
  rw [hmore, Nat.add_sub_cancel, hbytes] at hdrafted
  have hsize : (draft exampleCall (disputedGroups (items ++ [(whole exampleCall.bounds memory).2]))
      3 0).settledSize tenths = settled bytes := by
    rw [← hdrafted]
    rfl
  have hroom : room tenths exampleCall 3 (disputedLoop items) memory =
      decide (settled bytes ≤ 16384) := by
    rw [room, hcount, htake]
    show (decide (items.length < 12) &&
      decide ((draft exampleCall (disputedGroups _) 3 0).settledSize tenths ≤ 16384)) = _
    rw [hsize, decide_eq_true (by omega), Bool.true_and]
  rw [hround, hroom, htake]
  simp only [decide_eq_true_eq]

/-- The last memory is displaced if the two before it leave less than its bytes. -/
theorem hiddenFirst_run {statement : Text} (h : (string statement).size ≤ 7479) :
    (hiddenFirst statement).items.foldlM (consider tenths exampleCall 3) ⟨fun _ => [], 0, 0⟩ =
      .ok (if settled (1888 + 2 * (string statement).size) ≤ 16384 then
          disputedLoop [exampleItem 1 statement, exampleItem 4 statement, visibleItem]
        else disputedLoop [exampleItem 1 statement, exampleItem 4 statement]) := by
  have hfive : numeralLength 16384 = 5 := rfl
  have hsize : ∀ id,
      (((whole exampleCall.bounds (exampleMemory id statement)).2).modelDump tenths).size = 450 +
      (string statement).size :=
    fun id => exampleItem_size id statement
  have hvisible : (((whole exampleCall.bounds visibleMemory).2).modelDump tenths).size = 466 :=
    visibleItem_sizes.1
  have hfirst : consider tenths exampleCall 3 (disputedLoop []) (exampleMemory 1 statement) =
      pure (disputedLoop [exampleItem 1 statement]) := by
    have hround := @disputedLoop_consider [] (by simp) (exampleMemory 1 statement)
        (970 + (string statement).size) rfl rfl (by
      simp only [List.nil_append, List.map_cons, List.map_nil, List.sum_cons, List.sum_nil, hsize,
        List.length_nil]
      omega)
    rw [if_pos (settled_le (by omega))] at hround
    exact hround
  have hsecond : consider tenths exampleCall 3 (disputedLoop [exampleItem 1 statement])
    (exampleMemory 4 statement) =
      pure (disputedLoop [exampleItem 1 statement, exampleItem 4 statement]) := by
    have hround :=
      @disputedLoop_consider [exampleItem 1 statement] (by simp) (exampleMemory 4 statement)
      (1421 + 2 * (string statement).size) rfl rfl (by
        simp only [List.cons_append, List.nil_append, List.map_cons, List.map_nil, List.sum_cons,
          List.sum_nil, hsize, exampleItem_size, List.length_cons, List.length_nil]
        omega)
    rw [if_pos (settled_le (by omega))] at hround
    exact hround
  have hthird := @disputedLoop_consider [exampleItem 1 statement, exampleItem 4 statement] (by simp)
    visibleMemory
    (1888 + 2 * (string statement).size) rfl rfl (by
      simp only [List.cons_append, List.nil_append, List.map_cons, List.map_nil, List.sum_cons,
        List.sum_nil, hvisible, exampleItem_size, List.length_cons, List.length_nil]
      omega)
  have hstart : (⟨fun _ => [], 0, 0⟩ : Assembling (Fin 11)) = disputedLoop [] := by
    have hgroups : (fun _ => []) = disputedGroups [] := by
      funext name
      cases name <;> rfl
    rw [disputedLoop, ← hgroups]
    rfl
  have hitems : (hiddenFirst statement).items =
    [exampleMemory 1 statement, exampleMemory 4 statement, visibleMemory] := rfl
  rw [hitems, hstart, List.foldlM_cons, hfirst, pure_bind, List.foldlM_cons, hsecond, pure_bind,
    List.foldlM_cons, hthird]
  simp only [List.foldlM_nil, bind_pure]
  rfl

/-- A remote target is given what is left of these memories, and how many there were. -/
theorem hiddenFirst_disclosed {statement : Text} {items : List (ContextPackageItem (Fin 11))}
    (hfew : items.length ≤ 3)
    (hrun : (hiddenFirst statement).items.foldlM (consider tenths exampleCall 3) ⟨fun _ => [], 0,
    0⟩ = .ok (disputedLoop items))
    (hsmall : providerContent tenths (disputedGroups (items.filter (eligible .remote))) ≤ 1000) :
    ∃ filtered, disclosedContext tenths exampleCall (hiddenFirst statement) .remote = .ok
      (providerContext tenths filtered) ∧
      filtered.groups .disputed = items.filter (eligible .remote) := by
  have hscope : ∀ result ∈ (hiddenFirst statement).items, validateResultScope exampleCall result =
      .ok () := by
    intro result hresult
    have hitems : (hiddenFirst statement).items =
      [exampleMemory 1 statement, exampleMemory 4 statement, visibleMemory] := rfl
    simp only [hitems, List.mem_cons, List.not_mem_nil, or_false] at hresult
    rcases hresult with rfl | rfl | rfl <;> rfl
  obtain ⟨package, -, hpackage, -, hsound, hbounds⟩ := assemble_ok tenths exampleCall hscope rfl
  have heq := assemble_eq hscope rfl hrun (by rw [countItems_disputed]; exact hfew) hpackage
  obtain ⟨filtered, hfilter, hfiltered, -, -⟩ := hsound.filter tenths .remote
  have hgroups : package.groups = disputedGroups items := by rw [heq]; rfl
  have hleft : filtered.groups = disputedGroups (items.filter (eligible .remote)) := by
    funext name
    rw [hfiltered.groups, hgroups]
    cases name <;> rfl
  have hcount : package.includedCount ≤ 3 ∧ package.omittedCount ≤ 3 ∧
    package.provenanceOmittedCount = 0 ∧
      package.policyOmittedCount = 0 := by
    rw [heq]
    refine ⟨?_, Nat.sub_le _ _, rfl, rfl⟩
    show countItems (disputedLoop items).groups ≤ 3
    rw [countItems_disputed]
    exact hfew
  have hdigit : ∀ n ≤ 9, numeralLength n ≤ 1 :=
    fun n hn => (numeralLength_le_iff (by decide)).mpr (by omega)
  have hasOf : filtered.asOf = exampleTime := by
    have := congrArg ContextPackage.asOf hfiltered.unchanged
    rw [heq] at this
    exact this
  have hbound : filtered.bounds.maxSerializedBytes = 16384 := by
    have := congrArg ContextPackage.bounds hfiltered.unchanged
    rw [heq] at this
    exact congrArg ContextPackageBounds.maxSerializedBytes this
  have hprovenance : filtered.provenanceOmittedCount = 0 := by
    have := congrArg ContextPackage.provenanceOmittedCount hfiltered.unchanged
    exact this.trans hcount.2.2.1
  have hincluded := hfiltered.included
  have hconserved := hfiltered.conserved
  have hpolicy := hfiltered.policy
  have hdate : (string exampleTime.isoformat).size = 27 := by decide
  refine ⟨filtered, ?_, by rw [hleft]; rfl⟩
  simp only [disclosedContext, hpackage, hfilter, bind, Except.bind]
  refine providerMemoryContext_eq tenths filtered ?_
  have hone := hdigit filtered.includedCount (by omega)
  have htwo := hdigit filtered.omittedCount (by omega)
  have hthree := hdigit filtered.provenanceOmittedCount (by omega)
  have hfour := hdigit filtered.policyOmittedCount (by omega)
  rw [JsonTree.length_encode_dumps, size_providerContext, hasOf, hdate, hbound, hleft]
  omega

theorem groups_length_of_context {F : Type} {lib : FloatText F} {package other : ContextPackage F}
    (h : providerContext lib package = providerContext lib other) (name : Group) :
    (package.groups name).length = (other.groups name).length := by
  have hmap : (package.groups name).map (providerItem lib) =
      (other.groups name).map (providerItem lib) := by
    simp only [providerContext, providerGroups, groupNames, List.map_cons, List.map_nil,
      JsonTree.object.injEq, JsonTree.array.injEq, List.cons.injEq, Prod.mk.injEq, true_and,
        and_true] at h
    obtain ⟨-, hfacts, hdecisions, hpreferences, hconstraints, hevents, hnotes, hdisputed⟩ := h
    cases name <;> assumption
  simpa using congrArg List.length hmap

/-- With long statements, each of them within the 2000 characters of a memory, the LOCAL_ONLY
memories displace the other one: a remote target is given it or not, according to statements
that it may not be given. -/
theorem hidden_statement_displaces :
    (hiddenFirst ['a']).items.map withheld = (hiddenFirst longStatement).items.map withheld ∧
    longStatement.length ≤ 2000 ∧
    ∃ shown displaced,
      disclosedContext tenths exampleCall (hiddenFirst ['a']) .remote = .ok
        (providerContext tenths shown) ∧
      shown.groups .disputed = [visibleItem] ∧
      disclosedContext tenths exampleCall (hiddenFirst longStatement) .remote = .ok
        (providerContext tenths displaced) ∧
      displaced.groups .disputed = [] ∧
      disclosedContext tenths exampleCall (hiddenFirst ['a']) .remote ≠
        disclosedContext tenths exampleCall (hiddenFirst longStatement) .remote := by
  have hshort : (string ['a']).size = 3 := by decide
  have hfive : numeralLength 16384 = 5 := rfl
  have hfits : settled (1888 + 2 * (string ['a']).size) ≤ 16384 :=
    settled_le (by rw [hshort, hfive]; decide)
  have hlarge : ¬ settled (1888 + 2 * (string longStatement).size) ≤ 16384 := by
    have := settled_fixed (1888 + 2 * (string longStatement).size)
    rw [longStatement_size] at this ⊢
    omega
  have hrun := @hiddenFirst_run ['a'] (by rw [hshort]; decide)
  have hrunLong := @hiddenFirst_run longStatement (by rw [longStatement_size]; decide)
  rw [if_pos hfits] at hrun
  rw [if_neg hlarge] at hrunLong
  have hcontent : ∀ items : List (ContextPackageItem (Fin 11)), items = [visibleItem] ∨ items = [] →
      providerContent tenths (disputedGroups items) ≤ 1000 := by
    have hvisible := visibleItem_sizes.2
    intro items hitems
    rcases hitems with rfl | rfl <;>
      simp only [providerContent, disputedGroups, groupNames, List.map_cons, List.map_nil,
        List.sum_cons, List.sum_nil, reduceCtorEq, if_true, if_false, JsonTree.size_array,
          List.length_cons, List.length_nil] <;> omega
  obtain ⟨shown, hshown, hgroup⟩ :=
    @hiddenFirst_disclosed ['a'] [exampleItem 1 ['a'], exampleItem 4 ['a'], visibleItem] le_rfl hrun
      (hcontent _ (.inl rfl))
  obtain ⟨displaced, hdisplaced, hnone⟩ :=
    @hiddenFirst_disclosed longStatement [exampleItem 1 longStatement, exampleItem 4 longStatement]
    (Nat.le_succ 2) hrunLong (hcontent _ (.inr rfl))
  refine ⟨hiddenFirst_withheld _ _, ?_, shown, displaced, hshown, hgroup, hdisplaced, hnone,
    fun hsame => ?_⟩
  · rw [longStatement, List.length_replicate]
    decide
  rw [hshown, hdisplaced] at hsame
  have hlength := groups_length_of_context (Except.ok.inj hsame) .disputed
  rw [hgroup, hnone] at hlength
  cases hlength

end Novalton.ContextPackages
