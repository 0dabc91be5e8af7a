/-
Series of rows that are numbered by their requests: a request reads the latest number of a
series, and inserts the next one under a unique key with the rows that depend on it, in a
transaction of its own under READ COMMITTED. Two requests that read the same latest number
insert the same next one; the second waits for the first, and is refused if that commits.
Nothing here names the repository.
-/
import Mathlib.Data.List.MinMax
import Novalton.RowTable
import Novalton.Transition

namespace Novalton

/-- A row of a series, with its id, the request it is of and its other columns. -/
structure Numbered (ι ρ : Type) where
  id : ι
  request : ℕ
  row : ρ
deriving DecidableEq

namespace Series

/-- A request begins a series, or adds to the one its source is in, in a scope. -/
inductive Kind (κ ι : Type) where
  | create (series : κ)
  | version (scope : κ → Bool) (source : ι)

/-- `present` is a series that cannot begin again, `conflict` a number that is taken, and `failed`
any other exception. -/
inductive Refusal where
  | present | notFound | invalid | conflict | failed
deriving DecidableEq, Repr

/-- The rows of a statement, or what refuses the request on the way to it. -/
abbrev Batch (ρ : Type) := Except Refusal (List ρ)

/-- `row` are the columns of the numbered row, and `batches` are the rows that depend on it,
statement by statement; the request may be refused before. -/
structure Request (κ ι ρ : Type) where
  kind : Kind κ ι
  id : ι
  row : ρ
  batches : κ → ℕ → Except Refusal (List (Batch ρ))

inductive Phase (κ ρ : Type) where
  | started
  | located (series : κ)
  | numbered (series : κ) (version : ℕ) (batches : List (Batch ρ))
  | inserted (series : κ) (version : ℕ) (batches : List (Batch ρ))
  | returned (series : κ) (version : ℕ)
  | refused (refusal : Refusal)

/-- The request has not ended. -/
def Phase.running {κ ρ : Type} : Phase κ ρ → Bool
  | .returned _ _ => false
  | .refused _ => false
  | _ => true

/-- `records` are the dependent rows that are committed, with their requests, and `pending` those
of a transaction that goes on. -/
structure State (κ ι ρ : Type) where
  table : Table (κ × ℕ) (Numbered ι ρ)
  records : List (ℕ × ρ)
  pending : ℕ → List ρ
  calls : ℕ → Option (Request κ ι ρ × Phase κ ρ)

/-- `i` is the request a step is of. -/
inductive Action (κ ι ρ : Type) where
  | begin (i : ℕ) (request : Request κ ι ρ)
  | locate (i : ℕ)
  | latest (i : ℕ)
  | insert (i : ℕ)
  | write (i : ℕ)
  | commit (i : ℕ)
  | fail (i : ℕ)

variable {κ ι ρ : Type} [DecidableEq κ] [DecidableEq ι]

/-! ## Steps -/

namespace State
variable (s : State κ ι ρ)

def goto (i : ℕ) (request : Request κ ι ρ) (phase : Phase κ ρ) : State κ ι ρ :=
  { s with calls := Function.update s.calls i (.some (request, phase)) }

/-- An exception: the transaction is rolled back. -/
def refuse (i : ℕ) (request : Request κ ι ρ) (refusal : Refusal) : State κ ι ρ :=
  { s with table := s.table.rollback i, pending := Function.update s.pending i [] }.goto i request
    (.refused refusal)

/-- The series of the row with an id, in a scope. -/
def source (i : ℕ) (scope : κ → Bool) (id : ι) : Option κ :=
  (s.table.keys.find? fun key => scope key.1 && (s.table.view i key).any fun row => row.id = id).map
    Prod.fst

/-- The latest number of a series. -/
def latestVersion (i : ℕ) (series : κ) : Option ℕ :=
  ((s.table.keys.filter fun key => key.1 = series && (s.table.view i key).isSome).map Prod.snd).max?

def locate (i : ℕ) (request : Request κ ι ρ) : State κ ι ρ :=
  match request.kind with
  | .create series => s.goto i request (.located series)
  | .version scope id =>
    match s.source i scope id with
    | .some series => s.goto i request (.located series)
    | .none => s.refuse i request .notFound

/-- The request goes on with the number it gets. -/
def number (i : ℕ) (request : Request κ ι ρ) (series : κ) (version : ℕ) : State κ ι ρ :=
  match request.batches series version with
  | .ok batches => s.goto i request (.numbered series version batches)
  | .error refusal => s.refuse i request refusal

def latest (i : ℕ) (request : Request κ ι ρ) (series : κ) : State κ ι ρ :=
  match request.kind, s.latestVersion i series with
  | .create _, .none => s.number i request series 1
  | .create _, .some _ => s.refuse i request .present
  | .version _ _, .some version => s.number i request series (version + 1)
  | .version _ _, .none => s.refuse i request .notFound

def step : Action κ ι ρ → Option (State κ ι ρ)
  | .begin i request =>
    match s.calls i with
    | .none => .some (s.goto i request .started)
    | .some _ => .none
  | .locate i =>
    match s.calls i with
    | .some (request, .started) => .some (s.locate i request)
    | _ => .none
  | .latest i =>
    match s.calls i with
    | .some (request, .located series) => .some (s.latest i request series)
    | _ => .none
  | .insert i =>
    match s.calls i with
    | .some (request, .numbered series version batches) =>
      (s.table.insert i (series, version) ⟨request.id, i, request.row⟩).map fun inserted =>
        match inserted with
        | .some table => { s with table := table }.goto i request (.inserted series version batches)
        | .none => s.refuse i request .conflict
    | _ => .none
  | .write i =>
    match s.calls i with
    | .some (request, .inserted series version (.ok rows :: batches)) =>
      .some ({ s with pending := Function.update s.pending i (s.pending i ++ rows) }.goto i request
        (.inserted series version batches))
    | .some (request, .inserted _ _ (.error refusal :: _)) => .some (s.refuse i request refusal)
    | _ => .none
  | .commit i =>
    match s.calls i with
    | .some (request, .inserted series version []) =>
      .some ({ s with
        table := s.table.commit i
        records := s.records ++ (s.pending i).map fun record => (i, record)
        pending := Function.update s.pending i [] }.goto i request (.returned series version))
    | _ => .none
  | .fail i =>
    match s.calls i with
    | .some (request, phase) => if phase.running then .some (s.refuse i request .failed) else .none
    | .none => .none

end State

/-- Before any request. -/
def State.initial : State κ ι ρ := ⟨Table.empty, [], fun _ => [], fun _ => .none⟩

def system : System (State κ ι ρ) (Action κ ι ρ) where
  Init s := s = State.initial
  step := State.step

/-! ## What a step does -/

/-- What each action comes to. -/
inductive Next (s : State κ ι ρ) : Action κ ι ρ → State κ ι ρ → Prop where
  | begin {i : ℕ} {request : Request κ ι ρ} (hnew : s.calls i = .none) :
      Next s (.begin i request) (s.goto i request .started)
  | locate {i : ℕ} {request : Request κ ι ρ} {series : κ}
      (hcall : s.calls i = .some (request, .started))
      (hseries : ∀ other, request.kind = .create other → series = other) :
        Next s (.locate i) (s.goto i request (.located series))
  | number {i : ℕ} {request : Request κ ι ρ} {series : κ} {version : ℕ} {batches : List (Batch ρ)}
      (hcall : s.calls i = .some (request, .located series))
      (hversion : (version = 1 ∧ s.latestVersion i series = .none) ∨
        ∃ latest, version = latest + 1 ∧ s.latestVersion i series = .some latest ∧ ∀ other,
          request.kind ≠ .create other)
      (hbatches : request.batches series version = .ok batches) :
        Next s (.latest i) (s.goto i request (.numbered series version batches))
  | insert {i : ℕ} {request : Request κ ι ρ} {series : κ} {version : ℕ} {batches : List (Batch ρ)}
      {table : Table (κ × ℕ) (Numbered ι ρ)}
      (hcall : s.calls i = .some (request, .numbered series version batches))
      (htook : s.table.Took table i (series, version) (.some ⟨request.id, i, request.row⟩))
        (hfree : s.table.view i (series, version) = .none) :
      Next s (.insert i)
        ({ s with table := table }.goto i request (.inserted series version batches))
  | write {i : ℕ} {request : Request κ ι ρ} {series : κ} {version : ℕ} {rows : List ρ}
      {batches : List (Batch ρ)}
      (hcall : s.calls i = .some (request, .inserted series version (.ok rows :: batches))) :
      Next s (.write i)
        ({ s with pending := Function.update s.pending i (s.pending i ++ rows) }.goto i request
          (.inserted series version batches))
  | commit {i : ℕ} {request : Request κ ι ρ} {series : κ} {version : ℕ}
      (hcall : s.calls i = .some (request, .inserted series version [])) :
      Next s (.commit i)
        ({ s with
          table := s.table.commit i
          records := s.records ++ (s.pending i).map fun record => (i, record)
          pending := Function.update s.pending i [] }.goto i request (.returned series version))
  | refuse {a : Action κ ι ρ} {i : ℕ} {request : Request κ ι ρ} {phase : Phase κ ρ}
      {refusal : Refusal}
      (hcall : s.calls i = .some (request, phase)) (hrunning : phase.running = true)
      (hreason : (refusal = .failed ∧ a = .fail i) ∨
        (∀ series version batches, phase = .numbered series version batches → refusal = .conflict))
      (hpresent : ∀ series other, phase = .located series → request.kind = .create other →
        (s.latestVersion i series).isSome →
        refusal = .present ∨ (refusal = .failed ∧ a = .fail i)) :
          Next s a (s.refuse i request refusal)

variable {s t : State κ ι ρ} {a : Action κ ι ρ} {i j : ℕ} {request : Request κ ι ρ}

omit [DecidableEq ι] in
theorem next_of_number {series : κ} {version : ℕ}
    (hcall : s.calls i = .some (request, .located series))
    (hversion : (version = 1 ∧ s.latestVersion i series = .none) ∨
      ∃ latest, version = latest + 1 ∧ s.latestVersion i series = .some latest ∧ ∀ other,
        request.kind ≠ .create other) :
    Next s (.latest i) (s.number i request series version) := by
  rw [State.number]
  split
  next batches hbatches => exact .number hcall hversion hbatches
  next =>
    refine .refuse hcall rfl (.inr fun _ _ _ heq => by cases heq) ?_
    intro other kind hphase hkind hsome
    cases hphase
    rcases hversion with ⟨-, hnone⟩ | ⟨latest, -, -, hnot⟩
    · rw [hnone] at hsome
      cases hsome
    · exact absurd hkind (hnot kind)

theorem next_of_step (h : s.step a = .some t) : Next s a t := by
  cases a with
  | begin i request =>
    simp only [State.step] at h
    split at h
    next hnew => cases h; exact .begin hnew
    next => cases h
  | locate i =>
    simp only [State.step] at h
    split at h
    next request hcall =>
      cases h
      rw [State.locate]
      split
      next series hkind =>
        refine .locate hcall fun other heq => ?_
        rw [hkind] at heq
        cases heq
        rfl
      next scope id hkind =>
        split
        next series hsource =>
          refine .locate hcall fun other heq => ?_
          rw [hkind] at heq
          cases heq
        next hsource =>
          exact .refuse hcall rfl (.inr fun _ _ _ heq => by cases heq) fun _ _ hphase => by
            cases hphase
    next => cases h
  | latest i =>
    simp only [State.step] at h
    split at h
    next request series hcall =>
      cases h
      rw [State.latest]
      split
      next hkind hlatest => exact next_of_number hcall (.inl ⟨rfl, hlatest⟩)
      next hkind hlatest =>
        exact .refuse hcall rfl (.inr fun _ _ _ heq => by cases heq) fun _ _ _ _ _ => .inl rfl
      next scope source version hkind hlatest =>
        exact next_of_number hcall (.inr ⟨version, rfl, hlatest, fun other heq => by rw [hkind] at heq; cases heq⟩)
      next scope source hkind hlatest =>
        refine .refuse hcall rfl (.inr fun _ _ _ heq => by cases heq) fun _ _ _ heq => ?_
        rw [hkind] at heq
        cases heq
    next => cases h
  | insert i =>
    simp only [State.step] at h
    split at h
    next request series version batches hcall =>
      rw [Option.map_eq_some_iff] at h
      obtain ⟨inserted, hinsert, rfl⟩ := h
      split
      next table =>
        obtain ⟨htook, hfree⟩ := Table.insert_took hinsert
        exact .insert hcall htook hfree
      next =>
        refine .refuse hcall rfl (.inr fun _ _ _ _ => rfl) fun _ _ hphase => ?_
        cases hphase
    next => cases h
  | write i =>
    simp only [State.step] at h
    split at h
    next request series version rows batches hcall => cases h; exact .write hcall
    next request series version refusal batches hcall =>
      cases h
      exact .refuse hcall rfl (.inr fun _ _ _ heq => by cases heq) fun _ _ hphase => by cases hphase
    next => cases h
  | commit i =>
    simp only [State.step] at h
    split at h
    next request series version hcall => cases h; exact .commit hcall
    next => cases h
  | fail i =>
    simp only [State.step] at h
    split at h
    next request phase hcall =>
      split at h
      next hrunning => cases h; exact .refuse hcall hrunning (.inl ⟨rfl, rfl⟩) fun _ _ _ _ _ => .inr ⟨rfl, rfl⟩
      next => cases h
    next => cases h

/-! ## Fields after a step -/

section
omit [DecidableEq κ] [DecidableEq ι]

@[simp] theorem goto_table {phase : Phase κ ρ} : (s.goto i request phase).table = s.table := rfl

@[simp] theorem goto_records {phase : Phase κ ρ} : (s.goto i request phase).records = s.records :=
  rfl

@[simp] theorem goto_pending {phase : Phase κ ρ} : (s.goto i request phase).pending = s.pending :=
  rfl

@[simp] theorem goto_calls_self {phase : Phase κ ρ} : (s.goto i request phase).calls i = .some
    (request, phase) := Function.update_self ..

theorem goto_calls_ne {phase : Phase κ ρ} (h : j ≠ i) :
    (s.goto i request phase).calls j = s.calls j := Function.update_of_ne h ..

@[simp] theorem refuse_table {refusal : Refusal} :
    (s.refuse i request refusal).table = s.table.rollback i := rfl

@[simp] theorem refuse_records {refusal : Refusal} :
    (s.refuse i request refusal).records = s.records := rfl

@[simp] theorem refuse_calls_self {refusal : Refusal} : (s.refuse i request refusal).calls i = .some
    (request, .refused refusal) :=
  Function.update_self ..

theorem refuse_calls_ne {refusal : Refusal} (h : j ≠ i) :
    (s.refuse i request refusal).calls j = s.calls j := Function.update_of_ne h ..

end

/-! ## The invariant -/

/-- The numbers of a series go on from 1; a row that is held is that of a request that has
inserted it, next to the latest it read; and what is committed is of requests that returned. -/
structure Inv (s : State κ ι ρ) : Prop where
  positive : ∀ series version, (s.table.committed (series, version)).isSome → 1 ≤ version
  predecessor : ∀ series version, 1 ≤ version → (s.table.committed (series, version + 1)).isSome →
    (s.table.committed (series, version)).isSome
  due : ∀ i request series version batches,
    s.calls i = .some (request, .numbered series version batches) ∨
      s.calls i = .some (request, .inserted series version batches) →
      1 ≤ version ∧ ∀ earlier, version = earlier + 1 → 1 ≤ earlier →
        (s.table.committed (series, earlier)).isSome
  held : ∀ i key, s.table.Holds i key →
    (∃ request batches, s.calls i = .some (request, .inserted key.1 key.2 batches) ∧
    s.table.view i key = .some ⟨request.id, i, request.row⟩) ∧ s.table.committed key = .none
  inserted : ∀ i request series version batches,
    s.calls i = .some (request, .inserted series version batches) →
    s.table.Holds i (series, version)
  pending : ∀ i, s.pending i ≠ [] → ∃ request series version batches,
    s.calls i = .some (request, .inserted series version batches)
  owner : ∀ key row, s.table.committed key = .some row → ∃ request,
    s.calls row.request = .some (request, .returned key.1 key.2)
  record : ∀ entry ∈ s.records, ∃ request series version,
    s.calls entry.1 = .some (request, .returned series version)

omit [DecidableEq κ] [DecidableEq ι] in
theorem inv_initial : Inv (State.initial : State κ ι ρ) where
  positive := by
    intro series version h
    cases h
  predecessor := by
    intro series version hpos h
    cases h
  due := by
    rintro i request series version batches (h | h)
    · cases h
    · cases h
  held := fun i key h => absurd h Table.empty_holds
  inserted := by
    intro i request series version batches h
    cases h
  pending := fun i h => absurd rfl h
  owner := by
    intro key row h
    cases h
  record := by
    intro entry h
    cases h

omit [DecidableEq ι] in
/-- The latest number is the last one there is. -/
theorem latestVersion_eq {series : κ} (hsee : ∀ key, s.table.view i key = s.table.committed key) :
    (s.latestVersion i series = .none ↔ ∀ version, s.table.committed (series, version) = .none) ∧
      ∀ latest, s.latestVersion i series = .some latest →
        (s.table.committed (series, latest)).isSome ∧
        ∀ version, (s.table.committed (series, version)).isSome → version ≤ latest := by
  have hmem : ∀ version, version ∈ (s.table.keys.filter fun key => key.1 = series &&
    (s.table.view i key).isSome).map Prod.snd ↔
      (s.table.committed (series, version)).isSome := by
    intro version
    rw [List.mem_map]
    constructor
    · rintro ⟨⟨other, number⟩, hkey, rfl⟩
      obtain ⟨-, hkey⟩ := List.mem_filter.mp hkey
      rw [Bool.and_eq_true, decide_eq_true_eq] at hkey
      rw [← hsee, ← hkey.1]
      exact hkey.2
    · intro hsome
      refine ⟨(series, version), List.mem_filter.mpr ⟨?_, ?_⟩, rfl⟩
      · by_contra hknown
        rw [Table.committed, s.table.known _ hknown] at hsome
        cases hsome
      · rw [Bool.and_eq_true, decide_eq_true_eq, hsee]
        exact ⟨rfl, hsome⟩
  constructor
  · rw [State.latestVersion, List.max?_eq_none_iff, List.eq_nil_iff_forall_not_mem]
    refine forall_congr' fun version => ?_
    rw [hmem, Option.not_isSome_iff_eq_none]
  · intro latest hlatest
    rw [State.latestVersion, List.max?_eq_some_iff] at hlatest
    exact ⟨(hmem latest).mp hlatest.1, fun version hversion =>
      hlatest.2 version ((hmem version).mpr hversion)⟩

omit [DecidableEq κ] [DecidableEq ι] in
/-- A request that has inserted nothing sees what is committed. -/
theorem Inv.view_eq (h : Inv s) {phase : Phase κ ρ} (hcall : s.calls i = .some (request, phase))
    (hphase : ∀ series version batches, phase ≠ .inserted series version batches) (key : κ × ℕ) :
    s.table.view i key = s.table.committed key := by
  refine Table.view_of_unheld fun hholds => ?_
  obtain ⟨⟨other, batches, hother, -⟩, -⟩ := h.held i key hholds
  rw [hcall] at hother
  cases hother
  exact hphase _ _ _ rfl

/-- A call before its insert. -/
def Phase.early {κ ρ : Type} : Phase κ ρ → Bool
  | .started => true
  | .located _ => true
  | .numbered _ _ _ => true
  | _ => false

section
omit [DecidableEq κ] [DecidableEq ι]

theorem Inv.goto (h : Inv s) {phase : Phase κ ρ}
    (hbefore : ∀ other before, s.calls i = .some (other, before) → before.early = true)
    (hearly : phase.early = true)
    (hdue : ∀ series version batches, phase = .numbered series version batches →
      1 ≤ version ∧ ∀ earlier, version = earlier + 1 → 1 ≤ earlier →
        (s.table.committed (series, earlier)).isSome) :
    Inv (s.goto i request phase) := by
  have hinserted : ∀ j other series version batches,
      s.calls j = .some (other, .inserted series version batches) → j ≠ i := by
    rintro j other series version batches hcall rfl
    cases hbefore _ _ hcall
  have hreturned : ∀ j other series version, s.calls j = .some (other, .returned series version) →
      j ≠ i := by
    rintro j other series version hcall rfl
    cases hbefore _ _ hcall
  have hafter : ∀ j other series version batches, (s.goto i request phase).calls j =
    .some (other, .inserted series version batches) →
      j ≠ i ∧ s.calls j = .some (other, .inserted series version batches) := by
    intro j other series version batches hcall
    by_cases hj : j = i
    · rw [hj, goto_calls_self] at hcall
      cases hcall
      cases hearly
    · rw [goto_calls_ne hj] at hcall
      exact ⟨hj, hcall⟩
  refine ⟨h.positive, h.predecessor, fun j other series version batches hcall => ?_,
    fun j key hholds => ?_, fun j other series version batches hcall => ?_, fun j hj => ?_,
      fun key row hrow => ?_, fun entry hentry => ?_⟩
  · rcases hcall with hcall | hcall
    · by_cases hj : j = i
      · rw [hj, goto_calls_self] at hcall
        cases hcall
        exact hdue series version batches rfl
      · rw [goto_calls_ne hj] at hcall
        exact h.due j other series version batches (.inl hcall)
    · exact h.due j other series version batches
        (.inr (hafter j other series version batches hcall).2)
  · obtain ⟨⟨other, batches, hcall, hview⟩, hnone⟩ := h.held j key hholds
    refine ⟨⟨other, batches, ?_, hview⟩, hnone⟩
    rw [goto_calls_ne (hinserted _ _ _ _ _ hcall)]
    exact hcall
  · exact h.inserted j other series version batches (hafter j other series version batches hcall).2
  · obtain ⟨other, series, version, batches, hcall⟩ := h.pending j hj
    exact ⟨other, series, version, batches,
      by rw [goto_calls_ne (hinserted _ _ _ _ _ hcall)]; exact hcall⟩
  · obtain ⟨other, hcall⟩ := h.owner key row hrow
    exact ⟨other, by rw [goto_calls_ne (hreturned _ _ _ _ hcall)]; exact hcall⟩
  · obtain ⟨other, series, version, hcall⟩ := h.record entry hentry
    exact ⟨other, series, version, by rw [goto_calls_ne (hreturned _ _ _ _ hcall)]; exact hcall⟩

theorem Inv.refuse (h : Inv s) {phase : Phase κ ρ} {refusal : Refusal}
    (hcall : s.calls i = .some (request, phase)) (hrunning : phase.running = true) : Inv
    (s.refuse i request refusal) := by
  have hreturned : ∀ j other series version, s.calls j = .some (other, .returned series version) →
      j ≠ i := by
    rintro j other series version hreturned rfl
    rw [hcall] at hreturned
    cases hreturned
    cases hrunning
  have hafter : ∀ {j other after}, (s.refuse i request refusal).calls j = .some (other, after) →
    after.running = true →
      j ≠ i ∧ s.calls j = .some (other, after) := by
    intro j other after hother hrunning
    by_cases hj : j = i
    · rw [hj, refuse_calls_self] at hother
      cases hother
      cases hrunning
    · rw [refuse_calls_ne hj] at hother
      exact ⟨hj, hother⟩
  have hcommitted : ∀ key, (s.refuse i request refusal).table.committed key =
    s.table.committed key := fun key => Table.rollback_committed
  refine ⟨fun series version hsome => ?_, fun series version hpos hsome => ?_,
    fun j other series version batches hother => ?_, fun j key hholds => ?_,
      fun j other series version batches hother => ?_, fun j hj => ?_, fun key row hrow => ?_,
      fun entry hentry => ?_⟩
  · rw [hcommitted] at hsome
    exact h.positive series version hsome
  · rw [hcommitted] at hsome ⊢
    exact h.predecessor series version hpos hsome
  · have hbefore : s.calls j = .some (other, .numbered series version batches) ∨
        s.calls j = .some (other, .inserted series version batches) := by
      rcases hother with hother | hother
      · exact .inl (hafter hother rfl).2
      · exact .inr (hafter hother rfl).2
    obtain ⟨hpos, hdue⟩ := h.due j other series version batches hbefore
    refine ⟨hpos, fun earlier heq hearlier => ?_⟩
    rw [hcommitted]
    exact hdue earlier heq hearlier
  · have hj : j ≠ i := by
      rintro rfl
      exact Table.rollback_unheld hholds
    have hbefore : s.table.Holds j key := Table.Holds.of_rollback hholds
    obtain ⟨⟨other, batches, hother, hview⟩, hnone⟩ := h.held j key hbefore
    refine ⟨⟨other, batches, by rw [refuse_calls_ne hj]; exact hother, ?_⟩,
      by rw [hcommitted]; exact hnone⟩
    rw [refuse_table, Table.view_congr (hbefore.rollback_row hj)]
    exact hview
  · obtain ⟨hj, hother⟩ := hafter hother rfl
    have hholds := h.inserted j other series version batches hother
    exact hholds.congr (hholds.rollback_row hj)
  · by_cases hji : j = i
    · rw [hji] at hj
      exact absurd (Function.update_self ..) hj
    · have hpending : (s.refuse i request refusal).pending j = s.pending j :=
        Function.update_of_ne hji ..
      rw [hpending] at hj
      obtain ⟨other, series, version, batches, hother⟩ := h.pending j hj
      exact ⟨other, series, version, batches, by rw [refuse_calls_ne hji]; exact hother⟩
  · rw [hcommitted] at hrow
    obtain ⟨other, hother⟩ := h.owner key row hrow
    exact ⟨other, by rw [refuse_calls_ne (hreturned _ _ _ _ hother)]; exact hother⟩
  · obtain ⟨other, series, version, hother⟩ := h.record entry hentry
    exact ⟨other, series, version, by rw [refuse_calls_ne (hreturned _ _ _ _ hother)]; exact hother⟩

end

omit [DecidableEq ι] in
theorem Inv.insert (h : Inv s) {series : κ} {version : ℕ} {batches : List (Batch ρ)}
    {table : Table (κ × ℕ) (Numbered ι ρ)}
    (hcall : s.calls i = .some (request, .numbered series version batches))
    (htook : s.table.Took table i (series, version) (.some ⟨request.id, i, request.row⟩))
    (hfree : s.table.view i (series, version) = .none) :
    Inv ({ s with table := table }.goto i request (.inserted series version batches)) := by
  have hcommitted : table.committed = s.table.committed := htook.committed_eq
  have hne : ∀ j other phase, s.calls j = .some (other, phase) →
      (∀ series version batches, phase ≠ .numbered series version batches) → j ≠ i := by
    rintro j other phase hother hphase rfl
    rw [hcall] at hother
    cases hother
    exact hphase _ _ _ rfl
  have hsees := h.view_eq hcall (fun _ _ _ heq => by cases heq)
  refine ⟨?_, ?_, fun j other series' version' batches' hother => ?_, fun j key hholds => ?_,
    fun j other series' version' batches' hother => ?_, fun j hj => ?_, fun key row hrow => ?_,
      fun entry hentry => ?_⟩
  · rw [goto_table, hcommitted]
    exact h.positive
  · rw [goto_table, hcommitted]
    exact h.predecessor
  · rw [goto_table, hcommitted]
    by_cases hj : j = i
    · rw [hj, goto_calls_self] at hother
      rcases hother with hother | hother
      · cases hother
      · cases hother
        exact h.due i request series version batches (.inl hcall)
    · rw [goto_calls_ne hj] at hother
      exact h.due j other series' version' batches' hother
  · by_cases hkey : key = (series, version)
    · subst hkey
      have hj : j = i := by
        by_contra hj
        exact hj (htook.unheld j (htook.holds_of_ne hholds hj))
      rw [hj, goto_calls_self, goto_table, hcommitted]
      exact ⟨⟨request, batches, rfl, htook.view⟩, by rw [← hsees]; exact hfree⟩
    · have hbefore : s.table.Holds j key := (htook.holds_iff hkey).mp hholds
      obtain ⟨⟨other, batches', hother, hview⟩, hnone⟩ := h.held j key hbefore
      have hj := hne j other _ hother (fun _ _ _ heq => by cases heq)
      rw [goto_calls_ne hj, goto_table, hcommitted]
      exact ⟨⟨other, batches', hother, by rw [htook.view_ne hkey]; exact hview⟩, hnone⟩
  · by_cases hj : j = i
    · rw [hj, goto_calls_self] at hother
      cases hother
      rw [hj]
      exact htook.holds
    · rw [goto_calls_ne hj] at hother
      have hholds := h.inserted j other series' version' batches' hother
      exact hholds.congr (htook.row_of_holds hholds hj)
  · obtain ⟨other, series', version', batches', hother⟩ := h.pending j hj
    exact ⟨other, series', version', batches',
      by rw [goto_calls_ne (hne j other _ hother fun _ _ _ heq => by cases heq)]; exact hother⟩
  · rw [goto_table, hcommitted] at hrow
    obtain ⟨other, hother⟩ := h.owner key row hrow
    exact ⟨other,
      by rw [goto_calls_ne (hne _ other _ hother fun _ _ _ heq => by cases heq)]; exact hother⟩
  · obtain ⟨other, series', version', hother⟩ := h.record entry hentry
    exact ⟨other, series', version',
      by rw [goto_calls_ne (hne _ other _ hother fun _ _ _ heq => by cases heq)]; exact hother⟩

section
omit [DecidableEq κ] [DecidableEq ι]

theorem Inv.write (h : Inv s) {series : κ} {version : ℕ} {rows : List ρ} {batches : List (Batch ρ)}
    (hcall : s.calls i = .some (request, .inserted series version (.ok rows :: batches))) :
    Inv ({ s with pending := Function.update s.pending i (s.pending i ++ rows) }.goto i request
      (.inserted series version batches)) := by
  have hne : ∀ j other phase, s.calls j = .some (other, phase) →
      (∀ series version batches, phase ≠ .inserted series version batches) → j ≠ i := by
    rintro j other phase hother hphase rfl
    rw [hcall] at hother
    cases hother
    exact hphase _ _ _ rfl
  refine ⟨h.positive, h.predecessor, fun j other series' version' batches' hother => ?_,
    fun j key hholds => ?_, fun j other series' version' batches' hother => ?_, fun j hj => ?_,
      fun key row hrow => ?_, fun entry hentry => ?_⟩
  · by_cases hj : j = i
    · rw [hj, goto_calls_self] at hother
      rcases hother with hother | hother
      · cases hother
      · cases hother
        exact h.due i request series version _ (.inr hcall)
    · rw [goto_calls_ne hj] at hother
      exact h.due j other series' version' batches' hother
  · obtain ⟨⟨other, batches', hother, hview⟩, hnone⟩ := h.held j key hholds
    refine ⟨?_, hnone⟩
    by_cases hj : j = i
    · rw [hj, hcall] at hother
      cases hother
      rw [hj, goto_calls_self]
      exact ⟨request, batches, rfl, hj ▸ hview⟩
    · rw [goto_calls_ne hj]
      exact ⟨other, batches', hother, hview⟩
  · by_cases hj : j = i
    · rw [hj, goto_calls_self] at hother
      cases hother
      rw [hj]
      exact h.inserted i request series version _ hcall
    · rw [goto_calls_ne hj] at hother
      exact h.inserted j other series' version' batches' hother
  · by_cases hji : j = i
    · rw [hji, goto_calls_self]
      exact ⟨request, series, version, batches, rfl⟩
    · replace hj : Function.update s.pending i (s.pending i ++ rows) j ≠ [] := hj
      rw [Function.update_of_ne hji] at hj
      obtain ⟨other, series', version', batches', hother⟩ := h.pending j hj
      exact ⟨other, series', version', batches', by rw [goto_calls_ne hji]; exact hother⟩
  · obtain ⟨other, hother⟩ := h.owner key row hrow
    exact ⟨other,
      by rw [goto_calls_ne (hne _ other _ hother fun _ _ _ heq => by cases heq)]; exact hother⟩
  · obtain ⟨other, series', version', hother⟩ := h.record entry hentry
    exact ⟨other, series', version',
      by rw [goto_calls_ne (hne _ other _ hother fun _ _ _ heq => by cases heq)]; exact hother⟩

/-- What the commit of a call adds to the rows. -/
theorem Inv.commit_committed (h : Inv s) {series : κ} {version : ℕ}
    (hcall : s.calls i = .some (request, .inserted series version [])) :
    (s.table.commit i).committed (series, version) = .some ⟨request.id, i, request.row⟩ ∧
      ∀ key, key ≠ (series, version) →
        (s.table.commit i).committed key = s.table.committed key := by
  constructor
  · obtain ⟨⟨other, batches, hother, hview⟩, -⟩ :=
      h.held i _ (h.inserted i request series version [] hcall)
    rw [hcall] at hother
    cases hother
    rw [Table.commit_committed]
    exact hview
  · intro key hkey
    refine Table.commit_committed_of_unheld fun hholds => hkey ?_
    obtain ⟨⟨other, batches, hother, -⟩, -⟩ := h.held i key hholds
    rw [hcall] at hother
    cases hother
    rfl

/-- What is committed stays. -/
theorem Inv.commit_isSome (h : Inv s) {series : κ} {version : ℕ}
    (hcall : s.calls i = .some (request, .inserted series version [])) {key : κ × ℕ}
    (hkey : (s.table.committed key).isSome) : ((s.table.commit i).committed key).isSome := by
  obtain ⟨hself, hother⟩ := h.commit_committed hcall
  by_cases heq : key = (series, version)
  · rw [heq, hself]
    rfl
  · rw [hother key heq]
    exact hkey

theorem Inv.commit (h : Inv s) {series : κ} {version : ℕ}
    (hcall : s.calls i = .some (request, .inserted series version [])) :
    Inv ({ s with
      table := s.table.commit i
      records := s.records ++ (s.pending i).map fun record => (i, record)
      pending := Function.update s.pending i [] }.goto i request (.returned series version)) := by
  obtain ⟨hself, hrest⟩ := h.commit_committed hcall
  obtain ⟨hpos, hdue⟩ := h.due i request series version [] (.inr hcall)
  have hkeep : ∀ key, (s.table.committed key).isSome → ((s.table.commit i).committed key).isSome :=
    fun key => h.commit_isSome hcall
  have hne : ∀ j other phase, s.calls j = .some (other, phase) →
      (∀ series version batches, phase ≠ .inserted series version batches) → j ≠ i := by
    rintro j other phase hother hphase rfl
    rw [hcall] at hother
    cases hother
    exact hphase _ _ _ rfl
  refine ⟨fun series' version' hsome => ?_, fun series' version' hpos' hsome => ?_,
    fun j other series' version' batches' hother => ?_, fun j key hholds => ?_,
      fun j other series' version' batches' hother => ?_, fun j hj => ?_, fun key row hrow => ?_,
      fun entry hentry => ?_⟩
  · by_cases heq : (series', version') = (series, version)
    · cases heq
      exact hpos
    · rw [goto_table, hrest _ heq] at hsome
      exact h.positive series' version' hsome
  · by_cases heq : (series', version' + 1) = (series, version)
    · cases heq
      exact hkeep _ (hdue version' rfl hpos')
    · rw [goto_table, hrest _ heq] at hsome
      exact hkeep _ (h.predecessor series' version' hpos' hsome)
  · by_cases hj : j = i
    · rw [hj, goto_calls_self] at hother
      rcases hother with hother | hother
      · cases hother
      · cases hother
    · rw [goto_calls_ne hj] at hother
      obtain ⟨hpos', hdue'⟩ := h.due j other series' version' batches' hother
      exact ⟨hpos', fun earlier heq hearlier => hkeep _ (hdue' earlier heq hearlier)⟩
  · have hj : j ≠ i := by
      rintro rfl
      exact Table.commit_unheld hholds
    have hbefore : s.table.Holds j key := Table.Holds.of_commit hholds
    obtain ⟨⟨other, batches', hother, hview⟩, hnone⟩ := h.held j key hbefore
    rw [goto_calls_ne hj, goto_table]
    refine ⟨⟨other, batches', hother,
      by rw [Table.view_congr (hbefore.commit_row hj)]; exact hview⟩, ?_⟩
    by_cases heq : key = (series, version)
    · -- no two sessions hold one row
      obtain ⟨w, hown⟩ := hbefore
      obtain ⟨w', hown'⟩ := h.inserted i request series version [] hcall
      rw [heq, hown'] at hown
      cases hown
      exact absurd rfl hj
    · rw [hrest key heq]
      exact hnone
  · by_cases hj : j = i
    · rw [hj, goto_calls_self] at hother
      cases hother
    · rw [goto_calls_ne hj] at hother
      have hholds := h.inserted j other series' version' batches' hother
      exact hholds.congr (hholds.commit_row hj)
  · by_cases hji : j = i
    · rw [hji] at hj
      exact absurd (Function.update_self ..) hj
    · replace hj : Function.update s.pending i [] j ≠ [] := hj
      rw [Function.update_of_ne hji] at hj
      obtain ⟨other, series', version', batches', hother⟩ := h.pending j hj
      exact ⟨other, series', version', batches', by rw [goto_calls_ne hji]; exact hother⟩
  · by_cases heq : key = (series, version)
    · rw [goto_table, heq, hself] at hrow
      cases hrow
      rw [goto_calls_self, heq]
      exact ⟨request, rfl⟩
    · rw [goto_table, hrest key heq] at hrow
      obtain ⟨other, hother⟩ := h.owner key row hrow
      exact ⟨other,
        by rw [goto_calls_ne (hne _ other _ hother fun _ _ _ heq => by cases heq)]; exact hother⟩
  · rcases List.mem_append.mp hentry with hentry | hentry
    · obtain ⟨other, series', version', hother⟩ := h.record entry hentry
      exact ⟨other, series', version',
        by rw [goto_calls_ne (hne _ other _ hother fun _ _ _ heq => by cases heq)]; exact hother⟩
    · obtain ⟨record, -, rfl⟩ := List.mem_map.mp hentry
      rw [goto_calls_self]
      exact ⟨request, series, version, rfl⟩

end

omit [DecidableEq ι] in
theorem inv_next (h : Inv s) (hnext : Next s a t) : Inv t := by
  cases hnext with
  | begin hnew =>
    refine h.goto (fun other before hcall => ?_) rfl fun _ _ _ heq => by cases heq
    rw [hnew] at hcall
    cases hcall
  | locate hcall _ =>
    refine h.goto (fun other before hother => ?_) rfl fun _ _ _ heq => by cases heq
    rw [hcall] at hother
    cases hother
    rfl
  | @number i request series version batches hcall hversion hbatches =>
    refine h.goto (fun other before hother => ?_) rfl fun _ _ _ heq => ?_
    · rw [hcall] at hother
      cases hother
      rfl
    · cases heq
      obtain ⟨hnone, hlatest⟩ :=
        @latestVersion_eq _ _ _ _ s i series (h.view_eq hcall fun _ _ _ heq => by cases heq)
      rcases hversion with ⟨rfl, -⟩ | ⟨latest, rfl, hsome, -⟩
      · exact ⟨le_rfl, fun earlier heq hearlier => by omega⟩
      · refine ⟨Nat.succ_pos latest, fun earlier heq _ => ?_⟩
        have heq : earlier = latest := by omega
        rw [heq]
        exact (hlatest latest hsome).1
  | insert hcall htook hfree => exact h.insert hcall htook hfree
  | write hcall => exact h.write hcall
  | commit hcall => exact h.commit hcall
  | refuse hcall hrunning _ _ => exact h.refuse hcall hrunning

theorem inv_reachable (h : (system : System (State κ ι ρ) _).Reachable s) : Inv s := by
  refine h.invariant (fun s hinit => ?_) fun _ _ _ hinv hstep => inv_next hinv (next_of_step hstep)
  have hinit : s = State.initial := hinit
  rw [hinit]
  exact inv_initial

/-! ## Numbers -/

/-- **The numbers of a series are 1 to n.** -/
theorem numbered (h : (system : System (State κ ι ρ) _).Reachable s) (series : κ) :
    ∃ n, ∀ version, (s.table.committed (series, version)).isSome ↔ 1 ≤ version ∧ version ≤ n := by
  have hinv := inv_reachable h
  -- below a committed number there is no gap
  have hdown : ∀ version below, 1 ≤ below → (s.table.committed (series, below + version)).isSome →
      (s.table.committed (series, below)).isSome := by
    intro version
    induction version with
    | zero => exact fun below _ hsome => hsome
    | succ version ih =>
      intro below hbelow hsome
      exact ih below hbelow (hinv.predecessor series (below + version) (by omega) hsome)
  let versions :=
    (s.table.keys.filter fun key => key.1 = series && (s.table.committed key).isSome).map Prod.snd
  have hmem : ∀ version, version ∈ versions ↔ (s.table.committed (series, version)).isSome := by
    intro version
    rw [List.mem_map]
    constructor
    · rintro ⟨⟨other, number⟩, hkey, rfl⟩
      obtain ⟨-, hkey⟩ := List.mem_filter.mp hkey
      rw [Bool.and_eq_true, decide_eq_true_eq] at hkey
      rw [← hkey.1]
      exact hkey.2
    · intro hsome
      refine ⟨(series, version), List.mem_filter.mpr ⟨?_, ?_⟩, rfl⟩
      · by_contra hknown
        rw [Table.committed, s.table.known _ hknown] at hsome
        cases hsome
      · rw [Bool.and_eq_true, decide_eq_true_eq]
        exact ⟨rfl, hsome⟩
  cases hmax : versions.max? with
  | none =>
    rw [List.max?_eq_none_iff] at hmax
    refine ⟨0, fun version => ⟨fun hsome => ?_, fun hrange => by omega⟩⟩
    rw [← hmem, hmax] at hsome
    cases hsome
  | some n =>
    rw [List.max?_eq_some_iff] at hmax
    refine ⟨n, fun version =>
      ⟨fun hsome => ⟨hinv.positive series version hsome, hmax.2 version ((hmem version).mpr hsome)⟩,
      fun hrange => ?_⟩⟩
    obtain ⟨more, rfl⟩ := Nat.exists_eq_add_of_le hrange.2
    exact hdown more version hrange.1 ((hmem _).mp hmax.1)

/-! ## Requests that are refused -/

/-- Nothing that is committed is of the request. -/
def LeavesNothing (s : State κ ι ρ) (i : ℕ) : Prop :=
  (∀ key row, s.table.committed key = .some row → row.request ≠ i) ∧ ∀ entry ∈ s.records,
    entry.1 ≠ i

omit [DecidableEq κ] [DecidableEq ι] in
theorem Inv.leavesNothing (h : Inv s) {phase : Phase κ ρ}
    (hcall : s.calls i = .some (request, phase))
    (hphase : ∀ series version, phase ≠ .returned series version) : LeavesNothing s i := by
  constructor
  · rintro key row hrow rfl
    obtain ⟨other, hother⟩ := h.owner key row hrow
    rw [hcall] at hother
    cases hother
    exact hphase _ _ rfl
  · rintro entry hentry rfl
    obtain ⟨other, series, version, hother⟩ := h.record entry hentry
    rw [hcall] at hother
    cases hother
    exact hphase _ _ rfl

/-- The number the request is after is another's: it is to begin a series that there is, or has
read the latest number before the next one was committed. -/
def Lost (s : State κ ι ρ) (i : ℕ) (request : Request κ ι ρ) : Prop :=
  (∃ series, request.kind = .create series ∧ s.calls i = .some (request, .located series) ∧
    (s.table.committed (series, 1)).isSome) ∨
    ∃ series version batches, s.calls i = .some (request, .numbered series version batches) ∧
      (s.table.committed (series, version)).isSome

/-- How a request that has lost is refused, if nothing else goes wrong. -/
def Request.LosesBy (request : Request κ ι ρ) (refusal : Refusal) : Prop :=
  refusal = .conflict ∨ (refusal = .present ∧ ∃ series, request.kind = .create series)

omit [DecidableEq ι] in
theorem committed_next (h : Inv s) (hnext : Next s a t) {key : κ × ℕ}
    (hkey : (s.table.committed key).isSome) :
    (t.table.committed key).isSome := by
  cases hnext with
  | begin _ => exact hkey
  | locate _ _ => exact hkey
  | number _ _ _ => exact hkey
  | insert hcall htook hfree =>
    rw [goto_table, htook.committed_eq]
    exact hkey
  | write _ => exact hkey
  | commit hcall => exact h.commit_isSome hcall hkey
  | refuse _ _ _ _ =>
    rw [refuse_table, Table.rollback_committed]
    exact hkey

omit [DecidableEq ι] in
/-- A request that has lost goes on so until it is refused. -/
theorem lost_next (h : Inv s) (hlost : Lost s i request) (hnext : Next s a t)
    (hgoes : a ≠ .fail i) :
    Lost t i request ∨ ∃ refusal, t.calls i = .some (request, .refused refusal) ∧
      request.LosesBy refusal := by
  have hsame : t.calls i = s.calls i → Lost t i request := by
    intro hcalls
    rcases hlost with ⟨series, hkind, hcall, hsome⟩ | ⟨series, version, batches, hcall, hsome⟩
    · exact .inl ⟨series, hkind, hcalls.trans hcall, committed_next h hnext hsome⟩
    · exact .inr ⟨series, version, batches, hcalls.trans hcall, committed_next h hnext hsome⟩
  have hcalled : ∃ phase, s.calls i = .some (request, phase) ∧
      ((∃ series, phase = .located series) ∨ ∃ series version batches,
          phase = .numbered series version batches) := by
    rcases hlost with ⟨series, -, hcall, -⟩ | ⟨series, version, batches, hcall, -⟩
    · exact ⟨_, hcall, .inl ⟨series, rfl⟩⟩
    · exact ⟨_, hcall, .inr ⟨series, version, batches, rfl⟩⟩
  obtain ⟨phase, hcall, hphase⟩ := hcalled
  have hpresent : ∀ series other, phase = .located series → request.kind = .create other →
      (s.latestVersion i series).isSome := by
    rintro series other rfl hkind
    rcases hlost with ⟨first, -, hfirst, hsome⟩ | ⟨_, _, _, hfirst, -⟩
    · rw [hcall] at hfirst
      cases hfirst
      obtain ⟨hnone, -⟩ :=
        @latestVersion_eq _ _ _ _ s i series (h.view_eq hcall fun _ _ _ heq => by cases heq)
      rw [Option.isSome_iff_ne_none, ne_eq, hnone]
      intro hall
      rw [hall] at hsome
      cases hsome
    · rw [hcall] at hfirst
      cases hfirst
  have hkind : ∀ series, phase = .located series → ∃ other, request.kind = .create other := by
    rintro series rfl
    rcases hlost with ⟨first, hkind, -, -⟩ | ⟨_, _, _, hfirst, -⟩
    · exact ⟨first, hkind⟩
    · rw [hcall] at hfirst
      cases hfirst
  cases hnext with
  | @begin j other hnew =>
    by_cases hj : i = j
    · rw [← hj, hcall] at hnew
      cases hnew
    · exact .inl (hsame (goto_calls_ne hj))
  | @locate j other series hother _ =>
    by_cases hj : i = j
    · rw [← hj, hcall] at hother
      cases hother
      rcases hphase with ⟨_, hphase⟩ | ⟨_, _, _, hphase⟩
      · cases hphase
      · cases hphase
    · exact .inl (hsame (goto_calls_ne hj))
  | @number j other series version batches hother hversion hbatches =>
    by_cases hj : i = j
    · rw [← hj, hcall] at hother
      cases hother
      -- a series that there is has a latest number
      obtain ⟨first, hcreate⟩ := hkind series rfl
      have hsome := hpresent series first rfl hcreate
      rcases hversion with ⟨-, hnone⟩ | ⟨latest, -, -, hnot⟩
      · rw [← hj] at hnone
        rw [hnone] at hsome
        cases hsome
      · exact absurd hcreate (hnot first)
    · exact .inl (hsame (goto_calls_ne hj))
  | @insert j other series version batches table hother htook hfree =>
    by_cases hj : i = j
    · rw [← hj] at hother hfree
      rcases hlost with ⟨_, _, hfirst, _⟩ | ⟨series', version', batches', hfirst, hsome⟩
      · rw [hother] at hfirst
        cases hfirst
      · rw [hother] at hfirst
        cases hfirst
        rw [h.view_eq hother fun _ _ _ heq => by cases heq] at hfree
        rw [hfree] at hsome
        cases hsome
    · exact .inl (hsame (goto_calls_ne hj))
  | @write j other series version rows batches hother =>
    by_cases hj : i = j
    · rw [← hj, hcall] at hother
      cases hother
      rcases hphase with ⟨_, hphase⟩ | ⟨_, _, _, hphase⟩
      · cases hphase
      · cases hphase
    · exact .inl (hsame (goto_calls_ne hj))
  | @commit j other series version hother =>
    by_cases hj : i = j
    · rw [← hj, hcall] at hother
      cases hother
      rcases hphase with ⟨_, hphase⟩ | ⟨_, _, _, hphase⟩
      · cases hphase
      · cases hphase
    · exact .inl (hsame (goto_calls_ne hj))
  | @refuse _ j other phase' refusal hother hrunning hreason hexists =>
    by_cases hj : i = j
    · subst hj
      rw [hcall] at hother
      cases hother
      refine .inr ⟨refusal, refuse_calls_self, ?_⟩
      rcases hphase with ⟨series, rfl⟩ | ⟨series, version, batches, rfl⟩
      · obtain ⟨first, hcreate⟩ := hkind series rfl
        rcases hexists series first rfl hcreate (hpresent series first rfl hcreate) with rfl |
          ⟨-, hfail⟩
        · exact .inr ⟨rfl, first, hcreate⟩
        · exact absurd hfail hgoes
      · rcases hreason with ⟨-, hfail⟩ | hconflict
        · exact absurd hfail hgoes
        · exact .inl (hconflict series version batches rfl)
    · exact .inl (hsame (refuse_calls_ne hj))

omit [DecidableEq ι] in
/-- Only a request that is new or runs is moved by a step. -/
theorem calls_next (hnext : Next s a t) (i : ℕ) :
    t.calls i = s.calls i ∨ s.calls i = .none ∨ ∃ request phase, s.calls i = .some
      (request, phase) ∧ phase.running = true := by
  cases hnext with
  | @begin j _ hnew =>
    by_cases hj : i = j
    · rw [hj]
      exact .inr (.inl hnew)
    · exact .inl (goto_calls_ne hj)
  | @locate j _ _ hcall _ =>
    by_cases hj : i = j
    · rw [hj]
      exact .inr (.inr ⟨_, _, hcall, rfl⟩)
    · exact .inl (goto_calls_ne hj)
  | @number j _ _ _ _ hcall _ _ =>
    by_cases hj : i = j
    · rw [hj]
      exact .inr (.inr ⟨_, _, hcall, rfl⟩)
    · exact .inl (goto_calls_ne hj)
  | @insert j _ _ _ _ _ hcall _ _ =>
    by_cases hj : i = j
    · rw [hj]
      exact .inr (.inr ⟨_, _, hcall, rfl⟩)
    · exact .inl (goto_calls_ne hj)
  | @write j _ _ _ _ _ hcall =>
    by_cases hj : i = j
    · rw [hj]
      exact .inr (.inr ⟨_, _, hcall, rfl⟩)
    · exact .inl (goto_calls_ne hj)
  | @commit j _ _ _ hcall =>
    by_cases hj : i = j
    · rw [hj]
      exact .inr (.inr ⟨_, _, hcall, rfl⟩)
    · exact .inl (goto_calls_ne hj)
  | @refuse _ j _ _ _ hcall hrunning _ _ =>
    by_cases hj : i = j
    · rw [hj]
      exact .inr (.inr ⟨_, _, hcall, hrunning⟩)
    · exact .inl (refuse_calls_ne hj)

omit [DecidableEq ι] in
/-- A request that was refused stays so. -/
theorem refused_next {refusal : Refusal} (hcall : s.calls i = .some (request, .refused refusal))
    (hnext : Next s a t) :
    t.calls i = .some (request, .refused refusal) := by
  rcases calls_next hnext i with hsame | hnone | ⟨other, phase, hother, hrunning⟩
  · exact hsame.trans hcall
  · rw [hcall] at hnone
    cases hnone
  · rw [hcall] at hother
    cases hother
    cases hrunning

theorem leavesNothing (h : (system : System (State κ ι ρ) _).Reachable s) {phase : Phase κ ρ}
    (hcall : s.calls i = .some (request, phase))
    (hphase : ∀ series version, phase ≠ .returned series version) : LeavesNothing s i :=
  (inv_reachable h).leavesNothing hcall hphase

/-- **A request that has lost its number** has not ended or is refused, in every state that is
reached from there. -/
theorem lost_run (h : (system : System (State κ ι ρ) _).Reachable s) (hlost : Lost s i request)
    (hrun : (system : System (State κ ι ρ) _).Run (fun _ a => a ≠ .fail i) s t) :
    Lost t i request ∨ ∃ refusal, t.calls i = .some (request, .refused refusal) ∧
      request.LosesBy refusal := by
  suffices hboth : (system : System (State κ ι ρ) _).Reachable t ∧
      (Lost t i request ∨ ∃ refusal, t.calls i = .some (request, .refused refusal) ∧
        request.LosesBy refusal) from hboth.2
  refine hrun.invariant (I := fun t => (system : System (State κ ι ρ) _).Reachable t ∧
    (Lost t i request ∨ ∃ refusal, t.calls i = .some (request, .refused refusal) ∧
      request.LosesBy refusal)) ?_ ⟨h, .inl hlost⟩
  rintro u a v ⟨hreach, hu⟩ hgoes hstep
  refine ⟨hreach.step hstep, ?_⟩
  rcases hu with hu | ⟨refusal, hu, hrefusal⟩
  · exact lost_next (inv_reachable hreach) hu (next_of_step hstep) hgoes
  · exact .inr ⟨refusal, refused_next hu (next_of_step hstep), hrefusal⟩

/-- Two requests that begin one series, of which the first has returned. -/
def racing (a b : Request κ ι ρ) : List (Action κ ι ρ) :=
  [.begin 0 a, .begin 1 b, .locate 0, .locate 1, .latest 0, .latest 1, .insert 0, .write 0,
    .commit 0]

theorem racing_lost {a b : Request κ ι ρ} {series : κ} {rows : List ρ} {batches : List (Batch ρ)}
    (ha : a.kind = .create series) (hb : b.kind = .create series)
    (hrows : a.batches series 1 = .ok [.ok rows]) (hbatches : b.batches series 1 = .ok batches) :
    ∃ t, (system : System (State κ ι ρ) _).exec State.initial (racing a b) = .some t ∧
      Lost t 1 b := by
  simp [racing, System.exec, system, State.step, State.initial, State.goto, State.locate,
    State.latest, State.latestVersion, State.number, ha, hb, hrows, hbatches, Table.empty,
      Table.insert, Table.upsert, Table.view, Table.commit, Table.committed, Table.set, Row.idle,
    Row.view, Row.free, Row.write, Row.commit, Lost]

end Series

end Novalton
