/-
What overlapping refreshes leave of a provider's catalog.

A call keeps every row it has written or looked at until it ends, so at its commit its
own models are as it wrote them and the rows its update found are stale. What its update
cannot see are models that another call makes available after it has begun: a call that
commits over such a model leaves the models of both.
-/
import Mathlib.Data.List.Nodup
import Novalton.ModelCatalog

namespace Novalton.Catalog
open Table (Took)

/-! ## What a step does -/

/-- The refreshes that have committed since a call's update began. -/
def State.newer (s : State) (since : ℕ) : List Refresh :=
  s.successful.take (s.successful.length - since)

/-- How a call ends whose commit takes effect. -/
def Ends (a : Action) (i : ℕ) (phase : Phase) : Prop :=
  (a = .commit i ∧ ∃ response, phase = .returned response) ∨
    (a = .lose i ∧ phase = .raised .persistenceFailed)

theorem Ends.finished {a : Action} {i : ℕ} {phase : Phase} (h : Ends a i phase) :
    phase.finished = true := by
  rcases h with ⟨-, response, rfl⟩ | ⟨-, rfl⟩ <;> rfl

/-- What each action comes to. -/
inductive Next (s : State) : Action → State → Prop where
  | refresh {i : ℕ} {call : Refresh} (hnew : s.calls i = .none) :
      Next s (.refresh i call) (s.goto i call call.start)
  | upsert {i : ℕ} {call : Refresh} {model : CatalogModel} {rest : List CatalogModel}
      {table : Table Key ModelDefinition}
      (hcall : s.calls i = .some (call, .upserting (model :: rest)))
      (htook : s.table.Took table i (call.key model.providerModelId) (.some (call.values model))) :
      Next s (.upsert i) ({ s with table := table }.goto i call (.upserting rest))
  | mark {i : ℕ} {call : Refresh} (hcall : s.calls i = .some (call, .upserting [])) :
      Next s (.mark i) (s.goto i call
        (.marking (s.table.scan i call.missing) (s.table.scan i call.missing) s.successful.length
          0))
  | markRow {i : ℕ} {key : Key} {call : Refresh} {targets rest : List Key}
      {since staleCount staleCount' : ℕ}
      {table : Table Key ModelDefinition}
        (hcall : s.calls i = .some (call, .marking targets rest since staleCount))
      (hkey : key ∈ rest)
      (htook : s.table.Took table i key
        ((s.table.view i key).map fun row => if call.missing key row then Refresh.markStale row
          else row)) :
      Next s (.markRow i key) ({ s with table := table }.goto i call
        (.marking targets (rest.filter fun other => !(other == key)) since staleCount'))
  | commit {a : Action} {i : ℕ} {call : Refresh} {targets : List Key} {since staleCount : ℕ}
      {phase : Phase}
      (hcall : s.calls i = .some (call, .marking targets [] since staleCount))
        (hends : Ends a i phase) :
      Next s a
        ({ s with table := s.table.commit i, successful := call :: s.successful }.goto i call phase)
  | fail {i : ℕ} {call : Refresh} {phase : Phase} {error : RefreshError}
      (hcall : s.calls i = .some (call, phase))
      (hopen : phase.finished = false) :
      Next s (.fail i) ({ s with table := s.table.rollback i }.goto i call (.raised error))

variable {s s' : State} {a : Action} {i j : ℕ} {call : Refresh} {phase : Phase} {key : Key}

theorem next_of_step (h : s.step a = .some s') : Next s a s' := by
  cases a with
  | refresh i call =>
    simp only [State.step] at h
    split at h
    next hnew => cases h; exact .refresh hnew
    next => cases h
  | upsert i =>
    simp only [State.step, State.upsert] at h
    split at h
    next call model rest hcall =>
      rw [Option.map_eq_some_iff] at h
      obtain ⟨table, hupsert, rfl⟩ := h
      exact .upsert hcall (Table.upsert_took hupsert)
    next => cases h
  | mark i =>
    simp only [State.step, State.mark] at h
    split at h
    next call hcall => cases h; exact .mark hcall
    next => cases h
  | markRow i key =>
    simp only [State.step, State.markRow] at h
    split at h
    next call targets rest since staleCount hcall =>
      split at h
      next hkey =>
        rw [Option.map_eq_some_iff] at h
        obtain ⟨table, hrecheck, rfl⟩ := h
        exact .markRow hcall (List.contains_iff_mem.mp hkey) (Table.recheck_took hrecheck)
      next => cases h
    next => cases h
  | commit i =>
    simp only [State.step, State.commit] at h
    split at h
    next call targets since staleCount hcall =>
      cases h
      exact .commit hcall (.inl ⟨rfl, _, rfl⟩)
    next => cases h
  | lose i =>
    simp only [State.step, State.lose] at h
    split at h
    next call targets since staleCount hcall =>
      cases h
      exact .commit hcall (.inr ⟨rfl, rfl⟩)
    next => cases h
  | fail i =>
    simp only [State.step, State.fail] at h
    split at h
    next call phase hcall =>
      split at h
      next => cases h
      next hopen => cases h; exact .fail hcall (Bool.not_eq_true _ ▸ hopen)
    next => cases h

@[simp] theorem goto_table : (s.goto i call phase).table = s.table := rfl

@[simp] theorem goto_successful : (s.goto i call phase).successful = s.successful := rfl

@[simp] theorem goto_calls_self : (s.goto i call phase).calls i = .some (call, phase) :=
  Function.update_self ..

theorem goto_calls_ne (h : j ≠ i) : (s.goto i call phase).calls j = s.calls j :=
  Function.update_of_ne h ..

theorem identifiers_of_mem {model : CatalogModel} (h : model ∈ call.models) :
    model.providerModelId ∈ call.identifiers :=
  List.mem_map_of_mem h

/-! ## What a call holds -/

/-- The models still to upsert. -/
def Phase.rest : Phase → List CatalogModel
  | .upserting rest => rest
  | _ => []

/-- The rows the update found, and those it has still to get. -/
def Phase.targets : Phase → List Key
  | .marking targets _ _ _ => targets
  | _ => []

def Phase.unmarked : Phase → List Key
  | .marking _ rest _ _ => rest
  | _ => []

/-- A call that has not ended holds the rows of its upserts as it wrote them, and of the
rows its update found those it has got, none of them available. A model of its provider
that is available now is one of its own, one its update found, or one of a refresh that
has committed since. -/
structure Open (s : State) (i : ℕ) (call : Refresh) (phase : Phase) : Prop where
  started : call.identifiers.Nodup
  rest : phase.rest <:+ call.models
  upserted : ∀ model ∈ call.models, model ∉ phase.rest →
    s.table.Holds i (call.key model.providerModelId) ∧
      s.table.view i (call.key model.providerModelId) = .some (call.values model)
  found : ∀ key ∈ phase.targets, key.1 = call.providerId ∧ key.2 ∉ call.identifiers
  unmarked : ∀ key ∈ phase.unmarked, key ∈ phase.targets
  marked : ∀ key ∈ phase.targets, key ∉ phase.unmarked →
    s.table.Holds i key ∧ ∀ row, s.table.view i key = .some row → row.status ≠ .available
  seen : ∀ targets rest since staleCount, phase = .marking targets rest since staleCount →
    since ≤ s.successful.length ∧
      ∀ id row, s.table.committed (call.key id) = .some row → row.status = .available →
        id ∈ call.identifiers ∨ call.key id ∈ targets ∨
          ∃ r ∈ s.newer since, r.providerId = call.providerId ∧ id ∈ r.identifiers

/-- Rows are held by calls that have not ended, of their own provider. -/
def Owned (s : State) : Prop :=
  ∀ i key, s.table.Holds i key → ∃ call phase, s.calls i = .some (call, phase) ∧
    phase.finished = false ∧
    key.1 = call.providerId ∧ (key.2 ∈ call.identifiers ∨ key ∈ phase.targets)

/-- Every row anyone sees is available or stale. -/
def Current (s : State) : Prop :=
  ∀ key row, (s.table.committed key = .some row ∨ ∃ i, s.table.view i key = .some row) →
    row.status = .available ∨ row.status = .stale

structure Inv (s : State) : Prop where
  owned : Owned s
  calls : ∀ i call phase, s.calls i = .some (call, phase) → phase.finished = false →
    Open s i call phase
  current : Current s

/-- The key of a call's model is its own among the call's. -/
theorem key_ne {model other : CatalogModel} (hnodup : call.identifiers.Nodup)
    (hmodel : model ∈ call.models) (hother : other ∈ call.models) (hne : other ≠ model) :
    call.key other.providerModelId ≠ call.key model.providerModelId := by
  intro heq
  simp only [Refresh.key, Prod.mk.injEq, true_and] at heq
  exact hne (List.inj_on_of_nodup_map hnodup hother hmodel heq)

/-! ## What a step leaves of the other calls -/

/-- The rows a call holds are where they were. -/
def Kept (s s' : State) (j : ℕ) : Prop :=
  ∀ key, s.table.Holds j key → s'.table.row key = s.table.row key

theorem Kept.view (h : Kept s s' j) {row : Option ModelDefinition} (hholds : s.table.Holds j key)
    (hview : s.table.view j key = row) :
    s'.table.Holds j key ∧ s'.table.view j key = row := by
  have hrow := h key hholds
  exact ⟨hholds.congr hrow, (Table.view_congr hrow).trans hview⟩

/-- What is published since a call's update began is accounted for. -/
theorem Open.kept (h : Open s j call phase) (hkept : Kept s s' j)
    (hseen : ∀ targets rest since staleCount, phase = .marking targets rest since staleCount →
      since ≤ s'.successful.length ∧
      ∀ id row, s'.table.committed (call.key id) = .some row → row.status = .available →
        id ∈ call.identifiers ∨ call.key id ∈ targets ∨
          ∃ r ∈ s'.newer since, r.providerId = call.providerId ∧ id ∈ r.identifiers) :
          Open s' j call phase where
  started := h.started
  rest := h.rest
  upserted := by
    intro model hmodel hrest
    obtain ⟨hholds, hview⟩ := h.upserted model hmodel hrest
    exact hkept.view hholds hview
  found := h.found
  unmarked := h.unmarked
  marked := by
    intro key htarget hunmarked
    obtain ⟨hholds, hstatus⟩ := h.marked key htarget hunmarked
    obtain ⟨hholds', hview⟩ := hkept.view hholds rfl
    refine ⟨hholds', fun row hrow => hstatus row ?_⟩
    rw [← hview, hrow]
  seen := hseen

/-- Where nothing is published, nothing new is to be accounted for. -/
theorem Open.kept_unpublished (h : Open s j call phase) (hkept : Kept s s' j)
    (hcommitted : s'.table.committed = s.table.committed)
    (hsuccessful : s'.successful = s.successful) : Open s' j call phase := by
  refine h.kept hkept fun targets rest since staleCount hphase => ?_
  rw [State.newer, hcommitted, hsuccessful]
  exact h.seen targets rest since staleCount hphase

theorem newer_cons {since : ℕ} {table : Table Key ModelDefinition}
    {calls : ℕ → Option (Refresh × Phase)} (hsince : since ≤ s.successful.length) :
    State.newer ⟨table, calls, call :: s.successful⟩ since = call :: s.newer since := by
  rw [State.newer, State.newer, List.length_cons, Nat.succ_sub hsince, List.take_succ_cons]

/-- A model available after a commit is one of the committed call, or was available before. -/
theorem Open.committed {targets : List Key} {since staleCount : ℕ}
    (h : Open s i call (.marking targets [] since staleCount)) (howned : Owned s)
    (hcall : s.calls i = .some (call, .marking targets [] since staleCount)) {row : ModelDefinition}
    (hrow : (s.table.commit i).committed key = .some row) (havailable : row.status = .available) :
    key.1 = call.providerId ∧ key.2 ∈ call.identifiers ∨ s.table.committed key = .some row := by
  by_cases hholds : s.table.Holds i key
  · left
    obtain ⟨call', phase, hcall', -, hprovider, hkey⟩ := howned i key hholds
    rw [hcall] at hcall'
    cases hcall'
    refine ⟨hprovider, hkey.resolve_right fun htarget => ?_⟩
    rw [Table.commit_committed] at hrow
    exact (h.marked key htarget (List.not_mem_nil)).2 row hrow havailable
  · right
    rw [Table.commit_committed_of_unheld hholds] at hrow
    exact hrow

/-- A commit leaves the other calls open. -/
theorem Open.commit_ne {other : Refresh} {targets : List Key} {since staleCount : ℕ}
    {calls : ℕ → Option (Refresh × Phase)} (h : Open s j other phase) (hne : j ≠ i)
    (hopen : Open s i call (.marking targets [] since staleCount)) (howned : Owned s)
    (hcall : s.calls i = .some (call, .marking targets [] since staleCount)) :
    Open ⟨s.table.commit i, calls, call :: s.successful⟩ j other phase := by
  refine h.kept (fun key hholds => hholds.commit_row hne)
    fun targets' rest' since' staleCount' hphase => ?_
  obtain ⟨hsince, hseen⟩ := h.seen targets' rest' since' staleCount' hphase
  refine ⟨Nat.le_succ_of_le hsince, fun id row hrow havailable => ?_⟩
  rw [newer_cons hsince]
  rcases hopen.committed howned hcall hrow havailable with ⟨hprovider, hid⟩ | hbefore
  · exact .inr (.inr ⟨call, List.mem_cons_self, hprovider.symm, hid⟩)
  · rcases hseen id row hbefore havailable with hown | htarget | ⟨r, hr, hr'⟩
    · exact .inl hown
    · exact .inr (.inl htarget)
    · exact .inr (.inr ⟨r, List.mem_cons_of_mem _ hr, hr'⟩)

/-! ## What a step makes of its own call -/

theorem Open.start (hstart : call.start.finished = false) : Open
    (s.goto i call call.start) i call call.start := by
  unfold Refresh.start at hstart ⊢
  split at hstart
  next => cases hstart
  next hfound =>
    rw [if_neg hfound]
    split at hstart
    next models hmodels =>
      split at hstart
      next hnodup =>
        rw [if_pos hnodup]
        have heq : call.models = models := by rw [Refresh.models, hmodels]
        refine ⟨hnodup, ?_, ?_, ?_, ?_, ?_, ?_⟩
        · rw [heq]
          exact List.suffix_refl models
        · intro model hmodel hrest
          rw [heq] at hmodel
          exact absurd hmodel hrest
        · intro key hkey
          cases hkey
        · intro key hkey
          cases hkey
        · intro key hkey
          cases hkey
        · intro targets rest since staleCount hphase
          cases hphase
      next => cases hstart
    next => cases hstart

theorem Open.upsert {model : CatalogModel} {rest : List CatalogModel}
    {table : Table Key ModelDefinition} (h : Open s i call (.upserting (model :: rest)))
    (htook : s.table.Took table i (call.key model.providerModelId) (.some (call.values model))) :
    Open ({ s with table := table }.goto i call (.upserting rest)) i call (.upserting rest) := by
  have hmodel : model ∈ call.models := h.rest.subset List.mem_cons_self
  refine ⟨h.started, (List.suffix_cons model rest).trans h.rest, ?_, ?_, ?_, ?_, ?_⟩
  · intro other hother hrest
    by_cases heq : other = model
    · subst heq
      exact ⟨htook.holds, htook.view⟩
    · have hne := key_ne h.started hmodel hother heq
      have hbefore := h.upserted other hother (by
        intro hmem
        rcases List.mem_cons.mp hmem with rfl | hmem
        · exact heq rfl
        · exact hrest hmem)
      exact ⟨(htook.holds_iff hne).mpr hbefore.1, (htook.view_ne hne).trans hbefore.2⟩
  · intro key hkey
    cases hkey
  · intro key hkey
    cases hkey
  · intro key hkey
    cases hkey
  · intro targets rest' since staleCount hphase
    cases hphase

theorem Open.mark (h : Open s i call (.upserting [])) (howned : Owned s)
    (hcall : s.calls i = .some (call, .upserting [])) :
    Open (s.goto i call (.marking (s.table.scan i call.missing) (s.table.scan i call.missing)
      s.successful.length 0)) i call
      (.marking (s.table.scan i call.missing) (s.table.scan i call.missing) s.successful.length
        0) := by
  refine ⟨h.started, List.nil_suffix, ?_, ?_, fun _ hkey => hkey, ?_, ?_⟩
  · intro model hmodel _
    exact h.upserted model hmodel List.not_mem_nil
  · intro key hkey
    obtain ⟨row, -, hmissing⟩ := Table.mem_scan.mp hkey
    simp only [Refresh.missing, Bool.and_eq_true, beq_iff_eq, decide_eq_true_eq, Bool.not_eq_true',
      List.contains_eq_mem, decide_eq_false_iff_not] at hmissing
    exact ⟨hmissing.1.1, hmissing.2⟩
  · intro key hkey hunmarked
    exact absurd hkey hunmarked
  · intro targets rest since staleCount hphase
    cases hphase
    refine ⟨le_rfl, fun id row hrow havailable => ?_⟩
    by_cases hid : id ∈ call.identifiers
    · exact .inl hid
    · refine .inr (.inl (Table.mem_scan.mpr ⟨row, ?_, ?_⟩))
      · refine (Table.view_of_unheld ?_).trans hrow
        intro hholds
        obtain ⟨call', phase, hcall', -, -, hkey⟩ := howned i (call.key id) hholds
        rw [hcall] at hcall'
        cases hcall'
        rcases hkey with hkey | hkey
        · exact hid hkey
        · cases hkey
      · simp [Refresh.missing, Refresh.key, havailable, hid]

theorem Open.markRow {targets rest : List Key} {since staleCount staleCount' : ℕ}
    {table : Table Key ModelDefinition} (h : Open s i call (.marking targets rest since staleCount))
    (hkey : key ∈ rest) (htook : s.table.Took table i key
      ((s.table.view i key).map fun row => if call.missing key row then Refresh.markStale row
        else row)) :
    Open ({ s with table := table }.goto i call
      (.marking targets (rest.filter fun other => !(other == key)) since staleCount')) i
      call (.marking targets (rest.filter fun other => !(other == key)) since staleCount') := by
  obtain ⟨hprovider, hid⟩ := h.found key (h.unmarked key hkey)
  refine ⟨h.started, List.nil_suffix, ?_, h.found, ?_, ?_, ?_⟩
  · intro model hmodel _
    have hne : call.key model.providerModelId ≠ key := by
      rintro rfl
      exact hid (identifiers_of_mem hmodel)
    have hbefore := h.upserted model hmodel List.not_mem_nil
    exact ⟨(htook.holds_iff hne).mpr hbefore.1, (htook.view_ne hne).trans hbefore.2⟩
  · intro other hother
    exact h.unmarked other (List.mem_filter.mp hother).1
  · intro other htarget hunmarked
    by_cases heq : other = key
    · subst heq
      refine ⟨htook.holds, fun row hrow => ?_⟩
      have hview := htook.view
      rw [show table.view i other = .some row from hrow] at hview
      obtain ⟨before, -, hbefore⟩ := Option.map_eq_some_iff.mp hview.symm
      split at hbefore
      next =>
        subst hbefore
        simp [Refresh.markStale]
      next hmissing =>
        subst hbefore
        intro havailable
        exact hmissing (by simp [Refresh.missing, hprovider, havailable, hid])
    · obtain ⟨hholds, hstatus⟩ := h.marked other htarget fun hrest =>
        hunmarked (List.mem_filter.mpr ⟨hrest, by simpa using heq⟩)
      refine ⟨(htook.holds_iff heq).mpr hholds, fun row hrow => hstatus row ?_⟩
      rw [← htook.view_ne heq]
      exact hrow
  · intro targets' rest' since' staleCount'' hphase
    cases hphase
    obtain ⟨hsince, hseen⟩ := h.seen targets rest since staleCount rfl
    refine ⟨hsince, fun id row hrow havailable => hseen id row ?_ havailable⟩
    rw [← htook.committed_eq]
    exact hrow

/-! ## Every step -/

/-- A call other than the one that steps is where it was. -/
theorem calls_of_goto {other : Refresh} {otherPhase : Phase} {table : Table Key ModelDefinition}
    {successful : List Refresh}
    (h : (State.goto ⟨table, s.calls, successful⟩ i call phase).calls j =
    .some (other, otherPhase)) :
    j = i ∧ other = call ∧ otherPhase = phase ∨ j ≠ i ∧ s.calls j = .some (other, otherPhase) := by
  by_cases hne : j = i
  · subst hne
    rw [goto_calls_self] at h
    cases h
    exact .inl ⟨rfl, rfl, rfl⟩
  · rw [goto_calls_ne hne] at h
    exact .inr ⟨hne, h⟩

theorem Owned.goto_ne {table : Table Key ModelDefinition} {successful : List Refresh}
    (howned : Owned s) (hne : j ≠ i) (hholds : s.table.Holds j key) : ∃ other otherPhase,
      (State.goto ⟨table, s.calls, successful⟩ i call phase).calls j = .some (other, otherPhase) ∧
      otherPhase.finished = false ∧
        key.1 = other.providerId ∧ (key.2 ∈ other.identifiers ∨ key ∈ otherPhase.targets) := by
  obtain ⟨other, otherPhase, hcall, hrest⟩ := howned j key hholds
  exact ⟨other, otherPhase, by rw [goto_calls_ne hne]; exact hcall, hrest⟩

/-- A call that takes a row of its own goes on owning its rows. -/
theorem Owned.took {phase' : Phase} {table : Table Key ModelDefinition}
    {value : Option ModelDefinition} {at' : Key} (howned : Owned s)
    (hcall : s.calls i = .some (call, phase)) (hopen : phase'.finished = false)
    (htook : s.table.Took table i at' value) (hprovider : at'.1 = call.providerId)
    (hat : at'.2 ∈ call.identifiers ∨ at' ∈ phase'.targets)
    (htargets : ∀ key ∈ phase.targets, key ∈ phase'.targets) : Owned
    ({ s with table := table }.goto i call phase') := by
  intro j key hholds
  by_cases hne : j = i
  · subst hne
    refine ⟨call, phase', goto_calls_self, hopen, ?_⟩
    by_cases heq : key = at'
    · subst heq
      exact ⟨hprovider, hat⟩
    · obtain ⟨call', phase'', hcall', -, hkey, hmem⟩ :=
        howned j key ((htook.holds_iff heq).mp hholds)
      rw [hcall] at hcall'
      cases hcall'
      exact ⟨hkey, hmem.imp id fun h => htargets key h⟩
  · exact howned.goto_ne hne (htook.holds_of_ne hholds hne)

theorem Next.owned (h : Next s a s') (hs : Inv s) : Owned s' := by
  have howned := hs.owned
  cases h with
  | refresh hnew =>
    intro j key hholds
    refine howned.goto_ne ?_ hholds
    rintro rfl
    obtain ⟨call, phase, hcall, -⟩ := howned j key hholds
    rw [hnew] at hcall
    cases hcall
  | upsert hcall htook =>
    have hmodel := (hs.calls _ _ _ hcall rfl).rest.subset List.mem_cons_self
    exact howned.took hcall rfl htook rfl (.inl (identifiers_of_mem hmodel)) fun key hkey => by
      cases hkey
  | @mark i call hcall =>
    intro j key hholds
    by_cases hne : j = i
    · subst hne
      obtain ⟨call', phase, hcall', -, hprovider, hkey⟩ := howned j key hholds
      rw [hcall] at hcall'
      cases hcall'
      refine ⟨call, _, goto_calls_self, rfl, hprovider,
        .inl (hkey.resolve_right fun h => by cases h)⟩
    · exact howned.goto_ne hne hholds
  | markRow hcall hkey htook =>
    have hopen := hs.calls _ _ _ hcall rfl
    have htarget := hopen.unmarked _ hkey
    exact howned.took hcall rfl htook (hopen.found _ htarget).1 (.inr htarget) fun key hkey => hkey
  | @commit _ i call targets since staleCount phase hcall hends =>
    intro j key hholds
    have hne : j ≠ i := by
      rintro rfl
      exact Table.commit_unheld hholds
    exact howned.goto_ne hne (Table.Holds.of_commit hholds)
  | @fail i call phase error hcall hopen =>
    intro j key hholds
    have hne : j ≠ i := by
      rintro rfl
      exact Table.rollback_unheld hholds
    exact howned.goto_ne hne (Table.Holds.of_rollback hholds)

theorem Next.calls (h : Next s a s') (hs : Inv s) : ∀ j other otherPhase, s'.calls j = .some
    (other, otherPhase) →
    otherPhase.finished = false → Open s' j other otherPhase := by
  intro j other otherPhase hother hopen
  cases h with
  | refresh hnew =>
    rcases calls_of_goto hother with ⟨rfl, rfl, rfl⟩ | ⟨hne, hbefore⟩
    · exact .start hopen
    · exact (hs.calls j other otherPhase hbefore hopen).kept_unpublished (fun _ _ => rfl) rfl rfl
  | upsert hcall htook =>
    rcases calls_of_goto hother with ⟨rfl, rfl, rfl⟩ | ⟨hne, hbefore⟩
    · exact (hs.calls _ _ _ hcall rfl).upsert htook
    · exact (hs.calls j other otherPhase hbefore hopen).kept_unpublished (fun _ hholds =>
        htook.row_of_holds hholds hne)
        htook.committed_eq rfl
  | mark hcall =>
    rcases calls_of_goto hother with ⟨rfl, rfl, rfl⟩ | ⟨hne, hbefore⟩
    · exact (hs.calls _ _ _ hcall rfl).mark hs.owned hcall
    · exact (hs.calls j other otherPhase hbefore hopen).kept_unpublished (fun _ _ => rfl) rfl rfl
  | markRow hcall hkey htook =>
    rcases calls_of_goto hother with ⟨rfl, rfl, rfl⟩ | ⟨hne, hbefore⟩
    · exact (hs.calls _ _ _ hcall rfl).markRow hkey htook
    · exact (hs.calls j other otherPhase hbefore hopen).kept_unpublished (fun _ hholds =>
        htook.row_of_holds hholds hne)
        htook.committed_eq rfl
  | commit hcall hends =>
    rcases calls_of_goto hother with ⟨rfl, rfl, rfl⟩ | ⟨hne, hbefore⟩
    · rw [hends.finished] at hopen
      cases hopen
    · exact (hs.calls j other otherPhase hbefore hopen).commit_ne hne (hs.calls _ _ _ hcall rfl)
        hs.owned hcall
  | fail hcall hphase =>
    rcases calls_of_goto hother with ⟨rfl, rfl, rfl⟩ | ⟨hne, hbefore⟩
    · cases hopen
    · refine (hs.calls j other otherPhase hbefore hopen).kept_unpublished (fun _ hholds =>
        hholds.rollback_row hne) ?_ rfl
      funext key
      exact Table.rollback_committed

/-- A call that takes a row writes what is current. -/
theorem Current.took {phase' : Phase} {table : Table Key ModelDefinition}
    {value : Option ModelDefinition} {at' : Key} (hcurrent : Current s)
    (htook : s.table.Took table i at' value)
    (hvalue : ∀ row, value = .some row → row.status = .available ∨ row.status = .stale) :
    Current ({ s with table := table }.goto i call phase') := by
  rintro key row (hrow | ⟨j, hrow⟩)
  · refine hcurrent key row (.inl ?_)
    rw [← htook.committed_eq]
    exact hrow
  · by_cases heq : key = at'
    · subst heq
      by_cases hne : j = i
      · subst hne
        exact hvalue row (htook.view.symm.trans hrow)
      · refine hcurrent key row (.inl ?_)
        rw [← htook.committed_eq]
        exact (Table.view_of_other htook.holds hne).symm.trans hrow
    · exact hcurrent key row (.inr ⟨j, (htook.view_ne heq).symm.trans hrow⟩)

theorem Next.current (h : Next s a s') (hs : Inv s) : Current s' := by
  have hcurrent := hs.current
  cases h with
  | refresh hnew => exact hcurrent
  | mark hcall => exact hcurrent
  | upsert hcall htook =>
    refine hcurrent.took htook fun row hrow => ?_
    cases hrow
    exact .inl rfl
  | @markRow i key call targets rest since staleCount staleCount' table hcall hkey htook =>
    refine hcurrent.took htook fun row hrow => ?_
    obtain ⟨before, hbefore, hrow⟩ := Option.map_eq_some_iff.mp hrow
    split at hrow
    next =>
      subst hrow
      exact .inr rfl
    next =>
      subst hrow
      exact hcurrent key before (.inr ⟨i, hbefore⟩)
  | @commit _ i call targets since staleCount phase hcall hends =>
    rintro key row (hrow | ⟨j, hrow⟩)
    · exact hcurrent key row (.inr ⟨i, Table.commit_committed.symm.trans hrow⟩)
    · rcases Table.commit_view with hview | hview
      · exact hcurrent key row (.inr ⟨j, hview.symm.trans hrow⟩)
      · exact hcurrent key row (.inr ⟨i, hview.symm.trans hrow⟩)
  | @fail i call phase error hcall hopen =>
    rintro key row (hrow | ⟨j, hrow⟩)
    · exact hcurrent key row (.inl (Table.rollback_committed.symm.trans hrow))
    · rcases Table.rollback_view with hview | hview
      · exact hcurrent key row (.inr ⟨j, hview.symm.trans hrow⟩)
      · exact hcurrent key row (.inl (hview.symm.trans hrow))

theorem inv (h : system.Reachable s) : Inv s := by
  refine h.invariant ?_ fun s a t hs hstep => ?_
  · rintro s rfl
    refine ⟨?_, ?_, ?_⟩
    · intro i key hholds
      exact absurd hholds Table.empty_holds
    · intro i call phase hcall
      cases hcall
    · rintro key row (hrow | ⟨i, hrow⟩) <;> cases hrow
  · have hnext := next_of_step hstep
    exact ⟨hnext.owned hs, hnext.calls hs, hnext.current hs⟩

/-! ## The catalog of a provider -/

/-- The last refresh of the provider that has committed. -/
def State.last (s : State) (providerId : Text) : Option Refresh :=
  s.successful.find? fun r => r.providerId == providerId

/-- The provider's models are those of the refresh, as it wrote them, and all others are stale. -/
structure Holds (s : State) (r : Refresh) : Prop where
  models : ∀ model ∈ r.models, s.table.committed (r.key model.providerModelId) =
    .some (r.values model)
  others : ∀ id row, id ∉ r.identifiers → s.table.committed (r.key id) = .some row →
    row.status = .stale

/-- The provider's catalog is the snapshot of its last refresh, and empty before the first. -/
def State.Snapshot (s : State) (providerId : Text) : Prop :=
  match s.last providerId with
  | .some r => Holds s r
  | .none => ∀ id, s.table.committed (providerId, id) = .none

/-- A commit over models that another refresh of the provider has made available since the
call's update began: each is one of the call's own, or one that update found. No call that
has committed goes without the answer. -/
def Covered (s : State) : Action → Prop
  | .commit i => ∀ call targets since staleCount, s.calls i = .some
    (call, .marking targets [] since staleCount) →
      ∀ r ∈ s.newer since, r.providerId = call.providerId → ∀ id ∈ r.identifiers,
        id ∈ call.identifiers ∨ call.key id ∈ targets
  | .lose _ => False
  | _ => True

/-- What a call that commits holds is its snapshot. -/
theorem Open.holds {targets : List Key} {since staleCount : ℕ}
    {calls : ℕ → Option (Refresh × Phase)}
    (h : Open s i call (.marking targets [] since staleCount)) (hs : Inv s)
    (hcall : s.calls i = .some (call, .marking targets [] since staleCount))
    (hcovered : ∀ r ∈ s.newer since, r.providerId = call.providerId → ∀ id ∈ r.identifiers,
      id ∈ call.identifiers ∨ call.key id ∈ targets) :
    Holds ⟨s.table.commit i, calls, call :: s.successful⟩ call := by
  refine ⟨?_, ?_⟩
  · intro model hmodel
    rw [Table.commit_committed]
    exact (h.upserted model hmodel List.not_mem_nil).2
  · intro id row hid hrow
    have hview : s.table.view i (call.key id) = .some row := by
      rw [← Table.commit_committed]
      exact hrow
    refine (hs.current _ row (.inr ⟨i, hview⟩)).resolve_left fun havailable => ?_
    have htarget : call.key id ∉ targets :=
      fun hmem => (h.marked _ hmem List.not_mem_nil).2 row hview havailable
    rcases h.committed hs.owned hcall hrow havailable with ⟨-, hmem⟩ | hbefore
    · exact hid hmem
    · rcases (h.seen targets [] since staleCount rfl).2 id row hbefore havailable with hown | hmem |
        ⟨r, hr, hprovider, hmem⟩
      · exact hid hown
      · exact htarget hmem
      · exact (hcovered r hr hprovider id hmem).elim hid htarget

/-- The rows of another provider are not the call's. -/
theorem commit_committed_other {providerId : Text} {id : Text} (howned : Owned s)
    (hcall : s.calls i = .some (call, phase)) (hne : call.providerId ≠ providerId) :
    (s.table.commit i).committed (providerId, id) = s.table.committed (providerId, id) := by
  refine Table.commit_committed_of_unheld fun hholds => ?_
  obtain ⟨call', phase', hcall', -, hprovider, -⟩ := howned i _ hholds
  rw [hcall] at hcall'
  cases hcall'
  exact hne hprovider.symm

/-- What is published is published by a commit, which ends the call, on rows of its provider. -/
theorem Next.published (h : Next s a s') (howned : Owned s)
    (hne : s'.table.committed key ≠ s.table.committed key) :
    ∃ i call phase, Ends a i phase ∧ s'.calls i = .some (call, phase) ∧
      key.1 = call.providerId := by
  cases h with
  | refresh hnew => exact absurd rfl hne
  | mark hcall => exact absurd rfl hne
  | upsert hcall htook => exact absurd (congrFun htook.committed_eq key) hne
  | markRow hcall hkey htook => exact absurd (congrFun htook.committed_eq key) hne
  | fail hcall hopen => exact absurd Table.rollback_committed hne
  | @commit _ i call targets since staleCount phase hcall hends =>
    refine ⟨i, call, phase, hends, goto_calls_self, ?_⟩
    by_contra hprovider
    exact hne (commit_committed_other howned hcall fun heq => hprovider heq.symm)

/-- Where nothing is published the snapshots stay. -/
theorem snapshot_of_eq {providerId : Text} (h : s.Snapshot providerId)
    (hcommitted : s'.table.committed = s.table.committed)
    (hsuccessful : s'.successful = s.successful) : s'.Snapshot providerId := by
  unfold State.Snapshot State.last at h ⊢
  rw [hsuccessful]
  split at h
  next r hlast =>
    refine ⟨?_, ?_⟩
    · rw [hcommitted]
      exact h.models
    · rw [hcommitted]
      exact h.others
  next hlast =>
    rw [hcommitted]
    exact h

theorem last_providerId {providerId : Text} {r : Refresh} (h : s.last providerId = .some r) :
    r.providerId = providerId := by
  have hfound := List.find?_some h
  simpa using hfound

theorem Next.snapshot {providerId : Text} (h : Next s a s') (hs : Inv s) (hcovered : Covered s a)
    (hsnapshot : s.Snapshot providerId) :
    s'.Snapshot providerId := by
  cases h with
  | refresh hnew => exact snapshot_of_eq hsnapshot rfl rfl
  | mark hcall => exact snapshot_of_eq hsnapshot rfl rfl
  | upsert hcall htook => exact snapshot_of_eq hsnapshot htook.committed_eq rfl
  | markRow hcall hkey htook => exact snapshot_of_eq hsnapshot htook.committed_eq rfl
  | fail hcall hopen =>
    exact snapshot_of_eq hsnapshot (funext fun key => Table.rollback_committed) rfl
  | @commit _ i call targets since staleCount phase hcall hends =>
    have hcovers : ∀ r ∈ s.newer since, r.providerId = call.providerId → ∀ id ∈ r.identifiers,
        id ∈ call.identifiers ∨ call.key id ∈ targets := by
      rcases hends with ⟨rfl, -⟩ | ⟨rfl, -⟩
      · exact hcovered call targets since staleCount hcall
      · exact hcovered.elim
    unfold State.Snapshot State.last
    by_cases heq : call.providerId = providerId
    · have hlast : (call :: s.successful).find? (fun r => r.providerId == providerId) =
          .some call :=
        List.find?_cons_of_pos (by simpa using heq)
      rw [goto_successful, hlast]
      exact (hs.calls _ _ _ hcall rfl).holds hs hcall hcovers
    · have hlast : (call :: s.successful).find? (fun r => r.providerId == providerId) =
          s.last providerId :=
        List.find?_cons_of_neg (by simpa using heq)
      have hrow : ∀ id, (s.table.commit i).committed (providerId, id) =
          s.table.committed (providerId, id) :=
        fun id => commit_committed_other hs.owned hcall heq
      rw [goto_successful, hlast]
      unfold State.Snapshot at hsnapshot
      cases hbefore : s.last providerId with
      | none =>
        rw [hbefore] at hsnapshot
        intro id
        exact (hrow id).trans (hsnapshot id)
      | some r =>
        rw [hbefore] at hsnapshot
        have hprovider := last_providerId hbefore
        refine ⟨?_, ?_⟩
        · intro model hmodel
          refine Eq.trans ?_ (hsnapshot.models model hmodel)
          rw [Refresh.key, hprovider]
          exact hrow _
        · intro id row hid hpublished
          refine hsnapshot.others id row hid (Eq.trans ?_ hpublished)
          rw [Refresh.key, hprovider]
          exact (hrow _).symm

/-- **Where every commit covers what it overlaps, the catalog of a provider is at any time the
snapshot of its last successful refresh.** In every such run, as in all others, only a call
that commits changes the catalog, and only the rows of its provider: it returns, unless the
answer to its commit is lost. -/
theorem refreshes_leave_snapshot (h : system.ReachableUnder Covered s) :
    (∀ providerId, s.Snapshot providerId) ∧
      ∀ a t, s.step a = .some t → ∀ key, t.table.committed key ≠ s.table.committed key →
        ∃ i call, key.1 = call.providerId ∧
          ((a = .commit i ∧ ∃ response, t.calls i = .some (call, .returned response)) ∨
            (a = .lose i ∧ t.calls i = .some (call, .raised .persistenceFailed))) := by
  refine ⟨fun providerId => ?_, fun a t hstep key hne => ?_⟩
  · refine h.invariant_with (I := fun s => s.Snapshot providerId) (fun s hs =>
      inv hs.reachable) ?_ ?_
    · rintro s rfl
      exact fun id => rfl
    · intro s a t hs hsnapshot hcovered hstep
      exact (next_of_step hstep).snapshot hs hcovered hsnapshot
  · obtain ⟨i, call, phase, hends, hcall, hprovider⟩ :=
      (next_of_step hstep).published (inv h.reachable).owned hne
    refine ⟨i, call, hprovider, ?_⟩
    rcases hends with ⟨rfl, response, rfl⟩ | ⟨rfl, rfl⟩
    · exact .inl ⟨rfl, response, hcall⟩
    · exact .inr ⟨rfl, hcall⟩

/-! ## Two refreshes of one provider -/

def exampleModel (id : Text) : CatalogModel where
  providerModelId := id
  executionTargetClass := .remote
  displayName := id
  contextWindow := .none
  maxOutputTokens := .none
  reasoning := .none
  coding := .none
  toolCalling := .none
  structuredOutput := .none
  contractEnforcementGrade := .none
  enforcementMetadataSource := .none
  vision := .none
  inputPricePerMillion := .none
  outputPricePerMillion := .none
  currency := .none
  family := .none
  revision := .none

def exampleRefresh (ids : List Text) : Refresh :=
  ⟨['p'], true, .models (ids.map exampleModel), 0, []⟩

/-- One refresh returns `a`, a later one `b`. -/
def inTurn : List Action :=
  [.refresh 0 (exampleRefresh [['a']]), .upsert 0, .mark 0, .commit 0,
    .refresh 1 (exampleRefresh [['b']]), .upsert 1, .mark 1, .markRow 1 (['p'], ['a']), .commit 1]

/-- The same two at once. -/
def overlapping : List Action :=
  [.refresh 0 (exampleRefresh [['a']]), .refresh 1 (exampleRefresh [['b']]), .upsert 0, .upsert 1,
    .mark 0, .mark 1, .commit 0, .commit 1]

/-- The status of a model of the provider. -/
def State.status (s : State) (id : Text) : Option ModelStatus :=
  (s.table.committed (['p'], id)).map ModelDefinition.status

theorem inTurn_covered : system.Guarded Covered initial inTurn := by
  refine ⟨trivial, trivial, trivial, ?_, trivial, trivial, trivial, trivial, ?_, trivial⟩
  · intro call targets since staleCount hcall r hr
    have hphase : Option.some (exampleRefresh [['a']], Phase.marking [] [] 0 0) =
      .some (call, .marking targets [] since staleCount) := hcall
    cases hphase
    have hnone : r ∈ ([] : List Refresh) := hr
    cases hnone
  · intro call targets since staleCount hcall r hr
    have hphase : Option.some (exampleRefresh [['b']], Phase.marking [(['p'], ['a'])] [] 1 1) =
        .some (call, .marking targets [] since staleCount) := hcall
    cases hphase
    have hnone : r ∈ ([] : List Refresh) := hr
    cases hnone

theorem refreshes_leave_snapshot_inTurn : ∃ s, system.exec initial inTurn = .some s ∧ s.status
    ['a'] = .some .stale ∧
    s.status ['b'] = .some .available ∧ s.Snapshot ['p'] := by
  have hsnapshot : ∀ s, system.exec initial inTurn = .some s → s.Snapshot ['p'] := by
    intro s hs
    exact (refreshes_leave_snapshot ⟨initial, rfl, inTurn_covered.run hs⟩).1 ['p']
  exact ⟨_, rfl, rfl, rfl, hsnapshot _ rfl⟩

/-- **Overlapping refreshes may leave the models of both available**, which neither returned. -/
theorem refreshes_leave_both : ∃ s, system.exec initial overlapping = .some s ∧
    (∀ i call phase, s.calls i = .some (call, phase) → phase.finished = true) ∧
      s.status ['a'] = .some .available ∧ s.status ['b'] = .some .available ∧
      ¬ ∃ r ∈ s.successful, ∀ id, s.status id = .some .available ↔ id ∈ r.identifiers := by
  refine ⟨_, rfl, ?_, rfl, rfl, ?_⟩
  · intro i call phase hcall
    rcases i with _ | _ | i
    · have hphase : Option.some (exampleRefresh [['a']], Phase.returned ⟨['p'], 1, 0, 0⟩) =
        .some (call, phase) := hcall
      cases hphase
      rfl
    · have hphase : Option.some (exampleRefresh [['b']], Phase.returned ⟨['p'], 1, 0, 0⟩) =
        .some (call, phase) := hcall
      cases hphase
      rfl
    · have hphase : Option.none = Option.some (call, phase) := hcall
      cases hphase
  · rintro ⟨r, hr, hiff⟩
    have hmem : r ∈ [exampleRefresh [['b']], exampleRefresh [['a']]] := hr
    rcases List.mem_pair.mp hmem with rfl | rfl
    · have ha := (hiff ['a']).mp rfl
      revert ha
      decide
    · have hb := (hiff ['b']).mp rfl
      revert hb
      decide

end Novalton.Catalog
