/-
The steps of a workflow plan, and how `validate_graph` takes their prerequisites
(`modules/workflows/schemas.py`, `modules/workflows/service.py`).

The loop hands out the steps that wait for nothing in the order of their keys; what it makes of
a plan is what the graph of the plan says: the least topological order, if there is one.
-/
import Mathlib.Algebra.Order.Ring.Nat
import Mathlib.Data.List.Dedup
import Mathlib.Data.List.Sort
import Novalton.Dict
import Novalton.PolicyRules
import Novalton.TopologicalOrder
import Novalton.Workflow

namespace Novalton.WorkflowPlans

open Workflow
open Policy (RiskLevel)

local instance instLawfulText : LawfulBEq Text := inferInstance

/-- A `WorkflowStepCreate`, with its fields as they are validated. -/
structure WorkflowStepCreate where
  stepKey : Text
  title : Text
  stepType : WorkflowStepType
  assignedCapability : Option Text
  agentDefinitionId : Option Uuid
  riskLevel : Option RiskLevel
  dependsOn : List Text
deriving DecidableEq

def MAX_PLAN_STEPS : ℕ := 100

def MAX_PLAN_EDGES : ℕ := 500

/-- `graph_bounds`. -/
def graphBounds (steps : List WorkflowStepCreate) : Py Unit := do
  raiseIf (!decide (steps.map (·.stepKey)).Nodup) .valueError
  raiseIf (decide (MAX_PLAN_EDGES < (steps.map (·.dependsOn.length)).sum)) .valueError

structure ApplicationError where
  code : String
  message : String
  statusCode : ℕ
deriving DecidableEq, Repr

inductive GraphError where
  | application (error : ApplicationError)
  | keyError
deriving DecidableEq, Repr

/-- `_invalid_graph`. -/
def invalidGraph (message : String) : GraphError :=
  .application ⟨"invalid_workflow_graph", message, 422⟩

/-- `sorted` of texts. -/
def sorted (texts : List Text) : List Text := texts.insertionSort (· ≤ ·)

/-! ## `validate_graph` -/

/-- The prerequisites of each step, and the steps each is a prerequisite of. -/
structure Edges where
  incoming : Dict Text (List Text)
  outgoing : Dict Text (List Text)

/-- `outgoing[key]` of a `defaultdict(set)`. -/
def outgoingOf (outgoing : Dict Text (List Text)) (key : Text) : List Text :=
  (outgoing.get? key).getD []

/-- The entries of one step. -/
def Edges.record (edges : Edges) (step : WorkflowStepCreate) : Edges :=
  let dependencies := step.dependsOn.dedup
  { incoming := edges.incoming.set step.stepKey dependencies
    outgoing := dependencies.foldl
      (fun outgoing dependency =>
        outgoing.set dependency ((outgoingOf outgoing dependency).insert step.stepKey))
        edges.outgoing }

/-- One round of the loop over the steps. -/
def Edges.add (keys : List Text) (edges : Edges) (step : WorkflowStepCreate) :
    Except GraphError Edges :=
  if step.stepKey ∈ step.dependsOn then
    .error (invalidGraph "A workflow step cannot depend on itself")
  else if ¬step.dependsOn ⊆ keys then
    .error (invalidGraph "Workflow dependencies must reference steps in the same plan")
  else .ok (edges.record step)

/-- What the loop over `ready` works on. -/
structure Waiting where
  incoming : Dict Text (List Text)
  ready : List Text

/-- `key` is taken off what the dependent waits for, and the dependent is ready if that was the
last. -/
def Waiting.release (key : Text) (waiting : Waiting) (dependent : Text) :
    Except GraphError Waiting :=
  match waiting.incoming.get? dependent with
  | .none => .error .keyError
  | .some dependencies =>
    if key ∈ dependencies then
      .ok { incoming := waiting.incoming.set dependent (dependencies.erase key)
            ready := if (dependencies.erase key).isEmpty then sorted (waiting.ready ++ [dependent])
              else waiting.ready }
    else .error .keyError

/-- `while ready`, for a number of rounds; `none` if they are not enough. -/
def drain (outgoing : Dict Text (List Text)) : ℕ → Waiting → List Text →
    Except GraphError (Option (List Text))
  | _, ⟨_, []⟩, ordered => .ok (.some ordered)
  | 0, ⟨_, _ :: _⟩, _ => .ok .none
  | rounds + 1, ⟨incoming, key :: ready⟩, ordered => do
    let waiting ← (sorted (outgoingOf outgoing key)).foldlM (Waiting.release key) ⟨incoming, ready⟩
    drain outgoing rounds waiting (ordered ++ [key])

/-- The steps that wait for nothing, `sorted`. -/
def Edges.start (edges : Edges) : Waiting :=
  ⟨edges.incoming, sorted ((edges.incoming.filter fun entry => entry.2.isEmpty).map Prod.fst)⟩

/-- `validate_graph`. A loop of more rounds than there are steps gives `none`. -/
def validateGraph (steps : List WorkflowStepCreate) : Except GraphError (Option (List Text)) := do
  let keys := (steps.map (·.stepKey)).dedup
  let edges ← steps.foldlM (Edges.add keys) ⟨[], []⟩
  match ← drain edges.outgoing keys.length edges.start [] with
  | .none => return .none
  | .some ordered =>
    if ordered.length ≠ keys.length then
      .error (invalidGraph "Workflow dependencies must form an acyclic graph")
    else return .some ordered

/-! ## The graph of a plan -/

/-- The keys of a plan, each with its prerequisites. -/
def planGraph (steps : List WorkflowStepCreate) : NeedGraph Text where
  vertices := (steps.map (·.stepKey)).toFinset
  needs k p := ∃ step ∈ steps, step.stepKey = k ∧ p ∈ step.dependsOn
  source := by
    rintro k p ⟨step, hstep, rfl, -⟩
    exact List.mem_toFinset.mpr (List.mem_map_of_mem hstep)

theorem mem_vertices {steps : List WorkflowStepCreate} {k : Text} : k ∈ (planGraph steps).vertices ↔
    k ∈ steps.map (·.stepKey) :=
  List.mem_toFinset

/-- Every prerequisite is a listed step. -/
def References (steps : List WorkflowStepCreate) : Prop :=
  ∀ step ∈ steps, ∀ p ∈ step.dependsOn, p ∈ steps.map (·.stepKey)

theorem closed_iff (steps : List WorkflowStepCreate) : (planGraph steps).Closed ↔
    References steps := by
  constructor
  · intro h step hstep p hp
    exact mem_vertices.mp (h step.stepKey p ⟨step, hstep, rfl, hp⟩)
  · rintro h k p ⟨step, hstep, -, hp⟩
    exact mem_vertices.mpr (h step hstep p hp)

/-- No step is its own prerequisite. -/
def Irreflexive (steps : List WorkflowStepCreate) : Prop :=
  ∀ step ∈ steps, step.stepKey ∉ step.dependsOn

theorem irreflexive_of_acyclic {steps : List WorkflowStepCreate} (h : (planGraph steps).Acyclic) :
    Irreflexive steps :=
  fun step hstep hself => h step.stepKey (.single ⟨step, hstep, rfl, hself⟩)

/-! ## The dictionaries -/

theorem mem_insertAll (key : Text) (dependencies : List Text) (outgoing : Dict Text (List Text))
    (p k : Text) :
    k ∈ outgoingOf (dependencies.foldl
        (fun outgoing dependency =>
          outgoing.set dependency ((outgoingOf outgoing dependency).insert key)) outgoing) p ↔
      k ∈ outgoingOf outgoing p ∨ (k = key ∧ p ∈ dependencies) := by
  induction dependencies generalizing outgoing with
  | nil => simp
  | cons dependency dependencies ih =>
    rw [List.foldl_cons, ih]
    have hset : outgoingOf (outgoing.set dependency ((outgoingOf outgoing dependency).insert key))
      p =
        if p = dependency then (outgoingOf outgoing dependency).insert key
            else outgoingOf outgoing p := by
      rw [outgoingOf, set_get?]
      split
      · rfl
      · rfl
    rw [hset, List.mem_cons]
    by_cases hp : p = dependency
    · rw [if_pos hp, List.mem_insert_iff, hp]
      constructor
      · rintro ((rfl | hmem) | ⟨rfl, -⟩)
        · exact .inr ⟨rfl, .inl rfl⟩
        · exact .inl hmem
        · exact .inr ⟨rfl, .inl rfl⟩
      · rintro (hmem | ⟨rfl, -⟩)
        · exact .inl (.inr hmem)
        · exact .inl (.inl rfl)
    · rw [if_neg hp]
      simp [hp]

theorem insertAll_nodup (key : Text) (dependencies : List Text) {outgoing : Dict Text (List Text)}
    (h : ∀ p, (outgoingOf outgoing p).Nodup) :
    ∀ p, (outgoingOf (dependencies.foldl
      (fun outgoing dependency =>
        outgoing.set dependency ((outgoingOf outgoing dependency).insert key)) outgoing)
        p).Nodup := by
  induction dependencies generalizing outgoing with
  | nil => exact h
  | cons dependency dependencies ih =>
    refine ih fun p => ?_
    rw [outgoingOf, set_get?]
    split
    · exact (h dependency).insert
    · exact h p

/-- What the loop over the steps has recorded after those listed. -/
structure Recorded (steps : List WorkflowStepCreate) (edges : Edges) : Prop where
  keys : edges.incoming.keys.Nodup
  incoming : ∀ k dependencies, edges.incoming.get? k = .some dependencies ↔
    ∃ step ∈ steps, step.stepKey = k ∧ dependencies = step.dependsOn.dedup
  outgoing : ∀ p k, k ∈ outgoingOf edges.outgoing p ↔ (planGraph steps).needs k p
  distinct : ∀ p, (outgoingOf edges.outgoing p).Nodup

theorem Recorded.record {steps : List WorkflowStepCreate} {edges : Edges} (h : Recorded steps edges)
    {step : WorkflowStepCreate} (hfresh : step.stepKey ∉ steps.map (·.stepKey)) : Recorded
    (steps ++ [step]) (edges.record step) := by
  have happend : ∀ P : WorkflowStepCreate → Prop, (∃ other ∈ steps ++ [step], P other) ↔
      (∃ other ∈ steps, P other) ∨ P step := by
    intro P
    simp [or_and_right, exists_or]
  refine ⟨set_keys_nodup h.keys _ _, fun k dependencies => ?_, fun p k => ?_,
    insertAll_nodup _ _ h.distinct⟩
  · rw [Edges.record, set_get?, happend, ← h.incoming]
    by_cases hk : k = step.stepKey
    · have hnone : ¬edges.incoming.get? k = .some dependencies := by
        rw [h.incoming]
        rintro ⟨other, hother, hkey, -⟩
        exact hfresh (hk ▸ hkey ▸ List.mem_map_of_mem hother)
      rw [if_pos hk, Option.some.injEq]
      constructor
      · intro heq
        exact .inr ⟨hk.symm, heq.symm⟩
      · rintro (hold | ⟨-, heq⟩)
        · exact absurd hold hnone
        · exact heq.symm
    · rw [if_neg hk]
      constructor
      · exact .inl
      · rintro (hold | ⟨heq, -⟩)
        · exact hold
        · exact absurd heq.symm hk
  · rw [Edges.record, mem_insertAll, h.outgoing, List.mem_dedup]
    show _ ↔ ∃ other ∈ steps ++ [step], _
    rw [happend, eq_comm (a := k)]
    rfl

theorem recorded {steps : List WorkflowStepCreate} (hdistinct : (steps.map (·.stepKey)).Nodup) :
    Recorded steps (steps.foldl Edges.record ⟨[], []⟩) := by
  induction steps using List.reverseRecOn with
  | nil =>
    exact
      { keys := List.nodup_nil
        incoming := by simp [Dict.get?]
        outgoing := by simp [outgoingOf, Dict.get?, planGraph]
        distinct := fun p => List.nodup_nil }
  | append_singleton steps step ih =>
    rw [List.map_append, List.nodup_append] at hdistinct
    rw [List.foldl_append]
    refine (ih hdistinct.1).record fun hmem => ?_
    exact hdistinct.2.2 _ hmem _ (List.mem_singleton_self _) rfl

/-- The loop over the steps ends with all of them recorded, or refuses the plan for one. -/
theorem foldlM_add (keys : List Text) (steps : List WorkflowStepCreate) (edges : Edges) :
    (steps.foldlM (Edges.add keys) edges = .ok (steps.foldl Edges.record edges) ∧
        ∀ step ∈ steps, step.stepKey ∉ step.dependsOn ∧ step.dependsOn ⊆ keys) ∨
      ((∃ message, steps.foldlM (Edges.add keys) edges = .error (invalidGraph message)) ∧
        ∃ step ∈ steps, step.stepKey ∈ step.dependsOn ∨ ¬step.dependsOn ⊆ keys) := by
  induction steps generalizing edges with
  | nil => exact .inl ⟨rfl, by simp⟩
  | cons step steps ih =>
    rw [List.foldlM_cons, List.foldl_cons]
    by_cases hself : step.stepKey ∈ step.dependsOn
    · refine .inr ⟨⟨"A workflow step cannot depend on itself", ?_⟩, step, List.mem_cons_self,
        .inl hself⟩
      rw [Edges.add, if_pos hself]
      rfl
    · by_cases hkeys : step.dependsOn ⊆ keys
      · have hadd : Edges.add keys edges step = .ok (edges.record step) := by
          rw [Edges.add, if_neg hself, if_neg (not_not_intro hkeys)]
        have hbind : (Edges.add keys edges step >>= fun edges =>
          steps.foldlM (Edges.add keys) edges) =
            steps.foldlM (Edges.add keys) (edges.record step) := by
          rw [hadd]
          rfl
        rw [hbind]
        rcases ih (edges.record step) with ⟨hok, hall⟩ | ⟨hrefused, other, hother, hwhy⟩
        · exact .inl ⟨hok, List.forall_mem_cons.mpr ⟨⟨hself, hkeys⟩, hall⟩⟩
        · exact .inr ⟨hrefused, other, List.mem_cons_of_mem step hother, hwhy⟩
      · refine .inr ⟨⟨"Workflow dependencies must reference steps in the same plan", ?_⟩, step,
          List.mem_cons_self, .inr hkeys⟩
        rw [Edges.add, if_neg hself, if_pos hkeys]
        rfl

/-! ## The loop over `ready` -/

theorem sorted_pairwise (texts : List Text) : (sorted texts).Pairwise (· ≤ ·) :=
  List.pairwise_insertionSort _ texts

theorem sorted_perm (texts : List Text) : (sorted texts).Perm texts :=
  List.perm_insertionSort _ texts

theorem mem_sorted {texts : List Text} {text : Text} : text ∈ sorted texts ↔ text ∈ texts :=
  (sorted_perm texts).mem_iff

/-- What the loop over the dependents of a key leaves: the key waited for no longer, and those
that waited for nothing else ready too. -/
structure Released (key : Text) (dependents : List Text) (waiting released : Waiting) : Prop where
  incoming : ∀ k, released.incoming.get? k =
    if k ∈ dependents then (waiting.incoming.get? k).map (·.erase key) else waiting.incoming.get? k
  sorted : released.ready.Pairwise (· ≤ ·)
  ready : released.ready.Perm
    (waiting.ready ++ dependents.filter fun k => (waiting.incoming.get? k).any fun dependencies =>
      (dependencies.erase key).isEmpty)

theorem foldlM_release {key : Text} {dependents : List Text} {waiting : Waiting}
    (hdistinct : dependents.Nodup)
    (hwaits : ∀ k ∈ dependents, ∃ dependencies, waiting.incoming.get? k = .some dependencies ∧
    key ∈ dependencies)
    (hsorted : waiting.ready.Pairwise (· ≤ ·)) :
    ∃ released, dependents.foldlM (Waiting.release key) waiting = .ok released ∧
      Released key dependents waiting released := by
  induction dependents generalizing waiting with
  | nil => exact ⟨waiting, rfl, ⟨by simp, hsorted, by simp⟩⟩
  | cons first dependents ih =>
    obtain ⟨hfresh, hrest⟩ := List.nodup_cons.mp hdistinct
    obtain ⟨dependencies, hget, hkey⟩ := hwaits first List.mem_cons_self
    set next : Waiting := ⟨waiting.incoming.set first (dependencies.erase key),
      if (dependencies.erase key).isEmpty then WorkflowPlans.sorted (waiting.ready ++ [first])
        else waiting.ready⟩ with hnext
    have hrelease : waiting.release key first = .ok next := by
      rw [Waiting.release, hget]
      exact if_pos hkey
    have hsame : ∀ k ∈ dependents, next.incoming.get? k = waiting.incoming.get? k := by
      intro k hk
      have hne : k ≠ first := fun heq => hfresh (heq ▸ hk)
      rw [hnext, set_get?, if_neg hne]
    have hnextSorted : next.ready.Pairwise (· ≤ ·) := by
      rw [hnext]
      split
      · exact sorted_pairwise _
      · exact hsorted
    obtain ⟨released, hfold, h⟩ := @ih next hrest
      (fun k hk => by rw [hsame k hk]; exact hwaits k (List.mem_cons_of_mem first hk)) hnextSorted
    refine ⟨released, ?_, fun k => ?_, h.sorted, ?_⟩
    · rw [List.foldlM_cons, hrelease]
      exact hfold
    · rw [h.incoming k]
      by_cases hk : k = first
      · rw [hk, if_neg hfresh, if_pos List.mem_cons_self, hget, hnext, set_get?, if_pos rfl]
        rfl
      · have hget' : next.incoming.get? k = waiting.incoming.get? k := by
          rw [hnext, set_get?, if_neg hk]
        rw [hget']
        simp [hk]
    · refine h.ready.trans ?_
      have hfilter : dependents.filter (fun k => (next.incoming.get? k).any fun dependencies =>
        (dependencies.erase key).isEmpty) =
          dependents.filter fun k => (waiting.incoming.get? k).any fun dependencies =>
              (dependencies.erase key).isEmpty :=
        List.filter_congr fun k hk => by rw [hsame k hk]
      rw [hfilter, List.filter_cons, hget, Option.any_some, hnext]
      split
      · refine ((sorted_perm _).append_right _).trans ?_
        rw [List.append_assoc]
        exact List.Perm.refl _
      · exact List.Perm.refl _

/-- The loop after some keys: they were the least that were ready each time, each step waits
for those of its prerequisites that are left, and those that wait for none are ready. -/
structure Draining (g : NeedGraph Text) (done : List Text) (waiting : Waiting) : Prop where
  least : g.LeastFirst done
  incoming : ∀ k ∈ g.vertices, ∃ dependencies, waiting.incoming.get? k = .some dependencies ∧
    dependencies.Nodup ∧
    ∀ p, p ∈ dependencies ↔ g.needs k p ∧ p ∉ done
  sorted : waiting.ready.Pairwise (· ≤ ·)
  distinct : waiting.ready.Nodup
  ready : ∀ k, k ∈ waiting.ready ↔ g.Ready done k

/-- The dependents of each key. -/
structure Dependents (g : NeedGraph Text) (outgoing : Dict Text (List Text)) : Prop where
  mem : ∀ p k, k ∈ outgoingOf outgoing p ↔ g.needs k p
  distinct : ∀ p, (outgoingOf outgoing p).Nodup

section
variable {g : NeedGraph Text} {outgoing : Dict Text (List Text)}

theorem Draining.head {incoming : Dict Text (List Text)} {key : Text} {ready done : List Text}
    (h : Draining g done ⟨incoming, key :: ready⟩) : IsLeast {v | g.Ready done v} key := by
  refine ⟨(h.ready key).mp List.mem_cons_self, fun v hv => ?_⟩
  rcases List.mem_cons.mp ((h.ready v).mpr hv) with rfl | hmem
  · exact le_rfl
  · exact (List.pairwise_cons.mp h.sorted).1 v hmem

theorem Draining.step (hout : Dependents g outgoing) {incoming : Dict Text (List Text)} {key : Text}
    {ready done : List Text} (h : Draining g done ⟨incoming, key :: ready⟩) :
    ∃ waiting, (WorkflowPlans.sorted (outgoingOf outgoing key)).foldlM (Waiting.release key)
      ⟨incoming, ready⟩ = .ok waiting ∧
      Draining g (done ++ [key]) waiting := by
  have hkey := h.head
  obtain ⟨hfresh, hdistinct⟩ := List.nodup_cons.mp h.distinct
  have hdependents : ∀ k, k ∈ WorkflowPlans.sorted (outgoingOf outgoing key) ↔ g.needs k key := by
    intro k
    rw [mem_sorted, hout.mem]
  obtain ⟨waiting, hfold, hreleased⟩ :=
    @foldlM_release key (WorkflowPlans.sorted (outgoingOf outgoing key)) ⟨incoming, ready⟩
    ((sorted_perm _).nodup_iff.mpr (hout.distinct key))
    (fun k hk => by
      have hneeds := (hdependents k).mp hk
      obtain ⟨dependencies, hget, -, hmem⟩ := h.incoming k (g.source hneeds)
      exact ⟨dependencies, hget, (hmem key).mpr ⟨hneeds, hkey.1.fresh⟩⟩)
    (List.pairwise_cons.mp h.sorted).2
  refine ⟨waiting, hfold, h.least.concat hkey, fun k hk => ?_, hreleased.sorted, ?_, fun k => ?_⟩
  · obtain ⟨dependencies, hget, hnodup, hmem⟩ := h.incoming k hk
    rw [hreleased.incoming, hget]
    by_cases hneeds : g.needs k key
    · rw [if_pos ((hdependents k).mpr hneeds)]
      refine ⟨dependencies.erase key, rfl, hnodup.erase key, fun p => ?_⟩
      rw [hnodup.mem_erase_iff, hmem, List.mem_append, List.mem_singleton]
      constructor
      · rintro ⟨hne, hp, hleft⟩
        exact ⟨hp, fun hdone => hdone.elim hleft hne⟩
      · rintro ⟨hp, hleft⟩
        exact ⟨fun heq => hleft (.inr heq), hp, fun hdone => hleft (.inl hdone)⟩
    · rw [if_neg fun hmem => hneeds ((hdependents k).mp hmem)]
      refine ⟨dependencies, rfl, hnodup, fun p => ?_⟩
      rw [hmem, List.mem_append, List.mem_singleton]
      constructor
      · rintro ⟨hp, hleft⟩
        exact ⟨hp, fun hdone => hdone.elim hleft fun heq => hneeds (heq ▸ hp)⟩
      · rintro ⟨hp, hleft⟩
        exact ⟨hp, fun hdone => hleft (.inl hdone)⟩
  · refine hreleased.ready.nodup_iff.mpr ?_
    rw [List.nodup_append]
    refine ⟨hdistinct, ((sorted_perm _).nodup_iff.mpr (hout.distinct key)).filter _,
      fun a ha b hb heq => ?_⟩
    -- a step that was ready did not wait for the key
    have hready := (h.ready a).mp (List.mem_cons_of_mem key ha)
    have hneeds := (hdependents b).mp (List.mem_of_mem_filter hb)
    exact hkey.1.fresh (hready.met key (heq ▸ hneeds))
  · rw [hreleased.ready.mem_iff, List.mem_append, List.mem_filter, hdependents]
    constructor
    · rintro (hmem | ⟨hneeds, hempty⟩)
      · have hready := (h.ready k).mp (List.mem_cons_of_mem key hmem)
        refine ⟨hready.vertex, fun hdone => ?_,
          fun p hp => List.mem_append_left _ (hready.met p hp)⟩
        rcases List.mem_append.mp hdone with hdone | hdone
        · exact hready.fresh hdone
        · exact hfresh (List.mem_singleton.mp hdone ▸ hmem)
      · obtain ⟨dependencies, hget, hnodup, hmem⟩ := h.incoming k (g.source hneeds)
        rw [hget, Option.any_some, List.isEmpty_iff] at hempty
        have hwaits : key ∈ dependencies := (hmem key).mpr ⟨hneeds, hkey.1.fresh⟩
        refine ⟨g.source hneeds, fun hdone => ?_, fun p hp => ?_⟩
        · rcases List.mem_append.mp hdone with hdone | hdone
          · obtain ⟨before, after, hsplit⟩ := List.append_of_mem hdone
            have hmet := (h.least before k after hsplit).1.met key hneeds
            exact hkey.1.fresh (by rw [hsplit]; exact List.mem_append_left _ hmet)
          · rw [List.mem_singleton.mp hdone] at hneeds
            exact hkey.1.fresh (hkey.1.met key hneeds)
        · by_contra hleft
          rw [List.mem_append, not_or] at hleft
          have hp' : p ∈ dependencies.erase key :=
            hnodup.mem_erase_iff.mpr ⟨fun heq => hleft.2 (List.mem_singleton.mpr heq),
              (hmem p).mpr ⟨hp, hleft.1⟩⟩
          rw [hempty] at hp'
          cases hp'
    · intro hready
      by_cases hneeds : g.needs k key
      · obtain ⟨dependencies, hget, hnodup, hmem⟩ := h.incoming k hready.vertex
        refine .inr ⟨hneeds, ?_⟩
        rw [hget, Option.any_some, List.isEmpty_iff, List.eq_nil_iff_forall_not_mem]
        intro p hp
        obtain ⟨hne, hp⟩ := hnodup.mem_erase_iff.mp hp
        obtain ⟨hp, hleft⟩ := (hmem p).mp hp
        rcases List.mem_append.mp (hready.met p hp) with hdone | hdone
        · exact hleft hdone
        · exact hne (List.mem_singleton.mp hdone)
      · have hmem : k ∈ key :: ready := by
          refine (h.ready k).mpr ⟨hready.vertex, fun hdone =>
            hready.fresh (List.mem_append_left _ hdone), fun p hp => ?_⟩
          rcases List.mem_append.mp (hready.met p hp) with hdone | hdone
          · exact hdone
          · exact absurd (List.mem_singleton.mp hdone ▸ hp) hneeds
        rcases List.mem_cons.mp hmem with rfl | hmem
        · exact absurd (List.mem_append_right done (List.mem_singleton_self k)) hready.fresh
        · exact .inl hmem

/-- The loop ends, within a round for each key that is left, with nothing ready. -/
theorem Draining.run (hout : Dependents g outgoing) {rounds : ℕ} {done : List Text}
    {waiting : Waiting} (h : Draining g done waiting)
    (hrounds : g.vertices.card ≤ done.length + rounds) :
    ∃ ordered, drain outgoing rounds waiting done = .ok (.some ordered) ∧ g.LeastFirst ordered ∧
      g.Finished ordered := by
  induction rounds generalizing done waiting with
  | zero =>
    obtain ⟨incoming, ready⟩ := waiting
    cases ready with
    | nil => exact ⟨done, by rw [drain], h.least, fun k hk => List.not_mem_nil ((h.ready k).mpr hk)⟩
    | cons key ready =>
      have hlonger : (done ++ [key]).length ≤ g.vertices.card := (h.least.concat h.head).length_le
      rw [List.length_append, List.length_singleton] at hlonger
      omega
  | succ rounds ih =>
    obtain ⟨incoming, ready⟩ := waiting
    cases ready with
    | nil => exact ⟨done, by rw [drain], h.least, fun k hk => List.not_mem_nil ((h.ready k).mpr hk)⟩
    | cons key ready =>
      obtain ⟨waiting, hfold, hnext⟩ := h.step hout
      have hrounds' : g.vertices.card ≤ (done ++ [key]).length + rounds := by
        rw [List.length_append, List.length_singleton]
        omega
      obtain ⟨ordered, hdrain, hend⟩ := ih hnext hrounds'
      refine ⟨ordered, ?_, hend⟩
      rw [drain, hfold]
      exact hdrain

end

/-! ## What is accepted -/

section
variable {steps : List WorkflowStepCreate}

theorem Recorded.start (hdistinct : (steps.map (·.stepKey)).Nodup) {edges : Edges}
    (h : Recorded steps edges) :
    Draining (planGraph steps) [] edges.start := by
  have hwaits : ∀ k ∈ (planGraph steps).vertices, ∃ dependencies,
    edges.incoming.get? k = .some dependencies ∧ dependencies.Nodup ∧
      ∀ p, p ∈ dependencies ↔ (planGraph steps).needs k p := by
    intro k hk
    obtain ⟨step, hstep, rfl⟩ := List.mem_map.mp (mem_vertices.mp hk)
    refine ⟨step.dependsOn.dedup, (h.incoming _ _).mpr ⟨step, hstep, rfl, rfl⟩, List.nodup_dedup _,
      fun p => ?_⟩
    rw [List.mem_dedup]
    constructor
    · exact fun hp => ⟨step, hstep, rfl, hp⟩
    · rintro ⟨other, hother, hkey, hp⟩
      exact List.inj_on_of_nodup_map hdistinct hother hstep hkey ▸ hp
  refine ⟨.nil, fun k hk => ?_, sorted_pairwise _, ?_, fun k => ?_⟩
  · obtain ⟨dependencies, hget, hnodup, hmem⟩ := hwaits k hk
    exact ⟨dependencies, hget, hnodup, fun p => by simp [hmem p]⟩
  · exact (sorted_perm _).nodup_iff.mpr ((List.filter_sublist.map Prod.fst).nodup h.keys)
  · have hmem : k ∈ edges.start.ready ↔ edges.incoming.get? k = .some [] := by
      rw [Edges.start, mem_sorted, List.mem_map, Dict.get?_eq_some_iff h.keys]
      constructor
      · rintro ⟨⟨key, dependencies⟩, hentry, rfl⟩
        obtain ⟨hentry, hempty⟩ := List.mem_filter.mp hentry
        have hnil : dependencies = [] := List.isEmpty_iff.mp hempty
        rw [hnil] at hentry
        exact hentry
      · exact fun hentry => ⟨(k, []), List.mem_filter.mpr ⟨hentry, rfl⟩, rfl⟩
    rw [hmem]
    constructor
    · intro hget
      obtain ⟨step, hstep, hkey, -⟩ := (h.incoming k []).mp hget
      have hvertex : k ∈ (planGraph steps).vertices :=
        mem_vertices.mpr (hkey ▸ List.mem_map_of_mem hstep)
      obtain ⟨dependencies, hget', -, hneeds⟩ := hwaits k hvertex
      rw [hget, Option.some.injEq] at hget'
      refine ⟨hvertex, List.not_mem_nil, fun p hp => ?_⟩
      rw [hget']
      exact (hneeds p).mpr hp
    · intro hready
      obtain ⟨dependencies, hget, -, hneeds⟩ := hwaits k hready.vertex
      have hempty : dependencies = [] :=
        List.eq_nil_iff_forall_not_mem.mpr fun p hp =>
          List.not_mem_nil (hready.met p ((hneeds p).mp hp))
      rw [hget, hempty]

/-- The graph that is accepted: no prerequisite is missing, and none is needed for itself. -/
structure Acceptable (steps : List WorkflowStepCreate) : Prop where
  references : References steps
  irreflexive : Irreflexive steps
  acyclic : (planGraph steps).Acyclic

/-- The loop over the steps records them all, and that over `ready` ends in an order that is
checked for its length; or the first refuses the plan. -/
theorem validateGraph_cases (hdistinct : (steps.map (·.stepKey)).Nodup) :
    (∃ edges ordered, Recorded steps edges ∧
      (∀ step ∈ steps, step.stepKey ∉ step.dependsOn ∧ step.dependsOn ⊆ steps.map (·.stepKey)) ∧
        drain edges.outgoing steps.length edges.start [] = .ok (.some ordered) ∧
        (planGraph steps).LeastFirst ordered ∧ (planGraph steps).Finished ordered ∧
        validateGraph steps = if ordered.length ≠ steps.length then .error
          (invalidGraph "Workflow dependencies must form an acyclic graph")
          else .ok (.some ordered)) ∨
      ((∃ message, validateGraph steps = .error (invalidGraph message)) ∧
        ∃ step ∈ steps, step.stepKey ∈ step.dependsOn ∨ ¬step.dependsOn ⊆ steps.map
          (·.stepKey)) := by
  have hkeys : (steps.map (·.stepKey)).dedup = steps.map (·.stepKey) := List.Nodup.dedup hdistinct
  rw [validateGraph, hkeys, List.length_map]
  rcases foldlM_add (steps.map (·.stepKey)) steps ⟨[], []⟩ with ⟨hrecord, hall⟩ |
    ⟨⟨message, hrefused⟩, hwhy⟩
  · have hrecorded := recorded hdistinct
    have hcard : (planGraph steps).vertices.card = steps.length := by
      rw [planGraph, List.toFinset_card_of_nodup hdistinct, List.length_map]
    obtain ⟨ordered, hdrain, hleast, hfinished⟩ :=
      @Draining.run (planGraph steps) _ ⟨hrecorded.outgoing, hrecorded.distinct⟩
      steps.length [] _ (hrecorded.start hdistinct) (by rw [hcard]; exact Nat.le_add_left _ _)
    refine .inl ⟨_, ordered, hrecorded, hall, hdrain, hleast, hfinished, ?_⟩
    rw [hrecord]
    simp only [bind, Except.bind, hdrain]
    rfl
  · refine .inr ⟨⟨message, ?_⟩, hwhy⟩
    rw [hrefused]
    rfl

/-- An answer is the least topological order of an acceptable plan; others are refused. -/
theorem validateGraph_spec (hdistinct : (steps.map (·.stepKey)).Nodup) :
    (∃ order, validateGraph steps = .ok (.some order) ∧ Acceptable steps ∧
      (planGraph steps).Least order) ∨
      ((∃ message, validateGraph steps = .error (invalidGraph message)) ∧ ¬Acceptable steps) := by
  rcases validateGraph_cases hdistinct with ⟨edges, ordered, -, -, -, hleast, hfinished, heq⟩ |
    ⟨hrefused, step, hstep, hwhy⟩
  · have hiff := hleast.topological_iff hfinished
    have hlength := hleast.topological_iff_length
    rw [planGraph, List.toFinset_card_of_nodup hdistinct, List.length_map] at hlength
    by_cases hall : ordered.length = steps.length
    · have htop := hlength.mpr hall
      obtain ⟨hclosed, hacyclic⟩ := hiff.mp htop
      rw [if_neg (not_not_intro hall)] at heq
      refine .inl ⟨ordered, heq, ⟨(closed_iff steps).mp hclosed, ?_, hacyclic⟩, hleast.least htop⟩
      exact irreflexive_of_acyclic hacyclic
    · rw [if_pos hall] at heq
      refine .inr ⟨⟨_, heq⟩, fun h => ?_⟩
      exact hall (hlength.mp (hiff.mpr ⟨(closed_iff steps).mpr h.references, h.acyclic⟩))
  · refine .inr ⟨hrefused, fun h => ?_⟩
    rcases hwhy with hself | hmissing
    · exact h.irreflexive step hstep hself
    · exact hmissing (h.references step hstep)

/-! ## Other listings -/

/-- The same steps in another order, with their prerequisites in other orders. -/
def Relisted (steps other : List WorkflowStepCreate) : Prop :=
  ∃ listed, other.Perm listed ∧ List.Forall₂ (fun step again => again.stepKey = step.stepKey ∧
    again.dependsOn.Perm step.dependsOn) steps listed

theorem Relisted.keys {other : List WorkflowStepCreate} (h : Relisted steps other) :
    (other.map (·.stepKey)).Perm (steps.map (·.stepKey)) := by
  obtain ⟨listed, hperm, hlisted⟩ := h
  have hkeys : listed.map (·.stepKey) = steps.map (·.stepKey) := by
    clear hperm
    induction hlisted with
    | nil => rfl
    | cons hstep hlisted ih => rw [List.map_cons, List.map_cons, hstep.1, ih]
  exact hkeys ▸ hperm.map _

theorem Relisted.graph {other : List WorkflowStepCreate} (h : Relisted steps other) :
    planGraph other = planGraph steps := by
  have hkeys := h.keys
  obtain ⟨listed, hperm, hlisted⟩ := h
  have hneeds : ∀ k p, (∃ step ∈ listed, step.stepKey = k ∧ p ∈ step.dependsOn) ↔ ∃ step ∈ steps,
      step.stepKey = k ∧ p ∈ step.dependsOn := by
    intro k p
    clear hperm hkeys
    induction hlisted with
    | nil => exact Iff.rfl
    | cons hstep hlisted ih =>
      rw [List.exists_mem_cons_iff, List.exists_mem_cons_iff, ih, hstep.1, hstep.2.mem_iff]
  rw [planGraph, planGraph, NeedGraph.mk.injEq]
  refine ⟨List.toFinset_eq_of_perm _ _ hkeys, funext fun k => funext fun p => propext ?_⟩
  rw [← hneeds]
  simp only [hperm.mem_iff]

theorem acceptable_iff : Acceptable steps ↔ (planGraph steps).Closed ∧ (planGraph steps).Acyclic :=
  ⟨fun h => ⟨(closed_iff steps).mpr h.references, h.acyclic⟩,
    fun h => ⟨(closed_iff steps).mp h.1, irreflexive_of_acyclic h.2, h.2⟩⟩

theorem validateGraph_eq_iff (hdistinct : (steps.map (·.stepKey)).Nodup) (order : List Text) :
    validateGraph steps = .ok (.some order) ↔ Acceptable steps ∧ (planGraph steps).Least order := by
  rcases validateGraph_spec hdistinct with ⟨found, hfound, haccept, hleast⟩ |
    ⟨⟨message, hrefused⟩, hnot⟩
  · rw [hfound]
    constructor
    · intro heq
      cases heq
      exact ⟨haccept, hleast⟩
    · intro h
      rw [hleast.unique h.2]
  · rw [hrefused]
    constructor
    · intro heq
      cases heq
    · exact fun h => absurd h.1 hnot

theorem validateGraph_relisted (hdistinct : (steps.map (·.stepKey)).Nodup)
    {other : List WorkflowStepCreate} (hother : Relisted steps other) (order : List Text) :
    validateGraph other = .ok (.some order) ↔ validateGraph steps = .ok (.some order) := by
  rw [validateGraph_eq_iff hdistinct, validateGraph_eq_iff (hother.keys.nodup_iff.mpr hdistinct),
    acceptable_iff, acceptable_iff, hother.graph]

/-- **A plan is accepted** if and only if its prerequisites are steps of it, no step is its own,
and they have no cycle. The order returned is the least topological one, a refusal is an error of
the graph, and both are those of every other listing of the plan. -/
theorem validate_graph_exact (hdistinct : (steps.map (·.stepKey)).Nodup) :
    ((∃ order, validateGraph steps = .ok (.some order)) ↔ References steps ∧ Irreflexive steps ∧
      (planGraph steps).Acyclic) ∧
      (∀ order, validateGraph steps = .ok (.some order) → (planGraph steps).Topological order ∧
        ∀ other, (planGraph steps).Topological other → order ≤ other) ∧
      ((¬∃ order, validateGraph steps = .ok (.some order)) → ∃ message,
        validateGraph steps = .error (invalidGraph message)) ∧
      ∀ other, Relisted steps other → ∀ order, validateGraph other = .ok (.some order) ↔
        validateGraph steps = .ok (.some order) := by
  have hspec := validateGraph_spec hdistinct
  refine ⟨⟨?_, ?_⟩, ?_, ?_, ?_⟩
  · rintro ⟨order, horder⟩
    obtain ⟨h, -⟩ := (validateGraph_eq_iff hdistinct order).mp horder
    exact ⟨h.references, h.irreflexive, h.acyclic⟩
  · rintro ⟨href, hirr, hacyclic⟩
    rcases hspec with ⟨order, horder, -⟩ | ⟨-, hnot⟩
    · exact ⟨order, horder⟩
    · exact absurd ⟨href, hirr, hacyclic⟩ hnot
  · intro order horder
    obtain ⟨-, htop, hleast⟩ := (validateGraph_eq_iff hdistinct order).mp horder
    exact ⟨htop, fun other hother => hleast hother⟩
  · intro hnone
    rcases hspec with ⟨order, horder, -⟩ | ⟨hrefused, -⟩
    · exact absurd ⟨order, horder⟩ hnone
    · exact hrefused
  · exact fun other hother => validateGraph_relisted hdistinct hother

end

/-- A step of no more than a key and prerequisites. -/
def plainStep (stepKey : Text) (dependsOn : List Text) : WorkflowStepCreate where
  stepKey := stepKey
  title := ['t']
  stepType := .manualReview
  assignedCapability := .none
  agentDefinitionId := .none
  riskLevel := .none
  dependsOn := dependsOn

/-- Two steps that wait for a third. -/
def forkedPlan : List WorkflowStepCreate :=
  [plainStep ['b'] [['c']], plainStep ['c'] [], plainStep ['a'] [['c']]]

theorem forked_plan_exact :
    ((∃ order, validateGraph forkedPlan = .ok (.some order)) ↔
        References forkedPlan ∧ Irreflexive forkedPlan ∧ (planGraph forkedPlan).Acyclic) ∧
      (∀ order, validateGraph forkedPlan = .ok (.some order) →
        (planGraph forkedPlan).Topological order ∧
        ∀ other, (planGraph forkedPlan).Topological other → order ≤ other) ∧
      ((¬∃ order, validateGraph forkedPlan = .ok (.some order)) → ∃ message,
        validateGraph forkedPlan = .error (invalidGraph message)) ∧
      ∀ other, Relisted forkedPlan other → ∀ order, validateGraph other = .ok (.some order) ↔
        validateGraph forkedPlan = .ok (.some order) :=
  validate_graph_exact (by decide)

example : validateGraph forkedPlan = .ok (.some [['c'], ['a'], ['b']]) := by decide +kernel

end Novalton.WorkflowPlans
