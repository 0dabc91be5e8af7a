/-
A bound written into a schema: what it changes of what the schema admits.

An object of the schema is reached from the root edge by edge. Where no other edge leads
into an object of that way, a bound written at its end speaks of the places of the way and
of nothing else.
-/
import Novalton.ContractExecution

namespace Novalton.ContractExecution

variable {schema : Schema} {node : ℕ} {kind : ShapeKind} {payload : JsonTree}

/-! ## Bounds -/

/-- What a kind writes on an object without bounds. -/
def ShapeKind.bounds (kind : ShapeKind) : Bounds := Bounds.write {} kind

section Slots

variable {α : Type} {holds : Option α → JsonTree → Bool} {slot later : Option α} {value : JsonTree}

/-- A slot that a later write makes no weaker at a value. -/
def Yields (holds : Option α → JsonTree → Bool) (slot later : Option α) (value : JsonTree) : Prop :=
  later.isSome = true → holds later value = true → holds slot value = true

theorem Yields.of_holds (h : holds slot value = true) : Yields holds slot later value :=
  fun _ _ => h

theorem Yields.or_eq (hnone : holds .none value = true) (h : Yields holds slot later value) :
    holds (later.or slot) value = (holds slot value && holds later value) := by
  cases later with
  | none => simp [hnone]
  | some bound =>
    rw [Option.some_or]
    cases hlater : holds (.some bound) value with
    | false => simp
    | true => rw [h rfl hlater]; rfl

theorem Yields.or {earlier : Option α} (h : Yields holds slot later value)
    (hearlier : Yields holds earlier later value) :
    Yields holds (earlier.or slot) later value := by
  cases earlier with
  | none => exact h
  | some bound => exact hearlier

end Slots

@[simp] theorem minHolds_none {value : JsonTree} : minHolds .none value = true := by
  cases value <;> rfl

@[simp] theorem maxHolds_none {value : JsonTree} : maxHolds .none value = true := by
  cases value <;> rfl

@[simp] theorem enumHolds_none {value : JsonTree} : enumHolds .none value = true := rfl

theorem Bounds.write_eq (bounds : Bounds) (kind : ShapeKind) : bounds.write kind =
    ⟨kind.bounds.minItems.or bounds.minItems, kind.bounds.maxItems.or bounds.maxItems,
      kind.bounds.enum.or bounds.enum⟩ := by
  cases kind <;> rfl

/-- A write of the kind makes none of the bounds weaker at the value. -/
structure Bounds.YieldsTo (bounds : Bounds) (kind : ShapeKind) (value : JsonTree) : Prop where
  minItems : Yields minHolds bounds.minItems kind.bounds.minItems value
  maxItems : Yields maxHolds bounds.maxItems kind.bounds.maxItems value
  enum : Yields enumHolds bounds.enum kind.bounds.enum value

theorem Bounds.YieldsTo.of_hold {bounds : Bounds} {value : JsonTree}
    (h : bounds.hold value = true) :
    bounds.YieldsTo kind value := by
  simp only [Bounds.hold, Bool.and_eq_true] at h
  obtain ⟨⟨hmin, hmax⟩, henum⟩ := h
  exact ⟨.of_holds hmin, .of_holds hmax, .of_holds henum⟩

theorem Bounds.YieldsTo.write_hold {bounds : Bounds} {value : JsonTree}
    (h : bounds.YieldsTo kind value) :
    (bounds.write kind).hold value = (bounds.hold value && kind.bounds.hold value) := by
  have hmin := h.minItems.or_eq minHolds_none
  have hmax := h.maxItems.or_eq maxHolds_none
  have henum := h.enum.or_eq enumHolds_none
  rw [Bounds.write_eq, Bounds.hold, hmin, hmax, henum, Bounds.hold, Bounds.hold]
  simp only [Bool.and_assoc, Bool.and_left_comm, Bool.and_comm]

/-- A constraint relaxes no bound an earlier one writes. -/
structure Tightens (earlier later : ShapeKind) : Prop where
  minItems : ∀ a ∈ earlier.bounds.minItems, ∀ b ∈ later.bounds.minItems, a ≤ b
  maxItems : ∀ a ∈ earlier.bounds.maxItems, ∀ b ∈ later.bounds.maxItems, b ≤ a
  enum : ∀ a ∈ earlier.bounds.enum, ∀ b ∈ later.bounds.enum, ∀ allowed ∈ b, allowed ∈ a

theorem Tightens.yields {earlier later : ShapeKind} (h : Tightens earlier later)
    (value : JsonTree) :
    earlier.bounds.YieldsTo later value := by
  refine ⟨?_, ?_, ?_⟩
  · intro hsome hlater
    obtain ⟨b, hb⟩ := Option.isSome_iff_exists.mp hsome
    cases ha : earlier.bounds.minItems with
    | none => exact minHolds_none
    | some a =>
      have hle := h.minItems a ha b hb
      rw [hb] at hlater
      cases value with
      | array items =>
        have hlen : b ≤ items.length := by simpa [minHolds] using hlater
        simpa [minHolds] using hle.trans hlen
      | _ => rfl
  · intro hsome hlater
    obtain ⟨b, hb⟩ := Option.isSome_iff_exists.mp hsome
    cases ha : earlier.bounds.maxItems with
    | none => exact maxHolds_none
    | some a =>
      have hle := h.maxItems a ha b hb
      rw [hb] at hlater
      cases value with
      | array items =>
        have hlen : items.length ≤ b := by simpa [maxHolds] using hlater
        simpa [maxHolds] using hlen.trans hle
      | _ => rfl
  · intro hsome hlater
    obtain ⟨b, hb⟩ := Option.isSome_iff_exists.mp hsome
    cases ha : earlier.bounds.enum with
    | none => rfl
    | some a =>
      have hsub := h.enum a ha b hb
      rw [hb] at hlater
      simp only [enumHolds, Option.all_some, Option.any_eq_true, List.contains_eq_mem,
        decide_eq_true_eq] at hlater ⊢
      obtain ⟨scalar, hscalar, hmem⟩ := hlater
      exact ⟨scalar, hscalar, hsub scalar hmem⟩

/-- Bounds that yield to a later constraint still do after an earlier one it tightens. -/
theorem Bounds.YieldsTo.write {bounds : Bounds} {earlier later : ShapeKind} {value : JsonTree}
    (h : bounds.YieldsTo later value) (htightens : Tightens earlier later) :
    (bounds.write earlier).YieldsTo later value := by
  have hearlier := htightens.yields value
  rw [Bounds.write_eq]
  exact ⟨h.minItems.or hearlier.minItems, h.maxItems.or hearlier.maxItems, h.enum.or hearlier.enum⟩

/-- The kinds that restrict the items of a list. -/
def ShapeKind.countsItems : ShapeKind → Bool
  | .allowedValues _ | .semantic _ => false
  | _ => true

/-- The kinds the compiler can write: all but the local validators. -/
def ShapeKind.representable : ShapeKind → Bool
  | .semantic _ => false
  | _ => true

def isList : JsonTree → Bool
  | .array _ => true
  | _ => false

/-- On a list, and for allowed values on every value, the bounds of a constraint are its
local check. -/
theorem bounds_hold_iff {value : JsonTree} (hkind : kind.representable = true)
    (hlist : kind.countsItems = true → isList value = true) :
    kind.bounds.hold value = constraintValueIsValid kind value := by
  cases kind with
  | semantic validator => cases hkind
  | allowedValues allowed =>
    cases value with
    | string text => simp [ShapeKind.bounds, Bounds.write, Bounds.hold, minHolds, maxHolds,
        enumHolds, scalar?, constraintValueIsValid]
    | _ => simp [ShapeKind.bounds, Bounds.write, Bounds.hold, minHolds, maxHolds, enumHolds,
        scalar?, constraintValueIsValid]
  | exactItems count =>
    cases value with
    | array items =>
      simp only [ShapeKind.bounds, Bounds.write, Bounds.hold, minHolds, maxHolds, enumHolds_none,
        constraintValueIsValid, Option.all_some, Bool.and_true]
      rw [Bool.eq_iff_iff]
      simp only [Bool.and_eq_true, decide_eq_true_eq, beq_iff_eq]
      omega
    | _ => cases hlist rfl
  | minItems count | maxItems count | empty =>
    cases value with
    | array items =>
      simp [ShapeKind.bounds, Bounds.write, Bounds.hold, minHolds, maxHolds, constraintValueIsValid]
    | _ => cases hlist rfl

/-! ## Edges -/

/-- How an object of a schema leads to another. -/
inductive Edge where
  | reference
  | property (key : Text)
  | items
  | subschema
deriving DecidableEq, Repr

def Schema.Leads (schema : Schema) (node : ℕ) : Edge → ℕ → Prop
  | .reference, child => schema.target node = .some child
  | .property key, child => (key, child) ∈ (schema.node node).properties
  | .items, child => (schema.node node).items = .some child
  | .subschema, child => child ∈ (schema.node node).subschemas

/-- The values of a value that the object an edge leads to is checked on. Where those of
the other subschemas are is not followed. -/
def Edge.places : Edge → JsonTree → List JsonTree
  | .reference, value => [value]
  | .property key, value => (member key value).toList
  | .items, value => elements value
  | .subschema, _ => []

/-- One step of the validity. -/
theorem admits_iff {valid : ℕ → JsonTree → Bool} {value : JsonTree} :
    schema.admits valid node value = true ↔
    (schema.node node).bounds.hold value = true ∧
      ((schema.node node).reference.isSome = true → (schema.target node).isSome = true) ∧
      (∀ edge child, schema.Leads node edge child → ∀ place ∈ edge.places value,
        valid child place = true) ∧
      (schema.node node).check ((schema.node node).subschemas.map valid) value = true := by
  simp only [Schema.admits, Bool.and_eq_true, Bool.or_eq_true, Option.isNone_iff_eq_none,
    Option.any_eq_true, List.all_eq_true, Option.all_eq_true]
  constructor
  · rintro ⟨⟨⟨⟨hbounds, hreference⟩, hproperties⟩, hitems⟩, hcheck⟩
    refine ⟨hbounds, ?_, ?_, hcheck⟩
    · intro hsome
      rcases hreference with hnone | ⟨child, hchild, -⟩
      · rw [hnone] at hsome
        cases hsome
      · rw [hchild]
        rfl
    · intro edge child hleads place hplace
      cases edge with
      | reference =>
        obtain rfl := List.mem_singleton.mp hplace
        rcases hreference with hnone | ⟨target, htarget, hvalid⟩
        · rw [Schema.Leads, Schema.target, hnone] at hleads
          cases hleads
        · have hleads' : schema.target node = .some child := hleads
          rw [hleads'] at htarget
          cases htarget
          exact hvalid
      | property key => exact hproperties _ hleads place (Option.mem_toList.mp hplace)
      | items => exact hitems child hleads place hplace
      | subschema => cases hplace
  · rintro ⟨hbounds, hknown, hedges, hcheck⟩
    refine ⟨⟨⟨⟨hbounds, ?_⟩, ?_⟩, ?_⟩, hcheck⟩
    · cases hreference : (schema.node node).reference with
      | none => exact .inl rfl
      | some reference =>
        obtain ⟨child, hchild⟩ := Option.isSome_iff_exists.mp (hknown (by rw [hreference]; rfl))
        exact .inr ⟨child, hchild,
          hedges .reference child hchild value (List.mem_singleton_self value)⟩
    · intro property hproperty place hplace
      exact hedges (.property property.1) property.2 hproperty place (Option.mem_toList.mpr hplace)
    · intro child hchild place hplace
      exact hedges .items child hchild place hplace

/-- The objects of the schema that its root leads to. -/
inductive Schema.Reachable (schema : Schema) : ℕ → Prop
  | root : Schema.Reachable schema 0
  | edge {node child : ℕ} {edge : Edge} (before : Schema.Reachable schema node)
      (leads : schema.Leads node edge child) :
      Schema.Reachable schema child

/-! ## Writes -/

section Writes

variable {other : ℕ}

@[simp] theorem write_reference :
    ((schema.write node kind).node other).reference = (schema.node other).reference := by
  by_cases h : other = node
  · subst h; simp [Schema.write]
  · simp [Schema.write, h]

@[simp] theorem write_properties :
    ((schema.write node kind).node other).properties = (schema.node other).properties := by
  by_cases h : other = node
  · subst h; simp [Schema.write]
  · simp [Schema.write, h]

@[simp] theorem write_items :
    ((schema.write node kind).node other).items = (schema.node other).items := by
  by_cases h : other = node
  · subst h; simp [Schema.write]
  · simp [Schema.write, h]

@[simp] theorem write_subschemas :
    ((schema.write node kind).node other).subschemas = (schema.node other).subschemas := by
  by_cases h : other = node
  · subst h; simp [Schema.write]
  · simp [Schema.write, h]

@[simp] theorem write_check :
    ((schema.write node kind).node other).check = (schema.node other).check := by
  by_cases h : other = node
  · subst h; simp [Schema.write]
  · simp [Schema.write, h]

@[simp] theorem write_bounds_self :
    ((schema.write node kind).node node).bounds = (schema.node node).bounds.write kind := by
  simp [Schema.write]

theorem write_bounds_ne (h : other ≠ node) :
    ((schema.write node kind).node other).bounds = (schema.node other).bounds := by
  simp [Schema.write, h]

@[simp] theorem write_target : (schema.write node kind).target other = schema.target other := by
  simp only [Schema.target, write_reference]
  rfl

@[simp] theorem write_leads {edge : Edge} {child : ℕ} :
    (schema.write node kind).Leads other edge child ↔ schema.Leads other edge child := by
  cases edge <;> simp [Schema.Leads]

@[simp] theorem write_resolve : (schema.write node kind).resolve other = schema.resolve other := by
  simp [Schema.resolve]

@[simp] theorem write_child {token : Token} :
    (schema.write node kind).child token other = schema.child token other := by
  cases token <;> simp [Schema.child]

theorem write_reachable : (schema.write node kind).Reachable other ↔ schema.Reachable other := by
  constructor
  · intro h
    induction h with
    | root => exact .root
    | edge _ leads ih => exact .edge ih (write_leads.mp leads)
  · intro h
    induction h with
    | root => exact .root
    | edge _ leads ih => exact .edge ih (write_leads.mpr leads)

end Writes

/-! ## Ways -/

/-- An edge with the objects it joins. -/
structure Step where
  source : ℕ
  edge : Edge
  child : ℕ
deriving DecidableEq, Repr

/-- The steps lead from one object to another, through no other keyword's subschemas. -/
inductive Schema.Way (schema : Schema) : ℕ → List Step → ℕ → Prop
  | here {node : ℕ} : Schema.Way schema node [] node
  | step {node child last : ℕ} {edge : Edge} {rest : List Step}
      (leads : schema.Leads node edge child) (followed : edge ≠ .subschema)
      (after : Schema.Way schema child rest last) :
        Schema.Way schema node (⟨node, edge, child⟩ :: rest) last

/-- The values the end of the way is checked on. -/
def placesAlong : List Step → JsonTree → List JsonTree
  | [], value => [value]
  | step :: rest, value => (step.edge.places value).flatMap (placesAlong rest)

/-- The objects of a way from the root. -/
def onWay (steps : List Step) : List ℕ := 0 :: steps.map Step.child

/-- Into the objects of the way, only the way leads. -/
structure Schema.Unshared (schema : Schema) (steps : List Step) : Prop where
  once : (onWay steps).Nodup
  only : ∀ {source edge child}, schema.Reachable source → schema.Leads source edge child →
    child ∈ onWay steps →
    ⟨source, edge, child⟩ ∈ steps

theorem Schema.Way.append {first second last : ℕ} {before after : List Step}
    (h : schema.Way first before second) (hafter : schema.Way second after last) : schema.Way first
    (before ++ after) last := by
  induction h with
  | here => exact hafter
  | step leads followed _ ih => exact .step leads followed (ih hafter)

theorem placesAlong_append {before after : List Step} {value : JsonTree} :
    placesAlong (before ++ after) value = (placesAlong before value).flatMap
      (placesAlong after) := by
  induction before generalizing value with
  | nil => simp [placesAlong]
  | cons step rest ih =>
    rw [List.cons_append, placesAlong, placesAlong, List.flatMap_assoc]
    congr 1
    funext place
    exact ih

/-- The sources of a way and its end are the objects of the way. -/
theorem Schema.Way.sources {first last : ℕ} {steps : List Step} (h : schema.Way first steps last) :
    first :: steps.map Step.child = steps.map Step.source ++ [last] := by
  induction h with
  | here => rfl
  | step _ _ _ ih => simp only [List.map_cons, List.cons_append, ih]

theorem Schema.Way.followed {first last : ℕ} {steps : List Step} (h : schema.Way first steps last) :
    ∀ step ∈ steps, step.edge ≠ .subschema := by
  induction h with
  | here => simp
  | step _ followed _ ih =>
    intro step hstep
    rcases List.mem_cons.mp hstep with rfl | hrest
    · exact followed
    · exact ih step hrest

/-- What a value of the schema meets at the end of a way. -/
theorem Schema.Way.holds {first last : ℕ} {steps : List Step} (h : schema.Way first steps last) :
    ∀ {fuel : ℕ} {value : JsonTree}, schema.validWithin fuel first value = true →
      ∀ place ∈ placesAlong steps value, (schema.node last).bounds.hold place = true := by
  induction h with
  | here =>
    intro fuel value hvalid place hplace
    obtain rfl := List.mem_singleton.mp hplace
    cases fuel with
    | zero => cases hvalid
    | succ fuel =>
      rw [Schema.validWithin, admits_iff] at hvalid
      exact hvalid.1
  | step leads _ _ ih =>
    intro fuel value hvalid place hplace
    obtain ⟨between, hbetween, hplace⟩ := List.mem_flatMap.mp hplace
    cases fuel with
    | zero => cases hvalid
    | succ fuel =>
      rw [Schema.validWithin, admits_iff] at hvalid
      exact ih (hvalid.2.2.1 _ _ leads between hbetween) place hplace

/-- What a write leaves of one step of the validity. -/
theorem validWithin_write_succ {fuel source last : ℕ} {value : JsonTree}
    (hsubschemas : ∀ child ∈ (schema.node source).subschemas,
      (schema.write last kind).validWithin fuel child = schema.validWithin fuel child) :
    (schema.write last kind).validWithin (fuel + 1) source value = true ↔
      ((schema.write last kind).node source).bounds.hold value = true ∧
        ((schema.node source).reference.isSome = true → (schema.target source).isSome = true) ∧
        (∀ edge child, schema.Leads source edge child → ∀ place ∈ edge.places value,
          (schema.write last kind).validWithin fuel child place = true) ∧
        (schema.node source).check
        ((schema.node source).subschemas.map (schema.validWithin fuel)) value = true := by
  have hmap := List.map_congr_left hsubschemas
  rw [Schema.validWithin, admits_iff, write_check, write_subschemas, hmap, write_reference,
    write_target]
  simp only [write_leads]

section Unshared

variable {steps : List Step} {last : ℕ} (way : schema.Way 0 steps last)
  (unshared : schema.Unshared steps)
include way unshared

theorem Schema.Unshared.sources_once : (steps.map Step.source ++ [last]).Nodup := by
  have hsources := way.sources
  rw [← hsources]
  exact unshared.once

/-- From an object of the way only one edge stays on it. -/
theorem Schema.Unshared.next {source child other : ℕ} {edge edge' : Edge}
    (h : ⟨source, edge, child⟩ ∈ steps) (h' : ⟨source, edge', other⟩ ∈ steps) : edge = edge' ∧
    child = other := by
  have hnodup := (List.nodup_append.mp (unshared.sources_once way)).1
  have heq := List.inj_on_of_nodup_map hnodup h h' rfl
  simp only [Step.mk.injEq] at heq
  exact ⟨heq.2.1, heq.2.2⟩

/-- No edge of the end of the way is on it. -/
theorem Schema.Unshared.last_ne {source child : ℕ} {edge : Edge}
    (h : ⟨source, edge, child⟩ ∈ steps) : source ≠ last := by
  have hdisjoint := (List.nodup_append.mp (unshared.sources_once way)).2.2
  exact hdisjoint source (List.mem_map.mpr ⟨_, h, rfl⟩) last (List.mem_singleton_self last)

omit unshared in
theorem Schema.Way.last_mem : last ∈ onWay steps := by
  have hsources := way.sources
  rw [onWay, hsources]
  exact List.mem_append_right _ (List.mem_singleton_self last)

omit unshared in
theorem Schema.Way.source_mem {step : Step} (h : step ∈ steps) : step.source ∈ onWay steps := by
  have hsources := way.sources
  rw [onWay, hsources]
  exact List.mem_append_left _ (List.mem_map_of_mem h)

/-- Off the way, a write at its end changes nothing. -/
theorem validWithin_write_off (fuel : ℕ) : ∀ {other : ℕ}, schema.Reachable other →
    other ∉ onWay steps →
    (schema.write last kind).validWithin fuel other = schema.validWithin fuel other := by
  induction fuel with
  | zero => intros; rfl
  | succ fuel ih =>
    intro other hreachable hoff
    have hne : other ≠ last := by
      rintro rfl
      exact hoff way.last_mem
    have hchild : ∀ {edge child}, schema.Leads other edge child →
        (schema.write last kind).validWithin fuel child = schema.validWithin fuel child := by
      intro edge child hleads
      refine ih (.edge hreachable hleads) fun hon => ?_
      have hstep := unshared.only hreachable hleads hon
      exact hoff (way.source_mem hstep)
    funext value
    rw [Bool.eq_iff_iff, validWithin_write_succ fun child hmem =>
      hchild (show schema.Leads other .subschema child from hmem), write_bounds_ne hne,
        Schema.validWithin, admits_iff]
    refine and_congr_right fun _ => and_congr_right fun _ => and_congr_left fun _ => ?_
    refine forall_congr' fun edge => forall_congr' fun child => forall_congr' fun hleads => ?_
    rw [hchild hleads]

/-- The subschemas of the other keywords are off the way. -/
theorem validWithin_write_subschemas {fuel source : ℕ} (hreachable : schema.Reachable source) :
    ∀ child ∈ (schema.node source).subschemas,
      (schema.write last kind).validWithin fuel child = schema.validWithin fuel child := by
  intro child hmem
  have hleads : schema.Leads source .subschema child := hmem
  refine validWithin_write_off way unshared fuel (.edge hreachable hleads) fun hon => ?_
  exact way.followed _ (unshared.only hreachable hleads hon) rfl

/-- On the way, a write at its end adds the bound at the places of the way. -/
theorem validWithin_write_on {source : ℕ} {rest : List Step} (h : schema.Way source rest last) :
    (∀ step ∈ rest, step ∈ steps) → schema.Reachable source → ∀ {fuel : ℕ} {value : JsonTree},
      (∀ place ∈ placesAlong rest value, (schema.node last).bounds.YieldsTo kind place) →
      ((schema.write last kind).validWithin fuel source value = true ↔
        schema.validWithin fuel source value = true ∧ ∀ place ∈ placesAlong rest value,
          kind.bounds.hold place = true) := by
  induction h with
  | @here last =>
    intro _ hreachable fuel value hyields
    cases fuel with
    | zero => simp [Schema.validWithin]
    | succ fuel =>
      have hchild : ∀ {edge child}, schema.Leads last edge child →
          (schema.write last kind).validWithin fuel child = schema.validWithin fuel child := by
        intro edge child hleads
        refine validWithin_write_off way unshared fuel (.edge hreachable hleads) fun hon => ?_
        exact unshared.last_ne way (unshared.only hreachable hleads hon) rfl
      have hedges : (∀ edge child, schema.Leads last edge child → ∀ place ∈ edge.places value,
            (schema.write last kind).validWithin fuel child place = true) ↔
          ∀ edge child, schema.Leads last edge child → ∀ place ∈ edge.places value,
              schema.validWithin fuel child place = true := by
        refine forall_congr' fun edge => forall_congr' fun child => forall_congr' fun hleads => ?_
        rw [hchild hleads]
      have hwrite := (hyields value (List.mem_singleton_self value)).write_hold
      rw [validWithin_write_succ (validWithin_write_subschemas way unshared hreachable),
        write_bounds_self, hwrite, hedges, Schema.validWithin, admits_iff, Bool.and_eq_true]
      simp only [placesAlong, List.mem_singleton, forall_eq]
      constructor
      · rintro ⟨⟨hbounds, hkind⟩, hrest⟩
        exact ⟨⟨hbounds, hrest⟩, hkind⟩
      · rintro ⟨⟨hbounds, hrest⟩, hkind⟩
        exact ⟨⟨hbounds, hkind⟩, hrest⟩
  | @step source child last edge rest leads _ _ ih =>
    intro hsteps hreachable fuel value hyields
    have hstep := hsteps _ List.mem_cons_self
    cases fuel with
    | zero => simp [Schema.validWithin]
    | succ fuel =>
      have hnext : ∀ place ∈ edge.places value,
        (schema.write last kind).validWithin fuel child place = true ↔
          schema.validWithin fuel child place = true ∧ ∀ final ∈ placesAlong rest place,
              kind.bounds.hold final = true := by
        intro place hplace
        refine ih way (fun step hmem => hsteps step (List.mem_cons_of_mem _ hmem))
          (.edge hreachable leads)
          fun place' hplace' => hyields place' ?_
        exact List.mem_flatMap.mpr ⟨place, hplace, hplace'⟩
      have hother : ∀ {edge' child'}, schema.Leads source edge' child' →
        ¬(edge = edge' ∧ child = child') →
          (schema.write last kind).validWithin fuel child' = schema.validWithin fuel child' := by
        intro edge' child' hleads hne
        refine validWithin_write_off way unshared fuel (.edge hreachable hleads) fun hon => ?_
        exact hne (unshared.next way hstep (unshared.only hreachable hleads hon))
      rw [validWithin_write_succ (validWithin_write_subschemas way unshared hreachable),
        write_bounds_ne (unshared.last_ne way hstep), Schema.validWithin, admits_iff]
      constructor
      · rintro ⟨hbounds, hknown, hedges, hcheck⟩
        refine ⟨⟨hbounds, hknown, ?_, hcheck⟩, ?_⟩
        · intro edge' child' hleads place hplace
          by_cases heq : edge = edge' ∧ child = child'
          · obtain ⟨rfl, rfl⟩ := heq
            exact ((hnext place hplace).mp (hedges _ _ hleads place hplace)).1
          · rw [← hother hleads heq]
            exact hedges _ _ hleads place hplace
        · intro final hend
          obtain ⟨place, hplace, hend⟩ := List.mem_flatMap.mp hend
          exact ((hnext place hplace).mp (hedges _ _ leads place hplace)).2 final hend
      · rintro ⟨⟨hbounds, hknown, hedges, hcheck⟩, hends⟩
        refine ⟨hbounds, hknown, ?_, hcheck⟩
        intro edge' child' hleads place hplace
        by_cases heq : edge = edge' ∧ child = child'
        · obtain ⟨rfl, rfl⟩ := heq
          refine (hnext place hplace).mpr ⟨hedges _ _ hleads place hplace, fun final hend => ?_⟩
          exact hends final (List.mem_flatMap.mpr ⟨place, hplace, hend⟩)
        · rw [hother hleads heq]
          exact hedges _ _ hleads place hplace

/-- **A bound written at the end of an unshared way speaks of the places of the way.** -/
theorem valid_write
    (hyields : ∀ place ∈ placesAlong steps payload, (schema.node last).bounds.YieldsTo kind place) :
    (schema.write last kind).Valid payload ↔
      schema.Valid payload ∧ ∀ place ∈ placesAlong steps payload, kind.bounds.hold place =
        true := by
  have hwrite : ∀ fuel, (schema.write last kind).validWithin fuel 0 payload = true ↔
      schema.validWithin fuel 0 payload = true ∧ ∀ place ∈ placesAlong steps payload,
          kind.bounds.hold place = true :=
    fun fuel => validWithin_write_on way unshared way (fun _ h => h) .root hyields
  constructor
  · rintro ⟨enough, hvalid⟩
    refine ⟨⟨enough, fun fuel hfuel => ((hwrite fuel).mp (hvalid fuel hfuel)).1⟩, ?_⟩
    exact ((hwrite enough).mp (hvalid enough le_rfl)).2
  · rintro ⟨⟨enough, hvalid⟩, hplaces⟩
    exact ⟨enough, fun fuel hfuel => (hwrite fuel).mpr ⟨hvalid fuel hfuel, hplaces⟩⟩

end Unshared

end Novalton.ContractExecution
