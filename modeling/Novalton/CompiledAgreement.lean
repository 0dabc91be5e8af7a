/-
When the compiled schema says what the local validation says: the path of each constraint
as a way through the schema, a run of the compiler, and the agreement.
-/
import Novalton.CompiledSchema
import Novalton.Dict

namespace Novalton.ContractExecution

variable {schema : Schema} {node : ℕ} {kind : ShapeKind} {payload : JsonTree}

/-! ## The way of a path -/

def Schema.referenceSteps (schema : Schema) (node : ℕ) : List Step :=
  match schema.target node with
  | .some child => [⟨node, .reference, child⟩]
  | .none => []

def Token.edge : Token → Edge
  | .name key => .property key
  | .index _ | .wildcard => .items

/-- The steps of `_schema_nodes_at_path`. -/
def Schema.tokenSteps (schema : Schema) : List Token → ℕ → List Step
  | [], _ => []
  | token :: rest, node =>
    schema.referenceSteps node ++
      match schema.child token (schema.resolve node) with
      | .some child =>
        ⟨schema.resolve node, token.edge, child⟩ ::
          (schema.referenceSteps child ++ Schema.tokenSteps schema rest (schema.resolve child))
      | .none => []

/-- The values of a value that a path speaks of with every index read as a `*`. -/
def placesFrom : List Token → JsonTree → List JsonTree
  | [], value => [value]
  | token :: rest, value => (token.edge.places value).flatMap (placesFrom rest)

theorem way_referenceSteps (node : ℕ) : schema.Way node (schema.referenceSteps node)
    (schema.resolve node) := by
  unfold Schema.referenceSteps Schema.resolve
  cases htarget : schema.target node with
  | none => exact .here
  | some child => exact .step htarget (by simp) .here

theorem placesAlong_referenceSteps (node : ℕ) (value : JsonTree) : placesAlong
    (schema.referenceSteps node) value = [value] := by
  unfold Schema.referenceSteps
  cases schema.target node with
  | none => rfl
  | some child => rfl

theorem child_leads {token : Token} {child : ℕ} (h : schema.child token node = .some child) :
    schema.Leads node token.edge child ∧ token.edge ≠ .subschema := by
  cases token with
  | name key => exact ⟨Dict.mem_of_get? h, by simp [Token.edge]⟩
  | index position => exact ⟨h, by simp [Token.edge]⟩
  | wildcard => exact ⟨h, by simp [Token.edge]⟩

theorem schemaNodesFrom_nil (tokens : List Token) : schemaNodesFrom schema tokens [] = [] := by
  induction tokens with
  | nil => rfl
  | cons token rest ih => exact ih

/-- A path leads to one object at most: the end of its way. -/
theorem schemaNodesFrom_singleton (tokens : List Token) : ∀ {node : ℕ},
    schemaNodesFrom schema tokens [node] ≠ [] →
    ∃ last, schemaNodesFrom schema tokens [node] = [last] ∧ schema.Way node
      (schema.tokenSteps tokens node) last ∧
      ∀ value, placesAlong (schema.tokenSteps tokens node) value = placesFrom tokens value := by
  induction tokens with
  | nil => intro node _; exact ⟨node, rfl, .here, fun _ => rfl⟩
  | cons token rest ih =>
    intro node hne
    rw [schemaNodesFrom] at hne ⊢
    rw [Schema.tokenSteps]
    cases hchild : schema.child token (schema.resolve node) with
    | none =>
      simp only [List.filterMap_cons, hchild, Option.map_none, List.filterMap_nil,
        schemaNodesFrom_nil] at hne
      exact absurd rfl hne
    | some child =>
      simp only [List.filterMap_cons, hchild, Option.map_some, List.filterMap_nil] at hne ⊢
      obtain ⟨last, hlast, hway, hplaces⟩ := ih hne
      obtain ⟨hleads, hfollowed⟩ := child_leads hchild
      refine ⟨last, hlast, ?_, ?_⟩
      · refine (way_referenceSteps node).append (.step hleads hfollowed ?_)
        exact (way_referenceSteps child).append hway
      · intro value
        rw [placesAlong_append, placesAlong_referenceSteps, List.flatMap_singleton, placesAlong,
          placesFrom]
        congr 1
        funext place
        rw [placesAlong_append, placesAlong_referenceSteps, List.flatMap_singleton, hplaces]

/-! ## Compilation -/

def ShapeConstraint.tokens (constraint : ShapeConstraint) : List Token :=
  match tokenizePath constraint.path with
  | .ok tokens => tokens
  | .error _ => []

/-- The values the local validation checks. -/
def ShapeConstraint.located (constraint : ShapeConstraint) (payload : JsonTree) : List JsonTree :=
  valuesFrom constraint.tokens [payload]

/-- The values the compiled bound is about. -/
def ShapeConstraint.places (constraint : ShapeConstraint) (payload : JsonTree) : List JsonTree :=
  placesFrom constraint.tokens payload

/-- The objects the compiler writes. -/
def Schema.nodesOf (schema : Schema) (constraint : ShapeConstraint) : List ℕ :=
  schemaNodesFrom schema constraint.tokens [0]

def Schema.wayOf (schema : Schema) (constraint : ShapeConstraint) : List Step :=
  schema.tokenSteps constraint.tokens 0

section Writes

variable {constraint : ShapeConstraint}

theorem write_referenceSteps {other : ℕ} :
    (schema.write node kind).referenceSteps other = schema.referenceSteps other := by
  rw [Schema.referenceSteps, write_target]
  rfl

theorem write_tokenSteps (tokens : List Token) : ∀ {other : ℕ},
    (schema.write node kind).tokenSteps tokens other = schema.tokenSteps tokens other := by
  induction tokens with
  | nil => intro; rfl
  | cons token rest ih =>
    intro other
    rw [Schema.tokenSteps, Schema.tokenSteps, write_referenceSteps, write_resolve, write_child]
    cases schema.child token (schema.resolve other) with
    | none => rfl
    | some child =>
      simp only [write_referenceSteps, write_resolve, ih]

theorem write_schemaNodesFrom (tokens : List Token) : ∀ {nodes : List ℕ},
    schemaNodesFrom
      (schema.write node kind) tokens nodes = schemaNodesFrom schema tokens nodes := by
  induction tokens with
  | nil => intro; rfl
  | cons token rest ih =>
    intro nodes
    rw [schemaNodesFrom, schemaNodesFrom, ih]
    congr 2
    funext other
    rw [write_resolve, write_child]
    cases schema.child token (schema.resolve other) with
    | none => rfl
    | some child => simp

@[simp] theorem write_nodesOf :
    (schema.write node kind).nodesOf constraint = schema.nodesOf constraint :=
  write_schemaNodesFrom constraint.tokens

@[simp] theorem write_wayOf : (schema.write node kind).wayOf constraint = schema.wayOf constraint :=
  write_tokenSteps constraint.tokens

theorem write_unshared {steps : List Step} (h : schema.Unshared steps) :
    (schema.write node kind).Unshared steps where
  once := h.once
  only := fun hreachable hleads hon =>
    h.only (write_reachable.mp hreachable) (write_leads.mp hleads) hon

end Writes

/-- A constraint that compiles is written on the end of its way. -/
theorem applySchemaConstraint_ok {constraint : ShapeConstraint} {written : Schema}
    (h : applySchemaConstraint schema constraint = .ok written) :
    (∃ tokens, tokenizePath constraint.path = .ok tokens) ∧
      ∃ last, schema.nodesOf constraint = [last] ∧ schema.Way 0 (schema.wayOf constraint) last ∧
        (∀ value, placesAlong (schema.wayOf constraint) value = constraint.places value) ∧
        written = schema.write last constraint.kind := by
  unfold applySchemaConstraint schemaNodesAtPath at h
  cases htokens : tokenizePath constraint.path with
  | error text =>
    rw [htokens] at h
    cases h
  | ok tokens =>
    have heq : constraint.tokens = tokens := by
      rw [ShapeConstraint.tokens, htokens]
    rw [htokens] at h
    replace h : (if (schemaNodesFrom schema tokens [0]).isEmpty then
        .error ("constraint path is not representable in contract schema: ".toList ++
          constraint.path)
      else .ok ((schemaNodesFrom schema tokens [0]).foldl (fun written node =>
        written.write node constraint.kind) schema)) =
        Except.ok written := h
    split at h
    · cases h
    · rename_i hne
      rw [List.isEmpty_iff] at hne
      obtain ⟨last, hlast, hway, hplaces⟩ := schemaNodesFrom_singleton tokens hne
      rw [hlast] at h
      cases h
      refine ⟨⟨tokens, rfl⟩, last, ?_, ?_, ?_, rfl⟩
      · rw [Schema.nodesOf, heq, hlast]
      · rw [Schema.wayOf, heq]
        exact hway
      · intro value
        rw [Schema.wayOf, ShapeConstraint.places, heq, hplaces]

/-- Each constraint has a way of its own in the schema, and none relaxes what one before it
writes on the same object. -/
structure Separate (schema : Schema) (constraints : List ShapeConstraint) : Prop where
  unshared : ∀ constraint ∈ constraints, schema.Unshared (schema.wayOf constraint)
  tightens : constraints.Pairwise fun earlier later =>
    schema.nodesOf earlier = schema.nodesOf later → Tightens earlier.kind later.kind

/-- A run of the compiler: each constraint adds its bound at its places. -/
theorem foldlM_valid (constraints : List ShapeConstraint) : ∀ {schema compiled : Schema},
    constraints.foldlM applySchemaConstraint schema = .ok compiled → Separate schema constraints →
    (∀ constraint ∈ constraints, ∀ last ∈ schema.nodesOf constraint,
      ∀ place ∈ constraint.places payload,
        (schema.node last).bounds.YieldsTo constraint.kind place) →
    (compiled.Valid payload ↔ schema.Valid payload ∧
      ∀ constraint ∈ constraints, ∀ place ∈ constraint.places payload,
        constraint.kind.bounds.hold place = true) := by
  induction constraints with
  | nil =>
    intro schema compiled h _ _
    cases h
    simp
  | cons constraint rest ih =>
    intro schema compiled h hseparate hyields
    rw [List.foldlM_cons] at h
    cases happlied : applySchemaConstraint schema constraint with
    | error text =>
      rw [happlied] at h
      cases h
    | ok written =>
      rw [happlied] at h
      obtain ⟨-, last, hlast, hway, hplaces, rfl⟩ := applySchemaConstraint_ok happlied
      have hunshared := hseparate.unshared constraint List.mem_cons_self
      obtain ⟨htightens, hpairwise⟩ := List.pairwise_cons.mp hseparate.tightens
      have hrest : Separate (schema.write last constraint.kind) rest := by
        refine ⟨fun other hmem => ?_, ?_⟩
        · rw [write_wayOf]
          exact write_unshared (hseparate.unshared other (List.mem_cons_of_mem _ hmem))
        · simpa only [write_nodesOf] using hpairwise
      have hnext : ∀ other ∈ rest, ∀ final ∈ (schema.write last constraint.kind).nodesOf other,
        ∀ place ∈ other.places payload,
          ((schema.write last constraint.kind).node final).bounds.YieldsTo other.kind place := by
        intro other hmem final hend place hplace
        rw [write_nodesOf] at hend
        have hbefore := hyields other (List.mem_cons_of_mem _ hmem) final hend place hplace
        by_cases heq : final = last
        · subst heq
          rw [write_bounds_self]
          refine hbefore.write (htightens other hmem ?_)
          obtain ⟨only, honly, -⟩ :=
            schemaNodesFrom_singleton other.tokens (List.ne_nil_of_mem hend)
          have hnodes : schema.nodesOf other = [only] := honly
          rw [hnodes, List.mem_singleton] at hend
          rw [hlast, hnodes, hend]
        · rw [write_bounds_ne heq]
          exact hbefore
      have hwrite : (schema.write last constraint.kind).Valid payload ↔
          schema.Valid payload ∧ ∀ place ∈ constraint.places payload,
              constraint.kind.bounds.hold place = true := by
        rw [← hplaces]
        refine valid_write hway hunshared fun place hplace => ?_
        rw [hplaces] at hplace
        exact hyields constraint List.mem_cons_self last
          (by rw [hlast]; exact List.mem_singleton_self last) place hplace
      rw [ih h hrest hnext, hwrite, List.forall_mem_cons, and_assoc]

/-! ## Agreement -/

/-- In the payload, the constraint locates a value, of its kind, and none but what its
bound is about: each index names all that its list holds. -/
structure ShapeConstraint.Meets (constraint : ShapeConstraint) (payload : JsonTree) : Prop where
  located : constraint.located payload ≠ []
  places : ∀ value, value ∈ constraint.located payload ↔ value ∈ constraint.places payload
  lists : constraint.kind.countsItems = true → ∀ value ∈ constraint.located payload,
    isList value = true

theorem constraintFailures_nil (payload : JsonTree) {constraint : ShapeConstraint}
    (hpath : ∃ tokens, tokenizePath constraint.path = .ok tokens) :
    ∃ failures, constraintFailures payload constraint = .ok failures ∧
      (failures = [] ↔ constraint.located payload ≠ [] ∧
        ∀ value ∈ constraint.located payload, constraintValueIsValid constraint.kind value =
          true) := by
  obtain ⟨tokens, htokens⟩ := hpath
  have hlocated : valuesAtPath payload constraint.path = .ok (constraint.located payload) := by
    rw [valuesAtPath, htokens, ShapeConstraint.located, ShapeConstraint.tokens, htokens]
    rfl
  by_cases hfails :
      ((constraint.located payload).isEmpty || (constraint.located payload).any fun value =>
      !constraintValueIsValid constraint.kind value) = true
  · refine ⟨[⟨constraint.code, constraint.path⟩], ?_, ?_⟩
    · rw [constraintFailures, hlocated]
      exact if_pos hfails
    · simp only [List.cons_ne_nil, false_iff, not_and, ne_eq]
      intro hne hvalid
      rcases Bool.or_eq_true_iff.mp hfails with hempty | hany
      · exact hne (List.isEmpty_iff.mp hempty)
      · obtain ⟨value, hmem, hinvalid⟩ := List.any_eq_true.mp hany
        rw [hvalid value hmem] at hinvalid
        cases hinvalid
  · refine ⟨[], ?_, ?_⟩
    · rw [constraintFailures, hlocated]
      exact if_neg hfails
    · simp only [true_iff]
      rw [Bool.or_eq_true, not_or] at hfails
      refine ⟨fun hempty => hfails.1 (List.isEmpty_iff.mpr hempty), fun value hmem => ?_⟩
      by_contra hinvalid
      refine hfails.2 (List.any_eq_true.mpr ⟨value, hmem, ?_⟩)
      rw [Bool.not_eq_true] at hinvalid
      rw [hinvalid]
      rfl

theorem mapM_failures (payload : JsonTree) (constraints : List ShapeConstraint) :
    (∀ constraint ∈ constraints, ∃ tokens, tokenizePath constraint.path = .ok tokens) →
    ∃ failures, constraints.mapM (constraintFailures payload) = .ok failures ∧
      (failures.flatten = [] ↔ ∀ constraint ∈ constraints, constraint.located payload ≠ [] ∧
        ∀ value ∈ constraint.located payload, constraintValueIsValid constraint.kind value =
          true) := by
  induction constraints with
  | nil => intro _; exact ⟨[], rfl, by simp⟩
  | cons constraint rest ih =>
    intro hpaths
    obtain ⟨first, hfirst, hnil⟩ :=
      constraintFailures_nil payload (hpaths constraint List.mem_cons_self)
    obtain ⟨others, hothers, hnils⟩ :=
      ih fun other hmem => hpaths other (List.mem_cons_of_mem _ hmem)
    refine ⟨first :: others, ?_, ?_⟩
    · rw [List.mapM_cons, hfirst, hothers]
      rfl
    · rw [List.flatten_cons, List.append_eq_nil_iff, hnil, hnils, List.forall_mem_cons]

/-- The paths of a compiled contract tokenize. -/
theorem foldlM_paths (constraints : List ShapeConstraint) : ∀ {schema compiled : Schema},
    constraints.foldlM applySchemaConstraint schema = .ok compiled →
    ∀ constraint ∈ constraints, ∃ tokens, tokenizePath constraint.path = .ok tokens := by
  induction constraints with
  | nil => intro _ _ _ constraint hmem; cases hmem
  | cons constraint rest ih =>
    intro schema compiled h other hmem
    rw [List.foldlM_cons] at h
    cases happlied : applySchemaConstraint schema constraint with
    | error text =>
      rw [happlied] at h
      cases h
    | ok written =>
      rw [happlied] at h
      rcases List.mem_cons.mp hmem with rfl | hrest
      · exact (applySchemaConstraint_ok happlied).1
      · exact ih h other hrest

/-- The compiled schema, on values of the base schema: every bound holds at every place its
path speaks of, indices read as `*`. -/
theorem compiled_valid {constraints : List ShapeConstraint} {compiled : Schema}
    (h : compileContract schema constraints = .ok compiled)
    (hseparate : Separate schema (constraints.take maxResultShapeConstraints))
    (hvalid : schema.Valid payload) :
    compiled.Valid payload ↔ ∀ constraint ∈ constraints.take maxResultShapeConstraints,
      ∀ place ∈ constraint.places payload,
      constraint.kind.bounds.hold place = true := by
  rw [foldlM_valid _ h hseparate]
  · exact and_iff_right hvalid
  · intro constraint hmem last hlast place hplace
    obtain ⟨only, hnodes, hway, hplaces⟩ :=
      schemaNodesFrom_singleton constraint.tokens (List.ne_nil_of_mem hlast)
    have hlast' : last ∈ schemaNodesFrom schema constraint.tokens [0] := hlast
    rw [hnodes, List.mem_singleton] at hlast'
    subst hlast'
    obtain ⟨enough, henough⟩ := hvalid
    refine .of_hold (hway.holds (henough enough le_rfl) place ?_)
    rw [hplaces]
    exact hplace

/-- The payload decides the constraints: each names in it all that its bound is about, or
one that does is violated. -/
def Decides (constraints : List ShapeConstraint) (payload : JsonTree) : Prop :=
  (∀ constraint ∈ constraints, constraint.Meets payload) ∨
    ∃ constraint ∈ constraints, constraint.Meets payload ∧
      ∃ value ∈ constraint.located payload, constraintValueIsValid constraint.kind value = false

/-- Of a constraint that meets the payload, the bound and the local check say the same. -/
theorem ShapeConstraint.Meets.places_iff {constraint : ShapeConstraint}
    (h : constraint.Meets payload) (hkind : constraint.kind.representable = true) :
    (∀ place ∈ constraint.places payload, constraint.kind.bounds.hold place = true) ↔
      constraint.located payload ≠ [] ∧ ∀ value ∈ constraint.located payload,
        constraintValueIsValid constraint.kind value = true := by
  constructor
  · intro hplaces
    refine ⟨h.located, fun value hvalue => ?_⟩
    rw [← bounds_hold_iff hkind fun hcounts => h.lists hcounts value hvalue]
    exact hplaces value ((h.places value).mp hvalue)
  · rintro ⟨-, hlocated⟩ place hplace
    have hvalue := (h.places place).mpr hplace
    rw [bounds_hold_iff hkind fun hcounts => h.lists hcounts place hvalue]
    exact hlocated place hvalue

/-- **The two agree where every constraint has a way of its own in the schema and relaxes
none before it, and the payload decides the constraints.** -/
theorem compiled_agrees {constraints : List ShapeConstraint}
    (hkinds : ∀ constraint ∈ constraints, constraint.kind.representable = true)
    (hseparate : Separate schema (constraints.take maxResultShapeConstraints))
    (hdecides : Decides (constraints.take maxResultShapeConstraints) payload) :
    Agrees schema constraints payload := by
  intro compiled hcompiled hvalid
  obtain ⟨failures, hfailures, hnil⟩ := mapM_failures payload _ (foldlM_paths _ hcompiled)
  have hlocal : validateResultShape payload constraints = .ok failures.flatten := by
    rw [validateResultShape, hfailures]
    rfl
  have hkind : ∀ constraint ∈ constraints.take maxResultShapeConstraints,
      constraint.kind.representable = true :=
    fun constraint hmem => hkinds constraint (List.mem_of_mem_take hmem)
  rw [compiled_valid hcompiled hseparate hvalid, hlocal, Except.ok.injEq, hnil]
  rcases hdecides with hmeets | ⟨constraint, hmem, hmeets, value, hvalue, hinvalid⟩
  · exact forall_congr' fun constraint => forall_congr' fun hmem =>
      (hmeets constraint hmem).places_iff (hkind constraint hmem)
  · -- The violated constraint is refused on both sides, whatever the others say.
    have hfails : ¬ (constraint.located payload ≠ [] ∧
        ∀ value ∈ constraint.located payload, constraintValueIsValid constraint.kind value =
            true) := by
      rintro ⟨-, hall⟩
      rw [hall value hvalue] at hinvalid
      cases hinvalid
    constructor
    · intro hplaces
      exact absurd ((hmeets.places_iff (hkind constraint hmem)).mp (hplaces constraint hmem)) hfails
    · intro hlocated
      exact absurd (hlocated constraint hmem) hfails

/-! ## A schema of tasks -/

/-- Tasks that each depend on some; `reviews` and `audits` share a definition. -/
def taskSchema : Schema where
  defs := [("Names".toList, 5)]
  node
    | 0 => { properties := [("tasks".toList, 1), ("reviews".toList, 4), ("audits".toList, 6)] }
    | 1 => { items := .some 2 }
    | 2 => { properties := [("depends_on".toList, 3)] }
    | 4 => { reference := .some "#/$defs/Names".toList }
    | 6 => { reference := .some "#/$defs/Names".toList }
    | _ => {}

def tasksPayload (dependencies : List (List Text)) : JsonTree :=
  .object [("tasks".toList,
    .array (dependencies.map fun names =>
    .object [("depends_on".toList, .array (names.map .string))])), ("reviews".toList, .array []),
      ("audits".toList, .array [.string ['a']])]

/-- The edges of the schema of tasks. -/
def taskSteps : List Step :=
  [⟨0, .property "tasks".toList, 1⟩, ⟨0, .property "reviews".toList, 4⟩,
    ⟨0, .property "audits".toList, 6⟩, ⟨1, .items, 2⟩, ⟨2, .property "depends_on".toList, 3⟩,
      ⟨4, .reference, 5⟩, ⟨6, .reference, 5⟩]

theorem taskSchema_leads {source child : ℕ} {edge : Edge} (h : taskSchema.Leads source edge child) :
    ⟨source, edge, child⟩ ∈ taskSteps := by
  -- The objects from 7 on are empty.
  rcases source with _ | _ | _ | _ | _ | _ | _ | source
  all_goals cases edge
  case zero.property key =>
    have hmem : (key, child) ∈ [("tasks".toList, 1), ("reviews".toList, 4), ("audits".toList, 6)] :=
      h
    simp only [List.mem_cons, List.not_mem_nil, or_false, Prod.mk.injEq] at hmem
    obtain ⟨rfl, rfl⟩ | ⟨rfl, rfl⟩ | ⟨rfl, rfl⟩ := hmem <;> decide
  case succ.succ.zero.property key =>
    have hmem : (key, child) ∈ [("depends_on".toList, 3)] := h
    simp only [List.mem_singleton, Prod.mk.injEq] at hmem
    obtain ⟨rfl, rfl⟩ := hmem
    decide
  all_goals cases h
  all_goals decide

theorem taskSchema_unshared {steps : List Step} (honce : (onWay steps).Nodup)
    (honly : ∀ step ∈ taskSteps, step.child ∈ onWay steps → step ∈ steps) :
    taskSchema.Unshared steps :=
  ⟨honce, fun _ hleads hon => honly _ (taskSchema_leads hleads) hon⟩

/-- One task that depends on none, as the fixed development workflow has it. -/
def oneIndependentTask : List ShapeConstraint :=
  [⟨"fixed_manager_task_count".toList, "tasks".toList, .exactItems 1⟩,
    ⟨"fixed_manager_task_dependencies_empty".toList, "tasks[0].depends_on".toList, .empty⟩]

theorem compiled_agrees_tasks : Agrees taskSchema oneIndependentTask (tasksPayload [[]]) ∧
    Agrees taskSchema oneIndependentTask (tasksPayload [[], [['a']]]) := by
  have hkinds : ∀ constraint ∈ oneIndependentTask, constraint.kind.representable = true := by
    simp [oneIndependentTask, ShapeKind.representable]
  have hseparate : Separate taskSchema (oneIndependentTask.take maxResultShapeConstraints) := by
    refine ⟨?_, ?_⟩
    · refine List.forall_mem_cons.mpr ⟨taskSchema_unshared (by decide) (by decide), ?_⟩
      refine List.forall_mem_cons.mpr ⟨taskSchema_unshared (by decide) (by decide), ?_⟩
      simp
    · refine List.pairwise_cons.mpr ⟨?_, List.pairwise_singleton _ _⟩
      intro later hlater hnodes
      obtain rfl := List.mem_singleton.mp hlater
      cases hnodes
  have hcount : ∀ dependencies, ShapeConstraint.Meets ⟨"fixed_manager_task_count".toList,
      "tasks".toList, .exactItems 1⟩ (tasksPayload dependencies) := by
    intro dependencies
    exact ⟨List.cons_ne_nil _ _, fun _ => Iff.rfl,
      fun _ _ h => by obtain rfl := List.mem_singleton.mp h; rfl⟩
  refine ⟨compiled_agrees hkinds hseparate (.inl ?_),
    compiled_agrees hkinds hseparate
    (.inr ⟨_, List.mem_cons_self, hcount _, _, List.mem_cons_self, rfl⟩)⟩
  refine List.forall_mem_cons.mpr ⟨hcount _, List.forall_mem_singleton.mpr ?_⟩
  exact ⟨List.cons_ne_nil _ _, fun _ => Iff.rfl,
    fun _ _ h => by obtain rfl := List.mem_singleton.mp h; rfl⟩

theorem valid_of {value : JsonTree} (depth : ℕ)
    (h : ∀ k, schema.validWithin (k + depth) 0 value = true) : schema.Valid value := by
  refine ⟨depth, fun fuel hfuel => ?_⟩
  obtain ⟨k, rfl⟩ := Nat.exists_eq_add_of_le' hfuel
  exact h k

theorem not_valid_of {value : JsonTree} (depth : ℕ)
    (h : ∀ k, schema.validWithin (k + depth) 0 value = false) :
    ¬ schema.Valid value := by
  rintro ⟨enough, henough⟩
  have hvalid := henough (enough + depth) (Nat.le_add_right enough depth)
  rw [h] at hvalid
  cases hvalid

/-- **Elsewhere they do not**: with a bound on one index, on a definition used twice, or
overwritten by a later one, and with a path that leads nowhere in the payload, one side
accepts what the other refuses. -/
theorem compiled_disagrees :
    ¬ Agrees taskSchema [⟨[], "tasks[0].depends_on".toList, .empty⟩] (tasksPayload [[], [['a']]]) ∧
      ¬ Agrees taskSchema [⟨[], "reviews".toList, .empty⟩] (tasksPayload []) ∧
      ¬ Agrees taskSchema [⟨[], "tasks".toList, .minItems 2⟩, ⟨[], "tasks".toList, .minItems 1⟩]
        (tasksPayload [[]]) ∧
      ¬ Agrees taskSchema [⟨[], "tasks[*].depends_on".toList, .empty⟩] (tasksPayload []) := by
  refine ⟨?_, ?_, ?_, ?_⟩
  · intro h
    exact not_valid_of 6 (fun _ => rfl) ((h _ rfl (valid_of 6 fun _ => rfl)).mpr rfl)
  · intro h
    exact not_valid_of 6 (fun _ => rfl) ((h _ rfl (valid_of 6 fun _ => rfl)).mpr rfl)
  · intro h
    have hlocal := (h _ rfl (valid_of 6 fun _ => rfl)).mp (valid_of 6 fun _ => rfl)
    cases hlocal
  · intro h
    have hlocal := (h _ rfl (valid_of 6 fun _ => rfl)).mp (valid_of 6 fun _ => rfl)
    cases hlocal

end Novalton.ContractExecution
