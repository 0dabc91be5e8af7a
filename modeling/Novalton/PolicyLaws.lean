/-
The laws of policy evaluation, for every list of stored rules and every request.

A rule counts in a decision when it matches, or when its record is rejected: a
rejected record counts as BLOCK. The effect of a decision is the largest one that
counts, and everything but the fail-closed law follows from that. The fail-closed
law has one gap: a conditions value that is an empty object or an empty string
is iterated like an empty list.
-/
import Novalton.PolicyRules

namespace Novalton.Policy

/-! ## Reading one rule -/

/-- A conditions value the loop can read: iterating it gives valid conditions only. -/
def Readable (value : JsonValue) : Prop :=
  ∃ items, value.iterate = .ok items ∧ ∀ item ∈ items, (PolicyCondition.modelValidate item).isSome =
    true

/-- An empty object or an empty string: neither is a list, and both iterate over nothing. -/
def JsonValue.holdsNothing : JsonValue → Bool
  | .object [] | .string [] => true
  | _ => false

/-- A record as `create_rule` would have stored it. -/
structure WellFormed (rule : EvaluationRule) : Prop where
  pattern : ACTION_PATTERN.fullmatch rule.actionPattern = true
  effect : (PolicyEffect.parse rule.effect).isSome = true
  actorType : validType rule.actorType = true
  resourceType : validType rule.resourceType = true
  conditions : ∃ items, rule.conditions = .array items ∧ ∀ item ∈ items,
    (PolicyCondition.modelValidate item).isSome = true

/-- The rule's action pattern applies to the request. -/
def Applies (request : PolicyEvaluationRequest) (rule : EvaluationRule) : Prop :=
  actionMatches rule.actionPattern request.action = true

/-- The record does not parse where the loop parses it. -/
def Rejected (request : PolicyEvaluationRequest) (rule : EvaluationRule) : Prop :=
  ACTION_PATTERN.fullmatch rule.actionPattern = false ∨
    Applies request rule ∧
      (PolicyEffect.parse rule.effect = .none ∨ validType rule.actorType = false ∨
        validType rule.resourceType = false ∨
        ¬ Readable rule.conditions)

/-- The rule matches the request with this effect. -/
structure MatchesWith (request : PolicyEvaluationRequest) (rule : EvaluationRule)
    (effect : PolicyEffect) : Prop where
  pattern : ACTION_PATTERN.fullmatch rule.actionPattern = true
  applies : Applies request rule
  effect : PolicyEffect.parse rule.effect = .some effect
  actorType : validType rule.actorType = true
  resourceType : validType rule.resourceType = true
  actor : scopeMatches rule.actorType request.actorType = true
  resource : scopeMatches rule.resourceType request.resourceType = true
  conditions : ∃ items, rule.conditions.iterate = .ok items ∧
    ∀ item ∈ items, ∃ condition, PolicyCondition.modelValidate item = .some condition ∧
      conditionMatches condition request = true

/-- The rule takes part in the decision with this effect. -/
def Counts (request : PolicyEvaluationRequest) (rule : EvaluationRule) (effect : PolicyEffect) :
    Prop :=
  Rejected request rule ∧ effect = .block ∨ MatchesWith request rule effect

theorem readable_iff {value : JsonValue} :
    Readable value ↔
      (∃ items, value = .array items ∧ ∀ item ∈ items, (PolicyCondition.modelValidate item).isSome =
        true) ∨
        value.holdsNothing = true := by
  have hstring : ∀ text : Text, (PolicyCondition.modelValidate (.string text)).isSome = false :=
    fun _ => rfl
  constructor
  · intro ⟨items, hiter, hitems⟩
    cases value with
    | array values =>
      have heq : values = items := Except.ok.inj hiter
      exact .inl ⟨values, rfl, heq ▸ hitems⟩
    | object fields =>
      cases fields with
      | nil => exact .inr rfl
      | cons entry rest =>
        have hfirst :=
          hitems (.string entry.1) (by rw [← Except.ok.inj hiter]; exact List.mem_cons_self)
        rw [hstring] at hfirst
        contradiction
    | string text =>
      cases text with
      | nil => exact .inr rfl
      | cons c rest =>
        have hfirst :=
          hitems (.string [c]) (by rw [← Except.ok.inj hiter]; exact List.mem_cons_self)
        rw [hstring] at hfirst
        contradiction
    | null => cases hiter
    | bool _ => cases hiter
    | number _ => cases hiter
  · intro h
    rcases h with ⟨items, hvalue, hitems⟩ | h
    · exact ⟨items, by rw [hvalue]; rfl, hitems⟩
    · refine ⟨[], ?_, fun _ hmem => absurd hmem List.not_mem_nil⟩
      cases value with
      | object fields => cases fields with
        | nil => rfl
        | cons entry rest => cases h
      | string text => cases text with
        | nil => rfl
        | cons c rest => cases h
      | _ => cases h

/-- Parsing the items succeeds exactly when each of them is valid. -/
theorem parseItems_ok_iff : ∀ {items : List JsonValue} {p : PolicyCondition → Bool},
    (∃ conditions,
      (items.mapM fun item => orRaise (PolicyCondition.modelValidate item) .valueError) =
      .ok conditions ∧
        conditions.all p = true) ↔
      ∀ item ∈ items, ∃ condition, PolicyCondition.modelValidate item = .some condition ∧
        p condition = true
  | [], p => by simp [pure, Except.pure]
  | item :: rest, p => by
    simp only [List.mapM_cons, Py.bind_eq_ok, orRaise_eq_ok, List.forall_mem_cons,
      ← parseItems_ok_iff]
    constructor
    · intro h
      obtain ⟨conditions, ⟨condition, hc, others, hothers, hpure⟩, hall⟩ := h
      cases hpure
      rw [List.all_cons, Bool.and_eq_true] at hall
      exact ⟨⟨condition, hc, hall.1⟩, others, hothers, hall.2⟩
    · intro h
      obtain ⟨⟨condition, hc, hp⟩, others, hothers, hall⟩ := h
      exact ⟨condition :: others, ⟨condition, hc, others, hothers, rfl⟩,
        by rw [List.all_cons, hp, hall]; rfl⟩

theorem parseItems_ok {items : List JsonValue}
    (h : ∀ item ∈ items, (PolicyCondition.modelValidate item).isSome = true) :
    ∃ conditions,
      (items.mapM fun item => orRaise (PolicyCondition.modelValidate item) .valueError) =
      .ok conditions := by
  have hany : ∀ item ∈ items, ∃ condition, PolicyCondition.modelValidate item = .some condition ∧
      (fun _ => true : PolicyCondition → Bool) condition = true := by
    intro item hmem
    obtain ⟨condition, hc⟩ := Option.isSome_iff_exists.mp (h item hmem)
    exact ⟨condition, hc, rfl⟩
  obtain ⟨conditions, hconditions, -⟩ := parseItems_ok_iff.mpr hany
  exact ⟨conditions, hconditions⟩

/-- A rejected record never matches. -/
theorem MatchesWith.not_rejected {request : PolicyEvaluationRequest} {rule : EvaluationRule}
    {effect : PolicyEffect} (h : MatchesWith request rule effect) : ¬ Rejected request rule := by
  intro hrejected
  obtain ⟨items, hiter, hitems⟩ := h.conditions
  rcases hrejected with hpattern | ⟨-, heffect | hactor | hresource | hconditions⟩
  · rw [h.pattern] at hpattern
    contradiction
  · rw [h.effect] at heffect
    contradiction
  · rw [h.actorType] at hactor
    contradiction
  · rw [h.resourceType] at hresource
    contradiction
  · refine hconditions ⟨items, hiter, fun item hmem => ?_⟩
    obtain ⟨condition, hc, -⟩ := hitems item hmem
    rw [hc]
    rfl

theorem MatchesWith.unique {request : PolicyEvaluationRequest} {rule : EvaluationRule}
    {a b : PolicyEffect} (ha : MatchesWith request rule a) (hb : MatchesWith request rule b) :
    a = b :=
  Option.some.inj (ha.effect.symm.trans hb.effect)

/-- What reading one rule means: an exception is a rejected record, a value is a
match, and a rule passed over is neither. -/
theorem readRule_spec (request : PolicyEvaluationRequest) (rule : EvaluationRule) :
    match readRule request rule with
    | .error _ => Rejected request rule
    | .ok (.some effect) => MatchesWith request rule effect
    | .ok .none => ¬ Rejected request rule ∧ ∀ effect, ¬ MatchesWith request rule effect := by
  by_cases hpattern : ACTION_PATTERN.fullmatch rule.actionPattern = true
  case neg =>
    rw [Bool.not_eq_true] at hpattern
    simp only [readRule, hpattern, Bool.not_false, raiseIf_true, Py.error_bind]
    exact .inl hpattern
  by_cases happlies : actionMatches rule.actionPattern request.action = true
  case neg =>
    have hskip : readRule request rule = .ok .none := by
      simp [readRule, hpattern, happlies, pure, Except.pure]
    rw [hskip]
    refine ⟨?_, fun effect h => happlies h.applies⟩
    intro h
    rcases h with h | ⟨h, -⟩
    · rw [hpattern] at h
      contradiction
    · exact happlies h
  cases heffect : PolicyEffect.parse rule.effect with
  | none =>
    simp only [readRule, hpattern, happlies, heffect, orRaise, Bool.not_true, raiseIf_false,
      Py.ok_bind, Py.error_bind]
    exact .inr ⟨happlies, .inl heffect⟩
  | some effect =>
  by_cases hactorType : validType rule.actorType = true
  case neg =>
    rw [Bool.not_eq_true] at hactorType
    simp only [readRule, hpattern, happlies, heffect, hactorType, orRaise, Bool.not_true,
      Bool.not_false, raiseIf_false, raiseIf_true, Py.ok_bind, Py.error_bind]
    exact .inr ⟨happlies, .inr (.inl hactorType)⟩
  by_cases hresourceType : validType rule.resourceType = true
  case neg =>
    rw [Bool.not_eq_true] at hresourceType
    simp only [readRule, hpattern, happlies, heffect, hactorType, hresourceType, orRaise,
      Bool.not_true, Bool.not_false, raiseIf_false, raiseIf_true, Py.ok_bind, Py.error_bind]
    exact .inr ⟨happlies, .inr (.inr (.inl hresourceType))⟩
  -- the record up to its conditions is valid; what is left to read is them and the scope
  have hread : readRule request rule = (do
      let items ← rule.conditions.iterate
      let conditions ← items.mapM fun item =>
        orRaise (PolicyCondition.modelValidate item) .valueError
      if !scopeMatches rule.actorType request.actorType then return .none
      if !scopeMatches rule.resourceType request.resourceType then return .none
      if !conditions.all (conditionMatches · request) then return .none
      return .some effect) := by
    simp only [readRule, hpattern, happlies, heffect, hactorType, hresourceType, orRaise,
      Bool.not_true, raiseIf_false, Py.ok_bind]
    rfl
  rw [hread]
  by_cases hreadable : Readable rule.conditions
  case neg =>
    cases hiter : rule.conditions.iterate with
    | error e => exact .inr ⟨happlies, .inr (.inr (.inr hreadable))⟩
    | ok items =>
      rw [Py.ok_bind]
      cases hitems : items.mapM fun item =>
          orRaise (PolicyCondition.modelValidate item) .valueError with
      | error e => exact .inr ⟨happlies, .inr (.inr (.inr hreadable))⟩
      | ok conditions =>
        have hvalid := (parseItems_ok_iff (p := fun _ => true)).mp ⟨conditions, hitems,
          List.all_eq_true.mpr fun _ _ => rfl⟩
        refine absurd ⟨items, hiter, fun item hmem => ?_⟩ hreadable
        obtain ⟨condition, hc, -⟩ := hvalid item hmem
        rw [hc]
        rfl
  obtain ⟨items, hiter, hvalid⟩ := hreadable
  obtain ⟨conditions, hconditions⟩ := parseItems_ok hvalid
  have hnot : ¬ Rejected request rule := by
    intro h
    rcases h with h | ⟨-, h | h | h | h⟩
    · rw [hpattern] at h
      contradiction
    · rw [heffect] at h
      contradiction
    · rw [hactorType] at h
      contradiction
    · rw [hresourceType] at h
      contradiction
    · exact h ⟨items, hiter, hvalid⟩
  rw [hiter, Py.ok_bind, hconditions, Py.ok_bind]
  by_cases hactor : scopeMatches rule.actorType request.actorType = true
  case neg =>
    rw [if_pos (by simpa using hactor)]
    exact ⟨hnot, fun _ h => hactor h.actor⟩
  rw [if_neg (by simpa using hactor)]
  by_cases hresource : scopeMatches rule.resourceType request.resourceType = true
  case neg =>
    rw [if_pos (by simpa using hresource)]
    exact ⟨hnot, fun _ h => hresource h.resource⟩
  rw [if_neg (by simpa using hresource)]
  by_cases hall : conditions.all (conditionMatches · request) = true
  case neg =>
    rw [if_pos (by simpa using hall)]
    refine ⟨hnot, fun _ h => ?_⟩
    obtain ⟨items', hiter', hmatch⟩ := h.conditions
    have heq : items' = items := Except.ok.inj (hiter'.symm.trans hiter)
    rw [heq] at hmatch
    obtain ⟨conditions', hconditions', hall'⟩ := parseItems_ok_iff.mpr hmatch
    have hsame : conditions' = conditions := Except.ok.inj (hconditions'.symm.trans hconditions)
    rw [hsame] at hall'
    exact hall hall'
  rw [if_neg (by simpa using hall)]
  exact ⟨hpattern, happlies, heffect, hactorType, hresourceType, hactor, hresource,
    items, hiter, parseItems_ok_iff.mp ⟨conditions, hconditions, hall⟩⟩

/-- The effect a rule brings to the decision, if any. -/
def contribution (request : PolicyEvaluationRequest) (rule : EvaluationRule) :
    Option PolicyEffect :=
  match readRule request rule with
  | .error _ => .some .block
  | .ok effect => effect

theorem counts_iff {request : PolicyEvaluationRequest} {rule : EvaluationRule}
    {effect : PolicyEffect} :
    Counts request rule effect ↔ contribution request rule = .some effect := by
  have hspec := readRule_spec request rule
  unfold contribution
  cases hread : readRule request rule with
  | error e =>
    rw [hread] at hspec
    constructor
    · intro h
      rcases h with ⟨-, h⟩ | h
      · rw [h]
      · exact absurd hspec h.not_rejected
    · intro h
      exact .inl ⟨hspec, (Option.some.inj h).symm⟩
  | ok found =>
    rw [hread] at hspec
    cases found with
    | none =>
      constructor
      · intro h
        rcases h with ⟨h, -⟩ | h
        · exact absurd h hspec.1
        · exact absurd h (hspec.2 effect)
      · intro h
        cases h
    | some own =>
      have hmatch : MatchesWith request rule own := hspec
      constructor
      · intro h
        rcases h with ⟨h, -⟩ | h
        · exact absurd h hmatch.not_rejected
        · rw [hmatch.unique h]
      · intro h
        rw [← Option.some.inj h]
        exact .inr hmatch

/-! ## The loop -/

/-- The loop ends at a rejected rule of the list, which counts as BLOCK. -/
theorem matchingRules_error {request : PolicyEvaluationRequest} :
    ∀ {rules : List EvaluationRule} {rule : EvaluationRule},
    matchingRules request rules = .error rule → rule ∈ rules ∧ Rejected request rule
  | head :: rest, rule, h => by
    have hspec := readRule_spec request head
    rw [matchingRules] at h
    split at h
    next e hread =>
      cases h
      rw [hread] at hspec
      exact ⟨List.mem_cons_self, hspec⟩
    next hread =>
      obtain ⟨hmem, hrejected⟩ := matchingRules_error h
      exact ⟨List.mem_cons_of_mem _ hmem, hrejected⟩
    next effect hread =>
      cases hrest : matchingRules request rest with
      | error other =>
        rw [hrest] at h
        cases h
        obtain ⟨hmem, hrejected⟩ := matchingRules_error hrest
        exact ⟨List.mem_cons_of_mem _ hmem, hrejected⟩
      | ok found =>
        rw [hrest] at h
        cases h

/-- The loop reads to the end when no rule is rejected, and then keeps the matches. -/
theorem matchingRules_ok {request : PolicyEvaluationRequest} : ∀ {rules : List EvaluationRule}
    {found : List (EvaluationRule × PolicyEffect)}, matchingRules request rules = .ok found →
      (∀ rule ∈ rules, ¬ Rejected request rule) ∧
        found = rules.filterMap fun rule => (contribution request rule).map (Prod.mk rule)
  | [], found, h => by
    cases h
    exact ⟨fun _ hmem => absurd hmem List.not_mem_nil, rfl⟩
  | head :: rest, found, h => by
    have hspec := readRule_spec request head
    rw [matchingRules] at h
    split at h
    next => cases h
    next hread =>
      rw [hread] at hspec
      obtain ⟨hnone, hfound⟩ := matchingRules_ok h
      have hcontribution : contribution request head = .none := by rw [contribution, hread]
      refine ⟨List.forall_mem_cons.mpr ⟨hspec.1, hnone⟩, ?_⟩
      rw [hfound, List.filterMap_cons_none (by rw [hcontribution]; rfl)]
    next effect hread =>
      rw [hread] at hspec
      have hmatch : MatchesWith request head effect := hspec
      cases hrest : matchingRules request rest with
      | error other =>
        rw [hrest] at h
        cases h
      | ok others =>
        rw [hrest] at h
        cases h
        obtain ⟨hnone, hothers⟩ := matchingRules_ok hrest
        have hcontribution : contribution request head = .some effect := by rw [contribution, hread]
        refine ⟨List.forall_mem_cons.mpr ⟨hmatch.not_rejected, hnone⟩, ?_⟩
        rw [hothers, List.filterMap_cons_some (b := (head, effect)) (by rw [hcontribution]; rfl)]

/-- The largest effect of a list, or REQUIRE_CONFIRMATION for an empty one. -/
def strictest (effects : List PolicyEffect) : PolicyEffect := effects.max?.getD NO_MATCH_EFFECT

theorem le_strictest {effects : List PolicyEffect} {effect : PolicyEffect} (h : effect ∈ effects) :
    effect ≤ strictest effects := by
  cases hmax : effects.max? with
  | none =>
    rw [List.max?_eq_none_iff] at hmax
    rw [hmax] at h
    exact absurd h List.not_mem_nil
  | some largest =>
    rw [strictest, hmax]
    exact (List.max?_eq_some_iff.mp hmax).2 effect h

theorem strictest_mem {effects : List PolicyEffect} (hne : effects ≠ []) :
    strictest effects ∈ effects := by
  cases hmax : effects.max? with
  | none => exact absurd (List.max?_eq_none_iff.mp hmax) hne
  | some largest =>
    rw [strictest, hmax]
    exact (List.max?_eq_some_iff.mp hmax).1

/-- An effect of the list that is at least every other is the strictest. -/
theorem strictest_eq {effects : List PolicyEffect} {effect : PolicyEffect} (hmem : effect ∈ effects)
    (hle : ∀ other ∈ effects, other ≤ effect) : strictest effects = effect :=
  le_antisymm (hle _ (strictest_mem (List.ne_nil_of_mem hmem))) (le_strictest hmem)

theorem strictest_perm {xs ys : List PolicyEffect} (h : xs.Perm ys) :
    strictest xs = strictest ys := by
  by_cases hne : xs = []
  · rw [hne] at h
    rw [hne, List.nil_perm.mp h]
  · exact (strictest_eq (h.mem_iff.mp (strictest_mem hne)) fun other hother =>
      le_strictest (h.mem_iff.mpr hother)).symm

/-- The first match of the reverse sort has the largest effect. -/
theorem decisionOf_effect {found : List (EvaluationRule × PolicyEffect)} (hne : found ≠ []) :
    (decisionOf found).effect = strictest (found.map Prod.snd) := by
  have htrans : ∀ a b c : EvaluationRule × PolicyEffect, strongerFirst a b = true →
    strongerFirst b c = true →
      strongerFirst a c = true := by
    intro a b c hab hbc
    simp only [strongerFirst, Bool.or_eq_true, Bool.and_eq_true, decide_eq_true_eq] at hab hbc ⊢
    rcases hab with hab | ⟨hab, hab'⟩ <;> rcases hbc with hbc | ⟨hbc, hbc'⟩
    · exact .inl (by omega)
    · exact .inl (by omega)
    · exact .inl (by omega)
    · exact .inr ⟨by omega, le_trans hbc' hab'⟩
  have htotal : ∀ a b : EvaluationRule × PolicyEffect, (strongerFirst a b || strongerFirst b a) =
      true := by
    intro a b
    simp only [strongerFirst, Bool.or_eq_true, Bool.and_eq_true, decide_eq_true_eq]
    rcases Nat.lt_trichotomy b.2.precedence a.2.precedence with h | h | h
    · exact .inl (.inl h)
    · rcases le_total b.1.id.str a.1.id.str with hle | hle
      · exact .inl (.inr ⟨h, hle⟩)
      · exact .inr (.inr ⟨h.symm, hle⟩)
    · exact .inr (.inl h)
  have hsorted := List.pairwise_mergeSort htrans htotal found
  have hperm := List.mergeSort_perm found strongerFirst
  cases hlist : found.mergeSort strongerFirst with
  | nil =>
    rw [hlist] at hperm
    exact absurd (List.nil_perm.mp hperm) hne
  | cons first rest =>
    rw [hlist] at hsorted hperm
    have heffect : (decisionOf found).effect = first.2 := by simp [decisionOf, hlist]
    rw [heffect]
    refine (strictest_eq
      (List.mem_map.mpr ⟨first, hperm.mem_iff.mp List.mem_cons_self, rfl⟩) ?_).symm
    intro other hother
    obtain ⟨item, hitem, hitemEffect⟩ := List.mem_map.mp hother
    rw [← hitemEffect, PolicyEffect.le_iff]
    rcases List.mem_cons.mp (hperm.mem_iff.mpr hitem) with heq | hrest
    · rw [heq]
    · have hfirst := List.rel_of_pairwise_cons hsorted hrest
      simp only [strongerFirst, Bool.or_eq_true, Bool.and_eq_true, decide_eq_true_eq] at hfirst
      rcases hfirst with h | ⟨h, -⟩ <;> omega

/-- **The effect of a decision is the strictest contribution**, rejected records included. -/
theorem evaluateRules_effect (request : PolicyEvaluationRequest) (rules : List EvaluationRule) :
    (evaluateRules request rules).effect = strictest (rules.filterMap (contribution request)) := by
  unfold evaluateRules
  split
  next rule h =>
    obtain ⟨hmem, hrejected⟩ := matchingRules_error h
    have hblock : contribution request rule = .some .block := counts_iff.mp (.inl ⟨hrejected, rfl⟩)
    exact (strictest_eq (List.mem_filterMap.mpr ⟨rule, hmem, hblock⟩) fun other _ =>
      PolicyEffect.le_block other).symm
  next h =>
    obtain ⟨-, hfound⟩ := matchingRules_ok h
    have hnil : rules.filterMap (contribution request) = [] := by
      have hmap := congrArg (List.map Prod.snd) hfound
      rw [List.map_filterMap] at hmap
      simpa [Function.comp_def] using hmap.symm
    rw [hnil]
    rfl
  next found hne h =>
    obtain ⟨-, hfound⟩ := matchingRules_ok h
    have hmap := congrArg (List.map Prod.snd) hfound
    rw [List.map_filterMap] at hmap
    rw [decisionOf_effect hne, hmap]
    simp [Function.comp_def]

/-- Matches sorted by `str(id)` do not depend on the order they were found in. -/
theorem mergeSort_byId_perm {xs ys : List (EvaluationRule × PolicyEffect)} (hperm : xs.Perm ys)
    (hids : (xs.map fun item => item.1.id).Nodup) : xs.mergeSort byId = ys.mergeSort byId := by
  have htrans : ∀ a b c : EvaluationRule × PolicyEffect, byId a b = true → byId b c = true →
      byId a c = true := by
    intro a b c hab hbc
    simp only [byId, decide_eq_true_eq] at hab hbc ⊢
    exact le_trans hab hbc
  have htotal : ∀ a b : EvaluationRule × PolicyEffect, (byId a b || byId b a) = true := by
    intro a b
    simp only [byId, Bool.or_eq_true, decide_eq_true_eq]
    exact le_total a.1.id.str b.1.id.str
  have hx := List.mergeSort_perm xs byId
  have hy := List.mergeSort_perm ys byId
  refine List.Perm.eq_of_pairwise ?_ (List.pairwise_mergeSort htrans htotal xs)
    (List.pairwise_mergeSort htrans htotal ys)
    (hx.trans (hperm.trans hy.symm))
  intro a b ha hb hab hba
  simp only [byId, decide_eq_true_eq] at hab hba
  exact List.inj_on_of_nodup_map hids (hx.mem_iff.mp ha) (hperm.mem_iff.mpr (hy.mem_iff.mp hb))
    (Uuid.str_inj (le_antisymm hab hba))

theorem decisionOf_perm {xs ys : List (EvaluationRule × PolicyEffect)} (hperm : xs.Perm ys)
    (hne : xs ≠ []) (hids : (xs.map fun item => item.1.id).Nodup) :
    decisionOf xs = decisionOf ys := by
  have hney : ys ≠ [] := by
    intro h
    rw [h] at hperm
    exact hne (List.perm_nil.mp hperm)
  have heffect : (decisionOf xs).effect = (decisionOf ys).effect := by
    rw [decisionOf_effect hne, decisionOf_effect hney]
    exact strictest_perm (hperm.map Prod.snd)
  have hordered := mergeSort_byId_perm hperm hids
  simp only [decisionOf] at heffect ⊢
  rw [heffect, hordered]

/-- A well-formed record is not rejected. -/
theorem WellFormed.not_rejected {request : PolicyEvaluationRequest} {rule : EvaluationRule}
    (h : WellFormed rule) :
    ¬ Rejected request rule := by
  intro hrejected
  rcases hrejected with hpattern | ⟨-, heffect | hactor | hresource | hconditions⟩
  · rw [h.pattern] at hpattern
    contradiction
  · have hsome := h.effect
    rw [heffect] at hsome
    contradiction
  · rw [h.actorType] at hactor
    contradiction
  · rw [h.resourceType] at hresource
    contradiction
  · exact hconditions (readable_iff.mpr (.inl h.conditions))

/-- A rule that applies is well formed, rejected, or has a conditions value that holds nothing. -/
theorem malformed_cases {request : PolicyEvaluationRequest} {rule : EvaluationRule}
    (happlies : Applies request rule) (hmalformed : ¬ WellFormed rule) : Rejected request rule ∨
    rule.conditions.holdsNothing = true := by
  by_cases hpattern : ACTION_PATTERN.fullmatch rule.actionPattern = true
  case neg => exact .inl (.inl (Bool.not_eq_true _ ▸ hpattern))
  by_cases heffect : (PolicyEffect.parse rule.effect).isSome = true
  case neg => exact .inl (.inr ⟨happlies, .inl (Option.not_isSome_iff_eq_none.mp heffect)⟩)
  by_cases hactor : validType rule.actorType = true
  case neg => exact .inl (.inr ⟨happlies, .inr (.inl (Bool.not_eq_true _ ▸ hactor))⟩)
  by_cases hresource : validType rule.resourceType = true
  case neg => exact .inl (.inr ⟨happlies, .inr (.inr (.inl (Bool.not_eq_true _ ▸ hresource)))⟩)
  by_cases hreadable : Readable rule.conditions
  case neg => exact .inl (.inr ⟨happlies, .inr (.inr (.inr hreadable))⟩)
  rcases readable_iff.mp hreadable with hlist | hnothing
  · exact absurd ⟨hpattern, heffect, hactor, hresource, hlist⟩ hmalformed
  · exact .inr hnothing

/-! ## The laws -/

/-- What the evaluation of a list of rules promises. -/
structure EvaluationLaws (request : PolicyEvaluationRequest) (rules : List EvaluationRule) :
    Prop where
  /-- The effect does not depend on the order of the rules. -/
  effect_order : ∀ other : List EvaluationRule, other.Perm rules →
    (evaluateRules request other).effect = (evaluateRules request rules).effect
  /-- Nor does the whole decision, when the rules are well formed. -/
  decision_order : (∀ rule ∈ rules, WellFormed rule) → ∀ other : List EvaluationRule,
    other.Perm rules →
    evaluateRules request other = evaluateRules request rules
  /-- The effect is at least as strict as that of every rule that counts, -/
  upper : ∀ rule ∈ rules, ∀ effect, Counts request rule effect →
    effect ≤ (evaluateRules request rules).effect
  /-- it is the effect of one of them, -/
  attained : (∃ rule ∈ rules, ∃ effect, Counts request rule effect) →
    ∃ rule ∈ rules, Counts request rule (evaluateRules request rules).effect
  /-- and it is REQUIRE_CONFIRMATION when none counts. -/
  unmatched : (∀ rule ∈ rules, ∀ effect, ¬ Counts request rule effect) →
    (evaluateRules request rules).effect = .requireConfirmation
  /-- One more rule that counts never weakens the effect. -/
  monotone : ∀ (before after : List EvaluationRule) (rule : EvaluationRule),
    rules = before ++ after →
    (∃ old ∈ rules, ∃ effect, Counts request old effect) → (∃ effect, Counts request rule effect) →
      (evaluateRules request rules).effect ≤
        (evaluateRules request (before ++ rule :: after)).effect
  /-- A malformed rule that applies makes the effect BLOCK. -/
  fail_closed : ∀ rule ∈ rules, Applies request rule → ¬ WellFormed rule →
    (evaluateRules request rules).effect = .block

/-- No applicable rule has an empty object or an empty string for its conditions, or
the effect is BLOCK for another rule's sake. -/
def NoEmptyConditions (request : PolicyEvaluationRequest) (rules : List EvaluationRule) : Prop :=
  (∀ rule ∈ rules, Applies request rule → rule.conditions.holdsNothing = false) ∨
    ∃ rule ∈ rules, Counts request rule .block

section Laws

variable {request : PolicyEvaluationRequest} {rules : List EvaluationRule}

theorem mem_contributions {effect : PolicyEffect} :
    effect ∈ rules.filterMap (contribution request) ↔ ∃ rule ∈ rules,
      Counts request rule effect := by
  simp only [List.mem_filterMap, counts_iff]

theorem effect_eq_of_perm {other : List EvaluationRule} (hperm : other.Perm rules) :
    (evaluateRules request other).effect = (evaluateRules request rules).effect := by
  rw [evaluateRules_effect, evaluateRules_effect]
  exact strictest_perm (hperm.filterMap _)

/-- The rules of the matches are the rules that contribute. -/
theorem matches_map_fst : ∀ rules : List EvaluationRule,
    (rules.filterMap fun rule => (contribution request rule).map (Prod.mk rule)).map Prod.fst =
      rules.filter fun rule => (contribution request rule).isSome
  | [] => rfl
  | rule :: rest => by
    cases h : contribution request rule with
    | none => simp [h, matches_map_fst rest]
    | some effect => simp [h, matches_map_fst rest]

theorem decision_eq_of_perm (hids : (rules.map EvaluationRule.id).Nodup)
    (hwell : ∀ rule ∈ rules, WellFormed rule) {other : List EvaluationRule}
    (hperm : other.Perm rules) : evaluateRules request other = evaluateRules request rules := by
  have hread : ∀ list : List EvaluationRule, list.Perm rules → matchingRules request list =
      .ok (list.filterMap fun rule => (contribution request rule).map (Prod.mk rule)) := by
    intro list hlist
    cases h : matchingRules request list with
    | error rule =>
      obtain ⟨hmem, hrejected⟩ := matchingRules_error h
      exact absurd hrejected (hwell rule (hlist.mem_iff.mp hmem)).not_rejected
    | ok found => rw [(matchingRules_ok h).2]
  have hfound := hperm.filterMap fun rule => (contribution request rule).map (Prod.mk rule)
  have hother := hread other hperm
  have hown := hread rules (List.Perm.refl rules)
  generalize (other.filterMap fun rule => (contribution request rule).map (Prod.mk rule)) =
    xs at hfound hother
  generalize hys :
    (rules.filterMap fun rule => (contribution request rule).map (Prod.mk rule)) = ys at hfound hown
  have hidsFound : (ys.map fun item => item.1.id).Nodup := by
    have hsub : (ys.map Prod.fst).Sublist rules := by
      rw [← hys, matches_map_fst]
      exact List.filter_sublist
    have hmap := hids.sublist (hsub.map EvaluationRule.id)
    rwa [List.map_map] at hmap
  rw [evaluateRules, evaluateRules, hother, hown]
  cases xs with
  | nil => rw [List.nil_perm.mp hfound]
  | cons x xs =>
    cases ys with
    | nil => cases List.perm_nil.mp hfound
    | cons y ys =>
      exact decisionOf_perm hfound (List.cons_ne_nil x xs) ((hfound.map _).nodup_iff.mpr hidsFound)

theorem effect_upper {rule : EvaluationRule} (hmem : rule ∈ rules) {effect : PolicyEffect}
    (h : Counts request rule effect) :
    effect ≤ (evaluateRules request rules).effect := by
  rw [evaluateRules_effect]
  exact le_strictest (mem_contributions.mpr ⟨rule, hmem, h⟩)

theorem effect_attained (h : ∃ rule ∈ rules, ∃ effect, Counts request rule effect) :
    ∃ rule ∈ rules, Counts request rule (evaluateRules request rules).effect := by
  obtain ⟨rule, hmem, effect, hcounts⟩ := h
  rw [evaluateRules_effect]
  exact mem_contributions.mp
    (strictest_mem (List.ne_nil_of_mem (mem_contributions.mpr ⟨rule, hmem, hcounts⟩)))

theorem effect_unmatched (h : ∀ rule ∈ rules, ∀ effect, ¬ Counts request rule effect) :
    (evaluateRules request rules).effect = .requireConfirmation := by
  have hnil : rules.filterMap (contribution request) = [] := by
    rw [List.eq_nil_iff_forall_not_mem]
    intro effect hmem
    obtain ⟨rule, hrule, hcounts⟩ := mem_contributions.mp hmem
    exact h rule hrule effect hcounts
  rw [evaluateRules_effect, hnil]
  rfl

/-- A list with more rules is no weaker, once a rule counts. -/
theorem effect_mono {other : List EvaluationRule} (hsub : ∀ rule ∈ rules, rule ∈ other)
    (h : ∃ rule ∈ rules, ∃ effect, Counts request rule effect) :
    (evaluateRules request rules).effect ≤ (evaluateRules request other).effect := by
  obtain ⟨rule, hmem, hcounts⟩ := effect_attained h
  exact effect_upper (hsub rule hmem) hcounts

theorem effect_block (h : ∃ rule ∈ rules, Counts request rule .block) :
    (evaluateRules request rules).effect = .block := by
  obtain ⟨rule, hmem, hcounts⟩ := h
  exact le_antisymm (PolicyEffect.le_block _) (effect_upper hmem hcounts)

end Laws

/-- **When policy evaluation keeps its laws**: exactly when no applicable rule's
conditions are an empty object or an empty string, unless another rule makes the
effect BLOCK. All laws but the fail-closed one hold of every list. -/
theorem evaluation_laws (request : PolicyEvaluationRequest) (rules : List EvaluationRule)
    (hids : (rules.map EvaluationRule.id).Nodup) :
    EvaluationLaws request rules ↔ NoEmptyConditions request rules := by
  constructor
  · intro laws
    by_cases hempty : ∀ rule ∈ rules, Applies request rule → rule.conditions.holdsNothing = false
    · exact .inl hempty
    · push Not at hempty
      obtain ⟨rule, hmem, happlies, hnothing⟩ := hempty
      have hmalformed : ¬ WellFormed rule := by
        intro hwell
        obtain ⟨items, hitems, -⟩ := hwell.conditions
        rw [hitems] at hnothing
        exact hnothing rfl
      have hblock := laws.fail_closed rule hmem happlies hmalformed
      by_cases hcounts : ∃ rule ∈ rules, ∃ effect, Counts request rule effect
      · have hattained := laws.attained hcounts
        rw [hblock] at hattained
        exact .inr hattained
      · push Not at hcounts
        have hdefault := laws.unmatched hcounts
        rw [hblock] at hdefault
        contradiction
  · intro hcovered
    refine
      { effect_order := fun _ hperm => effect_eq_of_perm hperm
        decision_order := fun hwell _ hperm => decision_eq_of_perm hids hwell hperm
        upper := fun _ hmem _ h => effect_upper hmem h
        attained := effect_attained
        unmatched := effect_unmatched
        monotone := ?_
        fail_closed := ?_ }
    · intro before after rule hrules hold _
      refine effect_mono (fun old hmem => ?_) hold
      rw [hrules, List.mem_append] at hmem
      rw [List.mem_append, List.mem_cons]
      tauto
    · intro rule hmem happlies hmalformed
      rcases malformed_cases happlies hmalformed with hrejected | hnothing
      · exact effect_block ⟨rule, hmem, .inl ⟨hrejected, rfl⟩⟩
      · rcases hcovered with hnone | hblock
        · rw [hnone rule hmem happlies] at hnothing
          contradiction
        · exact effect_block hblock

/-- `repository.write` with no scope and no context. -/
def writeRequest : PolicyEvaluationRequest :=
  ⟨"repository.write".toList, .none, .none, ⟨.none, .none, .none⟩⟩

/-- An ALLOW rule for that action with these conditions. -/
def allowRule (conditions : JsonValue) : EvaluationRule where
  id := 1
  name := "Rule 1".toList
  actionPattern := "repository.write".toList
  effect := .string "ALLOW".toList
  actorType := .none
  resourceType := .none
  conditions := conditions

/-- A rule whose stored conditions are `{}` is malformed and applies, and still allows. -/
theorem evaluation_laws_empty_object : ¬ EvaluationLaws writeRequest [allowRule (.object [])] := by
  intro laws
  have hmalformed : ¬ WellFormed (allowRule (.object [])) := by
    intro hwell
    obtain ⟨items, hitems, -⟩ := hwell.conditions
    cases hitems
  have happlies : Applies writeRequest (allowRule (.object [])) := show actionMatches _ _ = true by
    decide
  have hblock := laws.fail_closed _ List.mem_cons_self happlies hmalformed
  have hallow : (evaluateRules writeRequest [allowRule (.object [])]).effect = .allow := by
    rw [evaluateRules_effect]
    decide
  rw [hallow] at hblock
  contradiction

theorem evaluation_laws_empty_list : EvaluationLaws writeRequest [allowRule (.array [])] :=
  (evaluation_laws writeRequest [allowRule (.array [])] (by decide)).mpr
    (.inl fun rule hmem _ => by rw [List.mem_singleton.mp hmem]; rfl)

end Novalton.Policy
