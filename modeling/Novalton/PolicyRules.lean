/-
Policy evaluation. `evaluate_rules` reads stored rules one after the other: a record
it cannot parse ends the evaluation with BLOCK, a rule whose action, scope or
conditions do not match is passed over, and the strictest effect of the rest decides.

The laws of that evaluation are those of a maximum: a rule contributes an effect or
nothing, and the decision is the largest contribution.
-/
import Mathlib.Order.MinMax
import Mathlib.Data.List.Sort
import Novalton.Regex
import Novalton.Status

namespace Novalton

namespace Policy

/-! ## Stored values and conditions -/

/-- A value of a JSONB column. -/
inductive JsonValue where
  | null
  | bool (value : Bool)
  | number (value : Rat)
  | string (value : Text)
  | array (items : List JsonValue)
  | object (fields : List (Text × JsonValue))

def lowercase (c : Char) : Bool := 'a' ≤ c && c ≤ 'z'

/-- `[a-z0-9_]`. -/
def identifierChar (c : Char) : Bool := lowercase c || ('0' ≤ c && c ≤ '9') || c == '_'

/-- `[a-z][a-z0-9_]*`. -/
def segment : Regex := .seq (.char lowercase) (.star (.char identifierChar))

/-- `^(?:\*|[a-z][a-z0-9_]*(?:\.[a-z][a-z0-9_]*)*(?:\.\*)?)$` -/
def ACTION_PATTERN : Regex :=
  .alt (.literal "*".toList)
    (.seq segment
      (.seq (.star (.seq (.literal ".".toList) segment)) (.optional (.literal ".*".toList))))

/-- `^[a-z][a-z0-9_]{0,63}$` -/
def TYPE_IDENTIFIER : Regex := .seq (.char lowercase) (.upTo (.char identifierChar) 63)

/-- `^[a-z][a-z0-9_-]{0,31}$` -/
def ENVIRONMENT : Regex :=
  .seq (.char lowercase) (.upTo (.char fun c => identifierChar c || c == '-') 31)

inductive RiskLevel where
  | low | medium | high | critical
deriving DecidableEq, Repr

def RiskLevel.value : RiskLevel → Text
  | .low => "LOW".toList
  | .medium => "MEDIUM".toList
  | .high => "HIGH".toList
  | .critical => "CRITICAL".toList

inductive ConditionField where
  | riskLevel | environment | reversible
deriving DecidableEq, Repr

inductive ConditionOperator where
  | equals | isIn
deriving DecidableEq, Repr

/-- `str | bool | list[str]`. -/
inductive ConditionValue where
  | text (value : Text)
  | flag (value : Bool)
  | texts (values : List Text)
deriving DecidableEq, Repr

/-- The values a text field is checked against: the list, or the one value; `none` is a boolean
among them. -/
def ConditionValue.strings : ConditionValue → Option (List Text)
  | .text value => .some [value]
  | .flag _ => .none
  | .texts values => .some values

/-- `PolicyCondition.validate_semantics`. -/
def validateSemantics (field : ConditionField) (operator : ConditionOperator)
    (value : ConditionValue) : Bool :=
  (match operator, value with
    | .isIn, .texts values => 1 ≤ values.length && values.length ≤ 8
    | .isIn, _ => false
    | .equals, .texts _ => false
    | .equals, _ => true) &&
  match field, value with
    | .reversible, .flag _ => operator = .equals
    | .reversible, _ => false
    | .riskLevel, value =>
      value.strings.any fun values =>
        values.all [RiskLevel.low.value, RiskLevel.medium.value, RiskLevel.high.value,
          RiskLevel.critical.value].contains
    | .environment, value => value.strings.any fun values => values.all ENVIRONMENT.fullmatch

/-- A condition that passed its own validation. -/
structure PolicyCondition where
  field : ConditionField
  operator : ConditionOperator
  value : ConditionValue
  valid : validateSemantics field operator value = true
deriving DecidableEq

def ConditionField.parse : JsonValue → Option ConditionField
  | .string value =>
    if value = "risk_level".toList then .some .riskLevel
    else if value = "environment".toList then .some .environment
    else if value = "reversible".toList then .some .reversible
    else .none
  | _ => .none

def ConditionOperator.parse : JsonValue → Option ConditionOperator
  | .string value => if value = "equals".toList then .some .equals else if value = "in".toList then
    .some .isIn else .none
  | _ => .none

def JsonValue.string? : JsonValue → Option Text
  | .string value => .some value
  | _ => .none

def ConditionValue.parse : JsonValue → Option ConditionValue
  | .string value => .some (.text value)
  | .bool value => .some (.flag value)
  | .array items => (items.mapM JsonValue.string?).map .texts
  | _ => .none

/-- `PolicyCondition.model_validate(item)`: exactly the three fields, each of its
type, and then the semantics. -/
def PolicyCondition.modelValidate : JsonValue → Option PolicyCondition
  | .object fields => do
    guard (fields.all fun entry =>
      ["field".toList, "operator".toList, "value".toList].contains entry.1)
    let field ← ConditionField.parse (← fields.lookup "field".toList)
    let operator ← ConditionOperator.parse (← fields.lookup "operator".toList)
    let value ← ConditionValue.parse (← fields.lookup "value".toList)
    if valid : validateSemantics field operator value = true then
      .some ⟨field, operator, value, valid⟩ else .none
  | _ => .none

/-! ## Requests and rules -/

/-- The context fields a condition may look at. -/
structure PolicyEvaluationContext where
  riskLevel : Option RiskLevel
  environment : Option Text
  reversible : Option Bool
deriving DecidableEq

/-- What evaluation reads of a request. -/
structure PolicyEvaluationRequest where
  action : Text
  actorType : Option Text
  resourceType : Option Text
  context : PolicyEvaluationContext
deriving DecidableEq

/-- A rule as it is stored; effect and conditions are not trusted to be well formed. -/
structure EvaluationRule where
  id : Uuid
  name : Text
  actionPattern : Text
  effect : JsonValue
  actorType : Option Text
  resourceType : Option Text
  conditions : JsonValue

structure PolicyEvaluationResult where
  effect : PolicyEffect
  matchedRuleIds : List Uuid
  matchedRuleNames : List Text
  reasons : List Text
  confirmationRequired : Bool
  auditRequired : Bool
deriving DecidableEq

end Policy

def PolicyEffect.value : PolicyEffect → Text
  | .allow => "ALLOW".toList
  | .allowWithLog => "ALLOW_WITH_LOG".toList
  | .requireConfirmation => "REQUIRE_CONFIRMATION".toList
  | .block => "BLOCK".toList

/-- `EFFECT_PRECEDENCE`. -/
def PolicyEffect.precedence : PolicyEffect → Nat
  | .allow => 0
  | .allowWithLog => 1
  | .requireConfirmation => 2
  | .block => 3

theorem PolicyEffect.precedence_injective : Function.Injective PolicyEffect.precedence := by
  intro a b h
  cases a <;> cases b <;> first | rfl | simp [precedence] at h

/-- Effects are ordered from the weakest to the strictest. -/
instance : LinearOrder PolicyEffect :=
  LinearOrder.lift' PolicyEffect.precedence PolicyEffect.precedence_injective

theorem PolicyEffect.le_iff {a b : PolicyEffect} : a ≤ b ↔ a.precedence ≤ b.precedence := Iff.rfl

theorem PolicyEffect.le_block (a : PolicyEffect) : a ≤ .block := by
  rw [PolicyEffect.le_iff]
  cases a <;> simp [precedence]

namespace Policy

def NO_MATCH_EFFECT : PolicyEffect := .requireConfirmation

/-- `PolicyEffect(value)`. -/
def PolicyEffect.parse : JsonValue → Option PolicyEffect
  | .string value => [PolicyEffect.allow, .allowWithLog, .requireConfirmation, .block].find?
    (fun effect => effect.value = value)
  | _ => .none

/-- An exact action name, or one terminal namespace wildcard. -/
def actionMatches (pattern action : Text) : Bool :=
  if pattern = "*".toList then true
  else if ".*".toList.isSuffixOf pattern then
    (pattern.take (pattern.length - 2) ++ ".".toList).isPrefixOf action
  else pattern = action

/-- The context value a condition looks at, as the condition spells values. -/
def contextValue (context : PolicyEvaluationContext) : ConditionField → Option ConditionValue
  | .riskLevel => context.riskLevel.map fun level => .text level.value
  | .environment => context.environment.map .text
  | .reversible => context.reversible.map .flag

/-- `actual in values`. -/
def ConditionValue.isAmong : ConditionValue → ConditionValue → Bool
  | .text actual, .texts values => values.contains actual
  | _, _ => false

def conditionMatches (condition : PolicyCondition) (request : PolicyEvaluationRequest) : Bool :=
  match contextValue request.context condition.field with
  | .none => false
  | .some actual =>
    match condition.operator with
    | .equals => actual = condition.value
    | .isIn => actual.isAmong condition.value

/-- The items `for item in value` gives: of a string its characters, of an object
its keys. The `TypeError` of other values is caught where a `ValueError` is. -/
def JsonValue.iterate : JsonValue → Py (List JsonValue)
  | .array items => .ok items
  | .object fields => .ok (fields.map fun entry => .string entry.1)
  | .string value => .ok (value.map fun c => .string [c])
  | .null | .bool _ | .number _ => .error .valueError

/-- `TYPE_IDENTIFIER` on an optional scope. -/
def validType (type : Option Text) : Bool := type.all TYPE_IDENTIFIER.fullmatch

/-- Whether a rule's scope, if it has one, is the request's. -/
def scopeMatches (scope actual : Option Text) : Bool := scope.isNone || scope = actual

/-- The body of the loop: `none` passes the rule over, an exception is a record
that does not parse. The scope is looked at only after the whole record is parsed. -/
def readRule (request : PolicyEvaluationRequest) (rule : EvaluationRule) :
    Py (Option PolicyEffect) := do
  raiseIf (!ACTION_PATTERN.fullmatch rule.actionPattern) .valueError
  if !actionMatches rule.actionPattern request.action then return .none
  let effect ← orRaise (PolicyEffect.parse rule.effect) .valueError
  raiseIf (!validType rule.actorType) .valueError
  raiseIf (!validType rule.resourceType) .valueError
  let items ← rule.conditions.iterate
  let conditions ← items.mapM fun item => orRaise (PolicyCondition.modelValidate item) .valueError
  if !scopeMatches rule.actorType request.actorType then return .none
  if !scopeMatches rule.resourceType request.resourceType then return .none
  if !conditions.all (conditionMatches · request) then return .none
  return .some effect

def invalidRuleResult (rule : EvaluationRule) : PolicyEvaluationResult where
  effect := .block
  matchedRuleIds := [rule.id]
  matchedRuleNames := []
  reasons := ["rule:".toList ++ rule.id.str ++ ":invalid_fail_closed".toList]
  confirmationRequired := false
  auditRequired := true

/-- The loop: the matches in order, or the first rule that does not parse. -/
def matchingRules (request : PolicyEvaluationRequest) :
    List EvaluationRule → Except EvaluationRule (List (EvaluationRule × PolicyEffect))
  | [] => .ok []
  | rule :: rest =>
    match readRule request rule with
    | .error _ => .error rule
    | .ok .none => matchingRules request rest
    | .ok (.some effect) => (matchingRules request rest).map ((rule, effect) :: ·)

/-- `a` does not come before `b` when sorting by `(precedence, str(id))` in reverse. -/
def strongerFirst (a b : EvaluationRule × PolicyEffect) : Bool :=
  b.2.precedence < a.2.precedence ||
    (b.2.precedence = a.2.precedence && decide (b.1.id.str ≤ a.1.id.str))

/-- The order of `str(id)`. -/
def byId (a b : EvaluationRule × PolicyEffect) : Bool := decide (a.1.id.str ≤ b.1.id.str)

/-- The decision over the matches of a non-empty list. -/
def decisionOf (found : List (EvaluationRule × PolicyEffect)) : PolicyEvaluationResult :=
  let finalEffect := ((found.mergeSort strongerFirst).head?.map Prod.snd).getD NO_MATCH_EFFECT
  let ordered := found.mergeSort byId
  { effect := finalEffect
    matchedRuleIds := ordered.map fun item => item.1.id
    matchedRuleNames := ordered.map fun item => item.1.name
    reasons := ordered.map fun item => "rule:".toList ++ item.1.id.str ++ ":matched:".toList ++
      item.2.value
    confirmationRequired := finalEffect = .requireConfirmation
    auditRequired := finalEffect ≠ .allow }

def noMatchResult : PolicyEvaluationResult where
  effect := NO_MATCH_EFFECT
  matchedRuleIds := []
  matchedRuleNames := []
  reasons := ["no_matching_rule:confirmation_required".toList]
  confirmationRequired := true
  auditRequired := true

def evaluateRules (request : PolicyEvaluationRequest) (rules : List EvaluationRule) :
    PolicyEvaluationResult :=
  match matchingRules request rules with
  | .error rule => invalidRuleResult rule
  | .ok [] => noMatchResult
  | .ok found => decisionOf found

end Policy

end Novalton
