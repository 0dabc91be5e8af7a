/-
The restrictions a caller layers over a result contract, on both sides: `compile_contract`
writes them into the JSON schema the provider receives, `validate_result_shape` checks them
on the result (`modules/agents/contract_execution.py`).

A schema is the objects of its document by address, so that a definition several
references name is one object and a write to it is seen through each of them. The keywords
the compiler neither reads nor writes are one check of their own, over their subschemas.
The payload is what `model_dump(mode="json")` gives.
-/
import Mathlib.Data.List.Nodup
import Novalton.JsonText

namespace Novalton.ContractExecution

/-! ## Paths -/

inductive Token where
  | name (key : Text)
  | index (position : ℕ)
  | wildcard
deriving DecidableEq, Repr

/-- The zeros of the decimal digits `\d` matches, each followed by its nine others. -/
def decimalZeros : List ℕ :=
  [48, 1632, 1776, 1984, 2406, 2534, 2662, 2790, 2918, 3046, 3174, 3302, 3430, 3558, 3664, 3792,
    3872, 4160, 4240, 6112,
   6160, 6470, 6608, 6784, 6800, 6992, 7088, 7232, 7248, 42528, 43216, 43264, 43472, 43504, 43600,
     44016, 65296, 66720,
   68912, 69734, 69872, 69942, 70096, 70384, 70736, 70864, 71248, 71360, 71472, 71904, 72016, 72784,
     73040, 73120, 73552,
   92768, 92864, 93008, 120782, 120792, 120802, 120812, 120822, 123200, 123632, 124144, 125264,
     130032]

def decimal? (c : Char) : Option ℕ :=
  (decimalZeros.find? fun first => first ≤ c.toNat && c.toNat < first + 10).map fun first =>
    c.toNat - first

def isDecimal (c : Char) : Bool := (decimal? c).isSome

/-- `[A-Za-z_]`. -/
def nameStart (c : Char) : Bool := ('a' ≤ c && c ≤ 'z') || ('A' ≤ c && c ≤ 'Z') || c == '_'

/-- `[A-Za-z0-9_]`. -/
def nameChar (c : Char) : Bool := nameStart c || ('0' ≤ c && c ≤ '9')

/-- The number that decimal digits write. -/
def decimalValue (digits : Text) : ℕ :=
  digits.foldl (fun value c => 10 * value + (decimal? c).getD 0) 0

/-- The digits that Python's `int` takes at most. -/
def maxStrDigits : ℕ := 4300

/-- `int` of decimal digits. -/
def intOfDigits (digits : Text) : Except Text ℕ :=
  if maxStrDigits < digits.length then
    .error ("Exceeds the limit (4300 digits) for integer string conversion: value has ".toList ++
      (toString digits.length).toList ++
        " digits; use sys.set_int_max_str_digits() to increase the limit".toList)
  else .ok (decimalValue digits)

def pathInvalid : Text := "constraint path is invalid".toList

/-- `[A-Za-z_][A-Za-z0-9_]*` at the start of a text, and the rest. -/
def matchName : Text → Except Text (Token × Text)
  | [] => .error pathInvalid
  | c :: rest => if nameStart c then
      .ok (.name (c :: rest.takeWhile nameChar), rest.dropWhile nameChar) else .error pathInvalid

/-- `(\d+|\*)\]` at the start of a text, and the rest. -/
def matchIndex (text : Text) : Except Text (Token × Text) :=
  if ['*', ']'].isPrefixOf text then .ok (.wildcard, text.drop 2)
  else
    let digits := text.takeWhile isDecimal
    match text.dropWhile isDecimal with
    | ']' :: rest =>
      if digits.isEmpty then .error pathInvalid
      else (intOfDigits digits).map fun position => (.index position, rest)
    | _ => .error pathInvalid

/-- What `_PATH_PART` matches at a position, and the rest; `^` matches only at the first. -/
def matchPart (first : Bool) : Text → Except Text (Token × Text)
  | '[' :: rest => matchIndex rest
  | '.' :: rest => matchName rest
  | text => if first then matchName text else .error pathInvalid

/-- The parts from a position on. Every part takes a character, so the length is fuel enough. -/
def tokenizeFrom : ℕ → Bool → Text → Except Text (List Token)
  | _, _, [] => .ok []
  | 0, _, _ :: _ => .error pathInvalid
  | fuel + 1, first, text => do
    let part ← matchPart first text
    let tokens ← tokenizeFrom fuel false part.2
    return part.1 :: tokens

def tokenizePath (path : Text) : Except Text (List Token) := tokenizeFrom path.length true path

example : tokenizePath "plan.tasks[0].depends_on".toList =
    .ok [.name "plan".toList, .name "tasks".toList, .index 0, .name "depends_on".toList] := rfl

/-! ## Constraints -/

/-- The kind of a constraint with its `value`, or its `validator`. -/
inductive ShapeKind where
  | exactItems (value : ℕ)
  | minItems (value : ℕ)
  | maxItems (value : ℕ)
  | empty
  | allowedValues (value : List Text)
  | semantic (validator : JsonTree → Bool)

structure ShapeConstraint where
  code : Text
  path : Text
  kind : ShapeKind

def maxResultShapeConstraints : ℕ := 16

/-! ## Local validation -/

/-- `value[key]` of a `dict` that has the key. -/
def member (key : Text) : JsonTree → Option JsonTree
  | .object fields => Dict.get? fields key
  | _ => .none

/-- The values of a `list`. -/
def elements : JsonTree → List JsonTree
  | .array items => items
  | _ => []

/-- What a token leads to from a value. A `*` enters an object by a key `*`. -/
def Token.values : Token → JsonTree → List JsonTree
  | .name key, value => (member key value).toList
  | .index position, value => (elements value)[position]?.toList
  | .wildcard, .object fields => (Dict.get? fields ['*']).toList
  | .wildcard, value => elements value

def valuesFrom : List Token → List JsonTree → List JsonTree
  | [], values => values
  | token :: rest, values => valuesFrom rest (values.flatMap token.values)

def valuesAtPath (payload : JsonTree) (path : Text) : Except Text (List JsonTree) := do
  let tokens ← tokenizePath path
  return valuesFrom tokens [payload]

def constraintValueIsValid : ShapeKind → JsonTree → Bool
  | .semantic validator, value => validator value
  | .allowedValues allowed, .string text => allowed.contains text
  | .allowedValues _, _ => false
  | .exactItems count, .array items => items.length == count
  | .minItems count, .array items => decide (count ≤ items.length)
  | .maxItems count, .array items => decide (items.length ≤ count)
  | .empty, .array items => decide (items.length ≤ 0)
  | _, _ => false

structure ValidationFailure where
  code : Text
  path : Text
deriving DecidableEq, Repr

/-- The failure of one constraint, if it has one. -/
def constraintFailures (payload : JsonTree) (constraint : ShapeConstraint) :
    Except Text (List ValidationFailure) := do
  let values ← valuesAtPath payload constraint.path
  if values.isEmpty || values.any fun value => !constraintValueIsValid constraint.kind value then
    return [⟨constraint.code, constraint.path⟩]
  return []

def validateResultShape (payload : JsonTree) (constraints : List ShapeConstraint) :
    Except Text (List ValidationFailure) := do
  let failures ← (constraints.take maxResultShapeConstraints).mapM (constraintFailures payload)
  return failures.flatten

/-! ## Schemas -/

/-- A value an `enum` lists. -/
inductive Scalar where
  | null
  | bool (value : Bool)
  | number (text : Text)
  | string (value : Text)
deriving DecidableEq, Repr

def scalar? : JsonTree → Option Scalar
  | .null => .some .null
  | .bool value => .some (.bool value)
  | .number text => .some (.number text)
  | .string value => .some (.string value)
  | .array _ | .object _ => .none

/-- The keywords the compiler writes. -/
structure Bounds where
  minItems : Option ℕ := .none
  maxItems : Option ℕ := .none
  enum : Option (List Scalar) := .none
deriving DecidableEq, Repr

def minHolds (bound : Option ℕ) : JsonTree → Bool
  | .array items => bound.all (· ≤ items.length)
  | _ => true

def maxHolds (bound : Option ℕ) : JsonTree → Bool
  | .array items => bound.all (items.length ≤ ·)
  | _ => true

def enumHolds (values : Option (List Scalar)) (value : JsonTree) : Bool :=
  values.all fun allowed => (scalar? value).any allowed.contains

def Bounds.hold (bounds : Bounds) (value : JsonTree) : Bool :=
  minHolds bounds.minItems value && maxHolds bounds.maxItems value && enumHolds bounds.enum value

/-- An object of a schema: `$ref`, `properties`, `items`, the bounds, and the remaining
keywords as a check over what their subschemas admit. -/
structure SchemaNode where
  reference : Option Text := .none
  properties : Dict Text ℕ := []
  items : Option ℕ := .none
  bounds : Bounds := {}
  subschemas : List ℕ := []
  check : List (JsonTree → Bool) → JsonTree → Bool := fun _ _ => true

/-- A schema with its `$defs`. The root is the object at 0. -/
structure Schema where
  defs : Dict Text ℕ
  node : ℕ → SchemaNode

variable (schema : Schema)

def definitionPrefix : Text := "#/$defs/".toList

/-- The definition a reference names. -/
def Schema.definition (reference : Text) : Option ℕ :=
  if definitionPrefix.isPrefixOf reference then
    schema.defs.get? (reference.drop definitionPrefix.length) else .none

/-- The object a reference of the object leads to. -/
def Schema.target (node : ℕ) : Option ℕ := (schema.node node).reference.bind schema.definition

/-- A value against an object, given what each object of the schema admits. -/
def Schema.admits (valid : ℕ → JsonTree → Bool) (node : ℕ) (value : JsonTree) : Bool :=
  (schema.node node).bounds.hold value &&
    ((schema.node node).reference.isNone || (schema.target node).any (valid · value)) &&
    (schema.node node).properties.all (fun property =>
      (member property.1 value).all (valid property.2)) &&
    (schema.node node).items.all (fun child => (elements value).all (valid child)) &&
    (schema.node node).check ((schema.node node).subschemas.map valid) value

/-- Validity as far as the fuel reaches. -/
def Schema.validWithin : ℕ → ℕ → JsonTree → Bool
  | 0, _, _ => false
  | fuel + 1, node, value => schema.admits (Schema.validWithin fuel) node value

/-- The schema admits a value: so says every search that goes deep enough. -/
def Schema.Valid (value : JsonTree) : Prop :=
  ∃ enough, ∀ fuel, enough ≤ fuel → schema.validWithin fuel 0 value = true

/-! ## Compilation -/

/-- `_resolve_schema_node`. -/
def Schema.resolve (node : ℕ) : ℕ := (schema.target node).getD node

/-- The child a token selects. Every index selects `items`, as `*` does. -/
def Schema.child (token : Token) (node : ℕ) : Option ℕ :=
  match token with
  | .name key => (schema.node node).properties.get? key
  | .index _ | .wildcard => (schema.node node).items

def schemaNodesFrom : List Token → List ℕ → List ℕ
  | [], nodes => nodes
  | token :: rest, nodes =>
    schemaNodesFrom rest (nodes.filterMap fun node =>
      (schema.child token (schema.resolve node)).map schema.resolve)

def schemaNodesAtPath (path : Text) : Except Text (List ℕ) := do
  let tokens ← tokenizePath path
  return schemaNodesFrom schema tokens [0]

/-- The assignments of `_apply_schema_constraint` to one object. -/
def Bounds.write (bounds : Bounds) : ShapeKind → Bounds
  | .exactItems value => { bounds with minItems := .some value, maxItems := .some value }
  | .minItems value => { bounds with minItems := .some value }
  | .maxItems value => { bounds with maxItems := .some value }
  | .empty => { bounds with maxItems := .some 0 }
  | .allowedValues value => { bounds with enum := .some (value.map .string) }
  | .semantic _ => bounds

def Schema.write (node : ℕ) (kind : ShapeKind) : Schema where
  defs := schema.defs
  node := fun other =>
    if other = node then { schema.node node with bounds := (schema.node node).bounds.write kind }
      else schema.node other

def applySchemaConstraint (constraint : ShapeConstraint) : Except Text Schema := do
  let nodes ← schemaNodesAtPath schema constraint.path
  if nodes.isEmpty then
    .error ("constraint path is not representable in contract schema: ".toList ++ constraint.path)
  else
    return nodes.foldl (fun written node => written.write node constraint.kind) schema

/-- The `json_schema` of `compile_contract`, of a copy of the schema of the contract. -/
def compileContract (constraints : List ShapeConstraint) : Except Text Schema :=
  (constraints.take maxResultShapeConstraints).foldlM applySchemaConstraint schema

/-- The compiled schema and the local validation agree on a value of the base schema. -/
def Agrees (constraints : List ShapeConstraint) (payload : JsonTree) : Prop :=
  ∀ compiled, compileContract schema constraints = .ok compiled → schema.Valid payload →
    (compiled.Valid payload ↔ validateResultShape payload constraints = .ok [])

end Novalton.ContractExecution
