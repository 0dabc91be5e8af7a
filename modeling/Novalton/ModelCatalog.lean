/-
Refreshes of the model catalog (`modules/model_catalog/service.py` and `repository.py`):
any number of `refresh_provider` calls run at once, one statement a step.

A call upserts the models its provider returned one by one, marks the provider's other
models that are available as stale, and commits. Its statements run under READ
COMMITTED: an upsert waits for the call that holds the row, and the update finds its
rows when it begins and looks at each of them again when it gets it. Only these calls
write the table. What a call's awaits answer is part of the call; a statement or the
commit may fail at any point, which rolls the call back, and a commit may take effect
without the call hearing of it.
-/
import Novalton.RowTable
import Novalton.Transition

namespace Novalton.Catalog

inductive ModelStatus where
  | available | unavailable | stale | unknown
deriving DecidableEq, Repr

inductive ContractEnforcementGrade where
  | unsupported | bestEffort | providerEnforced | strictSchemaGuaranteed
deriving DecidableEq, Repr

inductive ExecutionTargetClass where
  | local
  | remote
deriving DecidableEq, Repr

/-- An entry of what a provider returns, as `CatalogModel.model_validate` leaves it. -/
structure CatalogModel where
  providerModelId : Text
  executionTargetClass : ExecutionTargetClass
  displayName : Text
  contextWindow : Option ℕ
  maxOutputTokens : Option ℕ
  reasoning : Option Bool
  coding : Option Bool
  toolCalling : Option Bool
  structuredOutput : Option Bool
  contractEnforcementGrade : Option ContractEnforcementGrade
  enforcementMetadataSource : Option Text
  vision : Option Bool
  inputPricePerMillion : Option Rat
  outputPricePerMillion : Option Rat
  currency : Option Text
  family : Option Text
  revision : Option Text
deriving DecidableEq

/-- A row of `model_definitions`, without its id and its two timestamps. -/
structure ModelDefinition where
  displayName : Text
  status : ModelStatus
  executionTargetClass : ExecutionTargetClass
  contextWindow : Option ℕ
  maxOutputTokens : Option ℕ
  reasoning : Option Bool
  coding : Option Bool
  toolCalling : Option Bool
  structuredOutput : Option Bool
  contractEnforcementGrade : ContractEnforcementGrade
  enforcementMetadataSource : Text
  vision : Option Bool
  inputPricePerMillion : Option Rat
  outputPricePerMillion : Option Rat
  currency : Option Text
  freeAllowlisted : Bool
  family : Option Text
  revision : Option Text
  lastVerifiedAt : Int
deriving DecidableEq

/-- The unique key of the table: provider and model id. -/
abbrev Key := Text × Text

/-- What asking the provider comes to: its models, a `ProviderError`, or an answer that
does not validate. -/
inductive Received where
  | models (models : List CatalogModel)
  | providerError
  | malformed
deriving DecidableEq

/-- A call of `refresh_provider`. -/
structure Refresh where
  providerId : Text
  workspaceFound : Bool
  received : Received
  verifiedAt : Int
  freeAllowlist : List Key
deriving DecidableEq

inductive RefreshError where
  | notFound
  | refreshFailed
  | persistenceFailed
deriving DecidableEq, Repr

structure RefreshResponse where
  providerId : Text
  verifiedCount : ℕ
  staleCount : ℕ
  verifiedAt : Int
deriving DecidableEq, Repr

namespace Refresh
variable (call : Refresh)

def models : List CatalogModel :=
  match call.received with
  | .models models => models
  | _ => []

def identifiers : List Text := call.models.map CatalogModel.providerModelId

def key (id : Text) : Key := (call.providerId, id)

def grade (model : CatalogModel) : ContractEnforcementGrade :=
  match model.contractEnforcementGrade with
  | .some grade => grade
  | .none => if model.structuredOutput = .some true then .bestEffort else .unsupported

def enforcementSource (model : CatalogModel) : Text :=
  match model.enforcementMetadataSource with
  | .some (c :: source) => c :: source
  | _ =>
    if model.structuredOutput = .some true then "catalog_structured_output_capability".toList
    else "catalog_unknown".toList

/-- The values an upsert writes, on insert as on conflict. -/
def values (model : CatalogModel) : ModelDefinition where
  displayName := model.displayName
  status := .available
  executionTargetClass := model.executionTargetClass
  contextWindow := model.contextWindow
  maxOutputTokens := model.maxOutputTokens
  reasoning := model.reasoning
  coding := model.coding
  toolCalling := model.toolCalling
  structuredOutput := model.structuredOutput
  contractEnforcementGrade := grade model
  enforcementMetadataSource := enforcementSource model
  vision := model.vision
  inputPricePerMillion := model.inputPricePerMillion
  outputPricePerMillion := model.outputPricePerMillion
  currency := model.currency
  freeAllowlisted := call.freeAllowlist.contains (call.key model.providerModelId)
  family := model.family
  revision := model.revision
  lastVerifiedAt := call.verifiedAt

/-- The condition of `mark_missing_stale`. -/
def missing (key : Key) (row : ModelDefinition) : Bool :=
  key.1 == call.providerId && decide (row.status = .available) && !(call.identifiers.contains key.2)

/-- What it sets. -/
def markStale (row : ModelDefinition) : ModelDefinition := { row with status := .stale }

end Refresh

/-- Where a call is. A marking call knows the rows its update found, those it has not got
yet, how many refreshes had committed when the update began, and the rows it changed. -/
inductive Phase where
  | upserting (rest : List CatalogModel)
  | marking (targets rest : List Key) (since staleCount : ℕ)
  | returned (response : RefreshResponse)
  | raised (error : RefreshError)
deriving DecidableEq

/-- The checks before the first write. -/
def Refresh.start (call : Refresh) : Phase :=
  if !call.workspaceFound then .raised .notFound
  else
    match call.received with
    | .models models =>
      if call.identifiers.Nodup then .upserting models else .raised .refreshFailed
    | _ => .raised .refreshFailed

def Phase.finished : Phase → Bool
  | .returned _ | .raised _ => true
  | _ => false

/-- `successful` are the calls that have committed, the last one first, with those that
have not heard of it. -/
structure State where
  table : Table Key ModelDefinition
  calls : ℕ → Option (Refresh × Phase)
  successful : List Refresh

inductive Action where
  | refresh (i : ℕ) (call : Refresh)
  | upsert (i : ℕ)
  | mark (i : ℕ)
  | markRow (i : ℕ) (key : Key)
  | commit (i : ℕ)
  | lose (i : ℕ)
  | fail (i : ℕ)
deriving DecidableEq

namespace State

def goto (s : State) (i : ℕ) (call : Refresh) (phase : Phase) : State :=
  { s with calls := Function.update s.calls i (.some (call, phase)) }

def upsert (s : State) (i : ℕ) : Option State :=
  match s.calls i with
  | .some (call, .upserting (model :: rest)) =>
    (s.table.upsert i (call.key model.providerModelId) (call.values model)).map fun table =>
      { s with table := table }.goto i call (.upserting rest)
  | _ => .none

/-- `mark_missing_stale` begins. -/
def mark (s : State) (i : ℕ) : Option State :=
  match s.calls i with
  | .some (call, .upserting []) =>
    let targets := s.table.scan i call.missing
    .some (s.goto i call (.marking targets targets s.successful.length 0))
  | _ => .none

/-- It gets one of its rows. -/
def markRow (s : State) (i : ℕ) (key : Key) : Option State :=
  match s.calls i with
  | .some (call, .marking targets rest since staleCount) =>
    if rest.contains key then
      (s.table.recheck i call.missing Refresh.markStale key).map fun table =>
        let changed := if (s.table.view i key).any (call.missing key) then 1 else 0
        { s with table := table }.goto i call
          (.marking targets (rest.filter fun other => !(other == key)) since (staleCount + changed))
    else .none
  | _ => .none

def commit (s : State) (i : ℕ) : Option State :=
  match s.calls i with
  | .some (call, .marking _ [] _ staleCount) =>
    .some ({ s with table := s.table.commit i, successful := call :: s.successful }.goto i call
      (.returned ⟨call.providerId, call.models.length, staleCount, call.verifiedAt⟩))
  | _ => .none

/-- The commit takes effect and raises, as when the connection drops before its answer. -/
def lose (s : State) (i : ℕ) : Option State :=
  match s.calls i with
  | .some (call, .marking _ [] _ _) =>
    .some ({ s with table := s.table.commit i, successful := call :: s.successful }.goto i call
      (.raised .persistenceFailed))
  | _ => .none

/-- An error of the database, on a statement or on the commit. -/
def fail (s : State) (i : ℕ) : Option State :=
  match s.calls i with
  | .some (call, phase) =>
    if phase.finished then .none
    else .some ({ s with table := s.table.rollback i }.goto i call (.raised .persistenceFailed))
  | .none => .none

def step (s : State) : Action → Option State
  | .refresh i call =>
    match s.calls i with
    | .none => .some (s.goto i call call.start)
    | .some _ => .none
  | .upsert i => s.upsert i
  | .mark i => s.mark i
  | .markRow i key => s.markRow i key
  | .commit i => s.commit i
  | .lose i => s.lose i
  | .fail i => s.fail i

end State

/-- A catalog nothing has refreshed yet. -/
def initial : State := ⟨.empty, fun _ => .none, []⟩

def system : System State Action := ⟨fun s => s = initial, State.step⟩

end Novalton.Catalog
