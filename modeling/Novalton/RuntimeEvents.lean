/-
Runtime events and their stream. Writers append events in transactions that start and
commit in any order; an event's `occurred_at` is the start of its transaction
(`now()`), and other sessions see it from the commit on. A subscriber polls for
batches: without a cursor the newest events of its scope, with a cursor the next ones
in the order of `(occurred_at, id)`, and moves its cursor to each event it is sent.

The frames an event is sent in, heartbeats and disconnects are left out: none of them
moves the cursor.
-/
import Mathlib.Data.Prod.Lex
import Novalton.Transition
import Novalton.Window

namespace Novalton.RuntimeEvents

structure RuntimeEvent where
  id : Uuid
  tenantId : Uuid
  workspaceId : Uuid
  /-- Microseconds of the database's clock. -/
  occurredAt : ℕ
deriving DecidableEq, Repr

/-- What `ORDER BY occurred_at, id` compares. -/
def RuntimeEvent.key (event : RuntimeEvent) : ℕ ×ₗ ℕ := toLex (event.occurredAt, event.id.toNat)

/-- The tenant and the workspace of a subscriber. -/
structure Scope where
  tenantId : Uuid
  workspaceId : Uuid
deriving DecidableEq, Repr

def Scope.holds (scope : Scope) (event : RuntimeEvent) : Bool :=
  event.tenantId = scope.tenantId && event.workspaceId = scope.workspaceId

/-- `list_recent_events`, newest first. -/
def listRecentEvents (table : List RuntimeEvent) (scope : Scope) (limit : ℕ) : List RuntimeEvent :=
  ((table.filter scope.holds).insertionSort fun a b => b.key ≤ a.key).take limit

/-- `list_events_after`, oldest first. -/
def listEventsAfter (table : List RuntimeEvent) (scope : Scope) (occurredAt : ℕ) (eventId : Uuid)
    (limit : ℕ) :
    List RuntimeEvent :=
  ((table.filter fun event =>
      scope.holds event &&
        (occurredAt < event.occurredAt ||
          (event.occurredAt = occurredAt && eventId.toNat < event.id.toNat))).insertionSort
    fun a b => a.key ≤ b.key).take limit

/-- `list_stream_batch`; `none` is the `invalid_runtime_event` of a limit out of range. -/
def listStreamBatch (table : List RuntimeEvent) (scope : Scope) (cursor : Option RuntimeEvent)
    (limit : ℕ) :
    Option (List RuntimeEvent) :=
  if 1 ≤ limit ∧ limit ≤ 100 then
    match cursor with
    | .none => .some (listRecentEvents table scope limit).reverse
    | .some cursor => .some (listEventsAfter table scope cursor.occurredAt cursor.id limit)
  else .none

def STREAM_BATCH_SIZE : ℕ := 50

/-- An open transaction: when it started, and the events it has appended. -/
structure Writer where
  start : ℕ
  events : List RuntimeEvent
deriving DecidableEq, Repr

structure State where
  /-- The database's clock. -/
  now : ℕ
  writers : ℕ → Option Writer
  /-- The committed events. -/
  table : List RuntimeEvent
  /-- The events that were committed when the subscription began. -/
  before : List RuntimeEvent
  /-- The cursor of the stream: the event last sent, at first the one of `Last-Event-ID`. -/
  current : Option RuntimeEvent
  /-- The rest of the batch the stream is going through. -/
  batch : List RuntimeEvent
  delivered : List RuntimeEvent

inductive Label where
  | tick
  | begin (writer : ℕ)
  | append (writer : ℕ) (id tenantId workspaceId : Uuid)
  | commit (writer : ℕ)
  | rollback (writer : ℕ)
  | poll
  | send
deriving DecidableEq, Repr

def State.setWriter (s : State) (writer : ℕ) (value : Option Writer) : State :=
  { s with writers := Function.update s.writers writer value }

/-- The batch a poll reads. -/
def State.fetched (scope : Scope) (s : State) : List RuntimeEvent :=
  (listStreamBatch s.table scope s.current STREAM_BATCH_SIZE).getD []

/-- One step of a writer or of the stream. The primary key keeps two committed
events from sharing an id: a transaction with a taken id cannot commit. -/
def step (scope : Scope) (s : State) : Label → Option State
  | .tick => .some { s with now := s.now + 1 }
  | .begin writer => if (s.writers writer).isNone then
      .some (s.setWriter writer (.some ⟨s.now, []⟩)) else .none
  | .append writer id tenantId workspaceId =>
    match s.writers writer with
    | .some open_ =>
      if open_.events.any fun event => event.id = id then .none
      else .some (s.setWriter writer
        (.some ⟨open_.start, open_.events ++ [⟨id, tenantId, workspaceId, open_.start⟩]⟩))
    | .none => .none
  | .commit writer =>
    match s.writers writer with
    | .some open_ =>
      if open_.events.any fun event => s.table.any fun other => other.id = event.id then .none
      else .some { s.setWriter writer .none with table := s.table ++ open_.events }
    | .none => .none
  | .rollback writer => .some (s.setWriter writer .none)
  | .poll => if s.batch.isEmpty then .some { s with batch := s.fetched scope } else .none
  | .send =>
    match s.batch with
    | [] => .none
    | event :: rest =>
      .some { s with current := .some event, batch := rest, delivered := s.delivered ++ [event] }

/-- A new subscription over any committed events and open transactions: nothing is
sent, and the cursor is an event of the scope or absent (`validate_stream_scope`). -/
structure Subscribed (scope : Scope) (s : State) : Prop where
  ids : (s.table.map RuntimeEvent.id).Nodup
  writers : ∀ i writer, s.writers i = .some writer →
    (writer.events.map RuntimeEvent.id).Nodup ∧ ∀ event ∈ writer.events,
      event.occurredAt = writer.start
  before : s.before = s.table
  cursor : ∀ cursor, s.current = .some cursor → cursor ∈ s.table ∧ scope.holds cursor = true
  batch : s.batch = []
  delivered : s.delivered = []

/-- Writers and one stream. -/
def system (scope : Scope) : System State Label := ⟨Subscribed scope, step scope⟩

theorem key_lt_iff {a b : RuntimeEvent} :
    a.key < b.key ↔ a.occurredAt < b.occurredAt ∨ a.occurredAt = b.occurredAt ∧
      a.id.toNat < b.id.toNat :=
  Prod.Lex.toLex_lt_toLex

theorem id_eq_of_key_eq {a b : RuntimeEvent} (h : a.key = b.key) : a.id = b.id := by
  have hpair : (a.occurredAt, a.id.toNat) = (b.occurredAt, b.id.toNat) := toLex.injective h
  exact BitVec.eq_of_toNat_eq (congrArg Prod.snd hpair)

theorem keys_nodup {l : List RuntimeEvent} (h : (l.map RuntimeEvent.id).Nodup) :
    (l.map RuntimeEvent.key).Nodup := by
  rw [List.nodup_map_iff_inj_on (List.Nodup.of_map _ h)]
  intro a ha b hb hkey
  exact List.inj_on_of_nodup_map h ha hb (id_eq_of_key_eq hkey)

theorem fetched_none {scope : Scope} {s : State} (h : s.current = .none) :
    s.fetched scope =
      (Window.largest RuntimeEvent.key STREAM_BATCH_SIZE (s.table.filter scope.holds)).reverse := by
  rw [State.fetched, h]
  rfl

theorem fetched_some {scope : Scope} {s : State} {cursor : RuntimeEvent}
    (h : s.current = .some cursor) :
    s.fetched scope = Window.smallest RuntimeEvent.key STREAM_BATCH_SIZE
      (s.table.filter fun event => scope.holds event && decide (cursor.key < event.key)) := by
  have hfilter : (fun event : RuntimeEvent => scope.holds event &&
    (decide (cursor.occurredAt < event.occurredAt) ||
      (decide (event.occurredAt = cursor.occurredAt) &&
        decide (cursor.id.toNat < event.id.toNat)))) =
      fun event => scope.holds event && decide (cursor.key < event.key) := by
    funext event
    have hcomm : event.occurredAt = cursor.occurredAt ↔ cursor.occurredAt = event.occurredAt :=
      eq_comm
    congr 1
    simp only [key_lt_iff, hcomm, Bool.decide_or, Bool.decide_and]
  rw [State.fetched, h]
  show listEventsAfter s.table scope cursor.occurredAt cursor.id STREAM_BATCH_SIZE = _
  rw [listEventsAfter, hfilter]
  rfl

end Novalton.RuntimeEvents
