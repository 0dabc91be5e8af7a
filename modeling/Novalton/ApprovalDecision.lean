/-
One approval and the sessions that decide it: `_decide` of `modules/approvals/service.py`,
in whatever flow calls it.

A session keeps the row as it first loaded it until a rollback (`expire_on_commit=False`,
and a SELECT does not refresh a loaded row), so the status `_decide` checks may be stale.
The row lock it takes lasts until the next commit or rollback of the session, and its
write and its audit record are one transaction. Between two calls a session may load the
row, commit or roll back.
-/
import Novalton.RowLock
import Novalton.Status
import Novalton.Transition

namespace Novalton.ApprovalDecision

/-- What a decision writes of an `ApprovalRequest`. -/
structure Approval where
  status : ApprovalStatus
  decidedAt : Option ℕ
deriving DecidableEq, Repr

/-- The record of a decision: `approval.approve` or `approval.reject`. -/
structure DecisionAudit where
  action : Decision
deriving DecidableEq, Repr

/-- Where a session is. `returned` and `refused` are the ends of a call. -/
inductive Pc where
  | idle
  | locking (target : Decision)
  | deciding (target : Decision)
  | auditing (target : Decision)
  | committing (target : Decision)
  | refreshing (target : Decision)
  | returned (target : Decision)
  | refused (target : Decision)
deriving DecidableEq, Repr

/-- The decision a call in progress is to make. -/
def Pc.deciding? : Pc → Option Decision
  | .locking target | .deciding target | .auditing target | .committing target
  | .refreshing target => .some target
  | .idle | .returned _ | .refused _ => .none

/-- A session, with the row it has loaded and the audit records it has not committed. -/
structure Client where
  pc : Pc
  cached : Option Approval
  added : List DecisionAudit
deriving DecidableEq, Repr

structure State where
  row : Row Approval
  audits : List DecisionAudit
  clients : ℕ → Client

/-- What happens next in a session. `proceed` is the normal course of a call; `fail` an
exception it handles, at any of its statements; `lost` a commit that is made but not
acknowledged; `deny` a workspace that is not there; `cancel` the end of the session. -/
inductive Action where
  | load
  | commit
  | rollback
  | call (target : Decision)
  | deny (target : Decision)
  | proceed (now : ℕ)
  | notFound
  | lost
  | fail
  | next
  | cancel
deriving DecidableEq, Repr

/-- What a step makes of a session and the row, and the audit records it commits. -/
structure Result where
  client : Client
  row : Row Approval
  published : List DecisionAudit

/-- `session.rollback()`: the write, the records and the loaded row are dropped. -/
def undone (row : Row Approval) (i : ℕ) (pc : Pc) : Result := ⟨⟨pc, .none, []⟩, row.rollback i, []⟩

/-- The locked read, which gives the row as it was first loaded, and the checks on it. -/
def locked (row : Row Approval) (i : ℕ) (client : Client) (target : Decision) : Result :=
  let approval := client.cached.getD (row.view i)
  if approval.status = target.status then
    ⟨{ client with pc := .returned target, cached := .some approval }, row, []⟩
  else if approval.status ≠ .pending then undone row i (.refused target)
  else ⟨{ client with pc := .deciding target, cached := .some approval }, row, []⟩

/-- `decide_pending`: the update of a pending row. -/
def decidePending (row : Row Approval) (i : ℕ) (client : Client) (target : Decision) (now : ℕ) :
    Option Result :=
  if (row.view i).status = .pending then
    (row.write i ⟨target.status, .some now⟩).map fun written =>
      ⟨{ client with pc := .auditing target, cached := .some ⟨target.status, .some now⟩ }, written,
        []⟩
  else .some (undone row i (.refused target))

def clientStep (row : Row Approval) (i : ℕ) (client : Client) (action : Action) : Option Result :=
  match client.pc, action with
  | .idle, .load =>
    .some ⟨{ client with cached := .some (client.cached.getD (row.view i)) }, row, []⟩
  | .idle, .commit => .some ⟨{ client with added := [] }, row.commit i, client.added⟩
  | .idle, .rollback => .some (undone row i .idle)
  | .idle, .call target => .some ⟨{ client with pc := .locking target }, row, []⟩
  | .idle, .deny target => .some ⟨{ client with pc := .refused target }, row, []⟩
  | .locking target, .proceed _ => (row.lock i).map fun row => locked row i client target
  | .locking target, .notFound => .some (undone row i (.refused target))
  | .deciding target, .proceed now => decidePending row i client target now
  | .auditing target, .proceed _ =>
    .some ⟨{ client with pc := .committing target, added := client.added ++ [⟨target⟩] }, row, []⟩
  | .committing target, .proceed _ =>
    .some ⟨{ client with pc := .refreshing target, added := [] }, row.commit i, client.added⟩
  | .committing target, .lost => .some ⟨⟨.refused target, .none, []⟩, row.commit i, client.added⟩
  | .refreshing target, .proceed _ =>
    .some ⟨{ client with pc := .returned target, cached := .some (row.view i) }, row, []⟩
  | .returned _, .next | .refused _, .next => .some ⟨{ client with pc := .idle }, row, []⟩
  | pc, .fail => pc.deciding?.map fun target => undone row i (.refused target)
  | _, .cancel => .some (undone row i .idle)
  | _, _ => .none

structure Label where
  client : ℕ
  action : Action
deriving DecidableEq, Repr

def step (s : State) (a : Label) : Option State :=
  (clientStep s.row a.client (s.clients a.client) a.action).map fun result =>
    { row := result.row
      audits := s.audits ++ result.published
      clients := fun j => if j = a.client then result.client else s.clients j }

/-- A pending approval, without decision records, and sessions that have done nothing. -/
def start : State := ⟨Row.idle ⟨.pending, .none⟩, [], fun _ => ⟨.idle, .none, []⟩⟩

def system : System State Label where
  Init s := s = start
  step := step

/-! ## What a step can do -/

/-- The steps of a session, by what they do to the row. -/
inductive Moves (row : Row Approval) (i : ℕ) (client : Client) : Result → Prop
  | load (hpc : client.pc = .idle) : Moves row i client
    ⟨{ client with cached := .some (client.cached.getD (row.view i)) }, row, []⟩
  | move {pc : Pc} (hbefore : client.pc.deciding? = .none)
      (hafter : pc = .idle ∨ ∃ target, pc = .locking target ∨ pc = .refused target) :
        Moves row i client ⟨{ client with pc }, row, []⟩
  | lock {locked : Row Approval} {target : Decision} {approval : Approval} {pc : Pc}
      (hpc : client.pc = .locking target)
      (hlock : row.lock i = .some locked) (hloaded : approval = client.cached.getD (locked.view i))
      (hchecked : approval.status = target.status ∧ pc = .returned target ∨ pc = .deciding target) :
      Moves row i client ⟨{ client with pc, cached := .some approval }, locked, []⟩
  | decide {target : Decision} {now : ℕ} (hpc : client.pc = .deciding target)
      (hfree : row.free i = true)
      (hpending : (row.view i).status = .pending) :
      Moves row i client
        ⟨{ client with pc := .auditing target, cached := .some ⟨target.status, .some now⟩ },
        ⟨row.committed, .some (i, .some ⟨target.status, .some now⟩)⟩, []⟩
  | audit {target : Decision} (hpc : client.pc = .auditing target) :
      Moves row i client
        ⟨{ client with pc := .committing target, added := client.added ++ [⟨target⟩] }, row, []⟩
  | commit {pc : Pc} {cached : Option Approval} (hcached : cached = .none ∨ cached = client.cached)
      (hpc : client.pc = .idle ∧ pc = .idle ∨ ∃ target, client.pc = .committing target ∧
        (pc = .refreshing target ∨ pc = .refused target)) :
      Moves row i client ⟨⟨pc, cached, []⟩, row.commit i, client.added⟩
  | refresh {target : Decision} (hpc : client.pc = .refreshing target) :
      Moves row i client ⟨{ client with pc := .returned target, cached := .some (row.view i) }, row,
        []⟩
  | undo {pc : Pc} (hpc : pc = .idle ∨ ∃ target, pc = .refused target) :
      Moves row i client (undone row i pc)

theorem locked_moves {row held : Row Approval} {i : ℕ} {client : Client} {target : Decision}
    (hpc : client.pc = .locking target) (hlock : row.lock i = .some held) : Moves row i client
    (locked held i client target) := by
  unfold locked
  dsimp only
  split
  next hstatus => exact .lock hpc hlock rfl (.inl ⟨hstatus, rfl⟩)
  next =>
    split
    next =>
      have hundone : undone held i (.refused target) = undone row i (.refused target) := by
        rw [undone, undone, Row.rollback_lock hlock]
      rw [hundone]
      exact .undo (.inr ⟨target, rfl⟩)
    next => exact .lock hpc hlock rfl (.inr rfl)

theorem decidePending_moves {row : Row Approval} {i now : ℕ} {client : Client} {target : Decision}
    {result : Result} (hpc : client.pc = .deciding target)
    (h : decidePending row i client target now = .some result) : Moves row i client result := by
  unfold decidePending at h
  split at h
  next hpending =>
    obtain ⟨written, hwritten, rfl⟩ := Option.map_eq_some_iff.mp h
    obtain ⟨rfl, hfree⟩ := Row.write_eq hwritten
    exact .decide hpc hfree hpending
  next =>
    cases h
    exact .undo (.inr ⟨target, rfl⟩)

theorem clientStep_moves {row : Row Approval} {i : ℕ} {client : Client} {action : Action}
    {result : Result} (h : clientStep row i client action = .some result) :
    Moves row i client result := by
  unfold clientStep at h
  split at h
  next hpc => cases h; exact .load hpc
  next hpc => cases h; exact .commit (.inr rfl) (.inl ⟨hpc, hpc⟩)
  next => cases h; exact .undo (.inl rfl)
  next target hpc => cases h; exact .move (by rw [hpc]; rfl) (.inr ⟨target, .inl rfl⟩)
  next target hpc => cases h; exact .move (by rw [hpc]; rfl) (.inr ⟨target, .inr rfl⟩)
  next target now hpc =>
    obtain ⟨held, hheld, rfl⟩ := Option.map_eq_some_iff.mp h
    exact locked_moves hpc hheld
  next target hpc => cases h; exact .undo (.inr ⟨target, rfl⟩)
  next target now hpc => exact decidePending_moves hpc h
  next target now hpc => cases h; exact .audit hpc
  next target now hpc => cases h; exact .commit (.inr rfl) (.inr ⟨target, hpc, .inl rfl⟩)
  next target hpc => cases h; exact .commit (.inl rfl) (.inr ⟨target, hpc, .inr rfl⟩)
  next target now hpc => cases h; exact .refresh hpc
  next target hpc => cases h; exact .move (by rw [hpc]; rfl) (.inl rfl)
  next target hpc => cases h; exact .move (by rw [hpc]; rfl) (.inl rfl)
  next =>
    obtain ⟨target, -, rfl⟩ := Option.map_eq_some_iff.mp h
    exact .undo (.inr ⟨target, rfl⟩)
  next => cases h; exact .undo (.inl rfl)
  next => cases h

/-! ## The invariant -/

/-- The records of a decided row: one, of its decision. -/
def recorded (approval : Approval) : List DecisionAudit :=
  match approval.status with
  | .pending => []
  | .approved => [⟨.approve⟩]
  | .rejected => [⟨.reject⟩]

@[simp] theorem recorded_status {target : Decision} {now : Option ℕ} : recorded
    ⟨target.status, now⟩ = [⟨target⟩] := by
  cases target <;> rfl

/-- The session's uncommitted write and records, by where it is. -/
def Pc.Owns (row : Row Approval) (i : ℕ) (added : List DecisionAudit) : Pc → Prop
  | .auditing target => added = [] ∧ ∃ now, row.own = .some (i, .some ⟨target.status, .some now⟩)
  | .committing target => added = [⟨target⟩] ∧ ∃ now,
      row.own = .some (i, .some ⟨target.status, .some now⟩)
  | _ => added = [] ∧ ∀ write, row.own ≠ .some (i, .some write)

/-- What a session knows is so: a decision it has loaded is the recorded one or its own, and
one it has made or found is recorded. -/
structure Knows (row : Row Approval) (i : ℕ) (client : Client) : Prop where
  owns : client.pc.Owns row i client.added
  cached : ∀ approval, client.cached = .some approval → approval.status ≠ .pending →
    row.committed = approval ∨ row.own = .some (i, .some approval)
  settled : ∀ target, client.pc = .refreshing target ∨ client.pc = .returned target →
    row.committed.status = target.status

/-- An uncommitted write is one on the pending row. -/
def WritesPending (row : Row Approval) : Prop :=
  ∀ i write, row.own = .some (i, .some write) → row.committed.status = .pending

variable {row row' : Row Approval} {i j : ℕ} {client : Client} {result : Result}

/-- A session that neither has written nor will has no write. -/
theorem Knows.no_write (h : Knows row i client)
    (hpc : ∀ target, client.pc ≠ .auditing target ∧ client.pc ≠ .committing target) :
    client.added = [] ∧ ∀ write, row.own ≠ .some (i, .some write) := by
  have howns := h.owns
  unfold Pc.Owns at howns
  split at howns
  next target hauditing => exact absurd hauditing (hpc target).1
  next target hcommitting => exact absurd hcommitting (hpc target).2
  next => exact howns

theorem view_of_no_write (h : ∀ write, row.own ≠ .some (i, .some write)) :
    row.view i = row.committed := by
  unfold Row.view
  split
  next j write hown =>
    split
    next heq =>
      subst heq
      exact absurd hown (h write)
    next => rfl
  next => rfl

/-- Only the commit of a decision changes the row, and its record comes with it. -/
theorem Moves.committed (h : Moves row i client result) (hknows : Knows row i client) :
    result.row.committed = row.committed ∧ result.published = [] ∨
      ∃ write, row.own = .some (i, .some write) ∧ result.row.committed = write ∧
        result.published = recorded write := by
  cases h with
  | load hpc => exact .inl ⟨rfl, rfl⟩
  | move hbefore hafter => exact .inl ⟨rfl, rfl⟩
  | lock hpc hlock hloaded hchecked => exact .inl ⟨Row.lock_committed hlock, rfl⟩
  | decide hpc hfree hpending => exact .inl ⟨rfl, rfl⟩
  | audit hpc => exact .inl ⟨rfl, rfl⟩
  | refresh hpc => exact .inl ⟨rfl, rfl⟩
  | undo hpc => exact .inl ⟨Row.rollback_committed, rfl⟩
  | commit hcached hpc =>
    rcases hpc with ⟨hidle, -⟩ | ⟨target, hcommitting, -⟩
    · obtain ⟨hadded, hwrite⟩ := hknows.no_write fun target => by simp [hidle]
      exact .inl ⟨Row.commit_committed hwrite, hadded⟩
    · have howns := hknows.owns
      rw [hcommitting] at howns
      obtain ⟨hadded, now, hown⟩ := howns
      refine .inr ⟨_, hown, ?_, ?_⟩
      · simp [Row.commit, hown]
      · rw [recorded_status]
        exact hadded

/-- A recorded decision stays, and no record is added to its own. -/
theorem Moves.decided (h : Moves row i client result) (hknows : Knows row i client)
    (hpending : WritesPending row) (hdecided : row.committed.status ≠ .pending) :
    result.row.committed = row.committed ∧ result.published = [] := by
  rcases h.committed hknows with hsame | ⟨write, hown, -⟩
  · exact hsame
  · exact absurd (hpending i write hown) hdecided

/-- What other sessions have written stays theirs. -/
theorem Moves.own_ne (h : Moves row i client result) (hne : j ≠ i) (write : Approval) :
    result.row.own = .some (j, .some write) ↔ row.own = .some (j, .some write) := by
  cases h with
  | load hpc => exact Iff.rfl
  | move hbefore hafter => exact Iff.rfl
  | lock hpc hlock hloaded hchecked =>
    refine ⟨Row.written_of_lock hlock, fun hown => ?_⟩
    exact absurd (Row.lock_own hlock hown).2 hne
  | decide hpc hfree hpending =>
    refine ⟨fun hown => ?_, fun hown => absurd (Row.free_own hfree hown) hne⟩
    simp only [Option.some.injEq, Prod.mk.injEq] at hown
    exact absurd hown.1.symm hne
  | audit hpc => exact Iff.rfl
  | refresh hpc => exact Iff.rfl
  | commit hcached hpc =>
    refine ⟨Row.own_of_commit, fun hown => ?_⟩
    rw [Row.commit_ne hown hne]
    exact hown
  | undo hpc =>
    refine ⟨Row.own_of_rollback, fun hown => ?_⟩
    rw [undone, Row.rollback_ne hown hne]
    exact hown

theorem Moves.writesPending (h : Moves row i client result) (hknows : Knows row i client)
    (hpending : WritesPending row) :
    WritesPending result.row := by
  intro j write hown
  by_cases hne : j = i
  · subst hne
    cases h with
    | load hpc => exact hpending j write hown
    | move hbefore hafter => exact hpending j write hown
    | lock hpc hlock hloaded hchecked =>
      rw [Row.lock_committed hlock]
      exact hpending j write (Row.written_of_lock hlock hown)
    | decide hpc hfree hview =>
      have hwrite := (hknows.no_write fun target => by simp [hpc]).2
      rw [view_of_no_write hwrite] at hview
      exact hview
    | audit hpc => exact hpending j write hown
    | refresh hpc => exact hpending j write hown
    | commit hcached hpc => exact absurd hown Row.commit_own_ne
    | undo hpc => exact absurd hown Row.rollback_own_ne
  · have hrow := (h.own_ne hne write).mp hown
    rcases h.committed hknows with ⟨hsame, -⟩ | ⟨other, hother, -⟩
    · rw [hsame]
      exact hpending j write hrow
    · rw [hother] at hrow
      simp only [Option.some.injEq, Prod.mk.injEq] at hrow
      exact absurd hrow.1.symm hne

theorem status_ne_pending (target : Decision) : target.status ≠ .pending := by
  cases target <;> simp [Decision.status]

/-- A session that neither has written nor will knows what is recorded. -/
theorem Knows.cached_committed {approval : Approval} (h : Knows row i client)
    (hwrite : ∀ write, row.own ≠ .some (i, .some write)) (hcached : client.cached = .some approval)
    (hdecided : approval.status ≠ .pending) : row.committed = approval :=
  (h.cached approval hcached hdecided).resolve_right (hwrite approval)

theorem Moves.knows (h : Moves row i client result) (hknows : Knows row i client)
    (hpending : WritesPending row) :
    Knows result.row i result.client := by
  cases h with
  | load hpc =>
    obtain ⟨hadded, hwrite⟩ := hknows.no_write fun target => by simp [hpc]
    refine ⟨hknows.owns, ?_, hknows.settled⟩
    rintro approval hcached hdecided
    simp only [Option.some.injEq] at hcached
    subst hcached
    cases hloaded : client.cached with
    | none => exact .inl (view_of_no_write hwrite).symm
    | some loaded =>
      rw [hloaded] at hdecided
      exact .inl (hknows.cached_committed hwrite hloaded hdecided)
  | move hbefore hafter =>
    obtain ⟨hadded, hwrite⟩ := hknows.no_write fun target => by
      refine ⟨fun heq => ?_, fun heq => ?_⟩ <;> (rw [heq] at hbefore; cases hbefore)
    refine ⟨?_, hknows.cached, ?_⟩
    · rcases hafter with rfl | ⟨target, rfl | rfl⟩ <;> exact ⟨hadded, hwrite⟩
    · rintro target hpc
      rcases hafter with rfl | ⟨_, rfl | rfl⟩ <;> simp at hpc
  | @lock held target approval pc hpc hlock hloaded hchecked =>
    obtain ⟨hadded, hwrite⟩ := hknows.no_write fun target => by simp [hpc]
    have hheld : ∀ write, held.own ≠ .some (i, .some write) :=
      fun write hown => hwrite write (Row.written_of_lock hlock hown)
    have hknown : approval.status ≠ .pending → held.committed = approval := by
      intro hdecided
      rw [Row.lock_committed hlock]
      cases hcached : client.cached with
      | none =>
        rw [hloaded, hcached, Option.getD_none, view_of_no_write hheld, Row.lock_committed hlock]
      | some cached =>
        rw [hcached, Option.getD_some] at hloaded
        subst hloaded
        exact hknows.cached_committed hwrite hcached hdecided
    refine ⟨?_, ?_, ?_⟩
    · rcases hchecked with ⟨-, rfl⟩ | rfl <;> exact ⟨hadded, hheld⟩
    · rintro cached hcached hdecided
      simp only [Option.some.injEq] at hcached
      subst hcached
      exact .inl (hknown hdecided)
    · rintro other hother
      rcases hchecked with ⟨hstatus, rfl⟩ | rfl
      · simp only [reduceCtorEq, Pc.returned.injEq, false_or] at hother
        subst hother
        rw [hknown (by rw [hstatus]; exact status_ne_pending target), hstatus]
      · simp at hother
  | @decide target now hpc hfree hview =>
    obtain ⟨hadded, -⟩ := hknows.no_write fun target => by simp [hpc]
    refine ⟨⟨hadded, now, rfl⟩, ?_, ?_⟩
    · rintro approval hcached -
      simp only [Option.some.injEq] at hcached
      subst hcached
      exact .inr rfl
    · rintro other hother
      simp at hother
  | @audit target hpc =>
    have howns := hknows.owns
    rw [hpc] at howns
    obtain ⟨hadded, now, hown⟩ := howns
    refine ⟨⟨?_, now, hown⟩, hknows.cached, ?_⟩
    · dsimp only
      rw [hadded]
      rfl
    · rintro other hother
      simp at hother
  | @commit pc cached hcached hpc =>
    refine ⟨?_, ?_, ?_⟩
    · rcases hpc with ⟨-, rfl⟩ | ⟨_, -, rfl | rfl⟩ <;> exact ⟨rfl, fun write => Row.commit_own_ne⟩
    · rintro approval happroval hdecided
      have hclient : client.cached = .some approval := by
        rcases hcached with rfl | rfl
        · cases happroval
        · exact happroval
      rcases hknows.cached approval hclient hdecided with hrow | hown
      · have hsame : (row.commit i).committed = row.committed := by
          refine Row.commit_committed fun write hown => ?_
          rw [← hrow] at hdecided
          exact hdecided (hpending i write hown)
        exact .inl (hsame.trans hrow)
      · exact .inl (by simp [Row.commit, hown])
    · rintro other hother
      rcases hpc with ⟨-, rfl⟩ | ⟨target, hcommitting, rfl | rfl⟩
      · simp at hother
      · simp only [Pc.refreshing.injEq, reduceCtorEq, or_false] at hother
        subst hother
        have howns := hknows.owns
        rw [hcommitting] at howns
        obtain ⟨-, now, hown⟩ := howns
        simp [Row.commit, hown]
      · simp at hother
  | @refresh target hpc =>
    obtain ⟨hadded, hwrite⟩ := hknows.no_write fun target => by simp [hpc]
    refine ⟨⟨hadded, hwrite⟩, ?_, ?_⟩
    · rintro approval hcached -
      simp only [Option.some.injEq] at hcached
      subst hcached
      exact .inl (view_of_no_write hwrite).symm
    · rintro other hother
      simp only [reduceCtorEq, Pc.returned.injEq, false_or] at hother
      subst hother
      exact hknows.settled target (.inl hpc)
  | undo hpc =>
    refine ⟨?_, ?_, ?_⟩
    · rcases hpc with rfl | ⟨_, rfl⟩ <;> exact ⟨rfl, fun write => Row.rollback_own_ne⟩
    · rintro approval hcached
      cases hcached
    · rintro other hother
      rcases hpc with rfl | ⟨_, rfl⟩ <;> simp [undone] at hother

/-- What another session knows stays so. -/
theorem Moves.knows_ne {other : Client} (h : Moves row i client result)
    (hknows : Knows row i client) (hpending : WritesPending row) (hne : j ≠ i)
    (hother : Knows row j other) : Knows result.row j other := by
  have hown := h.own_ne hne
  refine ⟨?_, ?_, ?_⟩
  · have howns := hother.owns
    unfold Pc.Owns at howns ⊢
    simpa only [hown, ne_eq] using howns
  · intro approval hcached hdecided
    rcases hother.cached approval hcached hdecided with hrow | hwrite
    · rw [← hrow] at hdecided
      exact .inl ((h.decided hknows hpending hdecided).1.trans hrow)
    · exact .inr ((hown approval).mpr hwrite)
  · intro target hpc
    have hstatus := hother.settled target hpc
    have hdecided : row.committed.status ≠ .pending := by
      rw [hstatus]
      exact status_ne_pending target
    rw [(h.decided hknows hpending hdecided).1]
    exact hstatus

/-! ## Every run -/

structure Sound (s : State) : Prop where
  audits : s.audits = recorded s.row.committed
  pending : WritesPending s.row
  knows : ∀ i, Knows s.row i (s.clients i)

variable {s t : State} {a : Label}

theorem step_moves (h : step s a = .some t) : ∃ result, Moves s.row a.client
    (s.clients a.client) result ∧
    t.row = result.row ∧ t.audits = s.audits ++ result.published ∧
    t.clients = fun j => if j = a.client then result.client else s.clients j := by
  obtain ⟨result, hresult, rfl⟩ := Option.map_eq_some_iff.mp h
  exact ⟨result, clientStep_moves hresult, rfl, rfl, rfl⟩

theorem Sound.kept (hs : Sound s) (h : step s a = .some t) : Sound t := by
  obtain ⟨result, hmoves, hrow, haudits, hclients⟩ := step_moves h
  have hknows := hs.knows a.client
  refine ⟨?_, ?_, ?_⟩
  · rw [haudits, hrow, hs.audits]
    rcases hmoves.committed hknows with ⟨hsame, hpublished⟩ | ⟨write, hown, hcommitted, hpublished⟩
    · rw [hsame, hpublished, List.append_nil]
    · have hempty : recorded s.row.committed = [] := by
        rw [recorded, hs.pending _ _ hown]
      rw [hempty, hcommitted, hpublished, List.nil_append]
  · rw [hrow]
    exact hmoves.writesPending hknows hs.pending
  · intro j
    rw [hrow, hclients]
    by_cases hne : j = a.client
    · subst hne
      simpa using hmoves.knows hknows hs.pending
    · simpa [hne] using hmoves.knows_ne hknows hs.pending hne (hs.knows j)

theorem sound (h : system.Reachable s) : Sound s := by
  refine h.invariant ?_ fun s a t hs hstep => hs.kept hstep
  rintro s rfl
  refine ⟨rfl, ?_, fun i => ⟨⟨rfl, fun write hown => by cases hown⟩, ?_, ?_⟩⟩
  · intro i write hown
    cases hown
  · intro approval hcached
    cases hcached
  · intro target hpc
    rcases hpc with hpc | hpc <;> cases hpc

/-- A recorded decision is final: no run changes it or adds a record. -/
theorem decided_final (hs : system.Reachable s) (hrun : system.Run System.always s t)
    (hdecided : s.row.committed.status ≠ .pending) :
    t.row.committed = s.row.committed ∧ t.audits = s.audits := by
  induction hrun with
  | refl => exact ⟨rfl, rfl⟩
  | @tail t u a hrun _ hstep ih =>
    have ht := sound (System.ReachableUnder.run hs hrun)
    obtain ⟨result, hmoves, hrow, haudits, -⟩ := step_moves hstep
    have hdecided' : t.row.committed.status ≠ .pending := by
      rw [ih.1]
      exact hdecided
    obtain ⟨hsame, hpublished⟩ := hmoves.decided (ht.knows a.client) ht.pending hdecided'
    rw [hrow, haudits, hsame, hpublished, List.append_nil]
    exact ih

/-- The session is to decide otherwise than is recorded. -/
def Contrary (s : State) (i : ℕ) (target : Decision) : Prop :=
  (s.clients i).pc.deciding? = .some target ∧ s.row.committed.status ≠ .pending ∧
    s.row.committed.status ≠ target.status

instance {i : ℕ} {target : Decision} : Decidable (Contrary s i target) :=
  inferInstanceAs (Decidable (_ ∧ _ ∧ _))

/-- A contrary call goes from its locked read to its update, and no further. -/
theorem Sound.contrary {i : ℕ} {action : Action} {target : Decision} (hs : Sound s)
    (hcontrary : Contrary s i target) (h : step s ⟨i, action⟩ = .some t) :
    (t.clients i).pc = .refused target ∨ (s.clients i).pc = .locking target ∧
    (t.clients i).pc = .deciding target ∨
      action = .cancel := by
  obtain ⟨hpc, hdecided, hother⟩ := hcontrary
  have hknows := hs.knows i
  have hwrite : ∀ write, s.row.own ≠ .some (i, .some write) :=
    fun write hown => hdecided (hs.pending i write hown)
  obtain ⟨result, hresult, rfl⟩ := Option.map_eq_some_iff.mp h
  have hclient : (if i = i then result.client else s.clients i) = result.client := if_pos rfl
  dsimp only
  rw [hclient]
  clear hclient h
  cases hat : (s.clients i).pc with
  | idle => rw [hat] at hpc; cases hpc
  | returned _ => rw [hat] at hpc; cases hpc
  | refused _ => rw [hat] at hpc; cases hpc
  | locking target' =>
    have heq : target' = target := by
      rw [hat] at hpc
      simpa [Pc.deciding?] using hpc
    subst heq
    unfold clientStep at hresult
    rw [hat] at hresult
    cases action with
    | proceed now =>
      obtain ⟨held, hheld, rfl⟩ := Option.map_eq_some_iff.mp hresult
      unfold locked
      dsimp only
      split
      next hstatus =>
        have hreturned := (locked_moves hat hheld).knows hknows hs.pending
        unfold locked at hreturned
        dsimp only at hreturned
        rw [if_pos hstatus] at hreturned
        have hsettled := hreturned.settled target' (.inr rfl)
        rw [Row.lock_committed hheld] at hsettled
        exact absurd hsettled hother
      next =>
        split
        next => exact .inl rfl
        next => exact .inr (.inl ⟨rfl, rfl⟩)
    | notFound => cases hresult; exact .inl rfl
    | fail => cases hresult; exact .inl rfl
    | cancel => exact .inr (.inr rfl)
    | load | commit | rollback | call _ | deny _ | lost | next => cases hresult
  | deciding target' =>
    have heq : target' = target := by
      rw [hat] at hpc
      simpa [Pc.deciding?] using hpc
    subst heq
    unfold clientStep at hresult
    rw [hat] at hresult
    cases action with
    | proceed now =>
      replace hresult : decidePending s.row i (s.clients i) target' now = .some result := hresult
      rw [decidePending, view_of_no_write hwrite, if_neg hdecided] at hresult
      cases hresult
      exact .inl rfl
    | fail => cases hresult; exact .inl rfl
    | cancel => exact .inr (.inr rfl)
    | load | commit | rollback | call _ | deny _ | notFound | lost | next => cases hresult
  | auditing target' =>
    have howns := hknows.owns
    rw [hat] at howns
    obtain ⟨-, now, hown⟩ := howns
    exact absurd hown (hwrite _)
  | committing target' =>
    have howns := hknows.owns
    rw [hat] at howns
    obtain ⟨-, now, hown⟩ := howns
    exact absurd hown (hwrite _)
  | refreshing target' =>
    rw [hat] at hpc
    cases hpc
    exact absurd (hknows.settled target (.inl hat)) hother

/-- **An approval is decided once**: a recorded decision is final, with its time; the
records are one, of the decision, or none while it is pending; and a call that is to decide
otherwise does not return: it changes nothing and is refused, at its update at the latest. -/
theorem approval_decided_once (hs : system.Reachable s) (hrun : system.Run System.always s t) :
    (s.row.committed.status ≠ .pending → t.row.committed = s.row.committed ∧ t.audits = s.audits) ∧
      t.audits = recorded t.row.committed ∧
      (∀ i target, (t.clients i).pc = .returned target → t.row.committed.status = target.status) ∧
      ∀ i target, Contrary t i target → ∀ action u, step t ⟨i, action⟩ = .some u →
        u.row.committed = t.row.committed ∧ u.audits = t.audits ∧
          ((u.clients i).pc = .refused target ∨ (t.clients i).pc = .locking target ∧
            (u.clients i).pc = .deciding target ∨
            action = .cancel) := by
  have ht := System.ReachableUnder.run hs hrun
  have hsound := sound ht
  refine ⟨decided_final hs hrun, hsound.audits, ?_, ?_⟩
  · intro i target hpc
    exact (hsound.knows i).settled target (.inr hpc)
  · intro i target hcontrary action u hstep
    have hfinal := decided_final ht (.tail .refl trivial hstep) hcontrary.2.1
    exact ⟨hfinal.1, hfinal.2, hsound.contrary hcontrary hstep⟩

/-- Two sessions that have both loaded the pending row: the first approves, the second is
to reject. -/
def racing : List Label :=
  [⟨0, .load⟩, ⟨1, .load⟩, ⟨0, .call .approve⟩, ⟨1, .call .reject⟩, ⟨0, .proceed 5⟩,
    ⟨0, .proceed 5⟩, ⟨0, .proceed 5⟩, ⟨0, .proceed 5⟩]

theorem approval_decided_once_racing : ∃ s t, system.exec start racing = .some s ∧ system.exec s
    [⟨1, .proceed 6⟩] = .some t ∧
    t.row.committed = ⟨.approved, .some 5⟩ ∧ t.audits = [⟨.approve⟩] ∧ Contrary t 1 .reject ∧
    ∀ action u, step t ⟨1, action⟩ = .some u →
      u.row.committed = t.row.committed ∧ u.audits = t.audits ∧
        ((u.clients 1).pc = .refused .reject ∨ (t.clients 1).pc = .locking .reject ∧
          (u.clients 1).pc = .deciding .reject ∨
          action = .cancel) := by
  have hraced : ∀ s t, system.exec start racing = .some s →
      system.exec s [⟨1, .proceed 6⟩] = .some t → _ :=
    fun s t hs ht =>
      (approval_decided_once (System.exec_reachable rfl hs) (System.exec_run ht)).2.2.2
  exact ⟨_, _, rfl, rfl, rfl, rfl, by decide, hraced _ _ rfl rfl 1 .reject (by decide)⟩

end Novalton.ApprovalDecision
