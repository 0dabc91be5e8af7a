/-
Rows under READ COMMITTED: one committed value, and at most one session that holds the
row, with a write it has not committed. A session sees its own write and otherwise the
committed value; it locks or writes a row only when no other session holds it; its
commit publishes the write and its rollback drops it, and both let the row go.
Nothing here names the repository.
-/
import Novalton.Python

namespace Novalton

/-- `own` is the session that holds the row and its uncommitted write. -/
structure Row (α : Type) where
  committed : α
  own : Option (ℕ × Option α)
deriving DecidableEq

namespace Row
variable {α : Type} {row row' : Row α} {i j : ℕ} {v : α}

/-- A row nobody holds. -/
def idle (v : α) : Row α := ⟨v, .none⟩

/-- No other session holds the row. -/
def free (row : Row α) (i : ℕ) : Bool :=
  match row.own with
  | .some (j, _) => j == i
  | .none => true

/-- What session `i` sees. -/
def view (row : Row α) (i : ℕ) : α :=
  match row.own with
  | .some (j, .some v) => if j = i then v else row.committed
  | _ => row.committed

/-- `SELECT … FOR UPDATE`. -/
def lock (row : Row α) (i : ℕ) : Option (Row α) :=
  match row.own with
  | .some (j, _) => if j = i then .some row else .none
  | .none => .some ⟨row.committed, .some (i, .none)⟩

/-- An `UPDATE` in a transaction that goes on. -/
def write (row : Row α) (i : ℕ) (v : α) : Option (Row α) :=
  if row.free i then .some ⟨row.committed, .some (i, .some v)⟩ else .none

/-- An `UPDATE` and the commit right after it. -/
def put (row : Row α) (i : ℕ) (v : α) : Option (Row α) :=
  if row.free i then .some ⟨v, .none⟩ else .none

def commit (row : Row α) (i : ℕ) : Row α :=
  match row.own with
  | .some (j, w) => if j = i then ⟨w.getD row.committed, .none⟩ else row
  | .none => row

def rollback (row : Row α) (i : ℕ) : Row α :=
  match row.own with
  | .some (j, _) => if j = i then ⟨row.committed, .none⟩ else row
  | .none => row

@[simp] theorem rollback_committed : (row.rollback i).committed = row.committed := by
  unfold rollback
  split
  · split <;> rfl
  · rfl

theorem lock_committed (h : row.lock i = .some row') : row'.committed = row.committed := by
  unfold lock at h
  split at h
  · split at h
    · cases h; rfl
    · cases h
  · cases h; rfl

/-- A row held for writing is not put by another session. -/
theorem put_eq (h : row.put i v = .some row') : row' = ⟨v, .none⟩ ∧ row.free i = true := by
  unfold put at h
  split at h
  · cases h
    exact ⟨rfl, by assumption⟩
  · cases h

theorem write_eq (h : row.write i v = .some row') : row' = ⟨row.committed, .some (i, .some v)⟩ ∧
    row.free i = true := by
  unfold write at h
  split at h
  · cases h
    exact ⟨rfl, by assumption⟩
  · cases h

/-- A row another session holds is not locked, written or put, and commits and rollbacks
of other sessions leave it alone. -/
theorem free_own {w : Option α} (h : row.free i = true) (hown : row.own = .some (j, w)) :
    j = i := by
  simpa [free, hown] using h

/-- Another session's rollback leaves a held row alone. -/
theorem rollback_ne {w : Option α} (hown : row.own = .some (j, w)) (hne : j ≠ i) :
    row.rollback i = row := by
  simp [rollback, hown, hne]

theorem commit_ne {w : Option α} (hown : row.own = .some (j, w)) (hne : j ≠ i) :
    row.commit i = row := by
  simp [commit, hown, hne]

/-- A commit publishes nothing where nothing is written. -/
theorem commit_committed (h : ∀ v, row.own ≠ .some (i, .some v)) :
    (row.commit i).committed = row.committed := by
  unfold commit
  split
  next j w hown =>
    split
    next hj =>
      subst hj
      cases w with
      | none => rfl
      | some v => exact absurd hown (h v)
    next => rfl
  next => rfl

/-- A session's commit publishes what it sees. -/
theorem commit_view : (row.commit i).committed = row.view i := by
  unfold commit view
  cases row.own with
  | none => rfl
  | some held =>
    obtain ⟨j, w⟩ := held
    by_cases hj : j = i
    · cases w <;> simp [hj]
    · cases w <;> simp [hj]

theorem view_of_unheld (h : row.own = .none) : row.view i = row.committed := by
  unfold view
  rw [h]

theorem commit_own_ne {w : Option α} : (row.commit i).own ≠ .some (i, w) := by
  unfold commit
  split
  next j w' hown =>
    split
    next => simp
    next hj => simp [hown, hj]
  next hown => simp [hown]

theorem rollback_own_ne {w : Option α} : (row.rollback i).own ≠ .some (i, w) := by
  unfold rollback
  split
  next j w' hown =>
    split
    next => simp
    next hj => simp [hown, hj]
  next hown => simp [hown]

/-- What a commit or a rollback leaves held was held. -/
theorem own_of_commit {w : Option α} (h : (row.commit i).own = .some (j, w)) : row.own = .some
    (j, w) := by
  unfold commit at h
  split at h
  · split at h
    · cases h
    · exact h
  · exact h

theorem own_of_rollback {w : Option α} (h : (row.rollback i).own = .some (j, w)) : row.own = .some
    (j, w) := by
  unfold rollback at h
  split at h
  · split at h
    · cases h
    · exact h
  · exact h

/-- A lock is no write. -/
theorem written_of_lock (h : row.lock i = .some row') (hown : row'.own = .some (j, .some v)) :
    row.own = .some (j, .some v) := by
  unfold lock at h
  split at h
  · split at h
    · cases h
      exact hown
    · cases h
  · cases h
    cases hown

/-- No session holds a write it has not committed. -/
def Clean (row : Row α) : Prop := ∀ i v, row.own ≠ .some (i, .some v)

theorem Clean.commit (h : row.Clean) : (row.commit i).Clean := fun j v hown => h j v
    (own_of_commit hown)

theorem Clean.rollback (h : row.Clean) : (row.rollback i).Clean := fun j v hown => h j v
    (own_of_rollback hown)

theorem Clean.lock (h : row.Clean) (hlock : row.lock i = .some row') : row'.Clean :=
  fun j v hown => h j v (written_of_lock hlock hown)

theorem idle_clean (v : α) : (idle v).Clean := by
  intro i w hown
  cases hown

theorem Clean.put (hput : row.put i v = .some row') : row'.Clean := by
  obtain ⟨rfl, -⟩ := put_eq hput
  exact idle_clean v

theorem lock_own {w : Option α} (h : row.lock i = .some row') (hown : row.own = .some (j, w)) :
    row' = row ∧ j = i := by
  simp only [lock, hown] at h
  split at h
  next hj => cases h; exact ⟨rfl, hj⟩
  next => cases h

/-- A lock is let go by a rollback. -/
theorem rollback_lock (h : row.lock i = .some row') : row'.rollback i = row.rollback i := by
  obtain ⟨committed, own⟩ := row
  cases own with
  | none =>
    cases h
    simp [rollback]
  | some held =>
    simp only [lock] at h
    split at h
    · cases h
      rfl
    · cases h

end Row

end Novalton
