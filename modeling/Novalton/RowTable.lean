/-
Tables under READ COMMITTED, over the rows of `RowLock`: a row for each key, empty until
a session writes it. `INSERT … ON CONFLICT DO UPDATE` waits for the session that holds the
row of its key. `UPDATE … WHERE` finds its keys in what its session sees when it begins;
then it waits for the row of each key and looks at it again, and keeps the row locked
whether or not it still matches. Nothing here names the repository.
-/
import Novalton.RowLock
import Mathlib.Data.List.Basic

namespace Novalton

/-- `keys` are the keys whose rows have been written or locked. -/
structure Table (κ α : Type) where
  keys : List κ
  row : κ → Row (Option α)
  known : ∀ key, key ∉ keys → row key = Row.idle .none

namespace Table
variable {κ α : Type}

def empty : Table κ α := ⟨[], fun _ => Row.idle .none, fun _ _ => rfl⟩

/-- What is committed, and what session `i` sees. -/
def committed (t : Table κ α) (key : κ) : Option α := (t.row key).committed

def view (t : Table κ α) (i : ℕ) (key : κ) : Option α := (t.row key).view i

/-- Session `i` holds the row. -/
def Holds (t : Table κ α) (i : ℕ) (key : κ) : Prop := ∃ w, (t.row key).own = .some (i, w)

def commit (t : Table κ α) (i : ℕ) : Table κ α where
  keys := t.keys
  row := fun key => (t.row key).commit i
  known := fun key h => by rw [t.known key h]; rfl

def rollback (t : Table κ α) (i : ℕ) : Table κ α where
  keys := t.keys
  row := fun key => (t.row key).rollback i
  known := fun key h => by rw [t.known key h]; rfl

/-- The keys an `UPDATE … WHERE` of session `i` finds when it begins. -/
def scan (t : Table κ α) (i : ℕ) (cond : κ → α → Bool) : List κ :=
  t.keys.filter fun key => (t.view i key).any (cond key)

section
variable [DecidableEq κ]

def set (t : Table κ α) (key : κ) (row : Row (Option α)) : Table κ α where
  keys := t.keys.insert key
  row := Function.update t.row key row
  known := by
    intro other h
    rw [List.mem_insert_iff, not_or] at h
    rw [Function.update_of_ne h.1]
    exact t.known other h.2

/-- `INSERT … ON CONFLICT DO UPDATE`, or the `UPDATE` of one row. -/
def upsert (t : Table κ α) (i : ℕ) (key : κ) (v : α) : Option (Table κ α) :=
  ((t.row key).write i (.some v)).map (t.set key)

/-- `INSERT` under a unique key: `none` while another session holds the key, `some none` if it
is taken. -/
def insert (t : Table κ α) (i : ℕ) (key : κ) (v : α) : Option (Option (Table κ α)) :=
  if (t.row key).free i then
    match t.view i key with
    | .some _ => .some .none
    | .none => (t.upsert i key v).map .some
  else .none

def lock (t : Table κ α) (i : ℕ) (key : κ) : Option (Table κ α) :=
  ((t.row key).lock i).map (t.set key)

/-- One row of an `UPDATE … WHERE`, when its session gets it. -/
def recheck (t : Table κ α) (i : ℕ) (cond : κ → α → Bool) (f : α → α) (key : κ) :
    Option (Table κ α) :=
  match t.view i key with
  | .some v => if cond key v then t.upsert i key (f v) else t.lock i key
  | .none => t.lock i key

end

variable {t t' : Table κ α} {i j : ℕ} {key other : κ}

@[simp] theorem empty_committed : (empty : Table κ α).committed key = .none := rfl

@[simp] theorem empty_view : (empty : Table κ α).view i key = .none := rfl

theorem empty_holds : ¬ (empty : Table κ α).Holds i key := by
  intro ⟨w, hown⟩
  cases hown

@[simp] theorem rollback_committed : (t.rollback i).committed key = t.committed key :=
  Row.rollback_committed

/-- A commit publishes what its session sees, -/
theorem commit_committed : (t.commit i).committed key = t.view i key := Row.commit_view

theorem view_of_unheld (h : ¬ t.Holds i key) : t.view i key = t.committed key := by
  unfold view committed Row.view
  split
  next j v hown =>
    rw [if_neg]
    intro hj
    subst hj
    exact h ⟨_, hown⟩
  next => rfl

/-- A row another session holds shows what is committed. -/
theorem view_of_other (h : t.Holds j key) (hne : i ≠ j) : t.view i key = t.committed key := by
  refine view_of_unheld ?_
  rintro ⟨w, hown⟩
  obtain ⟨w', hown'⟩ := h
  rw [hown] at hown'
  cases hown'
  exact hne rfl

/-- and a row it does not hold stays as it is. -/
theorem commit_committed_of_unheld (h : ¬ t.Holds i key) :
    (t.commit i).committed key = t.committed key := by
  rw [commit_committed, view_of_unheld h]

theorem commit_unheld : ¬ (t.commit i).Holds i key := by
  intro ⟨w, hown⟩
  exact Row.commit_own_ne hown

theorem rollback_unheld : ¬ (t.rollback i).Holds i key := by
  intro ⟨w, hown⟩
  exact Row.rollback_own_ne hown

theorem Holds.of_commit (h : (t.commit i).Holds j key) : t.Holds j key := by
  obtain ⟨w, hown⟩ := h
  exact ⟨w, Row.own_of_commit hown⟩

theorem Holds.of_rollback (h : (t.rollback i).Holds j key) : t.Holds j key := by
  obtain ⟨w, hown⟩ := h
  exact ⟨w, Row.own_of_rollback hown⟩

/-- What another session holds is left as it is. -/
theorem Holds.commit_row (h : t.Holds j key) (hne : j ≠ i) : (t.commit i).row key = t.row key := by
  obtain ⟨w, hown⟩ := h
  exact Row.commit_ne hown hne

theorem Holds.rollback_row (h : t.Holds j key) (hne : j ≠ i) :
    (t.rollback i).row key = t.row key := by
  obtain ⟨w, hown⟩ := h
  exact Row.rollback_ne hown hne

/-- After a commit a session sees what it saw or what was published, -/
theorem commit_view : (t.commit i).view j key = t.view j key ∨
    (t.commit i).view j key = t.view i key := by
  by_cases hholds : (t.commit i).Holds j key
  · left
    have hne : j ≠ i := by
      rintro rfl
      exact commit_unheld hholds
    rw [view, hholds.of_commit.commit_row hne, ← view]
  · right
    rw [view_of_unheld hholds, commit_committed]

/-- and after a rollback what it saw or what is committed. -/
theorem rollback_view : (t.rollback i).view j key = t.view j key ∨
    (t.rollback i).view j key = t.committed key := by
  by_cases hholds : (t.rollback i).Holds j key
  · left
    have hne : j ≠ i := by
      rintro rfl
      exact rollback_unheld hholds
    rw [view, hholds.of_rollback.rollback_row hne, ← view]
  · right
    rw [view_of_unheld hholds, rollback_committed]

theorem Holds.congr (h : t.Holds j key) (hrow : t'.row key = t.row key) : t'.Holds j key := by
  obtain ⟨w, hown⟩ := h
  exact ⟨w, by rw [hrow, hown]⟩

theorem view_congr (hrow : t'.row key = t.row key) : t'.view j key = t.view j key := by
  rw [view, hrow, ← view]

theorem mem_scan {cond : κ → α → Bool} : key ∈ t.scan i cond ↔ ∃ v, t.view i key = .some v ∧
    cond key v = true := by
  rw [scan, List.mem_filter, Option.any_eq_true]
  constructor
  · intro ⟨_, h⟩
    exact h
  · intro h
    refine ⟨?_, h⟩
    by_contra hmem
    obtain ⟨v, hview, -⟩ := h
    rw [view, t.known key hmem] at hview
    cases hview

section
variable [DecidableEq κ] {row : Row (Option α)} {v : α}

@[simp] theorem set_row_self : (t.set key row).row key = row := by
  simp [set]

theorem set_row_ne (h : other ≠ key) : (t.set key row).row other = t.row other := by
  simp [set, h]

/-- What a write and a check of a row come to: the row was free for the session and is now
its own, and only the session sees the change. -/
structure Took (t t' : Table κ α) (i : ℕ) (key : κ) (v : Option α) : Prop where
  unheld : ∀ j, t.Holds j key → j = i
  holds : t'.Holds i key
  view : t'.view i key = v
  committed : t'.committed key = t.committed key
  other : ∀ other, other ≠ key → t'.row other = t.row other

omit [DecidableEq κ] in
theorem unheld_of_free (h : (t.row key).free i = true) : ∀ j, t.Holds j key → j = i := by
  intro j ⟨w, hown⟩
  exact Row.free_own h hown

theorem upsert_took (h : t.upsert i key v = .some t') : t.Took t' i key (.some v) := by
  rw [upsert, Option.map_eq_some_iff] at h
  obtain ⟨row, hwrite, rfl⟩ := h
  obtain ⟨rfl, hfree⟩ := Row.write_eq hwrite
  refine ⟨unheld_of_free hfree, ⟨_, by rw [set_row_self]⟩, ?_, ?_, fun other hne => set_row_ne hne⟩
  · simp [Table.view, Row.view]
  · simp [Table.committed]

theorem insert_took (h : t.insert i key v = .some (.some t')) : t.Took t' i key (.some v) ∧
    t.view i key = .none := by
  rw [insert] at h
  split at h
  · split at h
    next => cases h
    next hview =>
      rw [Option.map_eq_some_iff] at h
      obtain ⟨table, hupsert, heq⟩ := h
      cases heq
      exact ⟨upsert_took hupsert, hview⟩
  · cases h

theorem lock_took (h : t.lock i key = .some t') : t.Took t' i key (t.view i key) := by
  rw [lock, Option.map_eq_some_iff] at h
  obtain ⟨row, hlock, rfl⟩ := h
  have hcommitted := Row.lock_committed hlock
  simp only [Row.lock] at hlock
  split at hlock
  next j w hown =>
    split at hlock
    next hj =>
      subst hj
      cases hlock
      refine ⟨?_, ⟨w, by rw [set_row_self, hown]⟩, ?_, ?_, fun other hne => set_row_ne hne⟩
      · rintro j' ⟨w', hown'⟩
        rw [hown] at hown'
        cases hown'
        rfl
      · rw [Table.view, set_row_self, Table.view]
      · rw [Table.committed, set_row_self, Table.committed]
    next => cases hlock
  next hown =>
    cases hlock
    refine ⟨?_, ⟨.none, by rw [set_row_self]⟩, ?_, ?_, fun other hne => set_row_ne hne⟩
    · rintro j ⟨w, hown'⟩
      rw [hown] at hown'
      cases hown'
    · simp [Table.view, Row.view, hown]
    · simp [Table.committed]

theorem recheck_took {cond : κ → α → Bool} {f : α → α} (h : t.recheck i cond f key = .some t') :
    t.Took t' i key ((t.view i key).map fun v => if cond key v then f v else v) := by
  unfold recheck at h
  split at h
  next v hview =>
    rw [hview, Option.map_some]
    split at h
    next hv =>
      rw [if_pos hv]
      exact upsert_took h
    next hv =>
      rw [if_neg hv, ← hview]
      exact lock_took h
  next hview =>
    rw [hview, Option.map_none, ← hview]
    exact lock_took h

namespace Took
variable {value : Option α}

omit [DecidableEq κ] in
theorem holds_iff (h : t.Took t' i key value) (hne : other ≠ key) : t'.Holds j other ↔
    t.Holds j other := by
  rw [Holds, Holds, h.other other hne]

omit [DecidableEq κ] in
theorem view_ne (h : t.Took t' i key value) (hne : other ≠ key) :
    t'.view j other = t.view j other :=
  view_congr (h.other other hne)

theorem committed_eq (h : t.Took t' i key value) : t'.committed = t.committed := by
  funext other
  by_cases hother : other = key
  · rw [hother]
    exact h.committed
  · rw [Table.committed, h.other other hother, Table.committed]

omit [DecidableEq κ] in
/-- Another session's rows are where they were. -/
theorem row_of_holds (h : t.Took t' i key value) (hholds : t.Holds j other) (hne : j ≠ i) :
    t'.row other = t.row other := by
  refine h.other other ?_
  intro hother
  subst hother
  exact hne (h.unheld j hholds)

theorem holds_of_ne (h : t.Took t' i key value) (hholds : t'.Holds j other) (hne : j ≠ i) :
    t.Holds j other := by
  by_cases hother : other = key
  · subst hother
    obtain ⟨w, hown⟩ := hholds
    obtain ⟨w', hown'⟩ := h.holds
    rw [hown] at hown'
    cases hown'
    exact absurd rfl hne
  · exact (h.holds_iff hother).mp hholds

end Took

end

end Table

end Novalton
