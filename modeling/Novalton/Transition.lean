/-
Systems of sessions that take turns: a step function that may refuse, its runs, and the
invariant rules. A run is taken under a condition on its steps, so that one library
serves what holds of every run and what holds of the runs that keep to a condition.
Nothing here names the repository.
-/
import Novalton.Python

namespace Novalton

/-- Initial states, and what a labelled step makes of a state it can be taken in. -/
structure System (σ α : Type) where
  Init : σ → Prop
  step : σ → α → Option σ

namespace System
variable {σ α : Type} (sys : System σ α)

/-- Runs all of whose steps meet `cond`, a condition on the state before a step and its
label. -/
inductive Run (cond : σ → α → Prop) (s : σ) : σ → Prop where
  | refl : Run cond s s
  | tail {t u : σ} {a : α} : Run cond s t → cond t a → sys.step t a = .some u → Run cond s u

/-- The states that runs under `cond` reach. -/
def ReachableUnder (cond : σ → α → Prop) (s : σ) : Prop := ∃ i, sys.Init i ∧ sys.Run cond i s

/-- Any step will do. -/
def always (_ : σ) (_ : α) : Prop := True

/-- The states that runs reach. -/
def Reachable (s : σ) : Prop := sys.ReachableUnder always s

variable {sys} {cond : σ → α → Prop} {I J : σ → Prop} {s t u : σ} {a : α}

theorem Run.trans (h : sys.Run cond s t) (h' : sys.Run cond t u) : sys.Run cond s u := by
  induction h' with
  | refl => exact h
  | tail _ hcond hstep ih => exact ih.tail hcond hstep

theorem Run.mono {cond' : σ → α → Prop} (h : sys.Run cond s t)
    (himp : ∀ s a, cond s a → cond' s a) : sys.Run cond' s t := by
  induction h with
  | refl => exact .refl
  | tail _ hcond hstep ih => exact ih.tail (himp _ _ hcond) hstep

theorem Run.weaken (h : sys.Run cond s t) : sys.Run always s t := h.mono fun _ _ _ => trivial

theorem ReachableUnder.reachable (h : sys.ReachableUnder cond s) : sys.Reachable s := by
  obtain ⟨i, hi, hrun⟩ := h
  exact ⟨i, hi, hrun.weaken⟩

theorem ReachableUnder.step (h : sys.ReachableUnder cond s) (hcond : cond s a)
    (hstep : sys.step s a = .some t) :
    sys.ReachableUnder cond t := by
  obtain ⟨i, hi, hrun⟩ := h
  exact ⟨i, hi, hrun.tail hcond hstep⟩

theorem ReachableUnder.run (h : sys.ReachableUnder cond s) (hrun : sys.Run cond s t) :
    sys.ReachableUnder cond t := by
  obtain ⟨i, hi, h⟩ := h
  exact ⟨i, hi, h.trans hrun⟩

theorem Reachable.step (h : sys.Reachable s) (hstep : sys.step s a = .some t) : sys.Reachable t :=
  ReachableUnder.step h trivial hstep

/-- What one step keeps, a run keeps. -/
theorem Run.invariant (hkeep : ∀ s a t, I s → cond s a → sys.step s a = .some t → I t)
    (hrun : sys.Run cond s t) (hs : I s) : I t := by
  induction hrun with
  | refl => exact hs
  | tail _ hcond hstep ih => exact hkeep _ _ _ ih hcond hstep

theorem ReachableUnder.invariant (hinit : ∀ s, sys.Init s → I s)
    (hkeep : ∀ s a t, I s → cond s a → sys.step s a = .some t → I t)
    (h : sys.ReachableUnder cond s) : I s := by
  obtain ⟨i, hi, hrun⟩ := h
  exact hrun.invariant hkeep (hinit i hi)

theorem Reachable.invariant (hinit : ∀ s, sys.Init s → I s)
    (hkeep : ∀ s a t, I s → sys.step s a = .some t → I t) (h : sys.Reachable s) : I s :=
  ReachableUnder.invariant hinit (fun s a t hs _ => hkeep s a t hs) h

/-- An invariant may be used to keep another. -/
theorem ReachableUnder.invariant_with (hJ : ∀ s, sys.ReachableUnder cond s → J s)
    (hinit : ∀ s, sys.Init s → I s)
    (hkeep : ∀ s a t, J s → I s → cond s a → sys.step s a = .some t → I t)
    (h : sys.ReachableUnder cond s) : I s := by
  obtain ⟨i, hi, hrun⟩ := h
  suffices hboth : sys.ReachableUnder cond s ∧ I s from hboth.2
  refine hrun.invariant (I := fun s => sys.ReachableUnder cond s ∧ I s) ?_ ⟨⟨i, hi, .refl⟩,
    hinit i hi⟩
  intro s a t hs hcond hstep
  exact ⟨hs.1.step hcond hstep, hkeep s a t (hJ s hs.1) hs.2 hcond hstep⟩

theorem Reachable.invariant_with (hJ : ∀ s, sys.Reachable s → J s) (hinit : ∀ s, sys.Init s → I s)
    (hkeep : ∀ s a t, J s → I s → sys.step s a = .some t → I t) (h : sys.Reachable s) : I s :=
  ReachableUnder.invariant_with hJ hinit (fun s a t hJ hI _ => hkeep s a t hJ hI) h

/-- The state a list of labels leads to. -/
def exec (sys : System σ α) (s : σ) : List α → Option σ
  | [] => .some s
  | a :: labels =>
    match sys.step s a with
    | .some t => exec sys t labels
    | .none => .none

theorem exec_cons {labels : List α} (h : sys.step s a = .some t) : sys.exec s
    (a :: labels) = sys.exec t labels := by
  rw [exec, h]

theorem exec_run {labels : List α} (h : sys.exec s labels = .some t) : sys.Run always s t := by
  induction labels generalizing s with
  | nil =>
    cases h
    exact .refl
  | cons a labels ih =>
    rw [exec] at h
    split at h
    next u hstep => exact (Run.refl.tail trivial hstep).trans (ih h)
    next => cases h

/-- Labels that always meet a condition. -/
theorem exec_runUnder {labels : List α} (hcond : ∀ a ∈ labels, ∀ s, cond s a)
    (h : sys.exec s labels = .some t) : sys.Run cond s t := by
  induction labels generalizing s with
  | nil =>
    cases h
    exact .refl
  | cons a labels ih =>
    rw [exec] at h
    split at h
    next u hstep =>
      have hfirst : sys.Run cond s u := Run.refl.tail (hcond a (List.mem_cons_self ..) s) hstep
      exact hfirst.trans (ih (fun b hb => hcond b (List.mem_cons_of_mem _ hb)) h)
    next => cases h

theorem exec_reachable {labels : List α} (hs : sys.Init s) (h : sys.exec s labels = .some t) :
    sys.Reachable t :=
  ⟨s, hs, exec_run h⟩

/-- The labels can be taken in turn from `s`, each where the condition holds. -/
def Guarded (sys : System σ α) (cond : σ → α → Prop) (s : σ) : List α → Prop
  | [] => True
  | a :: labels =>
    cond s a ∧
      match sys.step s a with
      | .some t => Guarded sys cond t labels
      | .none => False

theorem Guarded.run {labels : List α} (h : sys.Guarded cond s labels)
    (hexec : sys.exec s labels = .some t) :
    sys.Run cond s t := by
  induction labels generalizing s with
  | nil =>
    cases hexec
    exact .refl
  | cons a labels ih =>
    obtain ⟨hcond, hrest⟩ := h
    rw [exec] at hexec
    split at hexec
    next u hstep =>
      rw [hstep] at hrest
      exact (Run.refl.tail hcond hstep).trans (ih hrest hexec)
    next => cases hexec

end System

end Novalton
