/-
What holds of every step of every run, and how often a kind of step is taken in a run: a bound
by what it spends. Nothing here names the repository.
-/
import Novalton.Transition

namespace Novalton.System

variable {σ α : Type} (sys : System σ α) (taken : σ → α → σ → Bool)

/-- Every step that is taken in a run relates the states before and after it by `P`. -/
def EveryStep (P : σ → α → σ → Prop) : Prop :=
  ∀ s a t, sys.Reachable s → sys.step s a = .some t → P s a t

/-- How many of the steps that a list of labels takes are `taken`. -/
def count : σ → List α → ℕ
  | _, [] => 0
  | s, a :: labels =>
    match sys.step s a with
    | .some t => (if taken s a t then 1 else 0) + count t labels
    | .none => 0

variable {sys taken}

/-- **What every step leaves and a taken step lowers bounds how often it is taken**, from the
states of an invariant on. -/
theorem count_le {I : σ → Prop} (potential : σ → ℕ)
    (hkeep : ∀ s a t, I s → sys.step s a = .some t → I t)
    (hspend : ∀ s a t, I s → sys.step s a = .some t →
    potential t + (if taken s a t then 1 else 0) ≤ potential s) :
    ∀ (labels : List α) {s : σ}, I s → sys.count taken s labels ≤ potential s := by
  intro labels
  induction labels with
  | nil =>
    intro s _
    exact Nat.zero_le _
  | cons a labels ih =>
    intro s hs
    rw [count]
    split
    next t hstep =>
      have hrest := ih (hkeep s a t hs hstep)
      have hfirst := hspend s a t hs hstep
      omega
    next => exact Nat.zero_le _

end Novalton.System
