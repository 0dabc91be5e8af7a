/-
The attempt budget of one execution, read off its events: how many completions it
requests, of which kinds, after which model runs, and how many proposals it executes.
-/
import Novalton.Attempts

namespace Novalton.Attempts

open Traced

/-! ## The attempt budget -/

/-- The kind of the model run an event starts. -/
def Event.starts : Event → Option AttemptKind
  | .started kind => .some kind
  | _ => .none

/-- The kind of the completion an event requests. -/
def Event.requests : Event → Option AttemptKind
  | .requested kind => .some kind
  | _ => .none

/-- Whether an event executes a proposal. -/
def Event.calls : Event → Bool
  | .proposes _ => true
  | _ => false

/-- The columns of the model runs a log starts. -/
def startedRuns (log : List Event) : List AttemptKind := log.filterMap Event.starts

/-- The completions a log requests. -/
def completions (log : List Event) : List AttemptKind := log.filterMap Event.requests

/-- The proposals a log executes. -/
def calls (log : List Event) : Nat := log.countP Event.calls

/-- Every completion comes after the start of its own model run. -/
def Ordered (log : List Event) : Prop :=
  ∀ kind, .requested kind ∈ log → List.Sublist [.started kind, .requested kind] log

theorem Ordered.nil : Ordered [] := fun _ h => by cases h

theorem Ordered.cons {event : Event} {log : List Event} (hevent : event.requests = .none)
    (h : Ordered log) : Ordered (event :: log) := by
  intro kind hkind
  rcases List.mem_cons.mp hkind with rfl | hkind
  · cases hevent
  · exact (h kind hkind).cons event

theorem Ordered.attempt {kind : AttemptKind} {log : List Event} (h : Ordered log) :
    Ordered (.started kind :: .requested kind :: log) := by
  intro other hother
  rcases List.mem_cons.mp hother with hother | hother
  · cases hother
  · rcases List.mem_cons.mp hother with hother | hother
    · cases hother
      exact (List.nil_sublist log).cons_cons _ |>.cons_cons _
    · exact ((h other hother).cons _).cons _

/-- What a continuation adds to the budget: one attempt of its kind, at most. -/
structure ContinueBudget (log : List Event) : Prop where
  attempts : (startedRuns log, completions log) = ([], []) ∨
    (startedRuns log, completions log) = ([.toolContinuation], []) ∨
    (startedRuns log, completions log) = ([.toolContinuation], [.toolContinuation])
  ordered : Ordered log

section
variable {env : ExecuteEnv} {basis : Generation → Prop} {log : List Event}

theorem ContinueLog.budget (h : ContinueLog basis log) : ContinueBudget log ∧ calls log = 0 := by
  cases h with
  | refused => exact ⟨⟨.inl rfl, .nil⟩, rfl⟩
  | unrequested => exact ⟨⟨.inr (.inl rfl), Ordered.nil.cons rfl⟩, rfl⟩
  | requested => exact ⟨⟨.inr (.inr rfl), Ordered.nil.attempt⟩, rfl⟩
  | succeeded hg => exact ⟨⟨.inr (.inr rfl), (Ordered.nil.cons rfl).attempt⟩, rfl⟩

theorem DeliverLog.budget (h : DeliverLog basis log) : ContinueBudget log ∧ calls log ≤ 1 := by
  cases h with
  | nothing => exact ⟨⟨.inl rfl, .nil⟩, Nat.zero_le 1⟩
  | succeeded hg => exact ⟨⟨.inl rfl, Ordered.nil.cons rfl⟩, Nat.zero_le 1⟩
  | suspended hg => exact ⟨⟨.inl rfl, (Ordered.nil.cons rfl).cons rfl⟩, Nat.le_refl 1⟩
  | @continued generation rest hg hrest =>
    obtain ⟨⟨hattempts, hordered⟩, hcalls⟩ := hrest.budget
    have hone : calls (.proposes generation :: rest) = calls rest + 1 := List.countP_cons_of_pos rfl
    exact ⟨⟨hattempts, hordered.cons rfl⟩, by omega⟩

end

/-- The budget of an execution. -/
structure Budget (env : ExecuteEnv) (log : List Event) : Prop where
  three : (completions log).length ≤ 3
  first : ∀ kind, (completions log).head? = .some kind → kind = .initial
  distinct : (completions log).Nodup
  runs : ((startedRuns log).map AttemptKind.column).Nodup
  extra : .truncation ∈ completions log → .contractRepair ∉ completions log
  repaired : .contractRepair ∈ completions log → env.permittedTools = []
  ordered : Ordered log
  once : calls log ≤ 1

/-- What the lists of an execution's attempts satisfy. -/
def WithinBudget (runs requested : List AttemptKind) : Bool :=
  requested.length ≤ 3 && requested.head?.all (· = .initial) && requested.Nodup &&
    (runs.map AttemptKind.column).Nodup &&
    !(requested.contains .truncation && requested.contains .contractRepair)

theorem Budget.of_attempts {env : ExecuteEnv} {log : List Event} (runs requested : List AttemptKind)
    (hlog : (startedRuns log, completions log) = (runs, requested))
    (hwithin : WithinBudget runs requested = true)
    (hrepaired : .contractRepair ∈ requested → env.permittedTools = []) (hordered : Ordered log)
    (honce : calls log ≤ 1) :
    Budget env log := by
  obtain ⟨rfl, rfl⟩ := Prod.mk.inj hlog
  simp only [WithinBudget, Bool.and_eq_true, decide_eq_true_eq, Bool.not_eq_true',
    Bool.and_eq_false_iff, List.contains_eq_mem, decide_eq_false_iff_not] at hwithin
  obtain ⟨⟨⟨⟨hthree, hfirst⟩, hdistinct⟩, hruns⟩, hextra⟩ := hwithin
  refine ⟨hthree, ?_, hdistinct, hruns, ?_, hrepaired, hordered, honce⟩
  · intro kind hkind
    rw [hkind] at hfirst
    simpa using hfirst
  · intro htruncation
    rcases hextra with h | h
    · exact absurd htruncation h
    · exact h

section
variable {env : ExecuteEnv} {basis : Generation → Prop} {log : List Event}

/-- The one extra attempt, after the first. -/
theorem AttemptLog.budget {kind : AttemptKind} (hkind : Extra env kind) (h : AttemptLog basis kind log) :
    Budget env (.started .initial :: .requested .initial :: log) := by
  cases h with
  | nothing => exact Budget.of_attempts [.initial] [.initial] rfl rfl (by simp) Ordered.nil.attempt (Nat.zero_le 1)
  | unrequested =>
    rcases hkind with rfl | ⟨rfl, htools⟩
    · exact Budget.of_attempts [.initial, .truncation] [.initial] rfl rfl (by simp)
        (Ordered.nil.cons rfl).attempt (Nat.zero_le 1)
    · exact Budget.of_attempts [.initial, .contractRepair] [.initial] rfl rfl (by simp)
        (Ordered.nil.cons rfl).attempt (Nat.zero_le 1)
  | @requested rest hrest =>
    obtain ⟨⟨hattempts, hordered⟩, hcalls⟩ := hrest.budget
    rcases hkind with rfl | ⟨rfl, htools⟩
    · rcases hattempts with h | h | h
      all_goals
        obtain ⟨hruns, hrequested⟩ := Prod.mk.inj h
        refine Budget.of_attempts (.initial :: .truncation :: startedRuns rest)
          (.initial :: .truncation :: completions rest) rfl ?_ ?_
          hordered.attempt.attempt hcalls
        · rw [hruns, hrequested]
          decide
        · rw [hrequested]
          simp
    · rcases hattempts with h | h | h
      all_goals
        obtain ⟨hruns, hrequested⟩ := Prod.mk.inj h
        refine Budget.of_attempts (.initial :: .contractRepair :: startedRuns rest)
          (.initial :: .contractRepair :: completions rest) rfl ?_ (fun _ => htools)
          hordered.attempt.attempt hcalls
        · rw [hruns, hrequested]
          decide

theorem ExecuteLog.budget (h : ExecuteLog env basis log) : Budget env log := by
  cases h with
  | nothing => exact Budget.of_attempts [] [] rfl rfl (by simp) Ordered.nil (Nat.zero_le 1)
  | unrequested =>
    exact Budget.of_attempts [.initial] [] rfl rfl (by simp) (Ordered.nil.cons rfl) (Nat.zero_le 1)
  | @requested rest hfollow =>
    cases hfollow with
    | extra hkind hlog => exact hlog.budget hkind
    | delivered hlog =>
      obtain ⟨⟨hattempts, hordered⟩, hcalls⟩ := hlog.budget
      rcases hattempts with h | h | h
      all_goals
        obtain ⟨hruns, hrequested⟩ := Prod.mk.inj h
        refine Budget.of_attempts (.initial :: startedRuns rest)
          (.initial :: completions rest) rfl ?_ ?_ hordered.attempt hcalls
        · rw [hruns, hrequested]
          decide
        · rw [hrequested]
          simp

end

/-- **The attempt budget.** Whatever the providers do, an execution requests three completions
at most, the initial one first, each of a kind of its own and after the start of its own
model run; it does not repair after a recovery, repairs where no tool is permitted only, and
executes one proposal at most. -/
theorem attempt_budget (env : ExecuteEnv) (s : Session AgentDb) : Budget env
    (events (execute env) s) := by
  rcases execute_emits env s with hnil | ⟨target, hroute, hlog⟩
  · rw [hnil]
    exact ExecuteLog.budget (ExecuteLog.nothing : ExecuteLog env (fun _ => True) [])
  · exact hlog.budget

end Novalton.Attempts
