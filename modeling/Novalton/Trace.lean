/-
Programs that also say what they do outside of the database: `Traced` is `Prog` with a
list of events, in their order, which no rollback takes back.

Erasing the events of a traced program gives a program; the events of a run are reasoned
about with `Emits`, and with `Attests` where a state of the database can only have come
about after an event.
-/
import Novalton.Session

namespace Novalton

/-- A program over a session that emits events. -/
def Traced (δ ε α : Type) : Type := Session δ → Except Exn α × Session δ × List ε

namespace Traced
variable {δ ε α β : Type}

instance : Monad (Traced δ ε) where
  pure a := fun s => (.ok a, s, [])
  bind x f := fun s =>
    match x s with
    | (.ok a, s', l) => ((f a s').1, (f a s').2.1, l ++ (f a s').2.2)
    | (.error e, s', l) => (.error e, s', l)

/-- A program that emits nothing. -/
def lift (p : Prog δ α) : Traced δ ε α := fun s => ((p s).1, (p s).2, [])

/-- An event. -/
def emit (event : ε) : Traced δ ε Unit := fun s => (.ok (), s, [event])

/-- `Prog.tryReturn`. -/
def tryReturn (body : Traced δ ε α) (handle : Exn → Option (Traced δ ε β))
    (rest : α → Traced δ ε β) : Traced δ ε β := fun s =>
  match body s with
  | (.ok a, s', l) => ((rest a s').1, (rest a s').2.1, l ++ (rest a s').2.2)
  | (.error e, s', l) =>
    match handle e with
    | .some h => ((h s').1, (h s').2.1, l ++ (h s').2.2)
    | .none => (.error e, s', l)

/-- The events a run emits. -/
def events (p : Traced δ ε α) (s : Session δ) : List ε := (p s).2.2

/-! ## Erasure -/

/-- The program without its events. -/
def erase (p : Traced δ ε α) : Prog δ α := fun s => ((p s).1, (p s).2.1)

@[simp] theorem erase_pure (a : α) : erase (pure a : Traced δ ε α) = pure a := rfl

@[simp] theorem erase_lift (p : Prog δ α) : erase (lift p : Traced δ ε α) = p := rfl

@[simp] theorem erase_emit (event : ε) : erase (emit event : Traced δ ε Unit) = pure () := rfl

@[simp] theorem erase_bind (x : Traced δ ε α) (f : α → Traced δ ε β) : erase (x >>= f) = erase x >>=
    fun a => erase (f a) := by
  funext s
  show ((_, _) : Except Exn β × Session δ) = _
  simp only [erase, bind]
  split <;> simp_all

@[simp] theorem erase_tryReturn (body : Traced δ ε α) (handle : Exn → Option (Traced δ ε β))
    (rest : α → Traced δ ε β) :
    erase (tryReturn body handle rest) =
      Prog.tryReturn (erase body) (fun e => (handle e).map erase) fun a => erase (rest a) := by
  funext s
  cases hbody : body s with
  | mk r t =>
    cases r with
    | ok a => simp only [erase, tryReturn, Prog.tryReturn, hbody]
    | error e => cases hhandle : handle e <;> simp only [erase, tryReturn, Prog.tryReturn, hbody,
        hhandle, Option.map]

/-! ## The events of a run -/

/-- `R` relates every run's events to what it returns or raises. -/
def Logs (R : List ε → Except Exn α → Prop) (p : Traced δ ε α) : Prop := ∀ s, R (events p s) (p s).1

section
variable {R : List ε → Except Exn β → Prop}

theorem Logs.pure {b : β} (h : R [] (.ok b)) : Logs R (Pure.pure b : Traced δ ε β) := fun _ => h

/-- After an event, the rest logs what may follow it. -/
theorem Logs.emit_bind {event : ε} {f : Unit → Traced δ ε β}
    (h : Logs (fun l r => R (event :: l) r) (f ())) :
    Logs R (Traced.emit event >>= f) := h

/-- A program without events raises, or goes on. -/
theorem Logs.lift_bind {p : Prog δ α} {f : α → Traced δ ε β} (hraised : ∀ e, R [] (.error e))
    (h : ∀ a, Logs R (f a)) :
    Logs R (Traced.lift p >>= f) := by
  intro s
  cases hp : p s with
  | mk r s' =>
    simp only [events, bind, Traced.lift, hp]
    cases r with
    | ok a => exact h a s'
    | error e => exact hraised e

end

/-- Every run's events have `P`, returning or raising. -/
def Emits (P : List ε → Prop) (p : Traced δ ε α) : Prop := Logs (fun l _ => P l) p

variable {P Q : List ε → Prop}

theorem Emits.mono {p : Traced δ ε α} (h : Emits P p) (hpq : ∀ l, P l → Q l) : Emits Q p :=
  fun s => hpq _ (h s)

theorem Emits.pure {a : α} (h : P []) : Emits P (Pure.pure a : Traced δ ε α) := Logs.pure h

theorem Emits.lift {p : Prog δ α} (h : P []) : Emits P (Traced.lift p : Traced δ ε α) := fun _ => h

theorem Emits.emit_bind {event : ε} {f : Unit → Traced δ ε β}
    (h : Emits (fun l => P (event :: l)) (f ())) :
    Emits P (Traced.emit event >>= f) := Logs.emit_bind h

theorem Emits.lift_bind {p : Prog δ α} {f : α → Traced δ ε β} (hnil : P [])
    (h : ∀ a, Emits P (f a)) :
    Emits P (Traced.lift p >>= f) := Logs.lift_bind (fun _ => hnil) h

/-- A block between `try` and `except`, of which `R` relates the events to the result. -/
theorem Emits.tryReturn {R : List ε → Except Exn α → Prop} {body : Traced δ ε α}
    {handle : Exn → Option (Traced δ ε β)} {rest : α → Traced δ ε β} (hbody : Logs R body)
    (hcaught : ∀ l e, R l (.error e) → ∀ h, handle e = .some h → Emits (fun l' => P (l ++ l')) h)
    (hraised : ∀ l e, R l (.error e) → handle e = .none → P l)
    (hrest : ∀ l a, R l (.ok a) → Emits (fun l' => P (l ++ l')) (rest a)) : Emits P
    (Traced.tryReturn body handle rest) := by
  intro s
  have hb := hbody s
  cases hbs : body s with
  | mk r t =>
    rw [events, hbs] at hb
    simp only [events, Traced.tryReturn, hbs]
    cases r with
    | ok a => exact hrest _ a hb t.1
    | error e =>
      cases hh : handle e with
      | none =>
        simp only [hh]
        exact hraised _ e hb hh
      | some h =>
        simp only [hh]
        exact hcaught _ e hb h hh t.1

/-- A block without events. What it returns satisfies `R`. -/
theorem Emits.tryReturn_lift {R : α → Prop} {p : Prog δ α} {handle : Exn → Option (Traced δ ε β)}
    {rest : α → Traced δ ε β} (hnil : P []) (hreturns : ∀ s a s', p s = (.ok a, s') → R a)
    (hhandle : ∀ e h, handle e = .some h → Emits P h) (hrest : ∀ a, R a → Emits P (rest a)) :
    Emits P (Traced.tryReturn (Traced.lift p) handle rest) := by
  refine Emits.tryReturn (R := fun l r => l = [] ∧ ∀ a, r = .ok a → R a) ?_ ?_ ?_ ?_
  · intro s
    refine ⟨rfl, fun a ha => hreturns s a (p s).2 ?_⟩
    exact Prod.ext ha rfl
  · intro l e hl h hh
    rw [hl.1]
    exact hhandle e h hh
  · intro l e hl _
    rw [hl.1]
    exact hnil
  · intro l a hl
    rw [hl.1]
    exact hrest a (hl.2 a rfl)

/-! ## States that come after an event -/

/-- A run keeps `J` of the database, or has emitted one of the events `A`. -/
def Attests (J : δ → Prop) (A : ε → Prop) (p : Traced δ ε α) : Prop :=
  ∀ s, Prog.Both J s → Prog.Both J (p s).2.1 ∨ ∃ event ∈ events p s, A event

section
variable {J : δ → Prop} {A : ε → Prop}

theorem Attests.pure (a : α) : Attests J A (Pure.pure a : Traced δ ε α) := fun _ h => .inl h

theorem Attests.lift {p : Prog δ α} (h : Prog.Leaves J p) : Attests J A
    (Traced.lift p : Traced δ ε α) := fun s hs => .inl (h s hs)

theorem Attests.emit (event : ε) : Attests J A (Traced.emit event : Traced δ ε Unit) :=
  fun _ h => .inl h

/-- The event is one of them. -/
theorem Attests.emitted {event : ε} {f : Unit → Traced δ ε β} (hevent : A event) :
    Attests J A (Traced.emit event >>= f) := fun _ _ => .inr ⟨event, List.mem_cons_self .., hevent⟩

private theorem append_left {l l' : List ε} (h : ∃ event ∈ l, A event) : ∃ event ∈ l ++ l',
    A event := by
  obtain ⟨event, hevent, ha⟩ := h
  exact ⟨event, List.mem_append_left _ hevent, ha⟩

private theorem append_right {l l' : List ε} (h : ∃ event ∈ l', A event) : ∃ event ∈ l ++ l',
    A event := by
  obtain ⟨event, hevent, ha⟩ := h
  exact ⟨event, List.mem_append_right _ hevent, ha⟩

theorem Attests.bind {x : Traced δ ε α} {f : α → Traced δ ε β} (hx : Attests J A x)
    (hf : ∀ a, Attests J A (f a)) :
    Attests J A (x >>= f) := by
  intro s hs
  have h := hx s hs
  cases hxs : x s with
  | mk r t =>
    rw [events, hxs] at h
    simp only [events, Bind.bind, hxs]
    cases r with
    | error e => exact h
    | ok a =>
      rcases h with h | h
      · exact (hf a t.1 h).imp id append_right
      · exact .inr (append_left h)

theorem Attests.tryReturn {body : Traced δ ε α} {handle : Exn → Option (Traced δ ε β)}
    {rest : α → Traced δ ε β} (hbody : Attests J A body)
    (hhandle : ∀ e h, handle e = .some h → Attests J A h) (hrest : ∀ a, Attests J A (rest a)) :
    Attests J A (Traced.tryReturn body handle rest) := by
  intro s hs
  have h := hbody s hs
  cases hbs : body s with
  | mk r t =>
    rw [events, hbs] at h
    simp only [events, Traced.tryReturn, hbs]
    cases r with
    | ok a =>
      rcases h with h | h
      · exact (hrest a t.1 h).imp id append_right
      · exact .inr (append_left h)
    | error e =>
      cases hh : handle e with
      | none =>
        simp only [hh]
        exact h
      | some p =>
        simp only [hh]
        rcases h with h | h
        · exact (hhandle e p hh t.1 h).imp id append_right
        · exact .inr (append_left h)

end

end Traced

end Novalton
