/-
Asynchronous services over a database, as programs: a session sees its own
uncommitted writes, a commit publishes them, and any await may end in an
exception, before or after the commit it makes. What is committed when a program
returns or raises is what other sessions see of it; the rest is rolled back.

The database is a type parameter, and nothing here names the repository's tables.
`Exn` are the kinds of exception its handlers tell apart.
-/
import Novalton.Python

namespace Novalton

inductive ProviderFailure where
  | authentication | rateLimit | timeout | transient | invalidRequest | malformedResponse | refusal
  | cancellation
  | unknown
deriving DecidableEq, Repr

/-- What an await can raise. An `ApplicationError` carries its code, a `ProviderError` its
failure; a provider's cancellation and the cancellation of the task are both
`asyncio.CancelledError`s, which `except Exception` does not catch. -/
inductive Exn where
  | application (code : Text)
  | provider (failure : ProviderFailure)
  | providerCancelled
  | taskCancelled
  | other
deriving DecidableEq, Repr

/-- `except (ProviderCancellationError, asyncio.CancelledError)`. -/
def Exn.cancelled : Exn → Bool
  | .providerCancelled | .taskCancelled => true
  | _ => false

/-- How an await ends. A cancellation or a lost connection can reach the program after
the database has done the commit it was waiting for. -/
inductive Outcome where
  | ok
  | before (exn : Exn)
  | after (exn : Exn)
deriving DecidableEq, Repr

/-- The commit an await makes takes effect. -/
def Outcome.commits : Outcome → Bool
  | .before _ => false
  | _ => true

@[simp] theorem Outcome.commits_ok : Outcome.ok.commits = true := rfl

@[simp] theorem Outcome.commits_before (e : Exn) : (Outcome.before e).commits = false := rfl

@[simp] theorem Outcome.commits_after (e : Exn) : (Outcome.after e).commits = true := rfl

/-- The committed database, and the one this session sees. -/
structure Session (δ : Type) where
  committed : δ
  view : δ
deriving DecidableEq

/-- A program over a session. -/
def Prog (δ α : Type) : Type := Session δ → Except Exn α × Session δ

namespace Prog
variable {δ α β : Type}

instance : Monad (Prog δ) where
  pure a := fun s => (.ok a, s)
  bind x f := fun s =>
    match x s with
    | (.ok a, s') => f a s'
    | (.error e, s') => (.error e, s')

/-- `raise`. -/
def raise (e : Exn) : Prog δ α := fun s => (.error e, s)

/-- `try: value = body except …: return handler`, then `rest value`. `handle` gives the
handler of an exception, or `none` where no clause matches it. -/
def tryReturn (body : Prog δ α) (handle : Exn → Option (Prog δ β)) (rest : α → Prog δ β) :
    Prog δ β := fun s =>
  match body s with
  | (.ok a, s') => rest a s'
  | (.error e, s') =>
    match handle e with
    | .some h => h s'
    | .none => (.error e, s')

/-- A write the session makes and has not committed. -/
def write (f : δ → δ) : Prog δ Unit := fun s => (.ok (), { s with view := f s.view })

/-- `await session.rollback()`, or what closing the session does. -/
def rollback : Prog δ Unit := fun s => (.ok (), { s with view := s.committed })

/-- What the session sees. -/
def read : Prog δ δ := fun s => (.ok s.view, s)

/-- An await that changes nothing. -/
def await : Outcome → Prog δ Unit
  | .ok => pure ()
  | .before e => raise e
  | .after e => raise e

/-- `await session.commit()`. -/
def commit : Outcome → Prog δ Unit
  | .ok => fun s => (.ok (), { s with committed := s.view })
  | .before e => raise e
  | .after e => fun s => (.error e, { s with committed := s.view })

@[simp] theorem pure_apply (a : α) (s : Session δ) : (pure a : Prog δ α) s = (.ok a, s) := rfl

@[simp] theorem raise_apply (e : Exn) (s : Session δ) : (raise e : Prog δ α) s = (.error e, s) :=
  rfl

@[simp] theorem write_apply (f : δ → δ) (s : Session δ) :
    write f s = (.ok (), { s with view := f s.view }) := rfl

@[simp] theorem rollback_apply (s : Session δ) :
    (rollback : Prog δ Unit) s = (.ok (), ⟨s.committed, s.committed⟩) := rfl

@[simp] theorem read_apply (s : Session δ) : read s = (.ok s.view, s) := rfl

@[simp] theorem commit_ok (s : Session δ) : commit .ok s = (.ok (), ⟨s.view, s.view⟩) := rfl

@[simp] theorem commit_before (e : Exn) (s : Session δ) : commit (.before e) s = (.error e, s) :=
  rfl

@[simp] theorem commit_after (e : Exn) (s : Session δ) : commit
    (.after e) s = (.error e, ⟨s.view, s.view⟩) := rfl

@[simp] theorem await_ok (s : Session δ) : (await .ok : Prog δ Unit) s = (.ok (), s) := rfl

theorem bind_apply (x : Prog δ α) (f : α → Prog δ β) (s : Session δ) :
    (x >>= f) s =
      match x s with
      | (.ok a, s') => f a s'
      | (.error e, s') => (.error e, s') := rfl

theorem bind_ok {x : Prog δ α} {f : α → Prog δ β} {s s' : Session δ} {a : α}
    (h : x s = (.ok a, s')) :
    (x >>= f) s = f a s' := by
  rw [bind_apply, h]

theorem bind_error {x : Prog δ α} {f : α → Prog δ β} {s s' : Session δ} {e : Exn}
    (h : x s = (.error e, s')) :
    (x >>= f) s = (.error e, s') := by
  rw [bind_apply, h]

theorem bind_assoc {γ : Type} (x : Prog δ α) (f : α → Prog δ β) (g : β → Prog δ γ) :
    x >>= f >>= g = x >>= fun a => f a >>= g := by
  funext s
  rw [bind_apply, bind_apply, bind_apply]
  cases x s with
  | mk r s' => cases r <;> rfl

@[simp] theorem pure_bind (a : α) (f : α → Prog δ β) : (pure a >>= f) = f a := rfl

@[simp] theorem raise_bind (e : Exn) (f : α → Prog δ β) : (raise e >>= f) = raise e := rfl

@[simp] theorem write_bind (g : δ → δ) (f : Unit → Prog δ β) (s : Session δ) :
    (write g >>= f) s = f () { s with view := g s.view } := rfl

@[simp] theorem read_bind (f : δ → Prog δ β) (s : Session δ) : (read >>= f) s = f s.view s := rfl

section
variable {x : Prog δ α} {handle : Exn → Option (Prog δ β)} {rest : α → Prog δ β} {s s' : Session δ}

theorem tryReturn_ok {a : α} (h : x s = (.ok a, s')) : tryReturn x handle rest s = rest a s' := by
  rw [tryReturn, h]

theorem tryReturn_caught {e : Exn} {p : Prog δ β} (h : x s = (.error e, s'))
    (hp : handle e = .some p) :
    tryReturn x handle rest s = p s' := by
  rw [tryReturn, h]
  simp only [hp]

theorem tryReturn_raised {e : Exn} (h : x s = (.error e, s')) (hp : handle e = .none) :
    tryReturn x handle rest s = (.error e, s') := by
  rw [tryReturn, h]
  simp only [hp]

end

/-- The value of a call that was made, or what it raised. -/
def ofExcept (result : Except Exn α) : Prog δ α := fun s => (result, s)

@[simp] theorem ofExcept_apply (result : Except Exn α) (s : Session δ) :
    ofExcept result s = (result, s) := rfl

/-- A write and its commit, as one await that can raise before both. -/
def store (o : Outcome) (f : δ → δ) : Prog δ Unit :=
  match o with
  | .before e => raise e
  | o => do
    write f
    commit o

/-- How an await ends whose commit makes the database `moved`: raised before it, the
session is as it was; else `moved` is what is committed. -/
def endsIn (o : Outcome) (s : Session δ) (moved : δ) : Except Exn Unit × Session δ :=
  match o with
  | .ok => (.ok (), ⟨moved, moved⟩)
  | .before e => (.error e, s)
  | .after e => (.error e, ⟨moved, moved⟩)

theorem commit_endsIn {o : Outcome} {s : Session δ} : commit o s = endsIn o s s.view := by
  cases o <;> rfl

theorem store_endsIn {o : Outcome} {f : δ → δ} {s : Session δ} : store o f s = endsIn o s
    (f s.view) := by
  cases o <;> rfl

/-! ## Postconditions

`Leaves I p`: started where `I` holds of both databases, `p` ends with `I` of both,
however it ends. It composes, so a tail of awaits that cannot undo a written state
is passed over by one lemma per call. -/

/-- `I` of what is committed and of what the session sees. -/
def Both (I : δ → Prop) (s : Session δ) : Prop := I s.committed ∧ I s.view

/-- `p` keeps `I`, returning or raising. -/
def Leaves (I : δ → Prop) (p : Prog δ α) : Prop := ∀ s, Both I s → Both I (p s).2

variable {I : δ → Prop}

theorem Leaves.pure (a : α) : Leaves I (Pure.pure a : Prog δ α) := fun _ h => h

theorem Leaves.raise (e : Exn) : Leaves I (Prog.raise e : Prog δ α) := fun _ h => h

theorem Leaves.read : Leaves I (Prog.read : Prog δ δ) := fun _ h => h

theorem Leaves.bind {x : Prog δ α} {f : α → Prog δ β} (hx : Leaves I x) (hf : ∀ a, Leaves I (f a)) :
    Leaves I (x >>= f) := by
  intro s hs
  have h := hx s hs
  rw [bind_apply]
  cases hxs : x s with
  | mk r s' =>
    rw [hxs] at h
    cases r with
    | ok a => exact hf a s' h
    | error e => exact h

theorem Leaves.write {f : δ → δ} (hf : ∀ d, I d → I (f d)) : Leaves I (Prog.write f) :=
  fun _ h => ⟨h.1, hf _ h.2⟩

theorem Leaves.commit (o : Outcome) : Leaves I (Prog.commit o : Prog δ Unit) := by
  intro s h
  cases o with
  | ok => exact ⟨h.2, h.2⟩
  | before e => exact h
  | after e => exact ⟨h.2, h.2⟩

theorem Leaves.await (o : Outcome) : Leaves I (Prog.await o : Prog δ Unit) := by
  intro s h
  cases o <;> exact h

theorem Leaves.tryReturn {x : Prog δ α} {handle : Exn → Option (Prog δ β)} {rest : α → Prog δ β}
    (hx : Leaves I x) (hh : ∀ e p, handle e = .some p → Leaves I p) (hr : ∀ a, Leaves I (rest a)) :
    Leaves I (Prog.tryReturn x handle rest) := by
  intro s hs
  have h := hx s hs
  cases hxs : x s with
  | mk r s' =>
    rw [hxs] at h
    cases r with
    | ok a => rw [tryReturn_ok hxs]; exact hr a s' h
    | error e =>
      cases hp : handle e with
      | none => rw [tryReturn_raised hxs hp]; exact h
      | some p => rw [tryReturn_caught hxs hp]; exact hh e p hp s' h

/-! ## What is left committed

`Q` is what a program is to establish of the committed database before it returns or
raises. The rules give the exact condition of an await in front of a tail. -/

section
variable {Q : δ → Prop} {s : Session δ} {o : Outcome} {x : Prog δ Unit} {f : Unit → Prog δ β}
  {moved : δ}

/-- **An await that commits a state with `Q`, followed by awaits that cannot undo it,
leaves `Q` exactly when its commit takes effect.** -/
theorem endsIn_then_iff (hx : x s = endsIn o s moved) (hnot : ¬ Q s.committed) (hI : ∀ d, I d → Q d)
    (hmoved : I moved) (hrest : Leaves I (f ())) : Q ((x >>= f) s).2.committed ↔
    o.commits = true := by
  cases o with
  | ok =>
    rw [bind_ok hx]
    exact ⟨fun _ => rfl, fun _ => hI _ (hrest ⟨moved, moved⟩ ⟨hmoved, hmoved⟩).1⟩
  | before e =>
    rw [bind_error hx]
    simpa using hnot
  | after e =>
    rw [bind_error hx]
    exact ⟨fun _ => rfl, fun _ => hI _ hmoved⟩

/-- An await that does not establish `Q`, committed or not, has to return. -/
theorem endsIn_seq_iff (hx : x s = endsIn o s moved) (hnot : ¬ Q s.committed) (hmoved : ¬ Q moved) :
    Q ((x >>= f) s).2.committed ↔ o = .ok ∧ Q (f () ⟨moved, moved⟩).2.committed := by
  cases o with
  | ok =>
    rw [bind_ok hx]
    simp
  | before e =>
    rw [bind_error hx]
    simpa using hnot
  | after e =>
    rw [bind_error hx]
    simpa using hmoved

/-- An await that changes nothing, before `Q` is established, has to return. -/
theorem await_seq_iff (hnot : ¬ Q s.committed) :
    Q ((await o >>= f) s).2.committed ↔ o = .ok ∧ Q (f () s).2.committed := by
  cases o with
  | ok =>
    rw [bind_ok (await_ok s)]
    simp
  | before e | after e => simpa [bind_apply, await] using hnot

end

/-! ## Failures that leave nothing

`Q` is what a program that raises must not have committed. Until an await commits a
state with `Q` the program may raise anywhere; from then on it has to return. -/

/-- The call returned. -/
def Returns (r : Except Exn α × Session δ) : Prop := ∃ a, r.1 = .ok a

/-- The call returned, or nothing with `Q` is committed. -/
def Clean (Q : δ → Prop) (r : Except Exn α × Session δ) : Prop :=
  (∃ e, r.1 = .error e) → ¬ Q r.2.committed

/-- Handlers that raise again, and undo at most what is not committed. -/
def Reraises (handle : Exn → Option (Prog δ α)) : Prop :=
  ∀ e p, handle e = .some p → ∀ s, ∃ e' s', p s = (.error e', s') ∧ s'.committed = s.committed ∧
    (s'.view = s.view ∨ s'.view = s.committed)

/-- `await session.rollback()` and `raise`. -/
def rollbackRaise (e : Exn) : Prog δ α := do
  rollback
  raise e

/-- The handlers of a service: an `ApplicationError` is raised again after a rollback, and
a `SQLAlchemyError`, here `other`, becomes one with the service's own code. -/
def onServiceError (code : Text) : Exn → Option (Prog δ α)
  | .application c => .some (rollbackRaise (.application c))
  | .other => .some (rollbackRaise (.application code))
  | _ => .none

theorem onServiceError_reraises (code : Text) : Reraises
    (onServiceError code : Exn → Option (Prog δ α)) := by
  intro e p h s
  cases e with
  | application c =>
    cases h
    exact ⟨_, _, rfl, rfl, .inr rfl⟩
  | other =>
    cases h
    exact ⟨_, _, rfl, rfl, .inr rfl⟩
  | provider | providerCancelled | taskCancelled => cases h

section
variable {Q : δ → Prop} {s : Session δ} {o : Outcome} {f : Unit → Prog δ β}
  {r : Except Exn α × Session δ}

theorem clean_of_uncommitted (h : ¬ Q r.2.committed) : Clean Q r := fun _ => h

theorem clean_of_returns (h : Returns r) : Clean Q r := by
  intro he
  obtain ⟨e, he⟩ := he
  obtain ⟨a, ha⟩ := h
  rw [ha] at he
  cases he

/-- Once `Q` is committed, only returning is clean. -/
theorem clean_iff_returns (h : Q r.2.committed) : Clean Q r ↔ Returns r := by
  constructor
  · intro hclean
    cases hr : r.1 with
    | ok a => exact ⟨a, hr⟩
    | error e => exact absurd h (hclean ⟨e, hr⟩)
  · exact clean_of_returns

theorem await_clean_iff (h : ¬ Q s.committed) : Clean Q ((await o >>= f) s) ↔
    (o = .ok → Clean Q (f () s)) := by
  cases o with
  | ok => simp [bind_ok (await_ok s)]
  | before e | after e => exact iff_of_true (clean_of_uncommitted h) (by simp)

/-- The same rule where the two databases are written out. -/
theorem await_clean_mk {c v : δ} (h : ¬ Q c) : Clean Q ((await o >>= f) ⟨c, v⟩) ↔
    (o = .ok → Clean Q (f () ⟨c, v⟩)) :=
  await_clean_iff h

theorem await_returns_iff : Returns ((await o >>= f) s) ↔ o = .ok ∧ Returns (f () s) := by
  cases o with
  | ok => simp [bind_ok (await_ok s)]
  | before e | after e => simp [Returns, bind_apply, await]

theorem commit_returns_iff : Returns ((commit o >>= f) s) ↔ o = .ok ∧ Returns
    (f () ⟨s.view, s.view⟩) := by
  cases o with
  | ok => simp [bind_ok (commit_ok s)]
  | before e | after e => simp [Returns, bind_apply]

/-- A commit of `Q`: it does not take effect, or everything from there on returns. -/
theorem commit_clean_iff {I : δ → Prop} (hI : ∀ d, I d → Q d) (h : ¬ Q s.committed)
    (hview : I s.view) (hf : Leaves I (f ())) :
    Clean Q ((commit o >>= f) s) ↔
      (o.commits = true → o = .ok ∧ Returns (f () ⟨s.view, s.view⟩)) := by
  cases o with
  | ok =>
    have hrest := clean_iff_returns (hI _ (hf ⟨s.view, s.view⟩ ⟨hview, hview⟩).1)
    simp [bind_ok (commit_ok s), hrest]
  | before e => exact iff_of_true (clean_of_uncommitted h) (by simp)
  | after e =>
    have hend : (commit (.after e) >>= f) s = (.error e, ⟨s.view, s.view⟩) :=
      bind_error (commit_after e s)
    rw [hend]
    simpa [Clean] using hI _ hview

section
variable {handle : Exn → Option (Prog δ α)} (hh : Reraises handle) {body : Prog δ α}
  {g : α → Prog δ β}
include hh

/-- Such handlers change neither what is returned nor what is committed. -/
theorem try_cases (body : Prog δ α) (s : Session δ) :
    (∃ a s', body s = (.ok a, s') ∧ tryReturn body handle pure s = (.ok a, s')) ∨
      ∃ e e' s' s'', body s = (.error e, s') ∧ tryReturn body handle pure s = (.error e', s'') ∧
        s''.committed = s'.committed := by
  cases hbody : body s with
  | mk r s' =>
    cases r with
    | ok a => exact .inl ⟨a, s', rfl, tryReturn_ok hbody⟩
    | error e =>
      cases hhandle : handle e with
      | none => exact .inr ⟨e, e, s', s', rfl, tryReturn_raised hbody hhandle, rfl⟩
      | some p =>
        obtain ⟨e', s'', hraise, hcommitted, -⟩ := hh e p hhandle s'
        exact .inr ⟨e, e', s', s'', rfl, (tryReturn_caught hbody hhandle).trans hraise, hcommitted⟩

theorem try_clean_iff : Clean Q ((tryReturn body handle pure >>= g) s) ↔ Clean Q
    ((body >>= g) s) := by
  obtain ⟨a, s', hbody, htry⟩ | ⟨e, e', s', s'', hbody, htry, hcommitted⟩ := try_cases hh body s
  · rw [bind_ok hbody, bind_ok htry]
  · rw [bind_error hbody, bind_error htry]
    simp [Clean, hcommitted]

theorem try_returns_iff : Returns ((tryReturn body handle pure >>= g) s) ↔ Returns
    ((body >>= g) s) := by
  obtain ⟨a, s', hbody, htry⟩ | ⟨e, e', s', s'', hbody, htry, -⟩ := try_cases hh body s
  · rw [bind_ok hbody, bind_ok htry]
  · rw [bind_error hbody, bind_error htry]
    simp [Returns]

omit hh in
theorem Reraises.leaves {I : δ → Prop} (hh : Reraises handle) (e : Exn) (p : Prog δ α)
    (h : handle e = .some p) : Leaves I p := by
  intro s hs
  obtain ⟨e', s', hraise, hcommitted, hview⟩ := hh e p h s
  rw [hraise]
  refine ⟨by rw [hcommitted]; exact hs.1, ?_⟩
  rcases hview with hview | hview
  · rw [hview]
    exact hs.2
  · rw [hview]
    exact hs.1

end

end

end Prog

end Novalton
