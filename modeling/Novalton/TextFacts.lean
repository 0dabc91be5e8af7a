/-
Facts about the text operations of `Python`: what stripping takes away and leaves, the
replacement of one character by another, and lists whose items are validated in turn.
-/
import Mathlib.Data.List.TakeWhile
import Novalton.Python

namespace Novalton

/-! ## Stripping -/

/-- The text without the blanks it begins and ends with. -/
def stripped (blank : Char → Bool) (text : Text) : Text :=
  ((text.dropWhile blank).reverse.dropWhile blank).reverse

theorem strip_eq (text : Text) : strip text = stripped isSpace text := rfl

section
variable {blank : Char → Bool}

theorem stripped_infix (blank : Char → Bool) (text : Text) :
    ∃ left right, text = left ++ (stripped blank text ++ right) ∧ (∀ c ∈ left, blank c = true) ∧
      ∀ c ∈ right, blank c = true := by
  let rest := text.dropWhile blank
  refine ⟨text.takeWhile blank, (rest.reverse.takeWhile blank).reverse, ?_,
    fun c hc => List.mem_takeWhile_imp hc, ?_⟩
  · have hrest : stripped blank text ++ (rest.reverse.takeWhile blank).reverse = rest := by
      rw [stripped, ← List.reverse_append, List.takeWhile_append_dropWhile, List.reverse_reverse]
    rw [hrest, List.takeWhile_append_dropWhile]
  · intro c hc
    rw [List.mem_reverse] at hc
    exact List.mem_takeWhile_imp hc

theorem stripped_length_le (text : Text) : (stripped blank text).length ≤ text.length := by
  obtain ⟨left, right, htext, -, -⟩ := stripped_infix blank text
  have hlen := congrArg List.length htext
  rw [List.length_append, List.length_append] at hlen
  omega

/-- A text that neither begins nor ends with a blank. -/
structure Tight (blank : Char → Bool) (text : Text) : Prop where
  head : ∀ c, text.head? = .some c → blank c = false
  last : ∀ c, text.getLast? = .some c → blank c = false

theorem Tight.stripped_eq {text : Text} (h : Tight blank text) : stripped blank text = text := by
  have hdrop : ∀ l : Text, (∀ c, l.head? = .some c → blank c = false) → l.dropWhile blank = l := by
    intro l hl
    cases l with
    | nil => rfl
    | cons c rest => rw [List.dropWhile_cons_of_neg]; simp [hl c rfl]
  rw [stripped, hdrop text h.head, hdrop, List.reverse_reverse]
  intro c hc
  rw [List.head?_reverse] at hc
  exact h.last c hc

theorem stripped_tight (text : Text) : Tight blank (stripped blank text) := by
  have hhead : ∀ (l : Text) (c : Char), (l.dropWhile blank).head? = .some c → blank c = false := by
    intro l c hc
    have hne : l.dropWhile blank ≠ [] := by
      intro hnil
      rw [hnil] at hc
      contradiction
    have hnot := List.head_dropWhile_not blank hne
    rw [List.head?_eq_some_head hne, Option.some.injEq] at hc
    rw [← hc]
    exact hnot
  constructor
  · intro c hc
    obtain ⟨left, right, htext, hleft, -⟩ := stripped_infix blank text
    have hdrop : ∃ s, text.dropWhile blank = stripped blank text ++ s := by
      refine ⟨((text.dropWhile blank).reverse.takeWhile blank).reverse, ?_⟩
      rw [stripped, ← List.reverse_append, List.takeWhile_append_dropWhile, List.reverse_reverse]
    obtain ⟨s, hs⟩ := hdrop
    refine hhead text c ?_
    rw [hs, List.head?_append, hc]
    rfl
  · intro c hc
    rw [stripped, List.getLast?_reverse] at hc
    exact hhead _ c hc

theorem Tight.append {left right : Text} (hleft : left ≠ [])
    (hhead : ∀ c, left.head? = .some c → blank c = false) (hright : right ≠ [])
    (hlast : ∀ c, right.getLast? = .some c → blank c = false) : Tight blank (left ++ right) := by
  constructor
  · intro c hc
    rw [List.head?_append_of_ne_nil _ hleft] at hc
    exact hhead c hc
  · intro c hc
    rw [List.getLast?_append_of_ne_nil _ hright] at hc
    exact hlast c hc

end

/-! ## Replacing -/

theorem replaceFrom_singleton (a b : Char) : ∀ text : Text,
    replaceFrom [a] [b] 0 text = text.map fun c => if c = a then b else c
  | [] => rfl
  | c :: rest => by
    rw [replaceFrom, List.map_cons]
    by_cases hc : c = a
    · rw [if_pos (by simp [hc]), if_pos hc]
      exact congrArg (b :: ·) (replaceFrom_singleton a b rest)
    · rw [if_neg (by simpa using fun h => hc h.symm), if_neg hc]
      exact congrArg (c :: ·) (replaceFrom_singleton a b rest)

/-- `text.replace(a, b)` of single characters. -/
theorem replace_singleton (a b : Char) (text : Text) : replace [a] [b] text = text.map fun c =>
    if c = a then b else c :=
  replaceFrom_singleton a b text

/-! ## Validating -/

@[simp] theorem Py.isOk_ok {α} {a : α} : (Except.ok a : Py α).isOk = true := rfl

@[simp] theorem Py.isOk_pure {α} {a : α} : (pure a : Py α).isOk = true := rfl

@[simp] theorem Py.isOk_error {α} {e : PyError} : (Except.error e : Py α).isOk = false := rfl

theorem Py.isOk_iff {α} {x : Py α} : x.isOk = true ↔ ∃ a, x = .ok a := by
  cases x with
  | ok a => simp
  | error e => simp

theorem Py.isOk_bind {α β} {x : Py α} {f : α → Py β} : (x >>= f).isOk = true ↔ ∃ a, x = .ok a ∧
    (f a).isOk = true := by
  cases x with
  | ok a => simp
  | error e => simp

@[simp] theorem raiseIf_isOk {c : Bool} {e : PyError} : (raiseIf c e).isOk = !c := by
  cases c <;> rfl

/-- A list is validated when its items are. -/
theorem mapM_isOk {α β} {f : α → Py β} : ∀ {l : List α}, (l.mapM f).isOk = true ↔ ∀ a ∈ l,
    (f a).isOk = true
  | [] => by simp [pure, Except.pure]
  | a :: l => by
    rw [List.mapM_cons, Py.isOk_bind, List.forall_mem_cons, ← mapM_isOk (l := l)]
    constructor
    · intro ⟨b, hb, h⟩
      obtain ⟨bs, hbs, -⟩ := Py.isOk_bind.mp h
      exact ⟨Py.isOk_iff.mpr ⟨b, hb⟩, Py.isOk_iff.mpr ⟨bs, hbs⟩⟩
    · intro ⟨ha, hl⟩
      obtain ⟨b, hb⟩ := Py.isOk_iff.mp ha
      obtain ⟨bs, hbs⟩ := Py.isOk_iff.mp hl
      exact ⟨b, hb, by rw [hbs]; rfl⟩

/-- What the validation of an item keeps, that of a list keeps in order. -/
theorem map_of_mapM {α β γ} {f : α → Py β} {g : β → γ} {h : α → γ} : ∀ {l : List α} {r : List β},
    l.mapM f = .ok r →
    (∀ a ∈ l, ∀ b, f a = .ok b → g b = h a) → r.map g = l.map h
  | [], r, hr, _ => by
    cases hr
    rfl
  | a :: l, r, hr, hkeep => by
    simp only [List.mapM_cons, Py.bind_eq_ok] at hr
    obtain ⟨b, hb, bs, hbs, hout⟩ := hr
    cases hout
    rw [List.map_cons, List.map_cons, hkeep a List.mem_cons_self b hb,
      map_of_mapM hbs fun a' ha' => hkeep a' (List.mem_cons_of_mem a ha')]

/-- Items that are all accepted. -/
theorem mapM_eq_map {α β} {f : α → Py β} {g : α → β} : ∀ {l : List α}, (∀ a ∈ l, f a = .ok (g a)) →
    l.mapM f = .ok (l.map g)
  | [], _ => rfl
  | a :: l, h => by
    rw [List.mapM_cons, h a List.mem_cons_self, Py.ok_bind, mapM_eq_map fun b hb =>
      h b (List.mem_cons_of_mem a hb)]
    rfl

/-- Items that a validator leaves as they are. -/
theorem mapM_self {α} {f : α → Py α} {l : List α} (h : ∀ a ∈ l, f a = .ok a) :
    l.mapM f = .ok l := by
  rw [mapM_eq_map h, List.map_id']

/-- What stands in a validated list came out of the validation of an item. -/
theorem mem_of_mapM {α β} {f : α → Py β} : ∀ {l : List α} {r : List β}, l.mapM f = .ok r → ∀ b ∈ r,
    ∃ a ∈ l, f a = .ok b
  | [], r, h, b, hb => by
    cases h
    contradiction
  | a :: l, r, h, b, hb => by
    simp only [List.mapM_cons, Py.bind_eq_ok] at h
    obtain ⟨b', hb', bs, hbs, hr⟩ := h
    cases hr
    rcases List.mem_cons.mp hb with heq | hmem
    · rw [heq]
      exact ⟨a, List.mem_cons_self, hb'⟩
    · obtain ⟨a', ha', hf⟩ := mem_of_mapM hbs b hmem
      exact ⟨a', List.mem_cons_of_mem _ ha', hf⟩

end Novalton
