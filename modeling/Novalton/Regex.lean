/-
Regular expressions over text, as far as a validator asks about them: whether a
text matches as a whole, and whether it holds a match somewhere. Greed and groups
do not change either answer, so an expression is read as the set of ways it can
consume text, and the matcher here is proved to decide that set.

`\b` looks at the character before the position, so a position carries it.
-/
import Mathlib.Data.List.Infix
import Novalton.Python

namespace Novalton

/-- A position in a text: the character before it, and the text from it on. -/
structure Cursor where
  before : Option Char
  after : Text
deriving DecidableEq, Repr

inductive Regex where
  /-- The empty expression: it matches and reads nothing. -/
  | empty
  /-- One character of a class. -/
  | char (holds : Char → Bool)
  | seq (first second : Regex)
  | alt (left right : Regex)
  | star (inner : Regex)
  /-- `\b`, for the characters `word` holds of. -/
  | boundary (word : Char → Bool)

namespace Regex

/-- Whether exactly one side of the position is a word character. -/
def atBoundary (word : Char → Bool) (here : Cursor) : Bool :=
  here.before.any word != here.after.head?.any word

/-- `inner*` before `k`, in at most `fuel` rounds that each read something. -/
def starAccepts (inner : (Cursor → Bool) → Cursor → Bool) (k : Cursor → Bool) : Nat → Cursor → Bool
  | 0, here => k here
  | fuel + 1, here =>
    k here || inner (fun next => next.after.length < here.after.length &&
      starAccepts inner k fuel next) here

/-- Whether the expression matches at a position so that `k` accepts where it ends. -/
def accepts : Regex → (Cursor → Bool) → Cursor → Bool
  | .empty, k, here => k here
  | .char _, _, ⟨_, []⟩ => false
  | .char holds, k, ⟨_, c :: rest⟩ => holds c && k ⟨.some c, rest⟩
  | .seq first second, k, here => first.accepts (second.accepts k) here
  | .alt left right, k, here => left.accepts k here || right.accepts k here
  | .star inner, k, here => starAccepts inner.accepts k here.after.length here
  | .boundary word, k, here => atBoundary word here && k here

/-- `re.fullmatch(text)`. -/
def fullmatch (r : Regex) (text : Text) : Bool :=
  r.accepts (fun stop => stop.after.isEmpty) ⟨.none, text⟩

/-- Whether some position of the rest of a text starts a match. -/
def searchFrom (r : Regex) : Option Char → Text → Bool
  | before, [] => r.accepts (fun _ => true) ⟨before, []⟩
  | before, c :: rest => r.accepts (fun _ => true) ⟨before, c :: rest⟩ ||
      searchFrom r (.some c) rest

/-- `re.search(text)`. -/
def search (r : Regex) (text : Text) : Bool := r.searchFrom .none text

/-! ## Derived expressions -/

/-- The characters of `literal`, one after the other. -/
def literal : Text → Regex
  | [] => .empty
  | c :: rest => .seq (.char (· == c)) (literal rest)

/-- One character of each class, in turn, and then `r`. -/
def chars : List (Char → Bool) → Regex → Regex
  | [], r => r
  | holds :: rest, r => .seq (.char holds) (chars rest r)

def optional (r : Regex) : Regex := .alt r .empty

def plus (r : Regex) : Regex := .seq r (.star r)

/-- `r{0,n}`. -/
def upTo (r : Regex) : Nat → Regex
  | 0 => .empty
  | n + 1 => optional (.seq r (upTo r n))

/-- `r{n,}`. -/
def atLeast (r : Regex) : Nat → Regex
  | 0 => .star r
  | n + 1 => .seq r (atLeast r n)

/-! ## What an expression matches -/

/-- The expression can lead from one position to another. -/
inductive Matches : Regex → Cursor → Cursor → Prop
  | empty {x} : Matches .empty x x
  | char {holds before c rest} : holds c = true →
      Matches (.char holds) ⟨before, c :: rest⟩ ⟨.some c, rest⟩
  | seq {a b x y z} : Matches a x y → Matches b y z → Matches (.seq a b) x z
  | left {a b x y} : Matches a x y → Matches (.alt a b) x y
  | right {a b x y} : Matches b x y → Matches (.alt a b) x y
  | done {a x} : Matches (.star a) x x
  | more {a x y z} : Matches a x y → y.after.length < x.after.length → Matches (.star a) y z →
      Matches (.star a) x z
  | boundary {word x} : atBoundary word x = true → Matches (.boundary word) x x

/-- With fuel for every character left, the rounds of a star are all tried. -/
theorem starAccepts_iff {r : Regex} {k : Cursor → Bool}
    (ih : ∀ (k : Cursor → Bool) (x : Cursor), r.accepts k x = true ↔ ∃ y, Matches r x y ∧
      k y = true) :
    ∀ (fuel : Nat) (x : Cursor), x.after.length ≤ fuel →
      (starAccepts r.accepts k fuel x = true ↔ ∃ y, Matches (.star r) x y ∧ k y = true) := by
  intro fuel
  induction fuel with
  | zero =>
    intro x hx
    constructor
    · intro h
      exact ⟨x, .done, h⟩
    · intro ⟨y, hy, hk⟩
      cases hy with
      | done => exact hk
      | more _ hlt _ => omega
  | succ fuel ihf =>
    intro x hx
    simp only [starAccepts, Bool.or_eq_true, ih, Bool.and_eq_true, decide_eq_true_eq]
    constructor
    · intro h
      rcases h with h | ⟨y, hy, hlt, h⟩
      · exact ⟨x, .done, h⟩
      · obtain ⟨z, hz, hk⟩ := (ihf y (by omega)).mp h
        exact ⟨z, .more hy hlt hz, hk⟩
    · intro ⟨z, hz, hk⟩
      cases hz with
      | done => exact .inl hk
      | more hy hlt hz => exact .inr ⟨_, hy, hlt, (ihf _ (by omega)).mpr ⟨z, hz, hk⟩⟩

/-- **The matcher decides the expression**: it accepts exactly when some way to
match ends where the continuation accepts. -/
theorem accepts_iff (r : Regex) : ∀ (k : Cursor → Bool) (x : Cursor), r.accepts k x = true ↔
    ∃ y, Matches r x y ∧ k y = true := by
  induction r with
  | empty =>
    intro k x
    constructor
    · intro h
      exact ⟨x, .empty, h⟩
    · intro ⟨y, hy, hk⟩
      cases hy
      exact hk
  | char holds =>
    intro k ⟨before, after⟩
    cases after with
    | nil =>
      simp only [accepts, Bool.false_eq_true, false_iff]
      intro ⟨y, hy, _⟩
      cases hy
    | cons c rest =>
      simp only [accepts, Bool.and_eq_true]
      constructor
      · intro ⟨hc, hk⟩
        exact ⟨_, .char hc, hk⟩
      · intro ⟨y, hy, hk⟩
        cases hy with
        | char hc => exact ⟨hc, hk⟩
  | seq a b iha ihb =>
    intro k x
    simp only [accepts, iha, ihb]
    constructor
    · intro ⟨y, hy, z, hz, hk⟩
      exact ⟨z, .seq hy hz, hk⟩
    · intro ⟨z, hz, hk⟩
      cases hz with
      | seq hy hz => exact ⟨_, hy, z, hz, hk⟩
  | alt a b iha ihb =>
    intro k x
    simp only [accepts, Bool.or_eq_true, iha, ihb]
    constructor
    · intro h
      rcases h with ⟨y, hy, hk⟩ | ⟨y, hy, hk⟩
      · exact ⟨y, .left hy, hk⟩
      · exact ⟨y, .right hy, hk⟩
    · intro ⟨y, hy, hk⟩
      cases hy with
      | left hy => exact .inl ⟨y, hy, hk⟩
      | right hy => exact .inr ⟨y, hy, hk⟩
  | star a ih =>
    intro k x
    exact starAccepts_iff ih x.after.length x (Nat.le_refl _)
  | boundary word =>
    intro k x
    simp only [accepts, Bool.and_eq_true]
    constructor
    · intro ⟨hb, hk⟩
      exact ⟨x, .boundary hb, hk⟩
    · intro ⟨y, hy, hk⟩
      cases hy with
      | boundary hb => exact ⟨hb, hk⟩

theorem fullmatch_iff {r : Regex} {text : Text} :
    r.fullmatch text = true ↔ ∃ before, Matches r ⟨.none, text⟩ ⟨before, []⟩ := by
  rw [fullmatch, accepts_iff]
  constructor
  · intro ⟨⟨before, after⟩, hy, hk⟩
    have hnil : after = [] := List.isEmpty_iff.mp hk
    rw [hnil] at hy
    exact ⟨before, hy⟩
  · intro ⟨before, hy⟩
    exact ⟨_, hy, rfl⟩

/-! ## Where a match can be -/

/-- A match reads on from where it starts. -/
theorem Matches.suffix {r : Regex} {x y : Cursor} (h : Matches r x y) : y.after <:+ x.after := by
  induction h with
  | empty => exact List.suffix_rfl
  | char _ => exact List.suffix_cons _ _
  | seq _ _ iha ihb => exact ihb.trans iha
  | left _ ih => exact ih
  | right _ ih => exact ih
  | done => exact List.suffix_rfl
  | more _ _ _ iha ihb => exact ihb.trans iha
  | boundary _ => exact List.suffix_rfl

/-- The word classes of the boundaries of the expression. -/
def uses : Regex → (Char → Bool) → Prop
  | .empty, _ | .char _, _ => False
  | .seq a b, word | .alt a b, word => uses a word ∨ uses b word
  | .star a, word => uses a word
  | .boundary own, word => own = word

theorem uses_chars {r : Regex} {word : Char → Bool} : ∀ ps : List (Char → Bool),
    (chars ps r).uses word ↔ r.uses word
  | [] => Iff.rfl
  | _ :: ps => by
    rw [chars, uses, uses, false_or]
    exact uses_chars ps

theorem not_uses_literal {word : Char → Bool} : ∀ {text : Text}, ¬ (literal text).uses word
  | [], h => h
  | _ :: _, h => h.elim id not_uses_literal

/-- The expression may read the character. -/
def reads (c : Char) : Regex → Bool
  | .empty | .boundary _ => false
  | .char holds => holds c
  | .seq a b | .alt a b => reads c a || reads c b
  | .star a => reads c a

theorem atBoundary_append {word : Char → Bool} {c : Char} (hc : word c = false)
    (before : Option Char) (u v : Text) :
    atBoundary word ⟨before, u ++ c :: v⟩ = atBoundary word ⟨before, u⟩ := by
  cases u with
  | nil => simp [atBoundary, hc]
  | cons x u => rfl

/-- A match goes on when a character that is no word character, and any text, is put behind. -/
theorem Matches.append {r : Regex} {c : Char} {x y : Cursor} (h : Matches r x y) (v : Text)
    (hword : ∀ word, r.uses word → word c = false) :
    Matches r ⟨x.before, x.after ++ c :: v⟩ ⟨y.before, y.after ++ c :: v⟩ := by
  induction h with
  | empty => exact .empty
  | char hc => exact .char hc
  | seq _ _ iha ihb =>
    exact .seq (iha fun w hw => hword w (.inl hw)) (ihb fun w hw => hword w (.inr hw))
  | left _ ih => exact .left (ih fun w hw => hword w (.inl hw))
  | right _ ih => exact .right (ih fun w hw => hword w (.inr hw))
  | done => exact .done
  | more _ hlt _ iha ihb =>
    exact .more (iha hword) (by simp only [List.length_append]; omega) (ihb hword)
  | @boundary word x h => exact .boundary ((atBoundary_append (hword word rfl) _ _ _).trans h)

/-- A match does not read past a character it cannot read. -/
theorem Matches.shorten {r : Regex} {c : Char} {v : Text} {x y : Cursor} (h : Matches r x y)
    (hword : ∀ word, r.uses word → word c = false) (hreads : reads c r = false) :
    ∀ u, x.after = u ++ c :: v → ∃ w, y.after = w ++ c :: v ∧ Matches r ⟨x.before, u⟩
      ⟨y.before, w⟩ := by
  induction h with
  | empty =>
    intro u hu
    exact ⟨u, hu, .empty⟩
  | @char holds before d rest hd =>
    intro u hu
    cases u with
    | nil =>
      have hsame : d = c := (List.cons.inj hu).1
      rw [hsame] at hd
      exact absurd (hreads.symm.trans hd) nofun
    | cons e u =>
      obtain ⟨hhead, htail⟩ := List.cons.inj hu
      rw [hhead] at hd ⊢
      exact ⟨u, htail, .char hd⟩
  | seq _ _ iha ihb =>
    rw [reads, Bool.or_eq_false_iff] at hreads
    intro u hu
    obtain ⟨w, hw, ha⟩ := iha (fun w hw => hword w (.inl hw)) hreads.1 u hu
    obtain ⟨w', hw', hb'⟩ := ihb (fun w hw => hword w (.inr hw)) hreads.2 w hw
    exact ⟨w', hw', .seq ha hb'⟩
  | left _ ih =>
    rw [reads, Bool.or_eq_false_iff] at hreads
    intro u hu
    obtain ⟨w, hw, ha⟩ := ih (fun w hw => hword w (.inl hw)) hreads.1 u hu
    exact ⟨w, hw, .left ha⟩
  | right _ ih =>
    rw [reads, Bool.or_eq_false_iff] at hreads
    intro u hu
    obtain ⟨w, hw, ha⟩ := ih (fun w hw => hword w (.inr hw)) hreads.2 u hu
    exact ⟨w, hw, .right ha⟩
  | done =>
    intro u hu
    exact ⟨u, hu, .done⟩
  | more _ hlt _ iha ihb =>
    intro u hu
    obtain ⟨w, hw, ha⟩ := iha hword hreads u hu
    obtain ⟨w', hw', hb'⟩ := ihb hword hreads w hw
    refine ⟨w', hw', .more ha ?_ hb'⟩
    have hlen := hlt
    rw [hu, hw, List.length_append, List.length_append] at hlen
    exact Nat.lt_of_add_lt_add_right hlen
  | @boundary word x h =>
    intro u hu
    refine ⟨u, hu, .boundary ?_⟩
    rw [← atBoundary_append (v := v) (hword word rfl), ← hu]
    exact h

/-- What a match reads are characters its expression may read. -/
theorem Matches.consumed {r : Regex} {x y : Cursor} (h : Matches r x y) :
    ∃ u, x.after = u ++ y.after ∧ ∀ c ∈ u, reads c r = true := by
  induction h with
  | empty => exact ⟨[], rfl, nofun⟩
  | @char holds before c rest hc =>
    refine ⟨[c], rfl, fun d hd => ?_⟩
    rw [List.mem_singleton.mp hd]
    exact hc
  | @seq a b x y z _ _ iha ihb =>
    obtain ⟨u, hu, hru⟩ := iha
    obtain ⟨v, hv, hrv⟩ := ihb
    refine ⟨u ++ v, by rw [hu, hv, List.append_assoc], fun c hc => ?_⟩
    rw [reads, Bool.or_eq_true]
    rcases List.mem_append.mp hc with hc | hc
    · exact .inl (hru c hc)
    · exact .inr (hrv c hc)
  | left _ ih =>
    obtain ⟨u, hu, hr⟩ := ih
    exact ⟨u, hu, fun c hc => by rw [reads, hr c hc, Bool.true_or]⟩
  | right _ ih =>
    obtain ⟨u, hu, hr⟩ := ih
    exact ⟨u, hu, fun c hc => by rw [reads, hr c hc, Bool.or_true]⟩
  | done => exact ⟨[], rfl, nofun⟩
  | more _ _ _ iha ihb =>
    obtain ⟨u, hu, hru⟩ := iha
    obtain ⟨v, hv, hrv⟩ := ihb
    refine ⟨u ++ v, by rw [hu, hv, List.append_assoc], fun c hc => ?_⟩
    rcases List.mem_append.mp hc with hc | hc
    · exact hru c hc
    · exact hrv c hc
  | boundary _ => exact ⟨[], rfl, nofun⟩

/-- The expression reads the character, if at all, as the last one of a match. -/
def readsLast (c : Char) : Regex → Bool
  | .seq a b => !reads c a && readsLast c b
  | .alt a b => readsLast c a && readsLast c b
  | .char _ => true
  | r => !reads c r

/-- What stands behind a character that only ends a match does not matter to it. -/
theorem Matches.replaceRest {c : Char} {v : Text} : ∀ {r : Regex} {x y : Cursor}, Matches r x y →
    (∀ word, r.uses word → word c = false) → readsLast c r = true →
    ∀ u, x.after = u ++ c :: v → ∀ v', ∃ y', Matches r ⟨x.before, u ++ c :: v'⟩ y'
  | .seq a b, x, z, h, hword, hlast, u, hu, v' => by
    rw [readsLast, Bool.and_eq_true, Bool.not_eq_true'] at hlast
    cases h with
    | seq ha hb =>
      obtain ⟨w, hw, ha'⟩ := ha.shorten (fun w hw => hword w (.inl hw)) hlast.1 u hu
      have hfirst := ha'.append v' fun w hw => hword w (.inl hw)
      obtain ⟨y', hsecond⟩ := hb.replaceRest (fun w hw => hword w (.inr hw)) hlast.2 w hw v'
      exact ⟨y', .seq hfirst hsecond⟩
  | .alt a b, x, z, h, hword, hlast, u, hu, v' => by
    rw [readsLast, Bool.and_eq_true] at hlast
    cases h with
    | left ha =>
      obtain ⟨y', hy⟩ := ha.replaceRest (fun w hw => hword w (.inl hw)) hlast.1 u hu v'
      exact ⟨y', .left hy⟩
    | right hb =>
      obtain ⟨y', hy⟩ := hb.replaceRest (fun w hw => hword w (.inr hw)) hlast.2 u hu v'
      exact ⟨y', .right hy⟩
  | .char holds, x, z, h, _, _, u, hu, v' => by
    cases h with
    | @char _ before d rest hd =>
      cases u with
      | nil =>
        have hsame : d = c := (List.cons.inj hu).1
        rw [hsame] at hd
        exact ⟨_, .char hd⟩
      | cons e u =>
        have hsame : d = e := (List.cons.inj hu).1
        rw [hsame] at hd
        exact ⟨_, .char hd⟩
  | .empty, _, _, _, _, _, _, _, _ => ⟨_, .empty⟩
  | .star a, _, _, _, _, _, _, _, _ => ⟨_, .done⟩
  | .boundary word, x, z, h, hword, _, u, hu, v' => by
    obtain ⟨w, -, hshort⟩ := h.shorten hword rfl u hu
    exact ⟨_, hshort.append v' hword⟩

/-- Every match reads a character of the class. -/
def Needs (holds : Char → Prop) (r : Regex) : Prop := ∀ x y, Matches r x y → ∃ c ∈ x.after, holds c

theorem Needs.char {p : Char → Prop} {holds : Char → Bool} (h : ∀ c, holds c = true → p c) : Needs p
    (.char holds) := by
  intro x y hm
  cases hm with
  | char hc => exact ⟨_, List.mem_cons_self, h _ hc⟩

theorem Needs.first {p : Char → Prop} {a b : Regex} (h : Needs p a) : Needs p (.seq a b) := by
  intro x z hm
  cases hm with
  | seq ha _ => exact h _ _ ha

theorem Needs.second {p : Char → Prop} {a b : Regex} (h : Needs p b) : Needs p (.seq a b) := by
  intro x z hm
  cases hm with
  | seq ha hb =>
    obtain ⟨c, hc, hp⟩ := h _ _ hb
    exact ⟨c, ha.suffix.subset hc, hp⟩

theorem Needs.alt {p : Char → Prop} {a b : Regex} (ha : Needs p a) (hb : Needs p b) : Needs p
    (.alt a b) := by
  intro x y hm
  cases hm with
  | left hm => exact ha _ _ hm
  | right hm => exact hb _ _ hm

/-- Behind the characters of a word. -/
theorem Needs.behind {p : Char → Prop} {r : Regex} (h : Needs p r) : ∀ ps : List (Char → Bool),
    Needs p (chars ps r)
  | [] => h
  | _ :: ps => .second (h.behind ps)

/-- One of the characters of a word. -/
theorem Needs.letter {p : Char → Prop} {r : Regex} (holds : Char → Bool)
    (h : ∀ c, holds c = true → p c) :
    ∀ {ps : List (Char → Bool)}, holds ∈ ps → Needs p (chars ps r)
  | q :: ps, hmem => by
    rcases List.mem_cons.mp hmem with heq | hmem
    · rw [← heq]
      exact .first (.char h)
    · exact .second (.letter holds h hmem)

/-- The expression with each boundary taken for granted. -/
def erase : Regex → Regex
  | .empty => .empty
  | .char holds => .char holds
  | .seq a b => .seq a.erase b.erase
  | .alt a b => .alt a.erase b.erase
  | .star a => .star a.erase
  | .boundary _ => .empty

theorem Matches.erase {r : Regex} {x y : Cursor} (h : Matches r x y) : Matches r.erase x y := by
  induction h with
  | empty => exact .empty
  | char hc => exact .char hc
  | seq _ _ iha ihb => exact .seq iha ihb
  | left _ ih => exact .left ih
  | right _ ih => exact .right ih
  | done => exact .done
  | more _ hlt _ iha ihb => exact .more iha hlt ihb
  | boundary _ => exact .empty

/-- Two positions before the same text, on the same side of the boundaries of `words`. -/
structure Similar (words : (Char → Bool) → Prop) (x y : Cursor) : Prop where
  after : x.after = y.after
  before : ∀ word, words word → x.before.any word = y.before.any word

/-- What matches at a position matches at a similar one. -/
theorem Matches.similar {words : (Char → Bool) → Prop} {r : Regex} {x y : Cursor}
    (h : Matches r x y) (huses : ∀ word, r.uses word → words word) :
    ∀ {x' : Cursor}, Similar words x x' → ∃ y', Matches r x' y' ∧ Similar words y y' := by
  induction h with
  | empty =>
    intro x' hx
    exact ⟨x', .empty, hx⟩
  | @char holds before c rest hc =>
    intro ⟨before', after'⟩ hx
    have hafter : c :: rest = after' := hx.after
    rw [← hafter]
    exact ⟨_, .char hc, rfl, fun _ _ => rfl⟩
  | seq _ _ iha ihb =>
    intro x' hx
    obtain ⟨y', hy, hsy⟩ := iha (fun w hw => huses w (.inl hw)) hx
    obtain ⟨z', hz, hsz⟩ := ihb (fun w hw => huses w (.inr hw)) hsy
    exact ⟨z', .seq hy hz, hsz⟩
  | left _ ih =>
    intro x' hx
    obtain ⟨y', hy, hsy⟩ := ih (fun w hw => huses w (.inl hw)) hx
    exact ⟨y', .left hy, hsy⟩
  | right _ ih =>
    intro x' hx
    obtain ⟨y', hy, hsy⟩ := ih (fun w hw => huses w (.inr hw)) hx
    exact ⟨y', .right hy, hsy⟩
  | done =>
    intro x' hx
    exact ⟨x', .done, hx⟩
  | more _ hlt _ iha ihb =>
    intro x' hx
    obtain ⟨y', hy, hsy⟩ := iha huses hx
    obtain ⟨z', hz, hsz⟩ := ihb huses hsy
    exact ⟨z', .more hy (by rw [← hsy.after, ← hx.after]; exact hlt) hz, hsz⟩
  | @boundary word x h =>
    intro x' hx
    refine ⟨x', .boundary ?_, hx⟩
    rw [← h, atBoundary, atBoundary, hx.after, hx.before word (huses word rfl)]

/-! ## Searching -/

theorem accepts_true_iff {r : Regex} {x : Cursor} : r.accepts (fun _ => true) x = true ↔
    ∃ y, Matches r x y := by
  rw [accepts_iff]
  exact ⟨fun ⟨y, hy, _⟩ => ⟨y, hy⟩, fun ⟨y, hy⟩ => ⟨y, hy, rfl⟩⟩

/-- A search finds a match that starts somewhere in the text. -/
theorem searchFrom_iff {r : Regex} : ∀ {text : Text} {before : Option Char},
    r.searchFrom before text = true ↔ ∃ u v y, text = u ++ v ∧ Matches r ⟨u.getLast?.or before, v⟩ y
  | [], before => by
    rw [searchFrom, accepts_true_iff]
    constructor
    · intro ⟨y, hy⟩
      exact ⟨[], [], y, rfl, hy⟩
    · intro ⟨u, v, y, huv, hy⟩
      obtain ⟨hu, hv⟩ := List.append_eq_nil_iff.mp huv.symm
      rw [hu, hv] at hy
      exact ⟨y, hy⟩
  | c :: rest, before => by
    rw [searchFrom, Bool.or_eq_true, accepts_true_iff, searchFrom_iff]
    constructor
    · intro h
      rcases h with ⟨y, hy⟩ | ⟨u, v, y, huv, hy⟩
      · exact ⟨[], c :: rest, y, rfl, hy⟩
      · refine ⟨c :: u, v, y, by rw [huv]; rfl, ?_⟩
        rw [List.getLast?_cons]
        cases hlast : u.getLast? with
        | none => simpa [hlast] using hy
        | some d => simpa [hlast] using hy
    · intro ⟨u, v, y, huv, hy⟩
      cases u with
      | nil =>
        rw [List.nil_append] at huv
        rw [← huv] at hy
        exact .inl ⟨y, hy⟩
      | cons d u =>
        obtain ⟨hc, hrest⟩ := List.cons.inj huv
        refine .inr ⟨u, v, y, hrest, ?_⟩
        rw [List.getLast?_cons] at hy
        cases hlast : u.getLast? with
        | none => simpa [hlast, hc] using hy
        | some e => simpa [hlast] using hy

theorem search_iff {r : Regex} {text : Text} :
    r.search text = true ↔ ∃ u v y, text = u ++ v ∧ Matches r ⟨u.getLast?, v⟩ y := by
  rw [search, searchFrom_iff]
  simp only [Option.or_none]

/-- A search of a part of a text, cut out between characters that are no word characters. -/
theorem search_of_infix {r : Regex} {text left right : Text}
    (hleft : ∀ c, left.getLast? = .some c → ∀ word, r.uses word → word c = false)
    (hright : ∀ c, right.head? = .some c → ∀ word, r.uses word → word c = false)
    (h : r.search text = true) : r.search (left ++ (text ++ right)) = true := by
  rw [search_iff] at h ⊢
  obtain ⟨u, v, y, huv, hy⟩ := h
  have happended : ∃ y', Matches r ⟨u.getLast?, v ++ right⟩ y' := by
    cases right with
    | nil =>
      rw [List.append_nil]
      exact ⟨y, hy⟩
    | cons c rest => exact ⟨_, hy.append rest (hright c rfl)⟩
  obtain ⟨y', hy'⟩ := happended
  have hsimilar : Similar r.uses ⟨u.getLast?, v ++ right⟩ ⟨(left ++ u).getLast?, v ++ right⟩ := by
    refine ⟨rfl, fun word huse => ?_⟩
    rw [List.getLast?_append]
    cases hu : u.getLast? with
    | some c => rfl
    | none =>
      cases hl : left.getLast? with
      | none => rfl
      | some c => simp [hleft c hl word huse]
  obtain ⟨z, hz, -⟩ := hy'.similar (fun _ huse => huse) hsimilar
  exact ⟨left ++ u, v ++ right, z, by rw [huv]; simp, hz⟩

/-- At most `n` characters of a class. -/
theorem matches_upTo {holds : Char → Bool} : ∀ {n : ℕ} {text : Text} (before : Option Char),
    text.length ≤ n → (∀ c ∈ text, holds c = true) → ∃ last, Matches (upTo (.char holds) n)
      ⟨before, text⟩ ⟨last, []⟩
  | 0, [], before, _, _ => ⟨before, .empty⟩
  | _ + 1, [], before, _, _ => ⟨before, .right .empty⟩
  | n + 1, c :: text, _, hlen, hall => by
    have hrest : text.length ≤ n := Nat.le_of_succ_le_succ hlen
    obtain ⟨last, hm⟩ := matches_upTo (.some c) hrest fun d hd => hall d (List.mem_cons_of_mem c hd)
    exact ⟨last, .left (.seq (.char (hall c List.mem_cons_self)) hm)⟩

/-- A whole match reads characters the expression may read. -/
theorem fullmatch_reads {r : Regex} {text : Text} (h : r.fullmatch text = true) :
    ∀ c ∈ text, reads c r = true := by
  obtain ⟨before, hm⟩ := fullmatch_iff.mp h
  obtain ⟨u, hu, hr⟩ := hm.consumed
  have htext : text = u := by rw [← List.append_nil u, ← hu]
  rw [htext]
  exact hr

theorem search_eq_false_of_needs {p : Char → Prop} {r : Regex} {text : Text} (h : Needs p r)
    (hnone : ∀ c ∈ text, ¬ p c) :
    r.search text = false := by
  rw [← Bool.not_eq_true, search_iff]
  intro ⟨u, v, y, huv, hy⟩
  obtain ⟨c, hc, hp⟩ := h _ _ hy
  refine hnone c ?_ hp
  rw [huv]
  exact List.mem_append_right u hc

theorem search_eq_false_of_erase {r : Regex} {text : Text} (h : r.erase.search text = false) :
    r.search text = false := by
  rw [← Bool.not_eq_true] at h ⊢
  intro hr
  obtain ⟨u, v, y, huv, hy⟩ := search_iff.mp hr
  exact h (search_iff.mpr ⟨u, v, y, huv, hy.erase⟩)

/-- **A search of two parts**: around a character that only ends matches, and is no word
character, a text holds a match exactly when one of its parts does. -/
theorem search_split {r : Regex} {c : Char} {u v : Text}
    (hword : ∀ word, r.uses word → word c = false) (hlast : readsLast c r = true)
    (hneeds : Needs (fun _ => True) r) :
    r.search (u ++ c :: v) = (r.search (u ++ [c]) || r.search v) := by
  have hsimilar : ∀ p q : Text, Similar r.uses ⟨(u ++ c :: p).getLast?, q⟩ ⟨p.getLast?, q⟩ := by
    intro p q
    refine ⟨rfl, fun word huse => ?_⟩
    rw [List.getLast?_append, List.getLast?_cons]
    cases p.getLast? with
    | some d => rfl
    | none => simp [hword word huse]
  rw [Bool.eq_iff_iff, Bool.or_eq_true, search_iff, search_iff, search_iff]
  constructor
  · intro ⟨p, q, y, hpq, hy⟩
    have hcases : (∃ w, u = p ++ w ∧ q = w ++ c :: v) ∨ ∃ w, p = u ++ c :: w ∧ v = w ++ q := by
      rcases List.append_eq_append_iff.mp hpq with ⟨w, hp, hq⟩ | h
      · cases w with
        | nil => exact .inl ⟨[], by rw [hp]; simp, hq.symm⟩
        | cons d w =>
          obtain ⟨hd, hv⟩ := List.cons.inj hq
          exact .inr ⟨w, by rw [hp, hd], hv⟩
      · exact .inl h
    rcases hcases with ⟨w, hu, hq⟩ | ⟨w, hp, hv⟩
    · obtain ⟨y', hy'⟩ := hy.replaceRest hword hlast w hq []
      exact .inl ⟨p, w ++ [c], y', by rw [hu, List.append_assoc], hy'⟩
    · rw [hp] at hy
      obtain ⟨z, hz, -⟩ := hy.similar (fun _ huse => huse) (hsimilar w q)
      exact .inr ⟨w, q, z, hv, hz⟩
  · intro h
    rcases h with ⟨p, q, y, hpq, hy⟩ | ⟨p, q, y, hpq, hy⟩
    · have hcases : ∃ w, u = p ++ w ∧ q = w ++ [c] := by
        rcases List.append_eq_append_iff.mp hpq with ⟨w, hp, hq⟩ | h
        · rcases List.append_eq_singleton_iff.mp hq.symm with ⟨hw, hq⟩ | ⟨hw, hq⟩
          · exact ⟨[], by rw [hp, hw]; simp, hq⟩
          · obtain ⟨d, hd, -⟩ := hneeds _ _ hy
            rw [hq] at hd
            exact absurd hd List.not_mem_nil
        · exact h
      obtain ⟨w, hu, hq⟩ := hcases
      obtain ⟨y', hy'⟩ := hy.replaceRest hword hlast w hq v
      exact ⟨p, w ++ c :: v, y', by rw [hu, List.append_assoc], hy'⟩
    · have hback := hsimilar p q
      obtain ⟨z, hz, -⟩ := hy.similar (fun _ huse => huse) ⟨hback.after.symm, fun word huse =>
        (hback.before word huse).symm⟩
      exact ⟨u ++ c :: p, q, z, by rw [hpq]; simp, hz⟩

end Regex

end Novalton
