/-
A pre-order walk of a tree of paths to a depth, cut off at a number of entries: which of
them it gathers, whether it says that more were left, and when neither depends on the
order of siblings with equal keys. Nothing here names the repository.

`leads` is what comes first in every order of the siblings, and `rank` how many entries
lead a path: the place of a path in a walk is its rank wherever siblings differ in key.
-/
import Mathlib.Data.List.Flatten
import Mathlib.Data.List.Induction
import Mathlib.Data.List.Infix
import Mathlib.Data.List.Nodup
import Mathlib.Data.List.Perm.Basic
import Mathlib.Data.List.Sort

namespace Novalton.Walk

/-! ## Walks -/

section
variable {ν : Type} (children : List ν → List (List ν))

/-- What is below a path to a depth, each path in front of what is below it. -/
def walk : ℕ → List ν → List (List ν)
  | 0, _ => []
  | depth + 1, path => (children path).flatMap fun child => child :: walk depth child

/-- The children of a path are the path and one more name. -/
def Extends : Prop := ∀ path, ∀ child ∈ children path, ∃ name, child = path ++ [name]

variable {children} {children' : List ν → List (List ν)}

/-- What holds of a path and passes to its children holds of all that is below it. -/
theorem walk_forall {P Q : List ν → Prop}
    (hchild : ∀ path, P path → ∀ child ∈ children path, P child ∧ Q child) :
    ∀ {depth : ℕ} {path : List ν}, P path → ∀ x ∈ walk children depth path, P x ∧ Q x := by
  intro depth
  induction depth with
  | zero =>
    intro path _ x hx
    cases hx
  | succ depth ih =>
    intro path hpath x hx
    obtain ⟨child, hmem, hx⟩ := List.mem_flatMap.mp hx
    have hkept := hchild path hpath child hmem
    rcases List.mem_cons.mp hx with rfl | hx
    · exact hkept
    · exact ih hkept.1 x hx

theorem walk_below (hext : Extends children) : ∀ {depth : ℕ} {path : List ν},
    ∀ x ∈ walk children depth path, path <+: x ∧ path.length < x.length ∧
      x.length ≤ path.length + depth := by
  intro depth
  induction depth with
  | zero =>
    intro path x hx
    cases hx
  | succ depth ih =>
    intro path x hx
    obtain ⟨child, hmem, hx⟩ := List.mem_flatMap.mp hx
    obtain ⟨name, rfl⟩ := hext path child hmem
    rcases List.mem_cons.mp hx with rfl | hx
    · exact ⟨List.prefix_append path [name], by simp, by simp⟩
    · obtain ⟨habove, hlonger, hbound⟩ := ih x hx
      rw [List.length_append, List.length_singleton] at hlonger hbound
      exact ⟨(List.prefix_append path [name]).trans habove, by omega, by omega⟩

/-- What is walked is reached through children. -/
theorem walk_above (hext : Extends children) : ∀ {depth : ℕ} {path x s : List ν},
    x ∈ walk children depth path → s <+: x →
    path.length < s.length → s ∈ walk children depth path ∧ (s = x ∨ children s ≠ []) := by
  intro depth
  induction depth with
  | zero =>
    intro path x s hx _ _
    cases hx
  | succ depth ih =>
    intro path x s hx hs hlength
    obtain ⟨child, hmem, hx⟩ := List.mem_flatMap.mp hx
    obtain ⟨name, rfl⟩ := hext path child hmem
    have hat : path ++ [name] <+: x := by
      rcases List.mem_cons.mp hx with rfl | hx
      · exact List.prefix_rfl
      · exact (walk_below hext x hx).1
    have hle : (path ++ [name]).length ≤ s.length := by
      rw [List.length_append, List.length_singleton]
      omega
    rcases Nat.lt_or_eq_of_le hle with hlonger | hsame
    · rcases List.mem_cons.mp hx with rfl | hx
      · have := hs.length_le
        omega
      · obtain ⟨hwalked, hcase⟩ := ih hx hs hlonger
        exact ⟨List.mem_flatMap.mpr ⟨_, hmem, List.mem_cons_of_mem _ hwalked⟩, hcase⟩
    · have heq : path ++ [name] = s :=
        (List.prefix_of_prefix_length_le hat hs hle).eq_of_length hsame
      rw [← heq]
      refine ⟨List.mem_flatMap.mpr ⟨_, hmem, List.mem_cons_self⟩, ?_⟩
      rcases List.mem_cons.mp hx with rfl | hx
      · exact .inl rfl
      · refine .inr fun hnone => ?_
        cases depth with
        | zero => cases hx
        | succ depth =>
          rw [walk, hnone, List.flatMap_nil] at hx
          cases hx

/-- Children in another order make a walk of the same paths. -/
theorem walk_perm (h : ∀ path, (children path).Perm (children' path)) :
    ∀ {depth : ℕ} {path : List ν},
    (walk children depth path).Perm (walk children' depth path) := by
  intro depth
  induction depth with
  | zero =>
    intro path
    exact List.Perm.refl _
  | succ depth ih =>
    intro path
    rw [walk, walk]
    exact ((h path).flatMap_right _).trans (List.Perm.flatMap_left _ fun child _ => (ih).cons child)

/-- Leaving out paths that nothing is below leaves out children. -/
theorem walk_filter (keep : List ν → Bool)
    (hleaf : ∀ path, keep path = false → children path = []) :
    ∀ {depth : ℕ} {path : List ν},
      (walk children depth path).filter keep = walk
      (fun path => (children path).filter keep) depth path := by
  intro depth
  induction depth with
  | zero =>
    intro path
    rfl
  | succ depth ih =>
    intro path
    rw [walk, walk, List.filter_flatMap]
    generalize children path = siblings
    induction siblings with
    | nil => rfl
    | cons child siblings ihs =>
      rw [List.flatMap_cons, ihs]
      cases hkeep : keep child with
      | true => rw [List.filter_cons_of_pos hkeep, List.filter_cons_of_pos hkeep, List.flatMap_cons,
          ih]
      | false =>
        have hnone : walk children depth child = [] := by
          cases depth with
          | zero => rfl
          | succ depth => rw [walk, hleaf child hkeep, List.flatMap_nil]
        rw [List.filter_cons_of_neg (by simp [hkeep]), List.filter_cons_of_neg (by simp [hkeep]),
          hnone, List.filter_nil, List.nil_append]

/-- Two paths part at siblings that are related. -/
def Branch (R : List ν → List ν → Prop) (x y : List ν) : Prop :=
  ∃ path a b, path ++ [a] <+: x ∧ path ++ [b] <+: y ∧ R (path ++ [a]) (path ++ [b])

/-- **The order of a walk**: a path comes behind those it is below, and behind what is at
or below an earlier sibling of one of them. -/
theorem walk_pairwise {R : List ν → List ν → Prop} (hext : Extends children)
    (hR : ∀ path, (children path).Pairwise R) :
    ∀ {depth : ℕ} {path : List ν}, (walk children depth path).Pairwise fun x y => x <+: y ∧ x ≠ y ∨
      Branch R x y := by
  intro depth
  induction depth with
  | zero =>
    intro path
    exact List.Pairwise.nil
  | succ depth ih =>
    intro path
    have hat : ∀ child, ∀ x ∈ child :: walk children depth child, child <+: x := by
      intro child x hx
      rcases List.mem_cons.mp hx with rfl | hx
      · exact List.prefix_rfl
      · exact (walk_below hext x hx).1
    rw [walk, List.pairwise_flatMap]
    constructor
    · intro child _
      rw [List.pairwise_cons]
      refine ⟨fun x hx => .inl ?_, ih⟩
      obtain ⟨habove, hlonger, -⟩ := walk_below hext x hx
      refine ⟨habove, fun heq => ?_⟩
      rw [heq] at hlonger
      omega
    · refine (hR path).imp_of_mem fun {s t} hs ht hst x hx y hy => .inr ?_
      obtain ⟨a, rfl⟩ := hext path s hs
      obtain ⟨b, rfl⟩ := hext path t ht
      exact ⟨path, a, b, hat _ x hx, hat _ y hy, hst⟩

end

/-! ## What leads a path -/

section
variable {ν κ : Type} [DecidableEq ν] [LinearOrder κ] (fold : ν → κ)

/-- The first path comes before the second in every walk that sorts siblings by key. -/
def leads : List ν → List ν → Bool
  | _, [] => false
  | [], _ :: _ => true
  | a :: x, b :: y => if a = b then leads x y else decide (fold a < fold b)

/-- How many of the paths lead a path. -/
def rank (paths : List (List ν)) (x : List ν) : ℕ := (paths.filter fun y => leads fold y x).length

variable {fold} {x y z : List ν}

theorem leads_self : ∀ x : List ν, leads fold x x = false
  | [] => rfl
  | a :: x => by
    rw [leads, if_pos rfl]
    exact leads_self x

theorem leads_append : ∀ (x : List ν) (a : ν) (y : List ν), leads fold x (x ++ a :: y) = true
  | [], _, _ => rfl
  | b :: x, a, y => by
    rw [List.cons_append, leads, if_pos rfl]
    exact leads_append x a y

theorem append_leads : ∀ (x y : List ν), leads fold (x ++ y) x = false
  | [], y => by
    cases y with
    | nil => rfl
    | cons b y => rfl
  | b :: x, y => by
    rw [List.cons_append, leads, if_pos rfl]
    exact append_leads x y

theorem above_leads (h : x <+: y) (hne : x ≠ y) : leads fold x y = true := by
  obtain ⟨rest, rfl⟩ := h
  cases rest with
  | nil => exact absurd (List.append_nil x).symm hne
  | cons a rest => exact leads_append x a rest

theorem not_leads_above (h : x <+: y) : leads fold y x = false := by
  obtain ⟨rest, rfl⟩ := h
  exact append_leads x rest

/-- Where paths part, the keys of the siblings decide. -/
theorem leads_parted {path : List ν} {a b : ν} (hx : path ++ [a] <+: x) (hy : path ++ [b] <+: y)
    (hab : a ≠ b) :
    leads fold x y = decide (fold a < fold b) := by
  obtain ⟨x, rfl⟩ := hx
  obtain ⟨y, rfl⟩ := hy
  induction path with
  | nil =>
    show leads fold (a :: x) (b :: y) = decide (fold a < fold b)
    rw [leads, if_neg hab]
  | cons c path ih =>
    show leads fold (c :: (path ++ [a] ++ x)) (c :: (path ++ [b] ++ y)) = decide (fold a < fold b)
    rw [leads, if_pos rfl]
    exact ih

theorem leads_of_parted {path : List ν} {a b : ν} (hx : path ++ [a] <+: x) (hy : path ++ [b] <+: y)
    (hkey : fold a < fold b) :
    leads fold x y = true := by
  have hab : a ≠ b := by
    intro heq
    rw [heq] at hkey
    exact lt_irrefl _ hkey
  rw [leads_parted hx hy hab]
  exact decide_eq_true hkey

theorem not_leads_of_parted {path : List ν} {a b : ν} (hx : path ++ [a] <+: x)
    (hy : path ++ [b] <+: y) (hab : a ≠ b) (hkey : fold a ≤ fold b) : leads fold y x = false := by
  rw [leads_parted hy hx (Ne.symm hab)]
  exact decide_eq_false (not_lt.mpr hkey)

/-- Two paths are one above the other, or part somewhere. -/
theorem prefix_or_parted : ∀ x y : List ν, x <+: y ∨ y <+: x ∨ ∃ path a b, path ++ [a] <+: x ∧
    path ++ [b] <+: y ∧ a ≠ b
  | [], y => .inl List.nil_prefix
  | _ :: _, [] => .inr (.inl List.nil_prefix)
  | a :: x, b :: y => by
    by_cases hab : a = b
    · subst hab
      rcases prefix_or_parted x y with h | h | ⟨path, c, d, hx, hy, hcd⟩
      · exact .inl (List.prefix_cons_inj a |>.mpr h)
      · exact .inr (.inl (List.prefix_cons_inj a |>.mpr h))
      · exact .inr (.inr ⟨a :: path, c, d, List.prefix_cons_inj a |>.mpr hx,
          List.prefix_cons_inj a |>.mpr hy, hcd⟩)
    · exact .inr (.inr ⟨[], a, b, by simp, by simp, hab⟩)

/-- Paths neither of which leads the other part at siblings of one key. -/
theorem tied_of_not_leads (hxy : leads fold x y = false) (hyx : leads fold y x = false)
    (hne : x ≠ y) :
    ∃ path a b, path ++ [a] <+: x ∧ path ++ [b] <+: y ∧ a ≠ b ∧ fold a = fold b := by
  rcases prefix_or_parted x y with h | h | ⟨path, a, b, hx, hy, hab⟩
  · rw [above_leads h hne] at hxy
    cases hxy
  · rw [above_leads h (Ne.symm hne)] at hyx
    cases hyx
  · rw [leads_parted hx hy hab, decide_eq_false_iff_not, not_lt] at hxy
    rw [leads_parted hy hx (Ne.symm hab), decide_eq_false_iff_not, not_lt] at hyx
    exact ⟨path, a, b, hx, hy, hab, le_antisymm hyx hxy⟩

omit [DecidableEq ν] in
/-- Paths below a base part below it. -/
theorem parted_below {base path : List ν} {a b : ν} (hbx : base <+: x) (hby : base <+: y)
    (hx : path ++ [a] <+: x) (hy : path ++ [b] <+: y) (hab : a ≠ b) :
    base.length ≤ path.length := by
  by_contra hnot
  have hle : ∀ c : ν, (path ++ [c]).length ≤ base.length := by
    intro c
    rw [List.length_append, List.length_singleton]
    omega
  have ha := List.prefix_of_prefix_length_le hx hbx (hle a)
  have hb := List.prefix_of_prefix_length_le hy hby (hle b)
  have heq := (List.prefix_of_prefix_length_le ha hb (by simp)).eq_of_length (by simp)
  exact hab (List.cons.inj (List.append_cancel_left heq)).1

/-- What leads a path leads all that is below it. -/
theorem leads_below : ∀ {z x : List ν} (rest : List ν), leads fold z x = true → leads fold z
    (x ++ rest) = true
  | [], [], _, h => by cases h
  | _ :: _, [], _, h => by cases h
  | [], _ :: _, _, _ => rfl
  | c :: z, a :: x, rest, h => by
    rw [leads] at h
    rw [List.cons_append, leads]
    split at h
    next hca =>
      rw [if_pos hca]
      exact leads_below rest h
    next hca =>
      rw [if_neg hca]
      exact h

/-- Siblings of one key are led by the same paths. -/
theorem leads_tied {path : List ν} {a b : ν} (hkey : fold a = fold b) : ∀ z : List ν,
    leads fold z (path ++ [a]) = leads fold z (path ++ [b]) := by
  induction path with
  | nil =>
    intro z
    cases z with
    | nil => rfl
    | cons c z =>
      have hnil : leads fold z [] = false := by cases z <;> rfl
      have hone : ∀ d : ν, leads fold (c :: z) ([] ++ [d]) = decide (fold c < fold d) := by
        intro d
        rw [List.nil_append, leads, hnil]
        split
        next hcd => rw [hcd, decide_eq_false (lt_irrefl _)]
        next => rfl
      rw [hone, hone, hkey]
  | cons c path ih =>
    intro z
    cases z with
    | nil => rfl
    | cons d z =>
      rw [List.cons_append, List.cons_append, leads, leads, ih]

/-! ### Ranks and places -/

theorem rank_perm {paths paths' : List (List ν)} (h : paths.Perm paths') :
    rank fold paths x = rank fold paths' x :=
  (h.filter _).length_eq

theorem rank_mono {paths : List (List ν)} {s : List ν} (h : s <+: x) :
    rank fold paths s ≤ rank fold paths x := by
  obtain ⟨rest, rfl⟩ := h
  exact (List.monotone_filter_right paths fun z hz => leads_below rest hz).length_le

/-- Siblings of one key have one rank. -/
theorem rank_tied {paths : List (List ν)} {path : List ν} {a b : ν} (hkey : fold a = fold b) :
    rank fold paths (path ++ [a]) = rank fold paths (path ++ [b]) := by
  rw [rank, rank]
  simp only [leads_tied hkey]

/-- In an order that `leads` allows, the paths that lead a path are in front of it. -/
theorem rank_place {u v : List (List ν)}
    (h : (u ++ x :: v).Pairwise fun a b => leads fold b a = false) :
    rank fold (u ++ x :: v) x = (u.filter fun y => leads fold y x).length := by
  obtain ⟨-, hv, -⟩ := List.pairwise_append.mp h
  obtain ⟨hbehind, -⟩ := List.pairwise_cons.mp hv
  have hnone : (x :: v).filter (fun y => leads fold y x) = [] := by
    rw [List.filter_eq_nil_iff]
    intro y hy
    rw [Bool.not_eq_true]
    rcases List.mem_cons.mp hy with rfl | hy
    · exact leads_self y
    · exact hbehind y hy
  rw [rank, List.filter_append, hnone, List.append_nil]

theorem rank_le_place {u v : List (List ν)}
    (h : (u ++ x :: v).Pairwise fun a b => leads fold b a = false) :
    rank fold (u ++ x :: v) x ≤ u.length := by
  rw [rank_place h]
  exact List.length_filter_le _ _

theorem place_eq_rank {u v : List (List ν)}
    (h : (u ++ x :: v).Pairwise fun a b => leads fold b a = false)
    (hfront : ∀ y ∈ u, leads fold y x = true) : rank fold (u ++ x :: v) x = u.length := by
  rw [rank_place h, List.filter_eq_self.mpr hfront]

theorem rank_lt_of_mem_take {paths : List (List ν)} {limit : ℕ}
    (h : paths.Pairwise fun a b => leads fold b a = false) (hx : x ∈ paths.take limit) :
    rank fold paths x < limit := by
  obtain ⟨u, v, htake⟩ := List.append_of_mem hx
  have hsplit : paths = u ++ x :: (v ++ paths.drop limit) := by
    rw [← List.cons_append, ← List.append_assoc, ← htake, List.take_append_drop]
  rw [hsplit] at h
  have hle := rank_le_place h
  have hlength := congrArg List.length htake
  rw [List.length_take, List.length_append, List.length_cons] at hlength
  rw [hsplit]
  omega

/-- **Orders agree up to a limit** when every path of a lower rank is tied with none. -/
theorem take_eq {p q : List (List ν)} {limit : ℕ} (hperm : p.Perm q) (hnodup : p.Nodup)
    (hp : p.Pairwise fun a b => leads fold b a = false)
    (hq : q.Pairwise fun a b => leads fold b a = false)
    (huntied : ∀ x ∈ p, rank fold p x < limit → ∀ y ∈ p, y ≠ x → leads fold x y = true ∨
    leads fold y x = true) :
    p.take limit = q.take limit := by
  refine List.ext_getElem? fun i => ?_
  rw [List.getElem?_take, List.getElem?_take]
  split
  next hi =>
    by_cases hlength : i < p.length
    · have hsplit : p = p.take i ++ p[i] :: p.drop (i + 1) := by simp
      have hmem : p[i] ∈ p := List.getElem_mem hlength
      obtain ⟨u, v, hq'⟩ := List.append_of_mem (hperm.subset hmem)
      have hplace : (p.take i).length = i := by
        rw [List.length_take]
        omega
      -- what is in front of the path in either order leads it
      have hfront : ∀ {s t : List (List ν)}, s ++ p[i] :: t = p ∨ s ++ p[i] :: t = q →
        rank fold p p[i] < limit →
          ∀ y ∈ s, leads fold y p[i] = true := by
        intro s t hst hlow y hy
        have horder : (s ++ p[i] :: t).Pairwise fun a b => leads fold b a = false := by
          rcases hst with hst | hst
          · rw [hst]
            exact hp
          · rw [hst]
            exact hq
        have hdistinct : (s ++ p[i] :: t).Nodup := by
          rcases hst with hst | hst
          · rw [hst]
            exact hnodup
          · rw [hst]
            exact hperm.nodup_iff.mp hnodup
        have hyp : y ∈ p := by
          rcases hst with hst | hst
          · rw [← hst]
            exact List.mem_append_left _ hy
          · refine hperm.symm.subset ?_
            rw [← hst]
            exact List.mem_append_left _ hy
        have hne : y ≠ p[i] := (List.nodup_append.mp hdistinct).2.2 y hy p[i] List.mem_cons_self
        have hnot := (List.pairwise_append.mp horder).2.2 y hy p[i] List.mem_cons_self
        rcases huntied p[i] hmem hlow y hyp hne with h | h
        · rw [hnot] at h
          cases h
        · exact h
      have hp' : (p.take i ++ p[i] :: p.drop (i + 1)).Pairwise fun a b => leads fold b a =
          false := by
        rw [← hsplit]
        exact hp
      have hle := rank_le_place hp'
      rw [← hsplit, hplace] at hle
      have hlow : rank fold p p[i] < limit := by omega
      have hrank := place_eq_rank hp' (hfront (.inl hsplit.symm) hlow)
      rw [← hsplit, hplace] at hrank
      rw [hq'] at hq
      have hrank' := place_eq_rank hq (hfront (.inr hq'.symm) hlow)
      rw [← hq', ← rank_perm hperm, hrank] at hrank'
      have hfound : (u ++ p[i] :: v)[u.length]? = .some p[i] := by simp
      rw [← hq', ← hrank'] at hfound
      rw [List.getElem?_eq_getElem hlength, hfound]
    · rw [List.getElem?_eq_none (by omega),
        List.getElem?_eq_none (by rw [← hperm.length_eq]; omega)]
  next => rfl

end

/-! ## Sorted siblings -/

section
variable {α κ : Type} [LinearOrder κ] {key : α → κ} {Q : α → α → Prop}

theorem orderedInsert_stable {a : α} : ∀ {sorted : List α},
    (sorted.Pairwise fun s t => key s < key t ∨ key s = key t ∧ Q s t) → (∀ b ∈ sorted, Q a b) →
    (sorted.orderedInsert (fun s t => key s ≤ key t) a).Pairwise fun s t => key s < key t ∨
    key s = key t ∧ Q s t := by
  intro sorted
  induction sorted with
  | nil =>
    intro _ _
    exact List.pairwise_singleton _ a
  | cons b sorted ih =>
    intro hsorted ha
    obtain ⟨hb, hrest⟩ := List.pairwise_cons.mp hsorted
    rw [List.orderedInsert_cons]
    split
    next hle =>
      rw [List.pairwise_cons]
      refine ⟨fun c hc => ?_, hsorted⟩
      have hbc : key b ≤ key c := by
        rcases List.mem_cons.mp hc with rfl | hc
        · exact le_rfl
        · rcases hb c hc with h | h
          · exact h.le
          · exact h.1.le
      rcases (hle.trans hbc).lt_or_eq with h | h
      · exact .inl h
      · exact .inr ⟨h, ha c hc⟩
    next hle =>
      rw [List.pairwise_cons]
      refine ⟨fun c hc => ?_, ih hrest fun c hc => ha c (List.mem_cons_of_mem b hc)⟩
      rcases (List.mem_orderedInsert _).mp hc with rfl | hc
      · exact .inl (not_le.mp hle)
      · exact hb c hc

/-- Sorting keeps the order of what has one key. -/
theorem insertionSort_stable : ∀ {items : List α}, items.Pairwise Q →
    (items.insertionSort fun s t => key s ≤ key t).Pairwise fun s t => key s < key t ∨
    key s = key t ∧ Q s t := by
  intro items
  induction items with
  | nil =>
    intro _
    exact List.Pairwise.nil
  | cons a items ih =>
    intro h
    obtain ⟨ha, hitems⟩ := List.pairwise_cons.mp h
    rw [List.insertionSort_cons]
    exact orderedInsert_stable (ih hitems) fun b hb => ha b ((List.mem_insertionSort _).mp hb)

end

/-! ## A walk that stops -/

section
variable {α : Type} (entry fails : α → Bool) (limit : ℕ)

/-- Gathers the entries of a list up to a limit. What comes when the limit is reached is
not looked at, and says that there is more; a failing entry ends everything. -/
def gather : List α → List α → Option (List α × Bool)
  | [], found => .some (found, false)
  | x :: rest, found =>
    if limit ≤ found.length then .some (found, true)
    else if entry x then
      if fails x then .none else gather rest (found ++ [x])
    else gather rest found

variable {entry fails limit} {xs ys found : List α}

theorem gather_append : ∀ {xs found : List α}, gather entry fails limit (xs ++ ys) found =
    (gather entry fails limit xs found).bind fun seen => if seen.2 then .some seen
    else gather entry fails limit ys seen.1 := by
  intro xs
  induction xs with
  | nil =>
    intro found
    rfl
  | cons x xs ih =>
    intro found
    rw [List.cons_append, gather, gather]
    split
    next => rfl
    next =>
      split
      next =>
        split
        next => rfl
        next => exact ih
      next => exact ih

/-- It says that there is more when the limit is reached. -/
theorem gather_full {seen : List α} (h : gather entry fails limit xs found = .some (seen, true)) :
    limit ≤ seen.length := by
  induction xs generalizing found with
  | nil => cases h
  | cons x xs ih =>
    rw [gather] at h
    split at h
    next hfull =>
      rw [Option.some.injEq, Prod.mk.injEq] at h
      rw [← h.1]
      exact hfull
    next =>
      split at h
      next =>
        split at h
        next => cases h
        next => exact ih h
      next => exact ih h

/-- A failing entry within the limit ends the walk. -/
theorem gather_fails {x : α} (hentry : entry x = true) (hfails : fails x = true) :
    ∀ {u found : List α},
    found.length + (u.filter entry).length < limit → gather entry fails limit
      (u ++ x :: ys) found = .none := by
  intro u
  induction u with
  | nil =>
    intro found hlimit
    rw [List.filter_nil, List.length_nil, Nat.add_zero] at hlimit
    rw [List.nil_append, gather, if_neg (by omega), if_pos hentry, if_pos hfails]
  | cons y u ih =>
    intro found hlimit
    rw [List.cons_append, gather, if_neg (by omega)]
    cases hy : entry y with
    | true =>
      rw [List.filter_cons_of_pos hy, List.length_cons] at hlimit
      rw [if_pos rfl]
      split
      next => rfl
      next =>
        refine ih ?_
        rw [List.length_append, List.length_singleton]
        omega
    | false =>
      rw [List.filter_cons_of_neg (by simp [hy])] at hlimit
      rw [if_neg Bool.false_ne_true]
      exact ih hlimit

/-- **What is gathered** where no entry within the limit fails: the first entries; and that
there is more, when anything comes behind as many entries as the limit. -/
theorem gather_some : ∀ {xs found : List α}, found.length ≤ limit →
    (∀ u x v, xs = u ++ x :: v → entry x = true → fails x = true →
      limit ≤ found.length + (u.filter entry).length) →
    ∃ more, gather entry fails limit xs found = .some
      ((found ++ xs.filter entry).take limit, more) ∧
      (more = true ↔ ∃ u x v, xs = u ++ x :: v ∧
        limit ≤ found.length + (u.filter entry).length) := by
  intro xs
  induction xs with
  | nil =>
    intro found hfound _
    refine ⟨false, ?_, ?_⟩
    · rw [gather, List.filter_nil, List.append_nil, List.take_of_length_le hfound]
    · constructor
      · intro h
        cases h
      · rintro ⟨u, x, v, h, -⟩
        simp at h
  | cons x xs ih =>
    intro found hfound hsafe
    rw [gather]
    by_cases hfull : limit ≤ found.length
    · rw [if_pos hfull]
      refine ⟨true, ?_, ?_⟩
      · rw [List.take_append_of_le_length hfull, List.take_of_length_le hfound]
      · exact ⟨fun _ => ⟨[], x, xs, rfl, by simpa using hfull⟩, fun _ => rfl⟩
    · rw [if_neg hfull]
      -- behind the first element, the splits are those of the rest
      have hmore : ∀ found' : List α, found'.length = found.length + ([x].filter entry).length →
          ((∃ u y v, x :: xs = u ++ y :: v ∧ limit ≤ found.length + (u.filter entry).length) ↔
            ∃ u y v, xs = u ++ y :: v ∧ limit ≤ found'.length + (u.filter entry).length) := by
        intro found' hlength
        have hcons : ∀ u : List α, ((x :: u).filter entry).length = ([x].filter entry).length +
            (u.filter entry).length := by
          intro u
          rw [← List.singleton_append, List.filter_append, List.length_append]
        constructor
        · rintro ⟨u, y, v, hsplit, hle⟩
          cases u with
          | nil =>
            rw [List.filter_nil, List.length_nil, Nat.add_zero] at hle
            exact absurd hle hfull
          | cons z u =>
            rw [List.cons_append, List.cons.injEq] at hsplit
            rw [← hsplit.1, hcons] at hle
            exact ⟨u, y, v, hsplit.2, by omega⟩
        · rintro ⟨u, y, v, hsplit, hle⟩
          refine ⟨x :: u, y, v, by rw [hsplit, List.cons_append], ?_⟩
          rw [hcons]
          omega
      cases hx : entry x with
      | true =>
        have hhead : fails x = false := by
          rw [Bool.eq_false_iff]
          intro hfails
          have := hsafe [] x xs rfl hx hfails
          rw [List.filter_nil, List.length_nil, Nat.add_zero] at this
          exact hfull this
        have hlength : (found ++ [x]).length = found.length + ([x].filter entry).length := by
          rw [List.filter_cons_of_pos hx, List.filter_nil, List.length_append]
        rw [if_pos rfl, hhead, if_neg Bool.false_ne_true, List.filter_cons_of_pos hx]
        obtain ⟨more, hgather, hflag⟩ :=
            @ih (found ++ [x]) (by rw [List.length_append, List.length_singleton]; omega) (by
          intro u y v hsplit hy hfails
          have := hsafe (x :: u) y v (by rw [hsplit, List.cons_append]) hy hfails
          rw [List.filter_cons_of_pos hx, List.length_cons] at this
          rw [List.length_append, List.length_singleton]
          omega)
        rw [List.append_assoc, List.singleton_append] at hgather
        exact ⟨more, hgather, hflag.trans (hmore _ hlength).symm⟩
      | false =>
        have hlength : found.length = found.length + ([x].filter entry).length := by
          rw [List.filter_cons_of_neg (by simp [hx]), List.filter_nil]
          rfl
        rw [if_neg Bool.false_ne_true, List.filter_cons_of_neg (by simp [hx])]
        obtain ⟨more, hgather, hflag⟩ := @ih found hfound (by
          intro u y v hsplit hy hfails
          have := hsafe (x :: u) y v (by rw [hsplit, List.cons_append]) hy hfails
          rw [List.filter_cons_of_neg (by simp [hx])] at this
          exact this)
        exact ⟨more, hgather, hflag.trans (hmore _ hlength).symm⟩

/-- What a walk that did not fail gathered. -/
theorem gather_ok {seen : List α} {more : Bool}
    (h : gather entry fails limit xs [] = .some (seen, more)) :
    seen = (xs.filter entry).take limit ∧
      (more = true ↔ ∃ u x v, xs = u ++ x :: v ∧ limit ≤ (u.filter entry).length) := by
  obtain ⟨flag, hgather, hflag⟩ := @gather_some α entry fails limit xs [] (Nat.zero_le _) (by
    intro u x v hsplit hentry hfails
    by_contra hlimit
    rw [hsplit, gather_fails hentry hfails (not_le.mp hlimit)] at h
    cases h)
  rw [h, Option.some.injEq, Prod.mk.injEq, List.nil_append] at hgather
  rw [List.length_nil] at hflag
  simp only [Nat.zero_add] at hflag
  rw [hgather.2]
  exact ⟨hgather.1, hflag⟩

/-- Where there are more entries than the limit, one comes behind as many as the limit. -/
theorem split_of_more : ∀ {xs : List α} {limit : ℕ}, limit < (xs.filter entry).length →
    ∃ u x v, xs = u ++ x :: v ∧ limit ≤ (u.filter entry).length := by
  intro xs
  induction xs using List.reverseRecOn with
  | nil =>
    intro limit h
    rw [List.filter_nil, List.length_nil] at h
    omega
  | append_singleton xs x ih =>
    intro limit h
    by_cases hfew : limit ≤ (xs.filter entry).length
    · exact ⟨xs, x, [], rfl, hfew⟩
    · rw [List.filter_append, List.length_append] at h
      have hone := List.length_filter_le entry [x]
      rw [List.length_singleton] at hone
      omega

end

end Novalton.Walk
