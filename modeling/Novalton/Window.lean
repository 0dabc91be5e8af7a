/-
The first `n` entries of an unordered list by a key, as `ORDER BY key LIMIT n` reads
a table: which entries are in the window, and that the entries left out lie behind it.
Nothing here names the repository.
-/
import Mathlib.Data.List.Sort
import Mathlib.Order.OrderDual

namespace Novalton.Window

variable {α κ : Type} [LinearOrder κ] (key : α → κ)

/-- The list in the order of its keys. -/
def ordered (l : List α) : List α := l.insertionSort fun a b => key a ≤ key b

/-- `ORDER BY key ASC LIMIT n`. -/
def smallest (n : ℕ) (l : List α) : List α := (ordered key l).take n

/-- `ORDER BY key DESC LIMIT n`. -/
def largest (n : ℕ) (l : List α) : List α := smallest (OrderDual.toDual ∘ key) n l

/-- How many entries have a smaller key than `x`. -/
def rank (l : List α) (x : α) : ℕ := l.countP fun y => key y < key x

/-- How many entries have a larger key than `x`. -/
def rankFromTop (l : List α) (x : α) : ℕ := l.countP fun y => key x < key y

variable {key} {n : ℕ} {l : List α} {x y : α}

theorem ordered_perm : (ordered key l).Perm l := List.perm_insertionSort _ l

theorem mem_ordered : x ∈ ordered key l ↔ x ∈ l := ordered_perm.mem_iff

/-- With distinct keys the order is strict. -/
theorem ordered_pairwise (hnd : (l.map key).Nodup) : (ordered key l).Pairwise fun a b =>
    key a < key b := by
  have htotal : Std.Total fun a b : α => key a ≤ key b := ⟨fun a b => le_total (key a) (key b)⟩
  have htrans : IsTrans α fun a b => key a ≤ key b := ⟨fun _ _ _ hab hbc => le_trans hab hbc⟩
  have hle : (ordered key l).Pairwise fun a b => key a ≤ key b := List.pairwise_insertionSort _ l
  have hne : (ordered key l).Pairwise fun a b => key a ≠ key b := by
    have hmap : ((ordered key l).map key).Nodup := (ordered_perm.map key).nodup_iff.mpr hnd
    exact List.pairwise_map.mp hmap
  exact (hle.and hne).imp fun h => lt_of_le_of_ne h.1 h.2

theorem smallest_pairwise (hnd : (l.map key).Nodup) : (smallest key n l).Pairwise fun a b =>
    key a < key b :=
  (ordered_pairwise hnd).sublist (List.take_sublist _ _)

theorem mem_of_mem_smallest (h : x ∈ smallest key n l) : x ∈ l :=
  mem_ordered.mp (List.mem_of_mem_take h)

theorem smallest_ne_nil (hx : x ∈ l) (hn : 0 < n) : smallest key n l ≠ [] := by
  have hmem : x ∈ ordered key l := mem_ordered.mpr hx
  rw [smallest, ne_eq, List.take_eq_nil_iff]
  intro h
  rcases h with h | h
  · omega
  · rw [h] at hmem
    exact List.not_mem_nil hmem

/-- What the window leaves out lies behind all of it. -/
theorem lt_of_not_mem_smallest (hnd : (l.map key).Nodup) (hx : x ∈ l) (hnot : x ∉ smallest key n l)
    (hy : y ∈ smallest key n l) : key y < key x := by
  have hsorted := ordered_pairwise hnd
  have hmem : x ∈ ordered key l := mem_ordered.mpr hx
  rw [← List.take_append_drop n (ordered key l)] at hsorted hmem
  have hdrop : x ∈ (ordered key l).drop n := by
    rcases List.mem_append.mp hmem with h | h
    · exact absurd h hnot
    · exact h
  exact (List.pairwise_append.mp hsorted).2.2 y hy x hdrop

/-- An entry is in the window exactly when fewer than `n` entries come before it. -/
theorem mem_smallest_iff (hnd : (l.map key).Nodup) (hx : x ∈ l) : x ∈ smallest key n l ↔
    rank key l x < n := by
  have hsorted := ordered_pairwise hnd
  obtain ⟨before, after, hsplit⟩ := List.append_of_mem (mem_ordered.mpr hx : x ∈ ordered key l)
  rw [hsplit] at hsorted
  obtain ⟨-, htail, hcross⟩ := List.pairwise_append.mp hsorted
  have hbefore : ∀ a ∈ before, key a < key x := fun a ha => hcross a ha x List.mem_cons_self
  have hafter : ∀ b ∈ after, key x < key b := fun b hb => List.rel_of_pairwise_cons htail hb
  have hrank : rank key l x = before.length := by
    have hperm : rank key l x = rank key (ordered key l) x := (ordered_perm.countP_eq _).symm
    have hall : before.countP (fun y => decide (key y < key x)) = before.length :=
      List.countP_eq_length.mpr fun a ha => decide_eq_true (hbefore a ha)
    have hnone : (x :: after).countP (fun y => decide (key y < key x)) = 0 := by
      rw [List.countP_eq_zero]
      intro b hb
      rw [decide_eq_true_eq, not_lt]
      rcases List.mem_cons.mp hb with h | h
      · rw [h]
      · exact le_of_lt (hafter b h)
    rw [hperm, rank, hsplit, List.countP_append, hall, hnone, Nat.add_zero]
  rw [hrank, smallest, hsplit]
  constructor
  · intro h
    by_contra hlen
    rw [List.take_append_of_le_length (by omega)] at h
    exact lt_irrefl _ (hbefore x (List.mem_of_mem_take h))
  · intro hlen
    rw [List.take_append, List.mem_append]
    refine .inr ?_
    obtain ⟨k, hk⟩ : ∃ k, n - before.length = k + 1 := ⟨n - before.length - 1, by omega⟩
    rw [hk, List.take_succ_cons]
    exact List.mem_cons_self

/-- A predicate that holds of fewer entries, and misses one. -/
theorem countP_lt_countP {p q : α → Bool} (himp : ∀ y ∈ l, p y = true → q y = true) (hx : x ∈ l)
    (hp : p x = false) (hq : q x = true) : l.countP p < l.countP q := by
  obtain ⟨before, after, hsplit⟩ := List.append_of_mem hx
  rw [hsplit] at himp ⊢
  have hbefore : before.countP p ≤ before.countP q :=
    List.countP_mono_left fun y hy => himp y (List.mem_append_left _ hy)
  have hafter : after.countP p ≤ after.countP q :=
    List.countP_mono_left fun y hy => himp y (List.mem_append_right _ (List.mem_cons_of_mem _ hy))
  rw [List.countP_append, List.countP_append, List.countP_cons_of_pos hq,
    List.countP_cons_of_neg (by simp [hp])]
  omega

/-! The same of the largest keys. -/

omit [LinearOrder κ] in
theorem dual_nodup (hnd : (l.map key).Nodup) : (l.map (OrderDual.toDual ∘ key)).Nodup := by
  rw [← List.map_map]
  exact hnd.map OrderDual.toDual.injective

theorem largest_pairwise (hnd : (l.map key).Nodup) : (largest key n l).reverse.Pairwise fun a b =>
    key a < key b := by
  rw [List.pairwise_reverse]
  exact @smallest_pairwise α κᵒᵈ _ _ n l (dual_nodup hnd)

theorem mem_of_mem_largest (h : x ∈ largest key n l) : x ∈ l := mem_of_mem_smallest h

theorem largest_ne_nil (hx : x ∈ l) (hn : 0 < n) : largest key n l ≠ [] := smallest_ne_nil hx hn

theorem lt_of_not_mem_largest (hnd : (l.map key).Nodup) (hx : x ∈ l) (hnot : x ∉ largest key n l)
    (hy : y ∈ largest key n l) : key x < key y :=
  @lt_of_not_mem_smallest α κᵒᵈ _ _ n l x y (dual_nodup hnd) hx hnot hy

theorem mem_largest_iff (hnd : (l.map key).Nodup) (hx : x ∈ l) : x ∈ largest key n l ↔
    rankFromTop key l x < n :=
  @mem_smallest_iff α κᵒᵈ _ _ n l x (dual_nodup hnd) hx

end Novalton.Window
