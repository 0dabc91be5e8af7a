/-
A scan of items in the order of a key, where equal keys come in any order: it looks at
the first `limit` items, gathers what each of them yields, and stops at `most` results.
When its results do not depend on the order of equal keys. Nothing here names the
repository.
-/
import Mathlib.Data.List.Flatten
import Mathlib.Data.List.Induction
import Mathlib.Data.List.Nodup
import Mathlib.Data.List.Sort

namespace Novalton.Scan

variable {α β κ : Type} [LinearOrder κ] (key : α → κ) (hits : α → List β) (limit most : ℕ)

/-- The items in an order of the key. -/
structure Arrangement (items order : List α) : Prop where
  perm : order.Perm items
  sorted : order.Pairwise fun a b => key a ≤ key b

def scanned (order : List α) : List β := (order.take limit).flatMap hits

def results (order : List α) : List β := (scanned hits limit order).take most

/-- What the items before a key yield. -/
def before (items : List α) (k : κ) : List β := (items.filter fun i => key i < k).flatMap hits

/-- Every item with hits that the results may still reach is the only one with hits under
its key, and is always among the items looked at. -/
def Settled (items : List α) : Prop :=
  ∀ f ∈ items, hits f ≠ [] → (before key hits items (key f)).length < most →
    (∀ g ∈ items, hits g ≠ [] → key g = key f → g = f) ∧
      (items.filter fun i => key i ≤ key f).length ≤ limit

/-! ### Prefixes of a list of hits -/

theorem take_append_congr {u v : List β} (w : List β) {n : ℕ} (h : u.take n = v.take n) :
    (u ++ w).take n = (v ++ w).take n := by
  have hlength : min n u.length = min n v.length := by
    have := congrArg List.length h
    simpa using this
  rcases le_or_gt n u.length with hu | hu
  · have hv : n ≤ v.length := by omega
    rw [List.take_append_of_le_length hu, List.take_append_of_le_length hv, h]
  · have hv : v.length < n := by omega
    rw [List.take_of_length_le hu.le, List.take_of_length_le hv.le] at h
    rw [h]

variable {key hits limit most} {items order other : List α}

theorem before_perm (h : order.Perm items) (k : κ) :
    (before key hits order k).length = (before key hits items k).length :=
  ((h.filter _).flatMap_right hits).length_eq

/-- Below a key, an order of it has its items at the front. -/
theorem before_front {u v : List α} {i : α} (h : Arrangement key items (u ++ i :: v)) :
    before key hits (u ++ i :: v) (key i) = before key hits u (key i) := by
  obtain ⟨-, hv, huv⟩ := List.pairwise_append.mp h.sorted
  obtain ⟨hiv, -⟩ := List.pairwise_cons.mp hv
  have hrest : (i :: v).filter (fun j => decide (key j < key i)) = [] := by
    rw [List.filter_eq_nil_iff]
    intro j hj
    rw [decide_eq_true_eq, not_lt]
    rcases List.mem_cons.mp hj with rfl | hj
    · exact le_rfl
    · exact hiv j hj
  rw [before, List.filter_append, hrest, List.append_nil]
  rfl

theorem before_le {u : List α} {k : κ} : (before key hits u k).length ≤ (u.flatMap hits).length :=
  (List.Sublist.flatMap List.filter_sublist hits).length_le

/-- The items with hits that the results may reach. -/
def live (key : α → κ) (hits : α → List β) (most : ℕ) (items order : List α) : List α :=
  order.filter fun i => !(hits i).isEmpty && decide ((before key hits items (key i)).length < most)

/-- Only the live items of a prefix count for its results. -/
theorem take_live {u v : List α} (h : Arrangement key items (u ++ v)) :
    (u.flatMap hits).take most = ((live key hits most items u).flatMap hits).take most := by
  induction u using List.reverseRecOn generalizing v with
  | nil => rfl
  | append_singleton u i ih =>
    rw [List.append_assoc, List.singleton_append] at h
    have hu := ih h
    rw [List.flatMap_append, live, List.filter_append, List.flatMap_append]
    by_cases hempty : hits i = []
    · simpa [hempty, live] using hu
    · by_cases hlate : (before key hits items (key i)).length < most
      · have hsingle : [i].filter (fun i => !(hits i).isEmpty &&
          decide ((before key hits items (key i)).length < most)) =
            [i] := by simp [hempty, hlate]
        rw [hsingle]
        exact take_append_congr _ hu
      · have hsingle : [i].filter (fun i => !(hits i).isEmpty &&
          decide ((before key hits items (key i)).length < most)) =
            [] := by simp [hlate]
        have hfull : most ≤ (u.flatMap hits).length := by
          have hlength := @before_perm α β κ _ key hits items (u ++ i :: v) h.perm (key i)
          rw [before_front h] at hlength
          have := @before_le α β κ _ key hits u (key i)
          omega
        rw [hsingle, List.flatMap_nil, List.append_nil, List.take_append_of_le_length hfull]
        exact hu

theorem live_append (u v : List α) : live key hits most items
    (u ++ v) = live key hits most items u ++ live key hits most items v :=
  List.filter_append ..

theorem mem_live {i : α} : i ∈ live key hits most items order ↔
    i ∈ order ∧ hits i ≠ [] ∧ (before key hits items (key i)).length < most := by
  simp [live, List.mem_filter]

/-- A settled scan looks at every live item. -/
theorem live_take (hsettled : Settled key hits limit most items) (h : Arrangement key items order) :
    live key hits most items (order.take limit) = live key hits most items order := by
  have hrest : live key hits most items (order.drop limit) = [] := by
    rw [List.eq_nil_iff_forall_not_mem]
    intro i hi
    obtain ⟨hmem, hne, hlate⟩ := mem_live.mp hi
    obtain ⟨u, v, hsplit⟩ := List.append_of_mem hmem
    have hmemItems : i ∈ items := h.perm.subset (List.mem_of_mem_drop hmem)
    have hcount := (hsettled i hmemItems hne hlate).2
    -- everything up to the item has a key that is not above its own
    have horder : order = order.take limit ++ (u ++ i :: v) := by
      rw [← hsplit, List.take_append_drop]
    have hsorted := h.sorted
    rw [horder, ← List.append_assoc, List.pairwise_append] at hsorted
    have hfront : ((order.take limit ++ u) ++ [i]).filter (fun j => decide (key j ≤ key i)) =
        (order.take limit ++ u) ++ [i] := by
      rw [List.filter_eq_self]
      intro j hj
      rw [decide_eq_true_eq]
      rcases List.mem_append.mp hj with hj | hj
      · exact hsorted.2.2 j hj i List.mem_cons_self
      · rw [List.mem_singleton.mp hj]
    have hle : ((order.take limit ++ u) ++ [i]).length ≤
        (order.filter fun j => key j ≤ key i).length := by
      rw [← hfront]
      refine (List.Sublist.filter _ ?_).length_le
      have hwhole : (order.take limit ++ (u ++ i :: v)).Sublist order := by
        rw [← hsplit, List.take_append_drop]
      refine List.Sublist.trans ?_ hwhole
      rw [List.append_assoc]
      exact List.Sublist.append_left
        (List.Sublist.append_left (List.Sublist.cons_cons i (List.nil_sublist v)) u) _
    have hperm := (h.perm.filter fun j => key j ≤ key i).length_eq
    have htake : (order.take limit).length = limit := by
      rw [List.length_take]
      have hdrop := List.length_pos_of_mem hmem
      rw [List.length_drop] at hdrop
      omega
    simp only [List.length_append, List.length_singleton] at hle
    omega
  calc live key hits most items (order.take limit) = live key hits most items (order.take limit) ++
    [] := (List.append_nil _).symm
    _ = live key hits most items (order.take limit ++ order.drop limit) := by
      rw [live_append, hrest]
    _ = live key hits most items order := by rw [List.take_append_drop]

/-- The live items of a settled scan come in one order. -/
theorem live_eq (hsettled : Settled key hits limit most items) (h : Arrangement key items order)
    (h' : Arrangement key items other) :
    live key hits most items order = live key hits most items other := by
  have hperm : (live key hits most items order).Perm (live key hits most items other) :=
    (h.perm.trans h'.perm.symm).filter _
  have hsorted : ∀ {o : List α}, Arrangement key items o →
      (live key hits most items o).Pairwise fun a b => key a ≤ key b :=
    fun ho => ho.sorted.sublist List.filter_sublist
  refine hperm.eq_of_pairwise (fun a b ha hb hab hba => ?_) (hsorted h) (hsorted h')
  obtain ⟨hmem, hne, hlate⟩ := mem_live.mp ha
  obtain ⟨hmem', hne', -⟩ := mem_live.mp hb
  exact ((hsettled a (h.perm.subset hmem) hne hlate).1 b (h'.perm.subset hmem') hne'
    (le_antisymm hba hab)).symm

/-- **A settled scan has one outcome**: the first results of all items in any order of the key. -/
theorem results_eq (hsettled : Settled key hits limit most items) (h : Arrangement key items order)
    (h' : Arrangement key items other) :
    results hits limit most order = (other.flatMap hits).take most := by
  have htake : Arrangement key items (order.take limit ++ order.drop limit) := by
    rwa [List.take_append_drop]
  have hother : Arrangement key items (other ++ []) := by rwa [List.append_nil]
  rw [results, scanned, take_live htake, live_take hsettled h, live_eq hsettled h h',
    ← take_live hother]

/-! ### What a scan with one outcome is -/

/-- The scan has one outcome: the first results of all items in one order of them. -/
def OneOutcome (key : α → κ) (hits : α → List β) (limit most : ℕ) (items order : List α) : Prop :=
  order.Perm items ∧ ∀ a, Arrangement key items a →
    results hits limit most a = (order.flatMap hits).take most

theorem sort_arrangement (items : List α) : Arrangement key items
    (items.insertionSort fun a b => key a ≤ key b) where
  perm := List.perm_insertionSort _ _
  sorted := by
    have htotal : Std.Total fun a b : α => key a ≤ key b := ⟨fun a b => le_total _ _⟩
    have htrans : IsTrans α fun a b => key a ≤ key b := ⟨fun a b c => le_trans⟩
    exact List.pairwise_insertionSort _ _

theorem total_length (h : order.Perm items) :
    (order.flatMap hits).length = (items.flatMap hits).length :=
  (h.flatMap_right hits).length_eq

/-- The one outcome reaches every item with hits that fewer than `most` come before. -/
theorem reached {f : α} (h : OneOutcome key hits limit most items order) (hne : hits f ≠ [])
    {u v : List α} (ha : Arrangement key items (u ++ f :: v))
    (hlate : (u.flatMap hits).length < most) :
    u.length < limit ∧
      ((order.flatMap hits).take most)[(u.flatMap hits).length]? = (hits f).head? := by
  have hresult := h.2 _ ha
  have htotal : (order.flatMap hits).length = ((u ++ f :: v).flatMap hits).length := by
    rw [total_length h.1, total_length ha.perm]
  have hpos : 0 < (hits f).length := List.length_pos_iff.mpr hne
  have hu : u.length < limit := by
    by_contra hnot
    have htake : (u ++ f :: v).take limit = u.take limit :=
      List.take_append_of_le_length (not_lt.mp hnot)
    have hlength := congrArg List.length hresult
    rw [results, scanned, htake] at hlength
    have hle : ((u.take limit).flatMap hits).length ≤ (u.flatMap hits).length :=
      (List.Sublist.flatMap (List.take_sublist _ _) hits).length_le
    simp only [List.length_take, List.flatMap_append, List.flatMap_cons,
      List.length_append] at hlength htotal
    omega
  refine ⟨hu, ?_⟩
  obtain ⟨n, hn⟩ : ∃ n, limit = u.length + (n + 1) := ⟨limit - u.length - 1, by omega⟩
  obtain ⟨first, rest, hhits⟩ := List.exists_cons_of_ne_nil hne
  rw [← hresult, results, scanned, hn, List.take_length_add_append, List.take_succ_cons,
    List.flatMap_append, List.flatMap_cons, hhits, List.getElem?_take_of_lt hlate]
  simp

section
variable [DecidableEq α]

/-- An order in which an item comes right behind those that `early` selects. -/
theorem arrangement_behind {f : α} (early : α → Bool) (hf : f ∈ items) (hself : early f = false)
    (hearly : ∀ i, early i = true → key i ≤ key f)
    (hlate : ∀ i ∈ items, early i = false → key f ≤ key i) :
    ∃ u v, Arrangement key items (u ++ f :: v) ∧ u.Perm (items.filter early) := by
  set u := (items.filter early).insertionSort fun a b => key a ≤ key b with hu
  set rest := (items.erase f).filter fun i => !early i with hrest
  set v := rest.insertionSort fun a b => key a ≤ key b with hv
  have hup : u.Perm (items.filter early) := List.perm_insertionSort _ _
  have hvp : v.Perm rest := List.perm_insertionSort _ _
  have herase : (items.filter early).Perm ((items.erase f).filter early) := by
    have h := (List.perm_cons_erase hf).filter early
    rwa [List.filter_cons_of_neg (by simp [hself])] at h
  refine ⟨u, v, ⟨?_, ?_⟩, hup⟩
  · calc (u ++ f :: v).Perm (f :: (u ++ v)) := List.perm_middle
      _ |>.Perm (f :: ((items.erase f).filter early ++ rest)) :=
        ((hup.trans herase).append hvp).cons f
      _ |>.Perm (f :: items.erase f) := (List.filter_append_perm _ _).cons f
      _ |>.Perm items := (List.perm_cons_erase hf).symm
  · rw [List.pairwise_append, List.pairwise_cons]
    have hlateRest : ∀ i ∈ v, key f ≤ key i := by
      intro i hi
      have hmem := List.mem_filter.mp (hvp.subset hi)
      exact hlate i (List.mem_of_mem_erase hmem.1) (by simpa using hmem.2)
    have hearlyU : ∀ i ∈ u, key i ≤ key f := by
      intro i hi
      exact hearly i (List.mem_filter.mp (hup.subset hi)).2
    refine ⟨(sort_arrangement _).sorted, ⟨hlateRest, (sort_arrangement _).sorted⟩, ?_⟩
    intro a ha b hb
    rcases List.mem_cons.mp hb with rfl | hb
    · exact hearlyU a ha
    · exact le_trans (hearlyU a ha) (hlateRest b hb)

theorem settled_of_oneOutcome (hnodup : items.Nodup)
    (hheads : ∀ f ∈ items, ∀ g ∈ items, hits f ≠ [] → (hits f).head? = (hits g).head? → f = g)
    (h : OneOutcome key hits limit most items order) : Settled key hits limit most items := by
  intro f hf hne hlate
  have hfirst : ∀ g ∈ items, hits g ≠ [] → key g = key f →
      ((order.flatMap hits).take most)[(before key hits items (key f)).length]? =
          (hits g).head? := by
    intro g hg hgne hkey
    obtain ⟨u, v, ha, hu⟩ := arrangement_behind (fun i => decide (key i < key g)) hg (by simp)
      (fun i hi => (of_decide_eq_true hi).le) (fun i _ hi => not_lt.mp (of_decide_eq_false hi))
    have hlength : (u.flatMap hits).length = (before key hits items (key f)).length := by
      rw [(hu.flatMap_right hits).length_eq, before, hkey]
    rw [← hlength]
    exact (reached h hgne ha (by rw [hlength]; exact hlate)).2
  have honly : ∀ g ∈ items, hits g ≠ [] → key g = key f → g = f := by
    intro g hg hgne hkey
    refine hheads g hg f hf hgne ?_
    rw [← hfirst g hg hgne hkey, ← hfirst f hf hne rfl]
  refine ⟨honly, ?_⟩
  -- the item may come last under its key
  obtain ⟨u, v, ha, hu⟩ := arrangement_behind (fun i => decide (key i ≤ key f ∧ i ≠ f)) hf (by simp)
    (fun i hi => (of_decide_eq_true hi).1) (by
      intro i _ hi
      have hi := of_decide_eq_false hi
      rcases le_total (key f) (key i) with hle | hle
      · exact hle
      · rw [not_and_not_right] at hi
        rw [hi hle])
  have hyields : (u.flatMap hits).length = (before key hits items (key f)).length := by
    rw [(hu.flatMap_right hits).length_eq, before]
    have hsame : ∀ l : List α, (∀ i ∈ l, i ∈ items) →
        (l.filter fun i => decide (key i ≤ key f ∧ i ≠ f)).flatMap hits =
            (l.filter fun i => decide (key i < key f)).flatMap hits := by
      intro l hl
      induction l with
      | nil => rfl
      | cons i l ih =>
        have hi := hl i List.mem_cons_self
        have hrest := ih fun j hj => hl j (List.mem_cons_of_mem _ hj)
        by_cases hlt : key i < key f
        · have hne' : i ≠ f := by
            intro heq
            rw [heq] at hlt
            exact lt_irrefl _ hlt
          have hpos : key i ≤ key f ∧ i ≠ f := ⟨hlt.le, hne'⟩
          simp only [List.filter_cons, hpos, hlt, ne_eq, not_false_eq_true, and_self, decide_true,
            if_true, List.flatMap_cons, hrest]
        · have hright : (i :: l).filter (fun i => decide (key i < key f)) = l.filter fun i =>
              decide (key i < key f) :=
            List.filter_cons_of_neg (by simpa using hlt)
          rw [hright]
          by_cases hsel : key i ≤ key f ∧ i ≠ f
          · have hempty : hits i = [] := by
              by_contra hgne
              exact hsel.2 (honly i hi hgne (le_antisymm hsel.1 (not_lt.mp hlt)))
            rw [← hrest, List.filter_cons, decide_eq_true hsel, if_pos rfl, List.flatMap_cons,
              hempty, List.nil_append]
          · rw [← hrest, List.filter_cons, decide_eq_false hsel, if_neg Bool.false_ne_true]
    rw [hsame items fun i hi => hi]
  have hlast := (reached h hne ha (by rw [hyields]; exact hlate)).1
  have hcount : (items.filter fun i => key i ≤ key f).length = u.length + 1 := by
    have hperm : (items.filter fun i => decide (key i ≤ key f)).Perm (f :: items.filter fun i =>
        decide (key i ≤ key f ∧ i ≠ f)) := by
      have herase := (List.perm_cons_erase hf).filter fun i => decide (key i ≤ key f)
      rw [List.filter_cons_of_pos (by simp)] at herase
      refine herase.trans (List.Perm.cons f ?_)
      rw [hnodup.erase_eq_filter, List.filter_filter]
      refine List.Perm.of_eq (List.filter_congr fun i _ => ?_)
      rw [Bool.eq_iff_iff]
      simp [bne_iff_ne]
    rw [hperm.length_eq, List.length_cons, hu.length_eq]
  omega

end

end Novalton.Scan
