/-
Orders of the vertices of a finite graph in which each vertex comes after all it needs, and
the one of them that is taken a least ready vertex at a time. Nothing here names the repository.
-/
import Mathlib.Data.Finset.Basic
import Mathlib.Data.Finset.Card
import Mathlib.Data.List.Lex
import Mathlib.Data.Set.Finite.Basic
import Mathlib.Logic.Relation
import Mathlib.Order.Bounds.Basic
import Mathlib.Order.WellFounded

namespace Novalton

/-- Finitely many vertices, with what each of them needs. -/
structure NeedGraph (κ : Type) where
  vertices : Finset κ
  needs : κ → κ → Prop
  source : ∀ {k p}, needs k p → k ∈ vertices

namespace NeedGraph
variable {κ : Type} {g : NeedGraph κ}

/-- All that is needed is a vertex. -/
def Closed (g : NeedGraph κ) : Prop := ∀ k p, g.needs k p → p ∈ g.vertices

def Acyclic (g : NeedGraph κ) : Prop := ∀ k, ¬Relation.TransGen g.needs k k

/-- Every vertex once, after all it needs. -/
structure Topological (g : NeedGraph κ) (order : List κ) : Prop where
  nodup : order.Nodup
  mem : ∀ k, k ∈ order ↔ k ∈ g.vertices
  met : ∀ done k rest, order = done ++ k :: rest → ∀ p, g.needs k p → p ∈ done

/-- A vertex that is not done yet, while all it needs is. -/
structure Ready (g : NeedGraph κ) (done : List κ) (k : κ) : Prop where
  vertex : k ∈ g.vertices
  fresh : k ∉ done
  met : ∀ p, g.needs k p → p ∈ done

/-- Nothing is left that is ready. -/
def Finished (g : NeedGraph κ) (done : List κ) : Prop := ∀ k, ¬g.Ready done k

/-! ## Topological orders -/

theorem Topological.ready {order done rest : List κ} {k : κ} (h : g.Topological order)
    (horder : order = done ++ k :: rest) :
    g.Ready done k := by
  have hnodup := h.nodup
  rw [horder, List.nodup_append] at hnodup
  exact
    { vertex := (h.mem k).mp (by simp [horder])
      fresh := fun hmem => hnodup.2.2 k hmem k List.mem_cons_self rfl
      met := h.met done k rest horder }

theorem Topological.closed {order : List κ} (h : g.Topological order) : g.Closed := by
  intro k p hneeds
  obtain ⟨done, rest, horder⟩ := List.append_of_mem ((h.mem k).mpr (g.source hneeds))
  have hp := h.met done k rest horder p hneeds
  exact (h.mem p).mp (by rw [horder]; exact List.mem_append_left _ hp)

/-- All that a vertex needs, at any distance, is before it. -/
theorem Topological.transGen {order done rest : List κ} {k p : κ} (h : g.Topological order)
    (hneeds : Relation.TransGen g.needs k p) (horder : order = done ++ k :: rest) : p ∈ done := by
  induction hneeds with
  | single hstep => exact h.met done k rest horder _ hstep
  | tail hneeds hstep ih =>
    obtain ⟨before, after, rfl⟩ := List.append_of_mem ih
    have hmem := h.met before _ (after ++ k :: rest)
      (by rw [horder, List.append_assoc, List.cons_append]) _ hstep
    exact List.mem_append_left _ hmem

theorem Topological.acyclic {order : List κ} (h : g.Topological order) : g.Acyclic := by
  intro k hcycle
  have hvertex : k ∈ g.vertices := by
    rcases Relation.TransGen.head'_iff.mp hcycle with ⟨p, hneeds, -⟩
    exact g.source hneeds
  obtain ⟨done, rest, horder⟩ := List.append_of_mem ((h.mem k).mpr hvertex)
  exact (h.ready horder).fresh (h.transGen hcycle horder)

/-- Where no vertices need each other in a circle, some vertex that is left is ready as long as
there is one. -/
theorem Acyclic.exists_ready (hclosed : g.Closed) (hacyclic : g.Acyclic) {done : List κ} {k : κ}
    (hk : k ∈ g.vertices) (hfresh : k ∉ done) :
    ∃ v, g.Ready done v := by
  let Left := {v : κ // v ∈ g.vertices ∧ v ∉ done}
  let below : Left → Left → Prop := fun p v => Relation.TransGen g.needs v.1 p.1
  have hfinite : Finite Left := by
    have hset : {v : κ | v ∈ g.vertices ∧ v ∉ done}.Finite :=
      g.vertices.finite_toSet.subset fun v hv => hv.1
    exact hset.to_subtype
  have : IsTrans Left below := ⟨fun a b c hab hbc => hbc.trans hab⟩
  have : Std.Irrefl below := ⟨fun a h => hacyclic a.1 h⟩
  have hwf : WellFounded below := Finite.wellFounded_of_trans_of_irrefl below
  obtain ⟨least, -, hleast⟩ := hwf.has_min Set.univ ⟨⟨k, hk, hfresh⟩, Set.mem_univ _⟩
  refine ⟨least.1, least.2.1, least.2.2, fun p hneeds => ?_⟩
  by_contra hp
  exact hleast ⟨p, hclosed _ p hneeds, hp⟩ (Set.mem_univ _) (.single hneeds)

/-! ## The least ready vertex first -/

/-- Two lists go together until one of them ends or they differ. -/
theorem prefix_or_differ (first second : List κ) :
    first <+: second ∨ second <+: first ∨
      ∃ done a b left right, first = done ++ a :: left ∧ second = done ++ b :: right ∧ a ≠ b := by
  induction first generalizing second with
  | nil => exact .inl (List.nil_prefix)
  | cons a first ih =>
    cases second with
    | nil => exact .inr (.inl List.nil_prefix)
    | cons b second =>
      by_cases hne : a = b
      · subst hne
        rcases ih second with h | h | ⟨done, x, y, left, right, rfl, rfl, hxy⟩
        · exact .inl (List.cons_prefix_cons.mpr ⟨rfl, h⟩)
        · exact .inr (.inl (List.cons_prefix_cons.mpr ⟨rfl, h⟩))
        · exact .inr (.inr ⟨a :: done, x, y, left, right, rfl, rfl, hxy⟩)
      · exact .inr (.inr ⟨[], a, b, first, second, rfl, rfl, hne⟩)

variable [LinearOrder κ]

/-- Each vertex is the least of those that were ready when it was taken. -/
def LeastFirst (g : NeedGraph κ) (order : List κ) : Prop :=
  ∀ done k rest, order = done ++ k :: rest → IsLeast {v | g.Ready done v} k

theorem LeastFirst.nil : g.LeastFirst [] := by
  intro done k rest h
  have hlength := congrArg List.length h
  simp at hlength

theorem LeastFirst.concat {done : List κ} {k : κ} (h : g.LeastFirst done)
    (hk : IsLeast {v | g.Ready done v} k) :
    g.LeastFirst (done ++ [k]) := by
  intro before v rest heq
  rcases List.eq_nil_or_concat rest with rfl | ⟨rest, last, rfl⟩
  · obtain ⟨rfl, hlast⟩ := List.append_inj' heq rfl
    obtain ⟨rfl, -⟩ := List.cons.inj hlast
    exact hk
  · have hassoc : done ++ [k] = (before ++ v :: rest) ++ [last] := by
      rw [heq, List.concat_eq_append, List.append_assoc, List.cons_append]
    obtain ⟨hdone, -⟩ := List.append_inj' hassoc rfl
    exact h before v rest hdone

theorem LeastFirst.of_concat {done : List κ} {k : κ} (h : g.LeastFirst (done ++ [k])) :
    g.LeastFirst done := by
  intro before v rest heq
  refine h before v (rest ++ [k]) ?_
  rw [heq, List.append_assoc, List.cons_append]

theorem LeastFirst.nodup {order : List κ} (h : g.LeastFirst order) : order.Nodup := by
  induction order using List.reverseRecOn with
  | nil => exact List.nodup_nil
  | append_singleton done k ih =>
    have hfresh := (h done k [] rfl).1.fresh
    rw [List.nodup_append]
    refine ⟨ih h.of_concat, List.nodup_singleton k, fun a ha b hb heq => ?_⟩
    rw [List.mem_singleton.mp hb] at heq
    exact hfresh (heq ▸ ha)

theorem LeastFirst.subset {order : List κ} (h : g.LeastFirst order) {k : κ} (hk : k ∈ order) :
    k ∈ g.vertices := by
  obtain ⟨done, rest, horder⟩ := List.append_of_mem hk
  exact (h done k rest horder).1.vertex

theorem LeastFirst.length_le {order : List κ} (h : g.LeastFirst order) :
    order.length ≤ g.vertices.card := by
  rw [← List.toFinset_card_of_nodup h.nodup]
  exact Finset.card_le_card fun k hk => h.subset (List.mem_toFinset.mp hk)

/-- The order comes before every topological one. -/
theorem LeastFirst.le {order other : List κ} (h : g.LeastFirst order)
    (hother : g.Topological other) : order ≤ other := by
  rcases prefix_or_differ order other with ⟨rest, rfl⟩ | ⟨rest, rfl⟩ |
    ⟨done, a, b, left, right, ha, hb, hne⟩
  · exact not_lt.mp (@List.le_append_left κ _ ⟨lt_irrefl⟩ order rest)
  · cases rest with
    | nil => rw [List.append_nil]
    | cons k rest =>
      have hready := (h other k rest rfl).1
      exact absurd ((hother.mem k).mpr hready.vertex) hready.fresh
  · have hle : a ≤ b := (h done a left ha).2 (hother.ready hb)
    have hlt : order < other := by
      rw [ha, hb]
      exact List.append_left_lt (List.Lex.rel (lt_of_le_of_ne hle hne))
    exact le_of_lt hlt

/-- **The least ready vertex first** ends in a topological order exactly in a graph that has one. -/
theorem LeastFirst.topological_iff {order : List κ} (h : g.LeastFirst order)
    (hfinished : g.Finished order) :
    g.Topological order ↔ g.Closed ∧ g.Acyclic := by
  refine ⟨fun htop => ⟨htop.closed, htop.acyclic⟩, fun ⟨hclosed, hacyclic⟩ =>
    ⟨h.nodup, fun k => ⟨h.subset, fun hk => ?_⟩, ?_⟩⟩
  · by_contra hfresh
    obtain ⟨v, hv⟩ := hacyclic.exists_ready hclosed hk hfresh
    exact hfinished v hv
  · exact fun done k rest horder => (h done k rest horder).1.met

theorem LeastFirst.topological_iff_length {order : List κ} (h : g.LeastFirst order) :
    g.Topological order ↔ order.length = g.vertices.card := by
  have hsubset : order.toFinset ⊆ g.vertices := fun k hk => h.subset (List.mem_toFinset.mp hk)
  have hcard : order.toFinset.card = order.length := List.toFinset_card_of_nodup h.nodup
  constructor
  · intro htop
    have heq : order.toFinset = g.vertices := Finset.ext fun k => by
      rw [List.mem_toFinset, htop.mem]
    rw [← hcard, heq]
  · intro hlength
    have heq := Finset.eq_of_subset_of_card_le hsubset (by omega)
    refine ⟨h.nodup, fun k => ?_, fun done k rest horder => (h done k rest horder).1.met⟩
    rw [← heq, List.mem_toFinset]

/-- The least topological order. -/
def Least (g : NeedGraph κ) (order : List κ) : Prop := IsLeast {other | g.Topological other} order

theorem LeastFirst.least {order : List κ} (h : g.LeastFirst order) (htop : g.Topological order) :
    g.Least order :=
  ⟨htop, fun _ hother => h.le hother⟩

theorem Least.unique {order other : List κ} (h : g.Least order) (hother : g.Least other) :
    order = other := IsLeast.unique h hother

end NeedGraph

end Novalton
