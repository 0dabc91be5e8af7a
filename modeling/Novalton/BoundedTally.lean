/-
Walks that count what they meet, keep some of it, and refuse when a bound is passed:
what a walk over a list of items comes to, whatever order it takes them in. Nothing here
names the repository.
-/
import Mathlib.Algebra.BigOperators.Group.List.Basic
import Mathlib.Algebra.GroupWithZero.Nat
import Mathlib.Data.List.Perm.Basic

namespace Novalton.BoundedTally

/-- What has been kept, and the two counts. -/
structure Tally (β : Type) where
  kept : List β
  entries : ℕ
  total : ℕ

variable {α β ε : Type} (admits : α → Prop) (size : α → ℕ) (keep : α → Option β)
  (most mostTotal : ℕ)

def Within (tally : Tally β) : Prop := tally.entries ≤ most ∧ tally.total ≤ mostTotal

/-- The walk counts the items and keeps what is kept of them, or refuses. It refuses only for
an item it does not admit or for a bound. -/
structure Walks (walk : Tally β → Except ε (Tally β)) (items : List α) : Prop where
  sound : ∀ {tally after}, Within most mostTotal tally → walk tally = .ok after →
    (∀ a ∈ items, admits a) ∧ Within most mostTotal after ∧ after.entries = tally.entries +
      items.length ∧
      after.total = tally.total + (items.map size).sum ∧
        after.kept.Perm (tally.kept ++ items.filterMap keep)
  complete : ∀ {tally}, Within most mostTotal tally → (∀ a ∈ items, admits a) →
    tally.entries + items.length ≤ most →
    tally.total + (items.map size).sum ≤ mostTotal → ∃ after, walk tally = .ok after

variable {admits size keep most mostTotal} {walk : Tally β → Except ε (Tally β)}
  {items items' : List α}

theorem Walks.nil : Walks admits size keep most mostTotal
    (fun tally => (.ok tally : Except ε (Tally β))) ([] : List α) where
  sound := by
    rintro tally after hwithin h
    obtain rfl := Except.ok.inj h
    refine ⟨?_, hwithin, rfl, rfl, ?_⟩
    · intro a ha
      cases ha
    · rw [List.filterMap_nil, List.append_nil]
  complete := by
    intro tally _ _ _ _
    exact ⟨tally, rfl⟩

theorem Walks.perm (h : Walks admits size keep most mostTotal walk items)
    (hperm : items.Perm items') :
    Walks admits size keep most mostTotal walk items' where
  sound := by
    intro tally after hwithin hwalk
    obtain ⟨hadmits, hafter, hentries, htotal, hkept⟩ := h.sound hwithin hwalk
    refine ⟨fun a ha => hadmits a (hperm.symm.subset ha), hafter, ?_, ?_, ?_⟩
    · rw [hentries, hperm.length_eq]
    · rw [htotal, (hperm.map size).sum_eq]
    · exact hkept.trans ((hperm.filterMap keep).append_left _)
  complete := by
    intro tally hwithin hadmits hentries htotal
    refine h.complete hwithin (fun a ha => hadmits a (hperm.subset ha)) ?_ ?_
    · rw [hperm.length_eq]
      exact hentries
    · rw [(hperm.map size).sum_eq]
      exact htotal

/-- One walk behind the other. -/
theorem Walks.append {next : Tally β → Except ε (Tally β)}
    (h : Walks admits size keep most mostTotal walk items)
    (hnext : Walks admits size keep most mostTotal next items') :
    Walks admits size keep most mostTotal (fun tally => walk tally >>= next) (items ++ items') where
  sound := by
    intro tally after hwithin hwalk
    cases hfirst : walk tally with
    | error e =>
      rw [hfirst] at hwalk
      cases hwalk
    | ok middle =>
      rw [hfirst] at hwalk
      have hwalk : next middle = .ok after := hwalk
      obtain ⟨hadmits, hmiddle, hentries, htotal, hkept⟩ := h.sound hwithin hfirst
      obtain ⟨hadmits', hafter, hentries', htotal', hkept'⟩ := hnext.sound hmiddle hwalk
      refine ⟨?_, hafter, ?_, ?_, ?_⟩
      · intro a ha
        rcases List.mem_append.mp ha with ha | ha
        · exact hadmits a ha
        · exact hadmits' a ha
      · rw [hentries', hentries, List.length_append, Nat.add_assoc]
      · rw [htotal', htotal, List.map_append, List.sum_append, Nat.add_assoc]
      · rw [List.filterMap_append, ← List.append_assoc]
        exact hkept'.trans (hkept.append_right _)
  complete := by
    intro tally hwithin hadmits hentries htotal
    rw [List.length_append] at hentries
    rw [List.map_append, List.sum_append] at htotal
    obtain ⟨middle, hfirst⟩ :=
      h.complete hwithin (fun a ha => hadmits a (List.mem_append_left _ ha)) (by omega) (by omega)
    obtain ⟨-, hmiddle, hentries', htotal', -⟩ := h.sound hwithin hfirst
    obtain ⟨after, hsecond⟩ :=
      hnext.complete hmiddle (fun a ha => hadmits a (List.mem_append_right _ ha)) (by omega)
      (by omega)
    refine ⟨after, ?_⟩
    rw [hfirst]
    exact hsecond

/-- A loop walks what its rounds walk. -/
theorem Walks.foldlM {γ : Type} {step : Tally β → γ → Except ε (Tally β)} {itemsOf : γ → List α} :
    ∀ {rounds : List γ},
    (∀ c ∈ rounds, Walks admits size keep most mostTotal (fun tally => step tally c) (itemsOf c)) →
      Walks admits size keep most mostTotal (fun tally => rounds.foldlM step tally)
        (rounds.flatMap itemsOf) := by
  intro rounds
  induction rounds with
  | nil =>
    intro _
    exact Walks.nil
  | cons c rounds ih =>
    intro h
    have hrest := ih fun d hd => h d (List.mem_cons_of_mem c hd)
    exact (h c List.mem_cons_self).append hrest

/-- A walk that does nothing but count one item. -/
theorem Walks.single {a : α}
    (hwalk : ∀ tally : Tally β, Within most mostTotal tally → (∀ after, walk tally = .ok after ↔
      admits a ∧ tally.entries + 1 ≤ most ∧ tally.total + size a ≤ mostTotal ∧
        after = ⟨tally.kept ++ (keep a).toList, tally.entries + 1, tally.total + size a⟩)) :
    Walks admits size keep most mostTotal walk [a] where
  sound := by
    intro tally after hwithin h
    obtain ⟨hadmits, hentries, htotal, rfl⟩ := (hwalk tally hwithin after).mp h
    refine ⟨?_, ⟨hentries, htotal⟩, rfl, ?_, ?_⟩
    · intro b hb
      rw [List.mem_singleton.mp hb]
      exact hadmits
    · rw [List.map_singleton, List.sum_singleton]
    · cases hkeep : keep a with
      | none => simp [hkeep]
      | some b => simp [hkeep]
  complete := by
    intro tally hwithin hadmits hentries htotal
    rw [List.map_singleton, List.sum_singleton] at htotal
    exact ⟨_, (hwalk tally hwithin _).mpr ⟨hadmits a (List.mem_singleton_self a), hentries, htotal,
      rfl⟩⟩

/-- A walk that always refuses walks what is not admitted. -/
theorem Walks.refuse (hwalk : ∀ tally, ∃ e, walk tally = .error e) (hnot : ∃ a ∈ items, ¬admits a) :
    Walks admits size keep most mostTotal walk items where
  sound := by
    intro tally after _ h
    obtain ⟨e, he⟩ := hwalk tally
    rw [he] at h
    cases h
  complete := by
    intro tally _ hadmits _ _
    obtain ⟨a, ha, hnot⟩ := hnot
    exact absurd (hadmits a ha) hnot

end Novalton.BoundedTally
