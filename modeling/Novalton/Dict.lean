/-
Lists searched by a key, and dictionaries in insertion order: what a lookup finds after
an assignment or an update. Nothing here names the repository.
-/
import Mathlib.Data.List.Induction
import Mathlib.Data.List.Nodup
import Novalton.Python

namespace Novalton

/-- Where the keys differ, a lookup by the key of a member finds that member. -/
theorem find?_key {α κ : Type} [BEq κ] [LawfulBEq κ] {key : α → κ} {values : List α}
    (h : (values.map key).Nodup) {value : α} (hmem : value ∈ values) : values.find?
    (fun other => key other == key value) = .some value := by
  induction values with
  | nil => cases hmem
  | cons first values ih =>
    obtain ⟨hfresh, hrest⟩ := List.nodup_cons.mp h
    rw [List.find?_cons]
    by_cases hkey : key first = key value
    · rcases List.mem_cons.mp hmem with rfl | hmem
      · simp
      · exact absurd (List.mem_map.mpr ⟨value, hmem, hkey.symm⟩) hfresh
    · have hne : (key first == key value) = false := beq_false_of_ne hkey
      rw [hne]
      refine ih hrest ((List.mem_cons.mp hmem).resolve_left ?_)
      intro heq
      exact hkey (by rw [heq])

theorem mem_of_lookup {α β : Type} [BEq α] [LawfulBEq α] {entries : List (α × β)} {key : α}
    {value : β} (h : entries.lookup key = .some value) : (key, value) ∈ entries := by
  induction entries with
  | nil => cases h
  | cons entry entries ih =>
    rw [List.lookup_cons] at h
    split at h
    next heq =>
      cases h
      rw [beq_iff_eq.mp heq]
      exact List.mem_cons_self
    next => exact List.mem_cons_of_mem entry (ih h)

theorem lookup_of_mem {α β : Type} [BEq α] [LawfulBEq α] {entries : List (α × β)}
    (hnodup : (entries.map Prod.fst).Nodup) {entry : α × β} (hmem : entry ∈ entries) :
    entries.lookup entry.1 = .some entry.2 := by
  induction entries with
  | nil => cases hmem
  | cons first entries ih =>
    obtain ⟨hfresh, hnodup⟩ := List.nodup_cons.mp hnodup
    rw [List.lookup_cons]
    rcases List.mem_cons.mp hmem with heq | hmem
    · rw [heq, beq_self_eq_true]
    · have hne : entry.1 ≠ first.1 := fun heq => hfresh (heq ▸ List.mem_map.mpr ⟨entry, hmem, rfl⟩)
      rw [beq_eq_false_iff_ne.mpr hne]
      exact ih hnodup hmem

/-- Where the keys differ, a lookup does not depend on the order of the entries. -/
theorem lookup_perm {α β : Type} [BEq α] [LawfulBEq α] {entries other : List (α × β)}
    (hnodup : (entries.map Prod.fst).Nodup) (h : other.Perm entries) (key : α) :
    other.lookup key = entries.lookup key := by
  have hother : (other.map Prod.fst).Nodup := (h.map Prod.fst).nodup_iff.mpr hnodup
  refine Option.ext fun value => ⟨fun hvalue => ?_, fun hvalue => ?_⟩
  · exact lookup_of_mem hnodup (h.subset (mem_of_lookup hvalue))
  · exact lookup_of_mem hother (h.symm.subset (mem_of_lookup hvalue))

section
variable {α β : Type} [DecidableEq α]

theorem set_get? (d : Dict α β) (key other : α) (value : β) :
    Dict.get? (d.set key value) other = if other = key then .some value else d.get? other := by
  induction d with
  | nil =>
    by_cases h : other = key
    · simp [Dict.set, Dict.get?, h]
    · simp [Dict.set, Dict.get?, h, Ne.symm h]
  | cons entry d ih =>
    obtain ⟨k, v⟩ := entry
    rw [Dict.set]
    by_cases hkey : k = key
    · rw [if_pos hkey]
      by_cases h : other = key
      · simp [Dict.get?, h, hkey]
      · have hne : ¬ k = other := fun heq => h (heq.symm.trans hkey)
        simp [Dict.get?, h, hne]
    · rw [if_neg hkey]
      by_cases h : k = other
      · have hne : ¬ other = key := fun heq => hkey (h.trans heq)
        simp [Dict.get?, h, hne]
      · have hget : Dict.get? ((k, v) :: Dict.set d key value) other =
            Dict.get? (Dict.set d key value) other := by
          simp [Dict.get?, h]
        have hget' : Dict.get? ((k, v) :: d) other = Dict.get? d other := by simp [Dict.get?, h]
        rw [hget, hget', ih]

theorem Dict.mem_of_get? {entries : Dict α β} {key : α} {value : β}
    (h : Dict.get? entries key = .some value) : (key, value) ∈ entries := by
  rw [Dict.get?, Option.map_eq_some_iff] at h
  obtain ⟨entry, hentry, rfl⟩ := h
  have hkey := List.find?_some hentry
  rw [decide_eq_true_eq] at hkey
  rw [← hkey]
  exact List.mem_of_find?_eq_some hentry

theorem Dict.get?_eq_some_iff {d : Dict α β} (h : d.keys.Nodup) {key : α} {value : β} :
    d.get? key = .some value ↔ (key, value) ∈ d := by
  refine ⟨Dict.mem_of_get?, fun hmem => ?_⟩
  have hfound := find?_key h hmem
  rw [Dict.get?, Option.map_eq_some_iff]
  refine ⟨(key, value), ?_, rfl⟩
  rw [← hfound]
  congr 1

theorem mem_keys_set (d : Dict α β) (key other : α) (value : β) : other ∈ Dict.keys
    (d.set key value) ↔ other = key ∨ other ∈ d.keys := by
  induction d with
  | nil => simp [Dict.set, Dict.keys]
  | cons entry d ih =>
    obtain ⟨k, v⟩ := entry
    rw [Dict.set]
    by_cases hkey : k = key
    · rw [if_pos hkey]
      simp [Dict.keys, hkey]
    · rw [if_neg hkey]
      have hcons : other ∈ Dict.keys ((k, v) :: Dict.set d key value) ↔ other = k ∨
          other ∈ Dict.keys (Dict.set d key value) := by
        simp [Dict.keys]
      rw [hcons, ih]
      simp only [Dict.keys, List.map_cons, List.mem_cons]
      tauto

theorem set_keys_nodup {d : Dict α β} (h : d.keys.Nodup) (key : α) (value : β) :
    (Dict.keys (d.set key value)).Nodup := by
  induction d with
  | nil => simp [Dict.set, Dict.keys]
  | cons entry d ih =>
    obtain ⟨k, v⟩ := entry
    obtain ⟨hfresh, hd⟩ := List.nodup_cons.mp h
    rw [Dict.set]
    by_cases hkey : k = key
    · rw [if_pos hkey]
      exact h
    · rw [if_neg hkey]
      refine List.nodup_cons.mpr ⟨fun hmem => ?_, ih hd⟩
      rcases (mem_keys_set d key k value).mp hmem with heq | hmem
      · exact hkey heq
      · exact hfresh hmem

theorem set_fresh {d : Dict α β} {key : α} (h : key ∉ d.keys) (value : β) :
    d.set key value = d ++ [(key, value)] := by
  induction d with
  | nil => rfl
  | cons entry d ih =>
    obtain ⟨k, v⟩ := entry
    rw [Dict.keys, List.map_cons, List.mem_cons, not_or] at h
    rw [Dict.set, if_neg (Ne.symm h.1), ih h.2]
    rfl

/-- Entries whose keys are all new are added at the end. -/
theorem update_fresh {other : Dict α β} : ∀ {d : Dict α β}, (Dict.keys (d ++ other)).Nodup →
    d.update other = d ++ other := by
  induction other with
  | nil => exact fun _ => (List.append_nil _).symm
  | cons entry other ih =>
    intro d h
    have hentry : entry.1 ∉ d.keys := by
      rw [Dict.keys, List.map_append, List.nodup_append] at h
      exact fun hmem => h.2.2 _ hmem _ (List.mem_map_of_mem List.mem_cons_self) rfl
    have hnext : d.update (entry :: other) = (d.set entry.1 entry.2).update other := rfl
    have hassoc : d ++ [entry] ++ other = d ++ entry :: other := by rw [List.append_assoc]; rfl
    rw [hnext, set_fresh hentry, ih (by rw [hassoc]; exact h), hassoc]

/-- The dictionary of the values of some items by their keys. -/
theorem keys_foldl_set {γ : Type} (key : γ → α) (value : γ → β) (items : List γ) :
    (Dict.keys (items.foldl (fun d item => d.set (key item) (value item)) [])).Nodup ∧
      ∀ k, k ∈ Dict.keys (items.foldl (fun d item => d.set (key item) (value item)) []) ↔
        k ∈ items.map key := by
  induction items using List.reverseRecOn with
  | nil => exact ⟨List.nodup_nil, fun k => Iff.rfl⟩
  | append_singleton items item ih =>
    rw [List.foldl_append]
    refine ⟨set_keys_nodup ih.1 _ _, fun k => ?_⟩
    rw [List.foldl_cons, List.foldl_nil, mem_keys_set, List.map_append, List.mem_append]
    refine Iff.trans (or_congr_right (ih.2 k)) ?_
    simp [or_comm]

theorem get?_foldl_set {γ : Type} (key : γ → α) (value : γ → β) {items : List γ}
    (hdistinct : (items.map key).Nodup) {item : γ} (hitem : item ∈ items) : Dict.get?
    (items.foldl (fun d item => d.set (key item) (value item)) []) (key item) = .some
    (value item) := by
  induction items using List.reverseRecOn with
  | nil => cases hitem
  | append_singleton items last ih =>
    rw [List.map_append, List.nodup_append] at hdistinct
    rw [List.foldl_append, List.foldl_cons, List.foldl_nil, set_get?]
    rcases List.mem_append.mp hitem with hitem | hitem
    · have hne : key item ≠ key last :=
        hdistinct.2.2 _ (List.mem_map_of_mem hitem) _ (List.mem_singleton_self _)
      rw [if_neg hne]
      exact ih hdistinct.1 hitem
    · rw [List.mem_singleton.mp hitem, if_pos rfl]

/-- `update` takes the values of the other dictionary, where it has any. -/
theorem update_spec {other : Dict α β} (hother : other.keys.Nodup) : ∀ {d : Dict α β},
    d.keys.Nodup →
    (Dict.keys (d.update other)).Nodup ∧ ∀ key, Dict.get? (d.update other) key = (other.get? key).or
    (d.get? key) := by
  induction other with
  | nil => exact fun hd => ⟨hd, fun key => rfl⟩
  | cons entry other ih =>
    intro d hd
    obtain ⟨k, v⟩ := entry
    obtain ⟨hfresh, hrest⟩ := List.nodup_cons.mp hother
    obtain ⟨hnodup, hget⟩ := ih hrest (set_keys_nodup hd k v)
    refine ⟨hnodup, fun key => ?_⟩
    have hupdate : Dict.update d ((k, v) :: other) = Dict.update (d.set k v) other := rfl
    rw [hupdate, hget, set_get?]
    by_cases hkey : key = k
    · have hnone : Dict.get? other key = .none := by
        rw [hkey, Dict.get?, Option.map_eq_none_iff, List.find?_eq_none]
        intro e he heq
        exact hfresh (List.mem_map.mpr ⟨e, he, of_decide_eq_true heq⟩)
      rw [hnone, if_pos hkey, hkey]
      simp [Dict.get?]
    · have hskip : Dict.get? ((k, v) :: other) key = Dict.get? other key := by
        simp [Dict.get?, Ne.symm hkey]
      rw [if_neg hkey, hskip]

end

end Novalton
