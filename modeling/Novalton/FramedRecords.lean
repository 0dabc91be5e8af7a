/-
Records written one behind the other: a key, a separator, the length of the data as a
numeral, the separator again and the data. The data may hold anything, and the records
are read back all the same. Nothing here names the repository.
-/
import Mathlib.Data.List.Basic

namespace Novalton.Framed

variable {α : Type} (separator : α) (numeral : ℕ → List α)

def record (r : List α × List α) : List α :=
  r.1 ++ separator :: (numeral r.2.length ++ separator :: r.2)

def records (rs : List (List α × List α)) : List α := rs.flatMap (record separator numeral)

variable {separator numeral} {r r' : List α × List α} {rest rest' : List α}

/-- A separator that is not before it is found. -/
theorem append_cons_inj : ∀ {l l' : List α}, separator ∉ l → separator ∉ l' →
    l ++ separator :: rest = l' ++ separator :: rest' → l = l' ∧ rest = rest'
  | [], [], _, _, h => ⟨rfl, (List.cons.inj h).2⟩
  | [], b :: l', _, hl', h => by
    have hb : separator = b := (List.cons.inj h).1
    exact absurd (hb ▸ List.mem_cons_self) hl'
  | b :: l, [], hl, _, h => by
    have hb : b = separator := (List.cons.inj h).1
    exact absurd (hb ▸ List.mem_cons_self) hl
  | b :: l, b' :: l', hl, hl', h => by
    obtain ⟨rfl, htail⟩ := List.cons.inj h
    obtain ⟨rfl, hrest⟩ := append_cons_inj (fun hmem => hl (List.mem_cons_of_mem b hmem))
      (fun hmem => hl' (List.mem_cons_of_mem b hmem)) htail
    exact ⟨rfl, hrest⟩

/-- A record tells where it ends. -/
theorem record_append_inj (hnumeral : ∀ n, separator ∉ numeral n)
    (hinjective : ∀ m n, numeral m = numeral n → m = n) (hr : separator ∉ r.1)
    (hr' : separator ∉ r'.1)
    (h : record separator numeral r ++ rest = record separator numeral r' ++ rest') : r = r' ∧
    rest = rest' := by
  obtain ⟨key, data⟩ := r
  obtain ⟨key', data'⟩ := r'
  dsimp only at hr hr'
  simp only [record, List.append_assoc, List.cons_append] at h
  obtain ⟨rfl, hbehind⟩ := append_cons_inj hr hr' h
  obtain ⟨hlength, hdata⟩ := append_cons_inj (hnumeral _) (hnumeral _) hbehind
  obtain ⟨rfl, hrest⟩ := List.append_inj hdata (hinjective _ _ hlength)
  exact ⟨rfl, hrest⟩

theorem record_ne_nil : record separator numeral r ≠ [] := by
  simp [record]

/-- **The records are determined by what they are written as.** -/
theorem records_inj (hnumeral : ∀ n, separator ∉ numeral n)
    (hinjective : ∀ m n, numeral m = numeral n → m = n) :
    ∀ {rs rs' : List (List α × List α)}, (∀ r ∈ rs, separator ∉ r.1) →
      (∀ r ∈ rs', separator ∉ r.1) →
      records separator numeral rs = records separator numeral rs' → rs = rs'
  | [], [], _, _, _ => rfl
  | [], r' :: rs', _, _, h => by
    rw [records, records, List.flatMap_nil, List.flatMap_cons] at h
    exact absurd (List.append_eq_nil_iff.mp h.symm).1 record_ne_nil
  | r :: rs, [], _, _, h => by
    rw [records, records, List.flatMap_nil, List.flatMap_cons] at h
    exact absurd (List.append_eq_nil_iff.mp h).1 record_ne_nil
  | r :: rs, r' :: rs', hrs, hrs', h => by
    rw [records, records, List.flatMap_cons, List.flatMap_cons] at h
    obtain ⟨rfl, hrest⟩ := record_append_inj hnumeral hinjective (hrs r List.mem_cons_self)
      (hrs' r' List.mem_cons_self) h
    have hrest : rs = rs' :=
      records_inj hnumeral hinjective (fun s hs => hrs s (List.mem_cons_of_mem r hs))
      (fun s hs => hrs' s (List.mem_cons_of_mem r hs)) hrest
    rw [hrest]

end Novalton.Framed
