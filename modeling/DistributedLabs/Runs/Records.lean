import Mathlib.Data.List.Basic

/-! Lists used as growing stores of records that are updated in place. -/
namespace Runs
variable {α β : Type*} {l : List α} {k : ℕ} {a b : α}

/-- An update that keeps a field keeps the list of that field. -/
theorem map_set_of_eq (f : α → β) (hk : l[k]? = some a) (hf : f b = f a) :
    (l.set k b).map f = l.map f := by
  apply List.ext_getElem?
  intro i
  simp only [List.getElem?_map, List.getElem?_set]
  split_ifs with hi hl
  · subst hi
    simp [hk, hf]
  · subst hi
    simp [List.getElem?_eq_none (Nat.le_of_not_lt hl)]
  · rfl

/-- Reading after an update that takes place. -/
theorem getElem?_set_of_some (hk : l[k]? = some a) (i : ℕ) :
    (l.set k b)[i]? = if k = i then some b else l[i]? := by
  have hl : k < l.length := (List.getElem?_eq_some_iff.mp hk).1
  rw [List.getElem?_set]
  simp [hl]

/-- A record of a list with one more record at its end. -/
theorem getElem?_snoc {i : ℕ} :
    (l ++ [a])[i]? = some b ↔ l[i]? = some b ∨ (i = l.length ∧ a = b) := by
  constructor
  · intro h
    rcases Nat.lt_trichotomy i l.length with hlt | rfl | hgt
    · exact .inl (List.getElem?_append_left hlt ▸ h)
    · exact .inr ⟨rfl, by simpa using h⟩
    · have := (List.getElem?_eq_some_iff.mp h).1
      simp at this
      omega
  · rintro (h | ⟨rfl, rfl⟩)
    · rw [List.getElem?_append_left (List.getElem?_eq_some_iff.mp h).1, h]
    · exact List.getElem?_concat_length

/-- Updating a record that is not counted adds what the new record counts. -/
theorem countP_set_of_not (f : α → Bool) (hk : l[k]? = some a) (ha : f a = false) :
    (l.set k b).countP f = l.countP f + if f b then 1 else 0 := by
  obtain ⟨hl, rfl⟩ := List.getElem?_eq_some_iff.mp hk
  rw [List.countP_set hl]
  simp [ha]

end Runs
