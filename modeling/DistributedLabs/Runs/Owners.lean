import Mathlib.Order.Nat

/-! Numbers that are given out in order, each to one owner. -/
namespace Runs
variable {ι : Type*} {f f' : ι → Option ℕ} {n n' : ℕ} {i : ι}

/-- Everyone owns at most one of the numbers below `n`, and no number has two owners. -/
structure Owners (f : ι → Option ℕ) (n : ℕ) : Prop where
  lt : ∀ i k, f i = some k → k < n
  unique : ∀ i j k, f i = some k → f j = some k → i = j

/-- One owner keeps its number, drops it or takes a new one. -/
theorem Owners.change (h : Owners f n) (hle : n ≤ n') (hothers : ∀ j, j ≠ i → f' j = f j)
    (hi : ∀ k, f' i = some k → f i = some k ∨ (n ≤ k ∧ k < n')) : Owners f' n' := by
  have hcross : ∀ j k, j ≠ i → f' j = some k → f' i = some k → False := by
    intro j k hj hjk hik
    rw [hothers j hj] at hjk
    rcases hi k hik with hold | ⟨hge, -⟩
    · exact hj (h.unique j i k hjk hold)
    · exact absurd (h.lt j k hjk) (not_lt_of_ge hge)
  constructor
  · intro j k hjk
    by_cases hj : j = i
    · rcases hi k (hj ▸ hjk) with hold | ⟨-, hlt⟩
      · exact (h.lt i k hold).trans_le hle
      · exact hlt
    · rw [hothers j hj] at hjk
      exact (h.lt j k hjk).trans_le hle
  · intro j j' k hjk hjk'
    by_cases hj : j = i
    · by_cases hj' : j' = i
      · rw [hj, hj']
      · exact (hcross j' k hj' hjk' (hj ▸ hjk)).elim
    · by_cases hj' : j' = i
      · exact (hcross j k hj hjk (hj' ▸ hjk')).elim
      · rw [hothers j hj] at hjk
        rw [hothers j' hj'] at hjk'
        exact h.unique j j' k hjk hjk'

end Runs
