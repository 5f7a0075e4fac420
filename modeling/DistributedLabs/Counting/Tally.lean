import Mathlib.Algebra.BigOperators.Group.Finset.Basic
import Mathlib.Algebra.Order.BigOperators.Group.Finset
import Mathlib.Data.Fintype.Card

/-! Counting the elements of a list and the members of a finite type that satisfy a test, and
how the counts change when one of them changes. -/
namespace Counting
variable {α ι : Type*}

theorem countP_set {p : α → Bool} {l : List α} {k : ℕ} {x y : α} (hk : l[k]? = some x) :
    (l.set k y).countP p + (p x).toNat = l.countP p + (p y).toNat := by
  induction l generalizing k with
  | nil => cases hk
  | cons a l ih =>
    cases k with
    | zero =>
      cases hk
      rw [List.set_cons_zero, List.countP_cons, List.countP_cons]
      cases p x <;> cases p y <;> simp
    | succ k =>
      rw [List.getElem?_cons_succ] at hk
      have hrest := ih hk
      rw [List.set_cons_succ, List.countP_cons, List.countP_cons]
      omega

/-- Two tests of which an element meets at most one. -/
theorem countP_add_le {p q r : α → Bool} (h : ∀ x, (p x).toNat + (q x).toNat ≤ (r x).toNat)
    (l : List α) : l.countP p + l.countP q ≤ l.countP r := by
  induction l with
  | nil => exact le_rfl
  | cons x l ih =>
    have hx := h x
    rw [List.countP_cons, List.countP_cons, List.countP_cons]
    cases hp : p x <;> cases hq : q x <;> cases hr : r x <;> simp [hp, hq, hr] at hx ⊢ <;> omega

/-- The positions whose elements satisfy the test. -/
def positions (p : α → Bool) (l : List α) : Finset ℕ :=
  (Finset.range l.length).filter fun k => (l[k]?).any p = true

theorem card_positions (p : α → Bool) (l : List α) : (positions p l).card = l.countP p := by
  induction l using List.reverseRecOn with
  | nil => rfl
  | append_singleton l a ih =>
    have hold : (Finset.range l.length).filter (fun k => ((l ++ [a])[k]?).any p = true) =
        positions p l := by
      apply Finset.filter_congr
      intro k hk
      rw [List.getElem?_append_left (Finset.mem_range.mp hk)]
    unfold positions at *
    rw [List.length_append, List.length_singleton, Finset.range_add_one, Finset.filter_insert, hold,
      List.countP_append, List.countP_singleton]
    cases hp : p a with
    | false => simp [hp, ih]
    | true => simp [hp, ih]

/-- Different members of a finite type at different positions of the list. -/
theorem card_le_countP [Fintype ι] {p : α → Bool} {l : List α} {f : ι → ℕ}
    (hf : Function.Injective f) (h : ∀ i, (l[f i]?).any p = true) :
    Fintype.card ι ≤ l.countP p := by
  rw [← card_positions, ← Finset.card_univ, ← Finset.card_image_of_injective _ hf]
  apply Finset.card_le_card
  intro k hk
  obtain ⟨i, -, rfl⟩ := Finset.mem_image.mp hk
  refine Finset.mem_filter.mpr ⟨Finset.mem_range.mpr ?_, h i⟩
  by_contra hlt
  have hi := h i
  rw [List.getElem?_eq_none (not_lt.mp hlt)] at hi
  cases hi

theorem mem_positions {p : α → Bool} {l : List α} {k : ℕ} :
    k ∈ positions p l ↔ ∃ x, l[k]? = some x ∧ p x = true := by
  unfold positions
  rw [Finset.mem_filter, Finset.mem_range, Option.any_eq_true]
  constructor
  · rintro ⟨-, hx⟩
    exact hx
  · rintro ⟨x, hk, hx⟩
    exact ⟨(List.getElem?_eq_some_iff.mp hk).1, x, hk, hx⟩

/-- The elements of one list that satisfy a test are charged to different positions of another
list. -/
theorem countP_le_of_charge {β : Type*} {p : α → Bool} {q : β → Bool} {l : List α} {l' : List β}
    (f : ℕ → ℕ) (hf : ∀ k x, l[k]? = some x → p x = true → ∃ y, l'[f k]? = some y ∧ q y = true)
    (hinj : ∀ j k x y, l[j]? = some x → p x = true → l[k]? = some y → p y = true → f j = f k →
      j = k) : l.countP p ≤ l'.countP q := by
  rw [← card_positions, ← card_positions]
  apply Finset.card_le_card_of_injOn f
  · intro k hk
    obtain ⟨x, hk, hx⟩ := mem_positions.mp hk
    exact mem_positions.mpr (hf k x hk hx)
  · intro j hj k hk hjk
    obtain ⟨x, hj, hx⟩ := mem_positions.mp hj
    obtain ⟨y, hk, hy⟩ := mem_positions.mp hk
    exact hinj j k x y hj hx hk hy hjk

/-- What satisfies one test satisfies one of two others. -/
theorem countP_le_add {p q r : α → Bool} {l : List α}
    (h : ∀ x ∈ l, p x = true → q x = true ∨ r x = true) :
    l.countP p ≤ l.countP q + l.countP r := by
  induction l with
  | nil => exact le_rfl
  | cons x l ih =>
    have hx := h x List.mem_cons_self
    have hrest := ih fun y hy => h y (List.mem_cons_of_mem x hy)
    rw [List.countP_cons, List.countP_cons, List.countP_cons]
    cases hp : p x <;> cases hq : q x <;> cases hr : r x <;> simp [hp, hq, hr] at hx ⊢ <;> omega

theorem sum_change [Fintype ι] [DecidableEq ι] {f g : ι → ℕ} {i : ι} (h : ∀ j, j ≠ i → g j = f j) :
    ∑ j, g j + f i = ∑ j, f j + g i := by
  rw [← Finset.add_sum_erase _ _ (Finset.mem_univ i),
    ← Finset.add_sum_erase (Finset.univ) f (Finset.mem_univ i)]
  have hrest : ∑ j ∈ Finset.univ.erase i, g j = ∑ j ∈ Finset.univ.erase i, f j := by
    apply Finset.sum_congr rfl
    intro j hj
    exact h j (Finset.ne_of_mem_erase hj)
  rw [hrest]
  omega

/-- The number of members that satisfy the test. -/
def tally [Fintype ι] (b : ι → Bool) : ℕ := ∑ i, (b i).toNat

theorem tally_change [Fintype ι] [DecidableEq ι] {b b' : ι → Bool} {i : ι}
    (h : ∀ j, j ≠ i → b' j = b j) : tally b' + (b i).toNat = tally b + (b' i).toNat := by
  have hnat : ∀ j, j ≠ i → (b' j).toNat = (b j).toNat := by
    intro j hj
    rw [h j hj]
  exact sum_change (f := fun j => (b j).toNat) (g := fun j => (b' j).toNat) hnat

theorem tally_congr [Fintype ι] {b b' : ι → Bool} (h : ∀ i, b' i = b i) : tally b' = tally b := by
  rw [show b' = b from funext h]

end Counting
