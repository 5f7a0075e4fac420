import Mathlib.Algebra.BigOperators.Ring.Finset
import Mathlib.Algebra.Order.BigOperators.Group.Finset
import Mathlib.Data.Fintype.Card
import Mathlib.Tactic.Ring
import Mathlib.Tactic.Linarith

/-! Loads of bins under an assignment of items, and a potential that falls whenever an item
moves from a bin to one whose load is smaller by two at least. -/
namespace Balance
open scoped BigOperators
variable {σ γ : Type*} [Fintype σ] [DecidableEq γ]

/-- The number of items in the bin `g`. -/
def load (f : σ → γ) (g : γ) : ℕ := (Finset.univ.filter fun s => f s = g).card

theorem load_le_card (f : σ → γ) (g : γ) : load f g ≤ Fintype.card σ :=
  Finset.card_le_univ _

theorem exists_of_load_pos {f : σ → γ} {g : γ} (h : 0 < load f g) : ∃ s, f s = g := by
  obtain ⟨s, hs⟩ := Finset.card_pos.mp h
  exact ⟨s, (Finset.mem_filter.mp hs).2⟩

/-- The sum of the squares of the loads of the bins `G`. -/
def potential (G : Finset γ) (f : σ → γ) : ℕ := ∑ g ∈ G, load f g ^ 2

theorem sum_load_le (G : Finset γ) (f : σ → γ) : ∑ g ∈ G, load f g ≤ Fintype.card σ := by
  classical
  have hdisj : (↑G : Set γ).PairwiseDisjoint fun g => Finset.univ.filter fun s => f s = g := by
    intro g _ g' _ hne
    rw [Function.onFun, Finset.disjoint_filter]
    intro s _ hg hg'
    exact hne (hg.symm.trans hg')
  calc ∑ g ∈ G, load f g = (G.biUnion fun g => Finset.univ.filter fun s => f s = g).card :=
        (Finset.card_biUnion hdisj).symm
    _ ≤ Fintype.card σ := Finset.card_le_univ _

theorem potential_le (G : Finset γ) (f : σ → γ) :
    potential G f ≤ Fintype.card σ * Fintype.card σ := by
  calc potential G f ≤ ∑ g ∈ G, Fintype.card σ * load f g := by
        refine Finset.sum_le_sum ?_
        intro g _
        rw [sq]
        exact Nat.mul_le_mul_right _ (load_le_card f g)
    _ = Fintype.card σ * ∑ g ∈ G, load f g := by rw [Finset.mul_sum]
    _ ≤ Fintype.card σ * Fintype.card σ := Nat.mul_le_mul_left _ (sum_load_le G f)

variable [DecidableEq σ] {f : σ → γ} {s : σ} {m l g : γ}

theorem load_update_target (hs : f s = m) (hml : m ≠ l) :
    load (Function.update f s l) l = load f l + 1 := by
  have hset : (Finset.univ.filter fun x => Function.update f s l x = l) =
      insert s (Finset.univ.filter fun x => f x = l) := by
    ext x
    by_cases hx : x = s
    · simp [hx]
    · simp [hx]
  have hnot : s ∉ Finset.univ.filter fun x => f x = l := by simp [hs, hml]
  rw [load, hset, Finset.card_insert_of_notMem hnot, load]

theorem load_update_source (hs : f s = m) (hml : m ≠ l) :
    load (Function.update f s l) m + 1 = load f m := by
  have hset : (Finset.univ.filter fun x => f x = m) =
      insert s (Finset.univ.filter fun x => Function.update f s l x = m) := by
    ext x
    by_cases hx : x = s
    · simp [hx, hs]
    · simp [hx]
  have hnot : s ∉ Finset.univ.filter fun x => Function.update f s l x = m := by
    simp [hml.symm]
  rw [load, load, hset, Finset.card_insert_of_notMem hnot]

theorem load_update_other (hs : f s = m) (hgm : g ≠ m) (hgl : g ≠ l) :
    load (Function.update f s l) g = load f g := by
  unfold load
  congr 1
  ext x
  by_cases hx : x = s
  · simp [hx, hs, hgm.symm, hgl.symm]
  · simp [hx]

/-- A move from a bin to one that has two items less or fewer lowers the potential. -/
theorem potential_move_lt {G : Finset γ} (hm : m ∈ G) (hl : l ∈ G) (hs : f s = m)
    (hlt : load f l + 2 ≤ load f m) :
    potential G (Function.update f s l) < potential G f := by
  have hml : m ≠ l := by
    rintro rfl
    omega
  have hl' : l ∈ G.erase m := Finset.mem_erase.mpr ⟨hml.symm, hl⟩
  have hrest : ∑ g ∈ (G.erase m).erase l, load (Function.update f s l) g ^ 2 =
      ∑ g ∈ (G.erase m).erase l, load f g ^ 2 := by
    refine Finset.sum_congr rfl ?_
    intro g hg
    obtain ⟨hgl, hg⟩ := Finset.mem_erase.mp hg
    rw [load_update_other hs (Finset.mem_erase.mp hg).1 hgl]
  rw [potential, potential, ← Finset.add_sum_erase G _ hm, ← Finset.add_sum_erase _ _ hl',
    ← Finset.add_sum_erase G _ hm, ← Finset.add_sum_erase _ _ hl', hrest,
    load_update_target hs hml]
  have hsource := load_update_source hs hml
  nlinarith [hsource, hlt]

end Balance
