import DistributedLabs.Balance.Loads

/-! How many items a greedy rebalancing moves. It may fill a bin only as long as no other bin
is lower, and take from a bin only as long as no other bin is higher. No rebalancing that
levels the bins moves fewer items than a greedy one. -/
namespace Balance
open scoped BigOperators

section sums
variable {γ : Type*} {G : Finset γ} {a t t' : γ → ℕ}

/-- The values of `t` on `G` differ by one at most. -/
def Level (G : Finset γ) (t : γ → ℕ) : Prop := ∀ g ∈ G, ∀ h ∈ G, t g ≤ t h + 1

theorem Level.le_of_top (ht' : Level G t') (hsum : ∑ g ∈ G, t g = ∑ g ∈ G, t' g) {g : γ}
    (hg : g ∈ G) (htop : ∀ h ∈ G, t h ≤ t g) : t' g ≤ t g := by
  by_contra hlt
  have hall : ∀ h ∈ G, t h ≤ t' h := by
    intro h hh
    have := htop h hh
    have := ht' g hg h hh
    omega
  have := Finset.sum_lt_sum hall ⟨g, hg, not_le.mp hlt⟩
  omega

theorem Level.ge_of_bottom (ht' : Level G t') (hsum : ∑ g ∈ G, t g = ∑ g ∈ G, t' g) {g h : γ}
    (hh : h ∈ G) (hbot : ∀ x ∈ G, t g ≤ t x) : t g ≤ t' h := by
  by_contra hlt
  have hall : ∀ x ∈ G, t' x ≤ t x := by
    intro x hx
    have := hbot x hx
    have := ht' x hx h hh
    omega
  have hstrict : t' h < t h := by
    have := hbot h hh
    omega
  have := Finset.sum_lt_sum hall ⟨h, hh, hstrict⟩
  omega

/-- Of all level targets with the same total, one in which no bin that gains ends above a bin
that loses takes least from the bins. -/
theorem sum_sub_le_of_level (ht : Level G t) (ht' : Level G t')
    (hsum : ∑ g ∈ G, t g = ∑ g ∈ G, t' g)
    (horder : ∀ g ∈ G, ∀ h ∈ G, t g < a g → a h < t h → t h ≤ t g) :
    ∑ g ∈ G, (a g - t g) ≤ ∑ g ∈ G, (a g - t' g) := by
  by_cases htop : ∀ g ∈ G, t g < a g → ∀ h ∈ G, t h ≤ t g
  · apply Finset.sum_le_sum
    intro g hg
    by_cases hlose : t g < a g
    · have := ht'.le_of_top hsum hg (htop g hg hlose)
      omega
    · omega
  · push Not at htop
    obtain ⟨g, hg, hlose, h, hh, hlt⟩ := htop
    have hbot : ∀ x ∈ G, t g ≤ t x := by
      intro x hx
      have := ht h hh x hx
      omega
    have hmax : ∀ x ∈ G, a x - t x + t x ≤ a x - t' x + t' x := by
      intro x hx
      have hge := ht'.ge_of_bottom hsum hx hbot
      have hgain := horder g hg x hx hlose
      have hupper := ht x hx g hg
      omega
    have htotal := Finset.sum_le_sum hmax
    rw [Finset.sum_add_distrib, Finset.sum_add_distrib] at htotal
    omega

end sums

variable {σ γ : Type*} [Fintype σ] [DecidableEq γ] {G : Finset γ} {old f f' : σ → γ} {g : γ}

/-- The items of `g` that have left it. -/
def loss (old f : σ → γ) (g : γ) : ℕ := (Finset.univ.filter fun s => old s = g ∧ f s ≠ g).card

/-- The number of items that were in a bin of `G` and are now in another bin. -/
def moved (G : Finset γ) (old f : σ → γ) : ℕ :=
  (Finset.univ.filter fun s => old s ∈ G ∧ f s ≠ old s).card

theorem moved_eq_sum (G : Finset γ) (old f : σ → γ) : moved G old f = ∑ g ∈ G, loss old f g := by
  have hmaps : ∀ s ∈ Finset.univ.filter fun s => old s ∈ G ∧ f s ≠ old s, old s ∈ G := by
    intro s hs
    exact (Finset.mem_filter.mp hs).2.1
  rw [moved, Finset.card_eq_sum_card_fiberwise hmaps]
  apply Finset.sum_congr rfl
  intro g hg
  unfold loss
  congr 1
  ext s
  simp only [Finset.mem_filter, Finset.mem_univ, true_and]
  constructor
  · rintro ⟨⟨-, hne⟩, rfl⟩
    exact ⟨rfl, hne⟩
  · rintro ⟨rfl, hne⟩
    exact ⟨⟨hg, hne⟩, rfl⟩

theorem sum_load_eq (h : ∀ s, f s ∈ G) : ∑ g ∈ G, load f g = Fintype.card σ := by
  have hmaps : ∀ s ∈ (Finset.univ : Finset σ), f s ∈ G := fun s _ => h s
  exact (Finset.card_eq_sum_card_fiberwise hmaps).symm

theorem load_le_loss_add (old f : σ → γ) (g : γ) : load old g ≤ loss old f g + load f g := by
  classical
  have hsub : (Finset.univ.filter fun s => old s = g) ⊆
      (Finset.univ.filter fun s => old s = g ∧ f s ≠ g) ∪ Finset.univ.filter fun s => f s = g := by
    intro s hs
    have hold := (Finset.mem_filter.mp hs).2
    by_cases hf : f s = g <;> simp [hold, hf]
  exact (Finset.card_le_card hsub).trans (Finset.card_union_le _ _)

/-- Level bins that are not more than the items are not empty. -/
theorem Level.load_pos (h : Level G (load f)) (hf : ∀ s, f s ∈ G)
    (hcard : G.card ≤ Fintype.card σ) (hg : g ∈ G) : 0 < load f g := by
  by_contra hzero
  have hall : ∀ x ∈ G, load f x ≤ 1 := by
    intro x hx
    have hle := h x hx g hg
    omega
  have hlt : ∑ x ∈ G, load f x < ∑ _x ∈ G, 1 := Finset.sum_lt_sum hall ⟨g, hg, by omega⟩
  rw [sum_load_eq hf, ← Finset.card_eq_sum_ones] at hlt
  omega

/-- An item of `g` has left it. -/
def Lost (old f : σ → γ) (g : γ) : Prop := ∃ s, old s = g ∧ f s ≠ g

/-- An item has come to `g`. -/
def Gained (old f : σ → γ) (g : γ) : Prop := ∃ s, f s = g ∧ old s ≠ g

theorem loss_eq_zero (h : ¬ Lost old f g) : loss old f g = 0 := by
  rw [loss, Finset.card_eq_zero, Finset.filter_eq_empty_iff]
  intro s _ hs
  exact h ⟨s, hs⟩

theorem loss_add_load_le (h : ¬ Gained old f g) : loss old f g + load f g ≤ load old g := by
  classical
  have hkept : ∀ s, f s = g → old s = g := by
    intro s hs
    by_contra hne
    exact h ⟨s, hs, hne⟩
  have hdisj : Disjoint (Finset.univ.filter fun s => old s = g ∧ f s ≠ g)
      (Finset.univ.filter fun s => f s = g) := by
    rw [Finset.disjoint_filter]
    intro s _ hs hf
    exact hs.2 hf
  rw [loss, load, ← Finset.card_union_of_disjoint hdisj]
  apply Finset.card_le_card
  intro s hs
  rcases Finset.mem_union.mp hs with hs | hs
  · exact Finset.mem_filter.mpr ⟨Finset.mem_univ s, (Finset.mem_filter.mp hs).2.1⟩
  · exact Finset.mem_filter.mpr ⟨Finset.mem_univ s, hkept s (Finset.mem_filter.mp hs).2⟩

/-- Only items from outside of `G` have moved, to bins that were lowest then. -/
structure Filled (G : Finset γ) (old f : σ → γ) : Prop where
  kept : ∀ s, old s ∈ G → f s = old s
  low : ∀ g ∈ G, Gained old f g → ∀ h ∈ G, load f g ≤ load f h + 1

/-- Items have moved from bins that were highest then to bins that were lowest then. -/
structure Greedy (G : Finset γ) (old f : σ → γ) : Prop where
  low : ∀ g ∈ G, Gained old f g → ∀ h ∈ G, load f g ≤ load f h + 1
  high : ∀ g ∈ G, Lost old f g → ∀ h ∈ G, load f h ≤ load f g + 1
  ordered : ∀ g ∈ G, ∀ h ∈ G, Lost old f g → Gained old f h → load f h ≤ load f g
  apart : ∀ g ∈ G, Lost old f g → ¬ Gained old f g

theorem filled_refl (G : Finset γ) (old : σ → γ) : Filled G old old where
  kept := fun _ _ => rfl
  low := by
    rintro g _ ⟨s, hs, hne⟩
    exact absurd hs hne

theorem Filled.greedy (h : Filled G old f) : Greedy G old f := by
  have hlost : ∀ g ∈ G, ¬ Lost old f g := by
    rintro g hg ⟨s, rfl, hne⟩
    exact hne (h.kept s hg)
  constructor
  · exact h.low
  · intro g hg hl
    exact absurd hl (hlost g hg)
  · intro g hg _ _ hl
    exact absurd hl (hlost g hg)
  · intro g hg hl
    exact absurd hl (hlost g hg)

/-- A greedy rebalancing takes from a bin what it has above its final load. -/
theorem Greedy.loss_eq (h : Greedy G old f) (hg : g ∈ G) :
    loss old f g = load old g - load f g := by
  have hle := load_le_loss_add old f g
  by_cases hlost : Lost old f g
  · have := loss_add_load_le (h.apart g hg hlost)
    omega
  · rw [loss_eq_zero hlost] at hle ⊢
    omega

/-- No rebalancing that levels the bins moves fewer items than a greedy one. -/
theorem Greedy.moved_le (h : Greedy G old f) (hf : ∀ s, f s ∈ G) (hlevel : Level G (load f))
    (hf' : ∀ s, f' s ∈ G) (hlevel' : Level G (load f')) : moved G old f ≤ moved G old f' := by
  have hsum : ∑ g ∈ G, load f g = ∑ g ∈ G, load f' g := by
    rw [sum_load_eq hf, sum_load_eq hf']
  have horder : ∀ g ∈ G, ∀ x ∈ G, load f g < load old g → load old x < load f x →
      load f x ≤ load f g := by
    intro g hg x hx hlose hgain
    apply h.ordered g hg x hx
    · by_contra hnot
      have := load_le_loss_add old f g
      rw [loss_eq_zero hnot] at this
      omega
    · by_contra hnot
      have := loss_add_load_le hnot
      omega
  rw [moved_eq_sum, moved_eq_sum]
  calc ∑ g ∈ G, loss old f g = ∑ g ∈ G, (load old g - load f g) :=
        Finset.sum_congr rfl fun g hg => h.loss_eq hg
    _ ≤ ∑ g ∈ G, (load old g - load f' g) := sum_sub_le_of_level hlevel hlevel' hsum horder
    _ ≤ ∑ g ∈ G, loss old f' g := by
        apply Finset.sum_le_sum
        intro g _
        have := load_le_loss_add old f' g
        omega

section steps
variable [DecidableEq σ] {s : σ} {m l : γ}

theorem load_move (hs : f s = m) (hml : m ≠ l) (h : γ) : load (Function.update f s l) h =
    if h = l then load f l + 1 else if h = m then load f m - 1 else load f h := by
  split_ifs with hl hm
  · rw [hl, load_update_target hs hml]
  · have := load_update_source hs hml
    rw [hm]
    omega
  · exact load_update_other hs hm hl

omit [Fintype σ] [DecidableEq γ] in
theorem gained_update (h : Gained old (Function.update f s l) g) : g = l ∨ Gained old f g := by
  obtain ⟨x, hx, hne⟩ := h
  by_cases hxs : x = s
  · left
    rw [hxs, Function.update_self] at hx
    exact hx.symm
  · rw [Function.update_of_ne hxs] at hx
    exact Or.inr ⟨x, hx, hne⟩

/-- An item from outside is put into a lowest bin. -/
theorem Filled.fill (h : Filled G old f) (hs : f s ∉ G) (hl : l ∈ G)
    (hmin : ∀ g ∈ G, load f l ≤ load f g) : Filled G old (Function.update f s l) := by
  have hne : f s ≠ l := fun heq => hs (heq ▸ hl)
  have hload : ∀ g ∈ G, load (Function.update f s l) g =
      if g = l then load f l + 1 else load f g := by
    intro g hg
    have hgs : g ≠ f s := fun heq => hs (heq ▸ hg)
    rw [load_move rfl hne, if_neg hgs]
  constructor
  · intro x hx
    have hxs : x ≠ s := by
      rintro rfl
      exact hs (h.kept x hx ▸ hx)
    rw [Function.update_of_ne hxs, h.kept x hx]
  · intro g hg hgain x hx
    rw [hload g hg, hload x hx]
    have hminx := hmin x hx
    rcases gained_update hgain with rfl | hgain
    · split_ifs <;> omega
    · have := h.low g hg hgain x hx
      have := hmin g hg
      split_ifs with hgl hxl hxl
      · omega
      · omega
      · have := h.low g hg hgain l hl
        omega
      · omega

omit [Fintype σ] [DecidableEq γ] in
theorem lost_update (hs : f s = m) (hm : ¬ Gained old f m)
    (h : Lost old (Function.update f s l) g) : g = m ∨ Lost old f g := by
  obtain ⟨x, hx, hne⟩ := h
  by_cases hxs : x = s
  · subst hxs
    left
    by_contra hgm
    exact hm ⟨x, hs, fun heq => hgm (hx.symm.trans heq)⟩
  · rw [Function.update_of_ne hxs] at hne
    exact Or.inr ⟨x, hx, hne⟩

/-- A step takes an item from a highest bin to a lowest one that has two items less or fewer. -/
structure Downhill (G : Finset γ) (f : σ → γ) (s : σ) (m l : γ) : Prop where
  high : m ∈ G
  low : l ∈ G
  item : f s = m
  max : ∀ g ∈ G, load f g ≤ load f m
  min : ∀ g ∈ G, load f l ≤ load f g
  gap : load f l + 2 ≤ load f m

namespace Downhill

omit [DecidableEq σ] in
theorem ne (hd : Downhill G f s m l) : m ≠ l := by
  have hgap := hd.gap
  rintro rfl
  omega

/-- Afterwards no bin is lower or higher than before. -/
theorem bounds (hd : Downhill G f s m l) (hg : g ∈ G) :
    load f l ≤ load (Function.update f s l) g ∧ load (Function.update f s l) g ≤ load f m := by
  have hmin := hd.min g hg
  have hmax := hd.max g hg
  have hgap := hd.gap
  rw [load_move hd.item hd.ne]
  split_ifs <;> omega

omit [DecidableEq σ] in
theorem not_gained (hd : Downhill G f s m l) (h : Greedy G old f) : ¬ Gained old f m := by
  intro hgain
  have hlow := h.low m hd.high hgain l hd.low
  have hgap := hd.gap
  omega

omit [DecidableEq σ] in
theorem not_lost (hd : Downhill G f s m l) (h : Greedy G old f) : ¬ Lost old f l := by
  intro hlose
  have hhigh := h.high l hd.low hlose m hd.high
  have hgap := hd.gap
  omega

theorem gained_low (hd : Downhill G f s m l) (h : Greedy G old f) (hg : g ∈ G)
    (hgain : Gained old (Function.update f s l) g) :
    load (Function.update f s l) g ≤ load f l + 1 := by
  rw [load_move hd.item hd.ne]
  rcases gained_update hgain with rfl | hgain
  · rw [if_pos rfl]
  · have hlow := h.low g hg hgain l hd.low
    split_ifs with hgl hgm
    · exact le_rfl
    · exact absurd (hgm ▸ hgain) (hd.not_gained h)
    · exact hlow

theorem lost_high (hd : Downhill G f s m l) (h : Greedy G old f) (hg : g ∈ G)
    (hlose : Lost old (Function.update f s l) g) :
    load f m ≤ load (Function.update f s l) g + 1 := by
  rw [load_move hd.item hd.ne]
  rcases lost_update hd.item (hd.not_gained h) hlose with rfl | hlose
  · rw [if_neg hd.ne, if_pos rfl]
    omega
  · have hhigh := h.high g hg hlose m hd.high
    split_ifs with hgl hgm
    · exact absurd (hgl ▸ hlose) (hd.not_lost h)
    · omega
    · exact hhigh

end Downhill

/-- A greedy rebalancing stays greedy. -/
theorem Greedy.move (h : Greedy G old f) (hd : Downhill G f s m l) :
    Greedy G old (Function.update f s l) := by
  constructor
  · intro g hg hgain x hx
    have hlow := hd.gained_low h hg hgain
    have hbelow := (hd.bounds hx).1
    omega
  · intro g hg hlose x hx
    have hhigh := hd.lost_high h hg hlose
    have habove := (hd.bounds hx).2
    omega
  · intro g hg x hx hlose hgain
    have hhigh := hd.lost_high h hg hlose
    have hlow := hd.gained_low h hx hgain
    have hgap := hd.gap
    omega
  · intro g hg hlose hgain
    rcases lost_update hd.item (hd.not_gained h) hlose with hgm | hlose'
    · rcases gained_update hgain with hgl | hgain'
      · exact hd.ne (hgm.symm.trans hgl)
      · exact hd.not_gained h (hgm ▸ hgain')
    · rcases gained_update hgain with hgl | hgain'
      · exact hd.not_lost h (hgl ▸ hlose')
      · exact h.apart g hg hlose' hgain'

end steps
end Balance
