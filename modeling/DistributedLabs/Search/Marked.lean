import Mathlib.Data.Fintype.Card
import Mathlib.Logic.Relation

/-! Depth-first search that marks a node before it visits the successors: what one search leaves
marked, how searches compose, and what a search from nothing marked has found. -/
namespace Search
variable {α : Type*}

/-- The nodes that lie on a path from one of the roots. -/
def Reachable (succ : α → List α) (roots : List α) (a : α) : Prop :=
  ∃ r ∈ roots, Relation.ReflTransGen (fun x y => y ∈ succ x) r a

/-- With the nodes of `V` marked, a search of the roots has ended with the nodes of `W` marked.
A node of `V` may still wait for its successors, so only the new nodes have all of theirs. -/
structure Marked (succ : α → List α) (V : Finset α) (roots : List α) (W : Finset α) : Prop where
  subset : V ⊆ W
  roots_mem : ∀ r ∈ roots, r ∈ W
  closed : ∀ a ∈ W, a ∉ V → ∀ b ∈ succ a, b ∈ W
  reachable : ∀ a ∈ W, a ∉ V → Reachable succ roots a

namespace Marked
variable {succ : α → List α} {U V W : Finset α} {roots roots' : List α} {a : α}

theorem nil : Marked succ V [] V where
  subset := Finset.Subset.refl V
  roots_mem := by simp
  closed := fun _ ha hnew => absurd ha hnew
  reachable := fun _ ha hnew => absurd ha hnew

/-- A node that is marked already is not visited again. -/
theorem again (ha : a ∈ V) : Marked succ V [a] V where
  subset := Finset.Subset.refl V
  roots_mem := by simpa using ha
  closed := fun _ hb hnew => absurd hb hnew
  reachable := fun _ hb hnew => absurd hb hnew

theorem append (h : Marked succ U roots V) (h' : Marked succ V roots' W) :
    Marked succ U (roots ++ roots') W where
  subset := h.subset.trans h'.subset
  roots_mem := by
    intro r hr
    cases List.mem_append.mp hr with
    | inl hr => exact h'.subset (h.roots_mem r hr)
    | inr hr => exact h'.roots_mem r hr
  closed := by
    intro a ha hnew b hb
    by_cases haV : a ∈ V
    · exact h'.subset (h.closed a haV hnew b hb)
    · exact h'.closed a ha haV b hb
  reachable := by
    intro a ha hnew
    by_cases haV : a ∈ V
    · obtain ⟨r, hr, hpath⟩ := h.reachable a haV hnew
      exact ⟨r, List.mem_append_left _ hr, hpath⟩
    · obtain ⟨r, hr, hpath⟩ := h'.reachable a ha haV
      exact ⟨r, List.mem_append_right _ hr, hpath⟩

/-- A new node is marked first, and then its successors are searched. -/
theorem visit [DecidableEq α] (h : Marked succ (insert a V) (succ a) W) :
    Marked succ V [a] W where
  subset := (Finset.subset_insert a V).trans h.subset
  roots_mem := by
    intro r hr
    rw [List.mem_singleton.mp hr]
    exact h.subset (Finset.mem_insert_self a V)
  closed := by
    intro b hb hnew c hc
    by_cases hba : b = a
    · rw [hba] at hc
      exact h.roots_mem c hc
    · exact h.closed b hb (by simp [hba, hnew]) c hc
  reachable := by
    intro b hb hnew
    by_cases hba : b = a
    · rw [hba]
      exact ⟨a, List.mem_singleton_self a, .refl⟩
    · obtain ⟨r, hr, hpath⟩ := h.reachable b hb (by simp [hba, hnew])
      exact ⟨a, List.mem_singleton_self a, .head hr hpath⟩

/-- A search that starts with nothing marked finds exactly what its roots reach. -/
theorem mem_iff (h : Marked succ ∅ roots W) : a ∈ W ↔ Reachable succ roots a := by
  constructor
  · intro ha
    exact h.reachable a ha (Finset.notMem_empty a)
  · intro ha
    obtain ⟨r, hr, hpath⟩ := ha
    induction hpath with
    | refl => exact h.roots_mem r hr
    | tail _ hedge ih => exact h.closed _ ih (Finset.notMem_empty _) _ hedge

/-- Searching never raises the number of nodes that are left to mark. -/
theorem card_compl_le [Fintype α] [DecidableEq α] (h : Marked succ V roots W) :
    Wᶜ.card ≤ Vᶜ.card :=
  Finset.card_le_card (Finset.compl_subset_compl.mpr h.subset)

end Marked

theorem card_compl_insert_lt [Fintype α] [DecidableEq α] {V : Finset α} {a : α} (ha : a ∉ V) :
    (insert a V)ᶜ.card < Vᶜ.card := by
  apply Finset.card_lt_card
  rw [Finset.compl_ssubset_compl]
  exact Finset.ssubset_insert ha

/-- A fold that succeeds gives the same result with a step that succeeds more often. -/
theorem foldlM_of_imp {σ β : Type*} {f g : σ → β → Option σ}
    (h : ∀ s x t, f s x = some t → g s x = some t) {l : List β} {s t : σ}
    (hl : l.foldlM f s = some t) : l.foldlM g s = some t := by
  induction l generalizing s with
  | nil => exact hl
  | cons x l ih =>
    rw [List.foldlM_cons] at hl ⊢
    obtain ⟨u, hu, hrest⟩ := Option.bind_eq_some_iff.mp hl
    exact Option.bind_eq_some_iff.mpr ⟨u, h s x u hu, ih hrest⟩

end Search
