import Mathlib.Data.List.Basic
import Mathlib.Data.List.Perm.Basic
import Mathlib.Data.List.Pairwise
import Mathlib.Order.Lattice
import Mathlib.Tactic.Common

/-! Grouping the records of a list by key: a loop that puts adjacent records of one key into
one group finds every group of a list that is sorted by key. -/
namespace Grouping
variable {α κ ω : Type*} [LinearOrder κ] (key : α → κ) (out : κ → List α → ω)

/-- The groups of adjacent records with one key, at most `n` of them. -/
def loop : ℕ → List α → List ω
  | 0, _ => []
  | _ + 1, [] => []
  | n + 1, a :: l =>
      out (key a) (a :: l.takeWhile fun b => key b = key a) ::
        loop n (l.dropWhile fun b => key b = key a)

/-- The groups of adjacent records with one key. -/
def adjacent (l : List α) : List ω := loop key out l.length l

variable {key out}

theorem loop_eq {m n : ℕ} {l : List α} (hm : l.length ≤ m) (hn : l.length ≤ n) :
    loop key out m l = loop key out n l := by
  induction m generalizing n l with
  | zero =>
    obtain rfl := List.length_eq_zero_iff.mp (Nat.le_zero.mp hm)
    cases n <;> rfl
  | succ m ih =>
    cases l with
    | nil => cases n <;> rfl
    | cons a l =>
      cases n with
      | zero => simp at hn
      | succ n =>
        have hdrop := (List.dropWhile_sublist (l := l) fun b => decide (key b = key a)).length_le
        simp only [List.length_cons, Nat.add_le_add_iff_right] at hm hn
        rw [loop, loop, ih (hdrop.trans hm) (hdrop.trans hn)]

@[simp] theorem adjacent_nil : adjacent key out [] = [] := rfl

theorem adjacent_cons (a : α) (l : List α) :
    adjacent key out (a :: l) =
      out (key a) (a :: l.takeWhile fun b => key b = key a) ::
        adjacent key out (l.dropWhile fun b => key b = key a) := by
  have hdrop := (List.dropWhile_sublist (l := l) fun b => decide (key b = key a)).length_le
  rw [adjacent, List.length_cons, loop, adjacent, loop_eq hdrop le_rfl]

/-- The list is sorted by key. -/
abbrev Sorted (key : α → κ) (l : List α) : Prop := l.Pairwise fun a b => key a ≤ key b

/-- In a sorted list that starts with another key than its second record, no later record has
the first key. -/
theorem ne_of_sorted {a b : α} {l : List α} (h : Sorted key (a :: b :: l)) (hne : ¬ key b = key a) :
    ∀ c ∈ l, ¬ key c = key a := by
  obtain ⟨hab, hbl⟩ := List.pairwise_cons.mp h
  obtain ⟨hb, -⟩ := List.pairwise_cons.mp hbl
  intro c hc hca
  have hle := hb c hc
  rw [hca] at hle
  exact hne (le_antisymm hle (hab b List.mem_cons_self))

theorem sorted_drop_second {a b : α} {l : List α} (h : Sorted key (a :: b :: l)) :
    Sorted key (a :: l) :=
  h.sublist ((List.sublist_cons_self b l).cons_cons a)

theorem takeWhile_eq_filter {a : α} {l : List α} (h : Sorted key (a :: l)) :
    (l.takeWhile fun b => key b = key a) = l.filter fun b => key b = key a := by
  induction l with
  | nil => rfl
  | cons b l ih =>
    by_cases hkey : key b = key a
    · simp [hkey, ih (sorted_drop_second h)]
    · simpa [hkey] using ne_of_sorted h hkey

theorem dropWhile_eq_filter {a : α} {l : List α} (h : Sorted key (a :: l)) :
    (l.dropWhile fun b => key b = key a) = l.filter fun b => key b ≠ key a := by
  induction l with
  | nil => rfl
  | cons b l ih =>
    by_cases hkey : key b = key a
    · simpa [hkey] using ih (sorted_drop_second h)
    · have hall : l.filter (fun c => key c ≠ key a) = l := by
        simpa using ne_of_sorted h hkey
      rw [List.dropWhile_cons_of_neg (by simpa using hkey),
        List.filter_cons_of_pos (by simpa using hkey), hall]

/-- On a sorted list the loop makes one group for every key, from all records of that key. -/
theorem adjacent_of_sorted (out : κ → List α → ω) {l : List α} (h : Sorted key l) :
    ∃ ks : List κ, ks.Pairwise (· < ·) ∧ (∀ k, k ∈ ks ↔ ∃ a ∈ l, key a = k) ∧
      adjacent key out l = ks.map fun k => out k (l.filter fun a => key a = k) := by
  induction hn : l.length using Nat.strong_induction_on generalizing l with
  | _ n ih =>
    cases l with
    | nil => exact ⟨[], by simp, by simp, rfl⟩
    | cons a l =>
      have hle : ∀ b ∈ l, key a ≤ key b := (List.pairwise_cons.mp h).1
      let rest := l.filter fun b => key b ≠ key a
      have hlen : rest.length < n := by
        rw [← hn]
        exact Nat.lt_succ_of_le (List.length_filter_le _ _)
      have hsorted : Sorted key rest := (List.pairwise_cons.mp h).2.filter _
      obtain ⟨ks, hks, hmem, heq⟩ := ih rest.length hlen hsorted rfl
      refine ⟨key a :: ks, ?_, ?_, ?_⟩
      · refine List.pairwise_cons.mpr ⟨?_, hks⟩
        intro k hk
        obtain ⟨b, hb, rfl⟩ := (hmem k).mp hk
        obtain ⟨hb, hne⟩ := List.mem_filter.mp hb
        exact lt_of_le_of_ne (hle b hb) (Ne.symm (by simpa using hne))
      · intro k
        simp only [List.mem_cons, hmem, rest, List.mem_filter, decide_eq_true_eq]
        constructor
        · rintro (rfl | ⟨b, ⟨hb, -⟩, rfl⟩)
          · exact ⟨a, .inl rfl, rfl⟩
          · exact ⟨b, .inr hb, rfl⟩
        · rintro ⟨b, rfl | hb, rfl⟩
          · exact .inl rfl
          · by_cases hkey : key b = key a
            · exact .inl hkey
            · exact .inr ⟨b, ⟨hb, hkey⟩, rfl⟩
      · rw [adjacent_cons, takeWhile_eq_filter h, dropWhile_eq_filter h, heq, List.map_cons,
          List.filter_cons_of_pos (by simp)]
        congr 1
        refine List.map_congr_left ?_
        intro k hk
        obtain ⟨b, hb, rfl⟩ := (hmem k).mp hk
        have hne : key b ≠ key a := by simpa using (List.mem_filter.mp hb).2
        rw [List.filter_cons_of_neg (by simpa using hne.symm), List.filter_filter]
        congr 1
        refine List.filter_congr ?_
        intro c _
        by_cases hc : key c = key b <;> simp [hc, hne]

end Grouping
