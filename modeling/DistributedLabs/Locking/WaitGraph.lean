import Mathlib.Logic.Relation
import Mathlib.Tactic.Common

/-! Threads that take and release locks one at a time, and the graph of waits. What a thread
holds is read off its position, apart from what the locks themselves record. -/
namespace Locking
variable {τ κ : Type*}

/-- The locks `κ` with their holders, what each thread holds by its position, and the lock it
is about to take. -/
structure View (τ κ : Type*) where
  holder : κ → Option τ
  holds : τ → κ → Bool
  waits : τ → Option κ

/-- Positions and locks agree. -/
def Consistent (v : View τ κ) : Prop := ∀ l a, v.holder l = some a ↔ v.holds a l = true

variable {v w : View τ κ} {a b : τ}

theorem Consistent.unique (hc : Consistent v) {l : κ} (ha : v.holds a l = true)
    (hb : v.holds b l = true) : a = b := by
  have h := (hc l a).mpr ha
  rw [(hc l b).mpr hb] at h
  exact (Option.some.inj h).symm

theorem Consistent.not_holds_of_free (hc : Consistent v) {l : κ} (h : v.holder l = none) :
    v.holds a l = false := by
  rw [← Bool.not_eq_true, ← hc l a, h]
  exact nofun

theorem Consistent.keep (hc : Consistent v) (hholder : ∀ l, w.holder l = v.holder l)
    (hholds : ∀ b l, w.holds b l = v.holds b l) : Consistent w := by
  intro l b
  rw [hholder, hholds, hc]

section
variable [DecidableEq κ]

/-- The thread `a` takes the free lock `l`. -/
theorem Consistent.acquire (hc : Consistent v) (l : κ) (hfree : v.holder l = none)
    (hholder : ∀ l', w.holder l' = if l' = l then some a else v.holder l')
    (hself : ∀ l', w.holds a l' = (v.holds a l' || decide (l' = l)))
    (hothers : ∀ b, b ≠ a → ∀ l', w.holds b l' = v.holds b l') : Consistent w := by
  intro l' b
  by_cases hl : l' = l
  · subst hl
    by_cases hb : b = a
    · subst hb
      simp [hholder, hself]
    · simp [hholder, hothers b hb, hc.not_holds_of_free hfree, Ne.symm hb]
  · by_cases hb : b = a
    · subst hb
      simp [hholder, hself, hl, hc l' b]
    · simp [hholder, hothers b hb, hl, hc l' b]

/-- The thread `a` releases the lock `l`, which it holds. -/
theorem Consistent.release (hc : Consistent v) (l : κ) (hheld : v.holds a l = true)
    (hholder : ∀ l', w.holder l' = if l' = l then none else v.holder l')
    (hself : ∀ l', w.holds a l' = (v.holds a l' && !decide (l' = l)))
    (hothers : ∀ b, b ≠ a → ∀ l', w.holds b l' = v.holds b l') : Consistent w := by
  intro l' b
  by_cases hl : l' = l
  · subst hl
    by_cases hb : b = a
    · subst hb
      simp [hholder, hself]
    · have hnot : v.holds b l' ≠ true := fun h => hb (hc.unique h hheld)
      simp [hholder, hothers b hb, hnot]
  · by_cases hb : b = a
    · subst hb
      simp [hholder, hself, hl, hc l' b]
    · simp [hholder, hothers b hb, hl, hc l' b]

end

/-- The thread `a` is about to take a lock that `b` holds. -/
def WaitsFor (v : View τ κ) (a b : τ) : Prop := ∃ l, v.waits a = some l ∧ v.holder l = some b

/-- In a cycle of waits some thread that holds a lock waits for one that waits as well. -/
theorem exists_of_cycle (h : Relation.TransGen (WaitsFor v) a a) :
    ∃ x y, WaitsFor v x y ∧ (∃ z, WaitsFor v z x) ∧ ∃ z, WaitsFor v y z := by
  obtain ⟨z, -, hz⟩ := Relation.TransGen.tail'_iff.mp h
  obtain ⟨b, hab, hba⟩ := Relation.TransGen.head'_iff.mp h
  refine ⟨a, b, hab, ⟨z, hz⟩, ?_⟩
  rcases Relation.reflTransGen_iff_eq_or_transGen.mp hba with heq | htrans
  · subst heq
    exact ⟨_, hab⟩
  · obtain ⟨c, hbc, -⟩ := Relation.TransGen.head'_iff.mp htrans
    exact ⟨c, hbc⟩

end Locking
