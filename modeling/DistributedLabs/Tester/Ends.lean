import DistributedLabs.Labrpc.Network
import Mathlib.Data.List.Nodup

/-! What the tester does to the ends of the network: it makes them under random names, connects
them to servers, and enables and disables them. -/
namespace Tester
open Labrpc
variable {ε ν : Type*} [DecidableEq ε] {net net' net'' : Net ε ν}

/-- The names are new to the network, and it has their ends, disabled, in addition. -/
structure Allocated (net : Net ε ν) (names : List ε) (net' : Net ε ν) : Prop where
  nodup : names.Nodup
  fresh : ∀ e ∈ names, net.ends e = false
  ends : ∀ e, net'.ends e = true ↔ net.ends e = true ∨ e ∈ names
  enabled : ∀ e, net'.enabled e = if e ∈ names then false else net.enabled e

/-- A new name is not the name of an end that the network had. -/
theorem Allocated.ne_of_mem {names : List ε} (h : Allocated net names net') {e e' : ε}
    (hnew : e ∈ names) (hold : net.ends e' = true) : e ≠ e' := by
  rintro rfl
  rw [h.fresh e hnew] at hold
  cases hold

theorem allocated_nil (net : Net ε ν) : Allocated net [] net where
  nodup := List.nodup_nil
  fresh := by simp
  ends := by simp
  enabled := by simp

theorem Allocated.append {names names' : List ε} (h : Allocated net names net')
    (h' : Allocated net' names' net'') : Allocated net (names ++ names') net'' where
  nodup := by
    refine List.nodup_append'.mpr ⟨h.nodup, h'.nodup, ?_⟩
    intro e he he'
    have hends := (h.ends e).mpr (.inr he)
    rw [h'.fresh e he'] at hends
    cases hends
  fresh := by
    intro e he
    rcases List.mem_append.mp he with he | he
    · exact h.fresh e he
    · have hends := h'.fresh e he
      rw [Bool.eq_false_iff] at hends ⊢
      exact fun hold => hends ((h.ends e).mpr (.inl hold))
  ends := by
    intro e
    rw [h'.ends, h.ends, List.mem_append, or_assoc]
  enabled := by
    intro e
    rw [h'.enabled, h.enabled]
    by_cases he : e ∈ names' <;> by_cases he' : e ∈ names <;> simp [he, he']

/-- A loop that makes ends allocates all their names. -/
theorem allocated_foldlM {ι : Type*} {f : Net ε ν → ι → Option (Net ε ν)} {names : ι → List ε}
    (hf : ∀ net i net', f net i = some net' → Allocated net (names i) net') {l : List ι}
    (h : l.foldlM f net = some net') : Allocated net (l.flatMap names) net' := by
  induction l generalizing net with
  | nil =>
    obtain rfl : net = net' := by simpa using h
    exact allocated_nil net
  | cons i l ih =>
    rw [List.foldlM_cons] at h
    obtain ⟨u, hu, hrest⟩ := Option.bind_eq_some_iff.mp h
    rw [List.flatMap_cons]
    exact (hf net i u hu).append (ih hrest)

variable [DecidableEq ν]

def enable (net : Net ε ν) (e : ε) (enabled : Bool) : Net ε ν :=
  (net.apply (.enable e enabled)).getD net

@[simp] theorem enable_ends (net : Net ε ν) (e : ε) (b : Bool) : (enable net e b).ends = net.ends :=
  rfl

@[simp] theorem enable_enabled (net : Net ε ν) (e : ε) (b : Bool) :
    (enable net e b).enabled = Function.update net.enabled e b := rfl

/-- A loop that sets the ends of those elements of a list that pass a test. -/
def setAll {ι : Type*} (net : Net ε ν) (l : List ι) (name : ι → ε) (test : ι → Bool)
    (enabled : Bool) : Net ε ν :=
  l.foldl (fun net x => if test x then enable net (name x) enabled else net) net

section setAll
variable {ι : Type*} (l : List ι) (name : ι → ε) (test : ι → Bool) (b : Bool)

theorem setAll_cons (x : ι) : setAll net (x :: l) name test b =
    setAll (if test x then enable net (name x) b else net) l name test b := rfl

@[simp] theorem setAll_ends : (setAll net l name test b).ends = net.ends := by
  induction l generalizing net with
  | nil => rfl
  | cons x l ih =>
    rw [setAll_cons, ih]
    split <;> rfl

/-- After the loop the ends it names have the new status, all others the old one. The order of
the list does not matter. -/
theorem setAll_enabled (e : ε) : (setAll net l name test b).enabled e = true ↔
    ((∃ x ∈ l, test x = true ∧ name x = e) ∧ b = true) ∨
      ((¬ ∃ x ∈ l, test x = true ∧ name x = e) ∧ net.enabled e = true) := by
  induction l generalizing net with
  | nil => simp [setAll]
  | cons x l ih =>
    rw [setAll_cons, ih]
    by_cases hrest : ∃ y ∈ l, test y = true ∧ name y = e
    · have hall : ∃ y ∈ x :: l, test y = true ∧ name y = e := by
        obtain ⟨y, hy, hyt⟩ := hrest
        exact ⟨y, List.mem_cons_of_mem x hy, hyt⟩
      simp only [hrest, hall, true_and, not_true_eq_false, false_and, or_false]
    · have hhead : (∃ y ∈ x :: l, test y = true ∧ name y = e) ↔ test x = true ∧ name x = e := by
        constructor
        · rintro ⟨y, hy, hyt⟩
          rcases List.mem_cons.mp hy with rfl | hy
          · exact hyt
          · exact absurd ⟨y, hy, hyt⟩ hrest
        · exact fun hx => ⟨x, List.mem_cons_self, hx⟩
      rw [hhead]
      simp only [hrest, false_and, false_or, not_false_eq_true, true_and]
      by_cases htest : test x = true
      · rw [if_pos htest, enable_enabled, Function.update_apply]
        by_cases hname : name x = e
        · simp [htest, hname]
        · simp [hname, Ne.symm hname]
      · simp [htest]

end setAll

/-- `MakeEnd` followed by `Connect`. A name that is taken stops the process, here `none`. -/
def makeEnd (net : Net ε ν) (e : ε) (servername : ν) : Option (Net ε ν) :=
  ((net.apply (.makeEnd e)).filter fun net => !net.fatal).bind fun net =>
    net.apply (.connect e servername)

theorem allocated_makeEnd {e : ε} {servername : ν} (h : makeEnd net e servername = some net') :
    Allocated net [e] net' := by
  unfold makeEnd at h
  by_cases he : net.ends e = true
  · simp [Net.apply, he, Option.filter_some] at h
  rw [Bool.not_eq_true] at he
  cases hfatal : net.fatal with
  | true => simp [Net.apply, he, hfatal, Option.filter_some] at h
  | false =>
    obtain rfl : _ = net' := by simpa [Net.apply, he, hfatal, Option.filter_some] using h
    refine ⟨List.nodup_singleton e, by simpa using he, ?_, ?_⟩
    · intro e'
      by_cases heq : e' = e <;> simp [heq]
    · intro e'
      by_cases heq : e' = e <;> simp [heq]

end Tester
