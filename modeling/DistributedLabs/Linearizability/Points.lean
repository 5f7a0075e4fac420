import Mathlib.Data.List.Nodup
import Mathlib.Order.Basic

/-! Linearizability of a history of operations with call and return times, and the proof
rule by linearization points. -/
namespace Linearizability
variable {σ τ ι ο : Type*}

/-- A sequential specification: an output is accepted when there is a next state. -/
structure Spec (σ ι ο : Type*) where
  init : σ
  step : σ → ι → ο → Option σ

namespace Spec

/-- Run a sequence of inputs with their outputs. -/
def run (M : Spec σ ι ο) (s : σ) : List (ι × ο) → Option σ
  | [] => some s
  | x :: xs => (M.step s x.1 x.2).bind fun t => run M t xs

theorem run_append (M : Spec σ ι ο) (s : σ) (xs ys : List (ι × ο)) :
    M.run s (xs ++ ys) = (M.run s xs).bind fun t => M.run t ys := by
  induction xs generalizing s with
  | nil => rfl
  | cons x xs ih => simp [run, ih, Option.bind_assoc]

theorem run_snoc (M : Spec σ ι ο) (s : σ) (xs : List (ι × ο)) (x : ι × ο) :
    M.run s (xs ++ [x]) = (M.run s xs).bind fun t => M.step t x.1 x.2 := by
  simp [run_append, run]

end Spec

/-- One operation of a history. It has not returned while `ret` is `none`. -/
structure Operation (τ ι ο : Type*) where
  input : ι
  call : τ
  ret : Option (τ × ο)

/-- The operation `i` of the history returned before the operation `j` was called. -/
def Precedes [LT τ] (h : List (Operation τ ι ο)) (i j : ℕ) : Prop :=
  ∃ a b r, h[i]? = some a ∧ h[j]? = some b ∧ a.ret = some r ∧ r.1 < b.call

/-- The inputs and outputs of the operations `l`, in that order. -/
def ioSequence (h : List (Operation τ ι ο)) (l : List (ℕ × ο)) : List (ι × ο) :=
  l.filterMap fun x => (h[x.1]?).map fun a => (a.input, x.2)

/-- The order `l` of operations with their outputs linearizes the history `h`: it has every
operation that returned, with the output it returned, and possibly some that are pending,
none twice; it keeps the order of operations that do not overlap; and the specification
accepts it. -/
structure Linearizes [LT τ] (M : Spec σ ι ο) (h : List (Operation τ ι ο)) (l : List (ℕ × ο)) :
    Prop where
  nodup : (l.map Prod.fst).Nodup
  output : ∀ x ∈ l, ∃ a, h[x.1]? = some a ∧ ∀ r, a.ret = some r → r.2 = x.2
  complete : ∀ i a, h[i]? = some a → a.ret.isSome → i ∈ l.map Prod.fst
  order : l.Pairwise fun x y => ¬ Precedes h y.1 x.1
  legal : (M.run M.init (ioSequence h l)).isSome

def Linearizable [LT τ] (M : Spec σ ι ο) (h : List (Operation τ ι ο)) : Prop :=
  ∃ l, Linearizes M h l

theorem linearizable_nil [LT τ] (M : Spec σ ι ο) :
    Linearizable M ([] : List (Operation τ ι ο)) :=
  ⟨[], List.nodup_nil, by simp, by simp, List.Pairwise.nil, rfl⟩

/-- A moment at which an operation takes effect, with the output it has there. -/
structure Point (τ ο : Type*) where
  op : ℕ
  time : τ
  out : ο

/-- Points in the order of their times, one inside every operation that returned and at
most one for each operation, linearize the history if the specification accepts them. -/
theorem linearizable_of_points [Preorder τ] (M : Spec σ ι ο) (h : List (Operation τ ι ο))
    (pts : List (Point τ ο)) (times : pts.Pairwise fun p q => p.time ≤ q.time)
    (nodup : (pts.map Point.op).Nodup)
    (inside : ∀ p ∈ pts, ∃ a, h[p.op]? = some a ∧ a.call ≤ p.time ∧
      ∀ r, a.ret = some r → p.time ≤ r.1 ∧ r.2 = p.out)
    (complete : ∀ i a, h[i]? = some a → a.ret.isSome → ∃ p ∈ pts, p.op = i)
    (legal : (M.run M.init (ioSequence h (pts.map fun p => (p.op, p.out)))).isSome) :
    Linearizable M h := by
  refine ⟨pts.map fun p => (p.op, p.out), ?_, ?_, ?_, ?_, legal⟩
  · simpa [Function.comp_def] using nodup
  · intro x hx
    obtain ⟨p, hp, rfl⟩ := List.mem_map.mp hx
    obtain ⟨a, ha, -, hr⟩ := inside p hp
    exact ⟨a, ha, fun r hret => (hr r hret).2⟩
  · intro i a ha hret
    obtain ⟨p, hp, rfl⟩ := complete i a ha hret
    exact List.mem_map.mpr ⟨(p.op, p.out), List.mem_map.mpr ⟨p, hp, rfl⟩, rfl⟩
  · rw [List.pairwise_map]
    refine times.imp_of_mem ?_
    rintro p q hp hq hle ⟨a, b, r, ha, hb, hret, hlt⟩
    obtain ⟨a', ha', -, hr⟩ := inside q hq
    obtain ⟨b', hb', hcall, -⟩ := inside p hp
    obtain rfl : a' = a := Option.some.inj (ha'.symm.trans ha)
    obtain rfl : b' = b := Option.some.inj (hb'.symm.trans hb)
    have hback := (hcall.trans hle).trans (hr r hret).1
    exact absurd hlt (not_lt_of_ge hback)

end Linearizability
