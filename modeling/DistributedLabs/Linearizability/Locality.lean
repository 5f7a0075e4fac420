import DistributedLabs.Linearizability.Points
import Mathlib.Data.List.Dedup
import Mathlib.Data.List.Perm.Basic
import Mathlib.Order.MinMax

/-! Linearizability is local: a history over many keys is linearizable exactly when the part
of each key is. -/
namespace Linearizability
variable {σ τ ι ο κ : Type*}

/-- An operation that has returned. -/
structure Done (τ ι ο : Type*) where
  input : ι
  output : ο
  call : τ
  ret : τ

namespace Done

def operation (a : Done τ ι ο) : Operation τ ι ο := ⟨a.input, a.call, some (a.ret, a.output)⟩

def io (a : Done τ ι ο) : ι × ο := (a.input, a.output)

end Done

/-- The order `l` of the operations `h` keeps the order of operations that do not overlap,
and the specification accepts it. -/
structure Orders [LT τ] (M : Spec σ ι ο) (h l : List (Done τ ι ο)) : Prop where
  perm : l.Perm h
  order : l.Pairwise fun a b => ¬ b.ret < a.call
  legal : (M.run M.init (l.map Done.io)).isSome

theorem precedes_operation [LT τ] {h : List (Done τ ι ο)} {i j : ℕ} {a b : Done τ ι ο}
    (ha : h[i]? = some a) (hb : h[j]? = some b) :
    Precedes (h.map Done.operation) i j ↔ a.ret < b.call := by
  simp [Precedes, List.getElem?_map, ha, hb, Done.operation]

/-- The operations at the positions that `l` names. -/
def picked (h : List (Done τ ι ο)) (l : List (ℕ × ο)) : List (Done τ ι ο) :=
  l.filterMap fun x => h[x.1]?

theorem filterMap_getElem_range {α : Type*} (h : List α) :
    (List.range h.length).filterMap (fun i => h[i]?) = h := by
  induction h with
  | nil => rfl
  | cons a h ih =>
    rw [List.length_cons, List.range_succ_eq_map, List.filterMap_cons, List.filterMap_map]
    simpa [Function.comp_def] using ih

theorem Linearizes.orders [LT τ] {M : Spec σ ι ο} {h : List (Done τ ι ο)} {l : List (ℕ × ο)}
    (hl : Linearizes M (h.map Done.operation) l) : Orders M h (picked h l) := by
  refine ⟨?_, ?_, ?_⟩
  · have hpos : (l.map Prod.fst).Perm (List.range h.length) := by
      rw [List.perm_ext_iff_of_nodup hl.nodup List.nodup_range]
      intro i
      constructor
      · intro hi
        obtain ⟨x, hx, rfl⟩ := List.mem_map.mp hi
        obtain ⟨a, ha, -⟩ := hl.output x hx
        have hlt := (List.getElem?_eq_some_iff.mp ha).1
        simpa using hlt
      · intro hi
        have hlt : i < h.length := by simpa using hi
        have ha : (h.map Done.operation)[i]? = some h[i].operation := by simp [hlt]
        exact hl.complete i _ ha rfl
    have hpick : picked h l = (l.map Prod.fst).filterMap fun i => h[i]? := by
      rw [List.filterMap_map]
      rfl
    rw [hpick]
    exact (hpos.filterMap _).trans (List.Perm.of_eq (filterMap_getElem_range h))
  · unfold picked
    rw [List.pairwise_filterMap]
    refine hl.order.imp ?_
    intro x y hxy a ha b hb hlt
    exact hxy ((precedes_operation hb ha).mpr hlt)
  · have hio : (picked h l).map Done.io = ioSequence (h.map Done.operation) l := by
      unfold picked ioSequence
      rw [List.map_filterMap]
      apply List.filterMap_congr
      intro x hx
      obtain ⟨a, ha, hout⟩ := hl.output x hx
      rw [List.getElem?_map] at ha ⊢
      obtain ⟨d, hd, rfl⟩ := Option.map_eq_some_iff.mp ha
      have heq := hout _ rfl
      simp [hd, Done.io, Done.operation, ← heq]
    rw [hio]
    exact hl.legal

theorem Orders.linearizes [LT τ] {M : Spec σ ι ο} {h l : List (Done τ ι ο)}
    (hl : Orders M h l) : Linearizable M (h.map Done.operation) := by
  have hfst : List.Forall₂ (fun a x => a = Prod.fst x) h h.zipIdx := by
    rw [← List.zipIdx_map_fst 0 h, List.forall₂_map_left_iff, List.zipIdx_map_fst]
    exact List.forall₂_same.mpr fun _ _ => rfl
  obtain ⟨w, hw, hwp⟩ := List.perm_comp_forall₂ hl.perm hfst
  have hwl : l = w.map Prod.fst := by
    rw [← List.forall₂_eq_eq_eq, List.forall₂_map_right_iff]
    exact hw
  have hat : ∀ x ∈ w, h[x.2]? = some x.1 := by
    intro x hx
    exact List.mk_mem_zipIdx_iff_getElem?.mp (hwp.mem_iff.mp hx)
  refine ⟨w.map fun x => (x.2, x.1.output), ?_, ?_, ?_, ?_, ?_⟩
  · rw [List.map_map]
    have hp : (w.map Prod.snd).Perm (h.zipIdx.map Prod.snd) := hwp.map _
    refine (hp.nodup_iff).mpr ?_
    rw [List.zipIdx_map_snd]
    exact List.nodup_range'
  · intro y hy
    obtain ⟨x, hx, rfl⟩ := List.mem_map.mp hy
    refine ⟨x.1.operation, by simp [hat x hx], ?_⟩
    intro r hr
    cases hr
    rfl
  · intro i a ha _
    rw [List.getElem?_map] at ha
    obtain ⟨d, hd, -⟩ := Option.map_eq_some_iff.mp ha
    have hmem : (d, i) ∈ w := hwp.mem_iff.mpr (List.mk_mem_zipIdx_iff_getElem?.mpr hd)
    rw [List.map_map]
    exact List.mem_map.mpr ⟨(d, i), hmem, rfl⟩
  · have horder := hl.order
    rw [hwl, List.pairwise_map] at horder
    rw [List.pairwise_map]
    refine horder.imp_of_mem ?_
    intro x y hx hy hxy hprec
    exact hxy ((precedes_operation (hat y hy) (hat x hx)).mp hprec)
  · have hio : ioSequence (h.map Done.operation) (w.map fun x => (x.2, x.1.output)) =
        l.map Done.io := by
      unfold ioSequence
      rw [hwl, List.filterMap_map, List.map_map, ← congrFun List.filterMap_eq_map w]
      apply List.filterMap_congr
      intro x hx
      simp [hat x hx, Done.operation, Done.io]
    rw [hio]
    exact hl.legal

/-- For operations that have all returned, a linearization is an order of them. -/
theorem linearizable_iff_orders [LT τ] (M : Spec σ ι ο) (h : List (Done τ ι ο)) :
    Linearizable M (h.map Done.operation) ↔ ∃ l, Orders M h l := by
  constructor
  · rintro ⟨l, hl⟩
    exact ⟨picked h l, hl.orders⟩
  · rintro ⟨l, hl⟩
    exact hl.linearizes

namespace Spec
variable [DecidableEq κ]

/-- One state for each key. An operation steps the state of its own key. -/
def keyed (M : Spec σ ι ο) (key : ι → κ) : Spec (κ → σ) ι ο where
  init := fun _ => M.init
  step m inp out := (M.step (m (key inp)) inp out).map (Function.update m (key inp))

theorem keyed_run_isSome (M : Spec σ ι ο) (key : ι → κ) (m : κ → σ) (xs : List (ι × ο)) :
    ((M.keyed key).run m xs).isSome ↔
      ∀ k, (M.run (m k) (xs.filter fun x => key x.1 = k)).isSome := by
  induction xs generalizing m with
  | nil => simp [run]
  | cons x xs ih =>
    cases hstep : M.step (m (key x.1)) x.1 x.2 with
    | none =>
      simp only [run, keyed, hstep, Option.map_none, Option.bind_none, Option.isSome_none,
        Bool.false_eq_true, false_iff, not_forall]
      refine ⟨key x.1, ?_⟩
      simp [run, hstep]
    | some s =>
      have hrun : (M.keyed key).run m (x :: xs) =
          (M.keyed key).run (Function.update m (key x.1) s) xs := by
        simp [run, keyed, hstep]
      rw [hrun, ih]
      apply forall_congr'
      intro k
      by_cases hk : key x.1 = k
      · subst hk
        simp [run, hstep]
      · simp [hk, Ne.symm hk]

end Spec

/-- The operations on the key `k`. -/
def part [DecidableEq κ] (key : ι → κ) (k : κ) (h : List (Done τ ι ο)) : List (Done τ ι ο) :=
  h.filter fun a => key a.input = k

theorem mem_part [DecidableEq κ] {key : ι → κ} {k : κ} {h : List (Done τ ι ο)}
    {a : Done τ ι ο} : a ∈ part key k h ↔ a ∈ h ∧ key a.input = k := by
  simp [part]

theorem part_io [DecidableEq κ] (key : ι → κ) (k : κ) (h : List (Done τ ι ο)) :
    (h.map Done.io).filter (fun x => key x.1 = k) = (part key k h).map Done.io := by
  rw [List.filter_map]
  rfl

/-- The order of all operations orders those of each key. -/
theorem Orders.part [LT τ] [DecidableEq κ] {M : Spec σ ι ο} {key : ι → κ}
    {h l : List (Done τ ι ο)} (hl : Orders (M.keyed key) h l) (k : κ) :
    Orders M (part key k h) (part key k l) := by
  refine ⟨hl.perm.filter _, hl.order.sublist List.filter_sublist, ?_⟩
  have hlegal := (M.keyed_run_isSome key _ _).mp hl.legal k
  rwa [part_io] at hlegal

/-- The parts of the keys, one after the other, are the whole list. -/
theorem flatMap_filter_perm {α : Type*} [DecidableEq κ] (f : α → κ) {keys : List κ}
    (hnodup : keys.Nodup) {l : List α} (hkeys : ∀ a ∈ l, f a ∈ keys) :
    (keys.flatMap fun k => l.filter fun a => f a = k).Perm l := by
  induction keys generalizing l with
  | nil =>
    have hnil : l = [] := List.eq_nil_iff_forall_not_mem.mpr fun a ha => by simpa using hkeys a ha
    simp [hnil]
  | cons k keys ih =>
    obtain ⟨hk, hnodup⟩ := List.nodup_cons.mp hnodup
    have hrest : ∀ a ∈ l.filter (fun a => !decide (f a = k)), f a ∈ keys := by
      intro a ha
      obtain ⟨hal, hne⟩ := List.mem_filter.mp ha
      have hne : f a ≠ k := by simpa using hne
      exact (List.mem_cons.mp (hkeys a hal)).resolve_left hne
    have htail : (keys.flatMap fun k' => l.filter fun a => f a = k') =
        keys.flatMap fun k' => (l.filter fun a => !decide (f a = k)).filter fun a => f a = k' := by
      apply List.flatMap_congr
      intro k' hk'
      rw [List.filter_filter]
      apply List.filter_congr
      intro a _
      by_cases ha : f a = k'
      · have hne : k' ≠ k := fun he => hk (he ▸ hk')
        simp [ha, hne]
      · simp [ha]
    rw [List.flatMap_cons, htail]
    exact ((ih hnodup hrest).append_left _).trans (List.filter_append_perm _ _)

section Merge
variable [LinearOrder τ]

/-- The earliest return of `a` and the operations `l` after it. -/
def deadline (a : Done τ ι ο) (l : List (Done τ ι ο)) : τ :=
  l.foldr (fun b t => min b.ret t) a.ret

theorem le_deadline {t : τ} {a : Done τ ι ο} {l : List (Done τ ι ο)} :
    t ≤ deadline a l ↔ ∀ b ∈ a :: l, t ≤ b.ret := by
  induction l with
  | nil => simp [deadline]
  | cons b l ih =>
    have hcons : deadline a (b :: l) = min b.ret (deadline a l) := rfl
    rw [hcons, le_min_iff, ih]
    simp only [List.forall_mem_cons]
    tauto

/-- The operations with the times at which they take effect: as late as the operations after
them allow. -/
def stamps : List (Done τ ι ο) → List (τ × Done τ ι ο)
  | [] => []
  | a :: l => (deadline a l, a) :: stamps l

theorem stamps_map_snd (l : List (Done τ ι ο)) : (stamps l).map Prod.snd = l := by
  induction l with
  | nil => rfl
  | cons a l ih => rw [stamps, List.map_cons, ih]

theorem le_of_mem_stamps {t : τ} {l : List (Done τ ι ο)} (ht : ∀ b ∈ l, t ≤ b.ret)
    {x : τ × Done τ ι ο} (hx : x ∈ stamps l) : t ≤ x.1 := by
  induction l with
  | nil => simp [stamps] at hx
  | cons a l ih =>
    rcases List.mem_cons.mp hx with rfl | hx
    · exact le_deadline.mpr ht
    · exact ih (fun b hb => ht b (List.mem_cons_of_mem a hb)) hx

theorem stamps_sorted (l : List (Done τ ι ο)) : (stamps l).Pairwise fun x y => x.1 ≤ y.1 := by
  induction l with
  | nil => exact List.Pairwise.nil
  | cons a l ih =>
    refine List.Pairwise.cons ?_ ih
    intro x hx
    have hle := le_deadline.mp (le_refl (deadline a l))
    exact le_of_mem_stamps (fun b hb => hle b (List.mem_cons_of_mem a hb)) hx

/-- Every operation takes effect between its call and its return. -/
theorem stamps_inside {l : List (Done τ ι ο)} (hcall : ∀ a ∈ l, a.call ≤ a.ret)
    (horder : l.Pairwise fun a b => ¬ b.ret < a.call) {x : τ × Done τ ι ο}
    (hx : x ∈ stamps l) : x.2.call ≤ x.1 ∧ x.1 ≤ x.2.ret := by
  induction l with
  | nil => simp [stamps] at hx
  | cons a l ih =>
    obtain ⟨hfirst, hrest⟩ := List.pairwise_cons.mp horder
    rcases List.mem_cons.mp hx with rfl | hx
    · refine ⟨le_deadline.mpr ?_, le_deadline.mp le_rfl a List.mem_cons_self⟩
      intro b hb
      rcases List.mem_cons.mp hb with rfl | hb
      · exact hcall b List.mem_cons_self
      · exact not_lt.mp (hfirst b hb)
    · exact ih (fun b hb => hcall b (List.mem_cons_of_mem a hb)) hrest hx

/-- The order of the stamps, as the sort needs it. -/
def stampLE (x y : τ × Done τ ι ο) : Bool := x.1 ≤ y.1

theorem stampLE_trans (x y z : τ × Done τ ι ο) (hxy : stampLE x y) (hyz : stampLE y z) :
    stampLE x z := by
  unfold stampLE at *
  simp only [decide_eq_true_eq] at *
  exact le_trans hxy hyz

theorem stampLE_total (x y : τ × Done τ ι ο) : stampLE x y || stampLE y x := by
  simpa [stampLE] using le_total x.1 y.1

/-- All parts in the order of their stamps. -/
def merge (keys : List κ) (parts : κ → List (Done τ ι ο)) : List (τ × Done τ ι ο) :=
  (keys.flatMap fun k => stamps (parts k)).mergeSort stampLE

theorem merge_perm (keys : List κ) (parts : κ → List (Done τ ι ο)) :
    ((merge keys parts).map Prod.snd).Perm (keys.flatMap parts) := by
  refine ((List.mergeSort_perm _ _).map Prod.snd).trans (List.Perm.of_eq ?_)
  rw [List.map_flatMap]
  simp only [stamps_map_snd]

theorem merge_sorted (keys : List κ) (parts : κ → List (Done τ ι ο)) :
    (merge keys parts).Pairwise fun x y => x.1 ≤ y.1 := by
  have hsorted := List.pairwise_mergeSort stampLE_trans stampLE_total
    (keys.flatMap fun k => stamps (parts k))
  exact hsorted.imp fun hxy => of_decide_eq_true hxy

/-- The sort is stable, so it keeps the order of each part. -/
theorem sublist_merge {keys : List κ} (parts : κ → List (Done τ ι ο)) {k : κ}
    (hk : k ∈ keys) : (parts k).Sublist ((merge keys parts).map Prod.snd) := by
  have hsub : (stamps (parts k)).Sublist (keys.flatMap fun k => stamps (parts k)) := by
    rw [List.flatMap_def]
    exact List.sublist_flatten_of_mem (List.mem_map_of_mem hk)
  have hsorted : (stamps (parts k)).Pairwise fun x y => stampLE x y :=
    (stamps_sorted (parts k)).imp fun hxy => decide_eq_true hxy
  have hmerge := (List.sublist_mergeSort stampLE_trans stampLE_total hsorted hsub).map Prod.snd
  rwa [stamps_map_snd] at hmerge

variable [DecidableEq κ] {M : Spec σ ι ο} {key : ι → κ} {h : List (Done τ ι ο)}

/-- The merge orders the whole history. -/
theorem merge_orders (hcall : ∀ a ∈ h, a.call ≤ a.ret) {keys : List κ} (hnodup : keys.Nodup)
    (hkeys : ∀ a ∈ h, key a.input ∈ keys) {parts : κ → List (Done τ ι ο)}
    (hparts : ∀ k, Orders M (part key k h) (parts k)) :
    Orders (M.keyed key) h ((merge keys parts).map Prod.snd) := by
  have hperm : ((merge keys parts).map Prod.snd).Perm h := by
    have hflat : (keys.flatMap parts).Perm (keys.flatMap fun k => part key k h) :=
      List.Perm.flatMap_left keys fun k _ => (hparts k).perm
    have hwhole := flatMap_filter_perm (fun a : Done τ ι ο => key a.input) hnodup hkeys
    exact (merge_perm keys parts).trans (hflat.trans hwhole)
  refine ⟨hperm, ?_, ?_⟩
  · rw [List.pairwise_map]
    refine (merge_sorted keys parts).imp_of_mem ?_
    intro x y hx hy hxy
    have hinside : ∀ z ∈ merge keys parts, z.2.call ≤ z.1 ∧ z.1 ≤ z.2.ret := by
      intro z hz
      obtain ⟨k, -, hzk⟩ := List.mem_flatMap.mp ((List.mergeSort_perm _ _).mem_iff.mp hz)
      refine stamps_inside ?_ (hparts k).order hzk
      intro a ha
      exact hcall a (mem_part.mp ((hparts k).perm.mem_iff.mp ha)).1
    exact not_lt.mpr (((hinside x hx).1.trans hxy).trans (hinside y hy).2)
  · refine (M.keyed_run_isSome key _ _).mpr ?_
    intro k
    rw [part_io]
    have heq : part key k ((merge keys parts).map Prod.snd) = parts k := by
      have hpart : (part key k ((merge keys parts).map Prod.snd)).Perm (parts k) :=
        (hperm.filter _).trans (hparts k).perm.symm
      by_cases hk : k ∈ keys
      · have hsub := (sublist_merge parts hk).filter fun a => decide (key a.input = k)
        have hself : (parts k).filter (fun a => key a.input = k) = parts k := by
          rw [List.filter_eq_self]
          intro a ha
          exact decide_eq_true (mem_part.mp ((hparts k).perm.mem_iff.mp ha)).2
        rw [hself] at hsub
        exact (hsub.eq_of_length hpart.length_eq.symm).symm
      · have hnil : parts k = [] := by
          rw [List.eq_nil_iff_forall_not_mem]
          intro a ha
          obtain ⟨hah, hak⟩ := mem_part.mp ((hparts k).perm.mem_iff.mp ha)
          exact hk (hak ▸ hkeys a hah)
        rw [hnil] at hpart ⊢
        exact hpart.eq_nil
    rw [heq]
    exact (hparts k).legal

/-- Locality. -/
theorem keyed_orders_iff (hcall : ∀ a ∈ h, a.call ≤ a.ret) :
    (∃ l, Orders (M.keyed key) h l) ↔ ∀ k, ∃ l, Orders M (part key k h) l := by
  constructor
  · rintro ⟨l, hl⟩ k
    exact ⟨part key k l, hl.part k⟩
  · intro hall
    choose parts hparts using hall
    refine ⟨_, merge_orders hcall (List.nodup_dedup (h.map fun a => key a.input)) ?_ hparts⟩
    intro a ha
    exact List.mem_dedup.mpr (List.mem_map_of_mem ha)

end Merge

end Linearizability
