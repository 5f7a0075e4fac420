import DistributedLabs.Tester.Group

/-! Partitions of a server group: `Partition` with its two loops over the two sides, and
`MakePartition`, which puts a given server into the smaller side. -/
namespace Tester
namespace ServerGrp
variable {n : ℕ} {ε : Type*} [DecidableEq ε] {sg s : ServerGrp n ε} {own other d : List (Fin n)}

/-- The body of a loop of `Partition`. -/
def isolate (own other : List (Fin n)) (sg : ServerGrp n ε) (i : Fin n) : ServerGrp n ε :=
  (sg.disconnect i other).connect i own

def partition (sg : ServerGrp n ε) (p1 p2 : List (Fin n)) : ServerGrp n ε :=
  p2.foldl (isolate p2 p1) (p1.foldl (isolate p1 p2) sg)

/-- The servers `d` of one side have been treated, starting from the group `sg`. -/
structure Isolated (sg : ServerGrp n ε) (other d : List (Fin n)) (s : ServerGrp n ε) : Prop where
  connected : ∀ a ∈ d, s.connected a = true
  inside : ∀ a ∈ d, ∀ c ∈ d, s.link a c = true
  across : ∀ a ∈ d, ∀ c ∈ other, s.link a c = false ∧ s.link c a = false
  frame : ∀ a c, a ∉ d → c ∉ d → s.link a c = sg.link a c

theorem isolate_connected (i a : Fin n) :
    (isolate own other s i).connected a = true ↔ a = i ∨ s.connected a = true := by
  rw [isolate, connect_connected, disconnect_connected, Function.update_idem,
    Function.update_apply]
  by_cases ha : a = i <;> simp [ha]

theorem isolate_link (i a c : Fin n) : (isolate own other s i).link a c = true ↔
    (s.link a c = true ∧ ¬ (a = i ∧ c ∈ other) ∧ ¬ (c = i ∧ a ∈ other)) ∨
      (a = i ∧ c ∈ own ∧ (c = i ∨ s.connected c = true)) ∨
      (c = i ∧ a ∈ own ∧ (a = i ∨ s.connected a = true)) := by
  have hflag : ∀ x, Function.update (s.disconnect i other).connected i true x = true ↔
      x = i ∨ s.connected x = true := by
    intro x
    rw [← connect_connected i own]
    exact isolate_connected i x
  rw [isolate, connect_link, disconnect_link, hflag, hflag]

theorem isolated_step (h : Isolated sg other d s) {i : Fin n} (hi : i ∈ own) (hd : d ⊆ own)
    (hdisj : own.Disjoint other) : Isolated sg other (d ++ [i]) (isolate own other s i) := by
  have hmem : ∀ {a}, a ∈ d ++ [i] ↔ a ∈ d ∨ a = i := by simp
  have hown : ∀ {a}, a ∈ d ++ [i] → a ∈ own ∧ (a = i ∨ s.connected a = true) := by
    intro a ha
    rcases hmem.mp ha with ha | rfl
    · exact ⟨hd ha, .inr (h.connected a ha)⟩
    · exact ⟨hi, .inl rfl⟩
  constructor
  · intro a ha
    rw [isolate_connected]
    exact (hown ha).2
  · intro a ha c hc
    rw [isolate_link]
    rcases hmem.mp ha with had | rfl
    · rcases hmem.mp hc with hcd | rfl
      · exact .inl ⟨h.inside a had c hcd, fun hx => hdisj (hd hcd) hx.2,
          fun hx => hdisj (hd had) hx.2⟩
      · exact .inr (.inr ⟨rfl, hown ha⟩)
    · exact .inr (.inl ⟨rfl, hown hc⟩)
  · intro a ha c hc
    have hcown : c ∉ own := fun hx => hdisj hx hc
    have hci : c ≠ i := fun hx => hcown (hx ▸ hi)
    rw [← Bool.not_eq_true, ← Bool.not_eq_true, isolate_link, isolate_link]
    rcases hmem.mp ha with had | rfl
    · have hcross := h.across a had c hc
      exact ⟨by simp [hcross.1, hcown, hci], by simp [hcross.2, hcown, hci]⟩
    · exact ⟨by simp [hc, hcown, hci], by simp [hc, hcown, hci]⟩
  · intro a c ha hc
    rw [hmem, not_or] at ha hc
    rw [Bool.eq_iff_iff, isolate_link]
    simp [ha.2, hc.2, h.frame a c ha.1 hc.1]

/-- One loop of `Partition`: the side is connected inside and cut off from the other side, and
links that do not touch it are as before. -/
theorem isolated_foldl (sg : ServerGrp n ε) (hdisj : own.Disjoint other) (hd : d ⊆ own) :
    Isolated sg other d (d.foldl (isolate own other) sg) := by
  induction d using List.reverseRecOn with
  | nil => exact ⟨by simp, by simp, by simp, fun _ _ _ _ => rfl⟩
  | append_singleton d i ih =>
    rw [List.append_subset] at hd
    rw [List.foldl_append, List.foldl_cons, List.foldl_nil]
    exact isolated_step (ih hd.1) (hd.2 (List.mem_singleton_self i)) hd.1 hdisj

/-- After `Partition` the end from `i` to `j` is enabled exactly if both are on the same side. -/
theorem partition_link_iff (n : ℕ) (ε : Type*) [DecidableEq ε] (sg : ServerGrp n ε)
    (p1 p2 : List (Fin n)) (hperm : (p1 ++ p2).Perm (List.finRange n)) (i j : Fin n) :
    (sg.partition p1 p2).link i j = true ↔ (i ∈ p1 ∧ j ∈ p1) ∨ (i ∈ p2 ∧ j ∈ p2) := by
  have hnodup : (p1 ++ p2).Nodup := hperm.nodup_iff.mpr (List.nodup_finRange n)
  have hdisj : p1.Disjoint p2 := (List.nodup_append'.mp hnodup).2.2
  have hside : ∀ a, a ∈ p1 ∨ a ∈ p2 := fun a =>
    List.mem_append.mp (hperm.mem_iff.mpr (List.mem_finRange a))
  have hfirst := isolated_foldl sg hdisj (List.Subset.refl p1)
  have hsecond := isolated_foldl (p1.foldl (isolate p1 p2) sg)
    (fun a h2 h1 => hdisj h1 h2) (List.Subset.refl p2)
  have hnot : ∀ {a}, a ∈ p1 → a ∉ p2 := fun h1 h2 => hdisj h1 h2
  rw [partition]
  rcases hside i with hi | hi
  · rcases hside j with hj | hj
    · rw [hsecond.frame i j (hnot hi) (hnot hj)]
      exact iff_of_true (hfirst.inside i hi j hj) (.inl ⟨hi, hj⟩)
    · have hj' : j ∉ p1 := fun h => hnot h hj
      rw [(hsecond.across j hj i hi).2]
      simp [hnot hi, hj']
  · rcases hside j with hj | hj
    · have hi' : i ∉ p1 := fun h => hnot h hi
      rw [(hsecond.across i hi j hj).1]
      simp [hnot hj, hi']
    · exact iff_of_true (hsecond.inside i hi j hj) (.inr ⟨hi, hj⟩)

/-- A new group of three servers whose server 1 is cut off before the partition. -/
theorem partition_after_disconnect : ∃ sg : ServerGrp 3 ℕ,
    makeSrvGrp Labrpc.makeNetwork 0 (fun i j => 3 * i.val + j.val) = some sg ∧
    ∀ i j, ((sg.connectAll.disconnectAll 1).partition [2, 1] [0]).link i j = true ↔
      (i ∈ [2, 1] ∧ j ∈ [2, 1]) ∨ (i ∈ [0] ∧ j ∈ [0]) := by
  obtain ⟨sg, hsg⟩ : ∃ sg : ServerGrp 3 ℕ,
      makeSrvGrp Labrpc.makeNetwork 0 (fun i j => 3 * i.val + j.val) = some sg :=
    Option.isSome_iff_exists.mp (by decide +kernel)
  exact ⟨sg, hsg, partition_link_iff 3 ℕ (sg.connectAll.disconnectAll 1) [2, 1] [0] (by decide)⟩

end ServerGrp

/-- Assignment to an element of a slice; an index out of range panics, here `none`. -/
def setAt (xs : List ℕ) (i v : ℕ) : Option (List ℕ) :=
  if i < xs.length then some (xs.set i v) else none

/-- The variables of the loop of `MakePartition`. -/
structure Filling where
  p1 : List ℕ
  p2 : List ℕ
  j : ℕ
  deriving DecidableEq, Repr

/-- The body of the loop of `MakePartition`. -/
def fill (l : ℕ) (f : Filling) (i : ℕ) : Option Filling :=
  if i ≠ l then
    if f.j < f.p1.length then
      (setAt f.p1 f.j i).map fun p1 => { f with p1 := p1, j := f.j + 1 }
    else
      (setAt f.p2 (f.j - f.p1.length) i).map fun p2 => { f with p2 := p2, j := f.j + 1 }
  else some f

/-- `MakePartition` for a group of `n` servers. -/
def makePartition (n l : ℕ) : Option (List ℕ × List ℕ) :=
  ((List.range n).foldlM (fill l)
      ⟨List.replicate (n / 2 + 1) 0, List.replicate (n / 2) 0, 0⟩).bind fun f =>
    (setAt f.p2 (f.p2.length - 1) l).map fun p2 => (f.p1, p2)

/-- The two slices taken together have been filled from the left. -/
structure Filled (f : Filling) (m1 m2 : ℕ) (ys : List ℕ) : Prop where
  length_p1 : f.p1.length = m1
  length_p2 : f.p2.length = m2
  j_eq : f.j = ys.length
  slots : f.p1 ++ f.p2 = ys ++ List.replicate (m1 + m2 - ys.length) 0

theorem filled_step {f : Filling} {m1 m2 l i : ℕ} {ys : List ℕ} (h : Filled f m1 m2 ys)
    (hi : i ≠ l) (hlt : ys.length < m1 + m2) :
    ∃ g, fill l f i = some g ∧ Filled g m1 m2 (ys ++ [i]) := by
  have hslots : (f.p1 ++ f.p2).set ys.length i =
      ys ++ [i] ++ List.replicate (m1 + m2 - (ys ++ [i]).length) 0 := by
    obtain ⟨k, hk⟩ : ∃ k, m1 + m2 - ys.length = k + 1 := ⟨m1 + m2 - ys.length - 1, by omega⟩
    have hk' : m1 + m2 - (ys ++ [i]).length = k := by
      rw [List.length_append, List.length_singleton]
      omega
    rw [h.slots, hk, hk', List.replicate_succ, List.set_append_right _ _ le_rfl, Nat.sub_self,
      List.set_cons_zero, List.append_assoc, List.singleton_append]
  have hlen : (ys ++ [i]).length = ys.length + 1 := by simp
  have h1 := h.length_p1
  have h2 := h.length_p2
  have hj := h.j_eq
  rw [List.set_append, h1] at hslots
  by_cases hside : ys.length < m1
  · rw [if_pos hside] at hslots
    refine ⟨{ f with p1 := f.p1.set f.j i, j := f.j + 1 }, ?_, ?_⟩
    · simp [fill, setAt, hi, h1, hj, hside]
    · exact ⟨by simpa using h1, h2, by rw [hlen, hj], by rw [hj]; exact hslots⟩
  · rw [if_neg hside] at hslots
    refine ⟨{ f with p2 := f.p2.set (f.j - f.p1.length) i, j := f.j + 1 }, ?_, ?_⟩
    · have hidx : ys.length - m1 < m2 := by omega
      simp [fill, setAt, hi, h1, h2, hj, hside, hidx]
    · exact ⟨h1, by simpa using h2, by rw [hlen, hj], by rw [hj, h1]; exact hslots⟩

/-- The loop writes the numbers other than `l` one after the other. -/
theorem filled_foldlM {f : Filling} {m1 m2 l : ℕ} {ys xs : List ℕ} (h : Filled f m1 m2 ys)
    (hlen : ys.length + (xs.filter (· ≠ l)).length ≤ m1 + m2) :
    ∃ g, xs.foldlM (fill l) f = some g ∧ Filled g m1 m2 (ys ++ xs.filter (· ≠ l)) := by
  induction xs generalizing f ys with
  | nil => exact ⟨f, rfl, by simpa using h⟩
  | cons i xs ih =>
    rw [List.foldlM_cons]
    by_cases hi : i = l
    · have hkeep : fill l f i = some f := by simp [fill, hi]
      have hfilter : (i :: xs).filter (· ≠ l) = xs.filter (· ≠ l) := by simp [hi]
      rw [hfilter] at hlen ⊢
      rw [hkeep]
      exact ih h hlen
    · have hfilter : (i :: xs).filter (· ≠ l) = i :: xs.filter (· ≠ l) := by simp [hi]
      rw [hfilter, List.length_cons] at hlen
      obtain ⟨g, hg, hfilled⟩ := filled_step h hi (by omega)
      rw [hg, hfilter, List.append_cons]
      refine ih hfilled ?_
      rw [List.length_append, List.length_singleton]
      omega

theorem filter_ne_append_perm {n l : ℕ} (hl : l < n) :
    ((List.range n).filter (· ≠ l) ++ [l]).Perm (List.range n) := by
  have herase : (List.range n).erase l = (List.range n).filter (· ≠ l) := by
    rw [List.nodup_range.erase_eq_filter]
    refine List.filter_congr fun x _ => ?_
    by_cases hx : x = l <;> simp [hx]
  rw [← herase]
  refine List.perm_append_comm.trans ?_
  exact (List.perm_cons_erase (List.mem_range.mpr hl)).symm

theorem length_filter_ne {n l : ℕ} (hl : l < n) :
    ((List.range n).filter (· ≠ l)).length + 1 = n := by
  simpa using (filter_ne_append_perm hl).length_eq

/-- The loop of `MakePartition` ends with the servers other than `l` written from the left. -/
theorem makePartition_filled {n l : ℕ} (hn : 3 ≤ n) (hl : l < n) : ∃ f : Filling,
    Filled f (n / 2 + 1) (n / 2) ((List.range n).filter (· ≠ l)) ∧
      makePartition n l = some (f.p1, f.p2.set (f.p2.length - 1) l) := by
  have hlen := length_filter_ne hl
  have hinit : Filled ⟨List.replicate (n / 2 + 1) 0, List.replicate (n / 2) 0, 0⟩
      (n / 2 + 1) (n / 2) [] := ⟨by simp, by simp, rfl, by simp⟩
  obtain ⟨f, hf, hfilled⟩ : ∃ f, (List.range n).foldlM (fill l)
        ⟨List.replicate (n / 2 + 1) 0, List.replicate (n / 2) 0, 0⟩ = some f ∧
      Filled f (n / 2 + 1) (n / 2) ([] ++ (List.range n).filter (· ≠ l)) := by
    apply filled_foldlM hinit
    rw [List.length_nil]
    omega
  rw [List.nil_append] at hfilled
  have h2 := hfilled.length_p2
  have hlast : f.p2.length - 1 < f.p2.length := by omega
  refine ⟨f, hfilled, ?_⟩
  rw [makePartition, hf, Option.bind_some, setAt, if_pos hlast, Option.map_some]

/-- If one slot is left, it is the last one, and it gets `l`. -/
theorem Filled.perm {f : Filling} {n l : ℕ} (hn : 3 ≤ n) (hodd : n % 2 = 1) (hl : l < n)
    (h : Filled f (n / 2 + 1) (n / 2) ((List.range n).filter (· ≠ l))) :
    (f.p1 ++ f.p2.set (f.p2.length - 1) l).Perm (List.range n) := by
  have hlen := length_filter_ne hl
  have h1 := h.length_p1
  have h2 := h.length_p2
  have hone : n / 2 + 1 + n / 2 - ((List.range n).filter (· ≠ l)).length = 1 := by omega
  have hidx : ((List.range n).filter (· ≠ l)).length - f.p1.length = f.p2.length - 1 := by omega
  have hset : f.p1 ++ f.p2.set (f.p2.length - 1) l = (List.range n).filter (· ≠ l) ++ [l] := by
    calc f.p1 ++ f.p2.set (f.p2.length - 1) l
        = (f.p1 ++ f.p2).set ((List.range n).filter (· ≠ l)).length l := by
          rw [List.set_append_right _ _ (by omega), hidx]
      _ = (List.range n).filter (· ≠ l) ++ [l] := by
          rw [h.slots, hone, List.set_append_right _ _ le_rfl, Nat.sub_self,
            List.replicate_one, List.set_cons_zero]
  rw [hset]
  exact filter_ne_append_perm hl

/-- For at least three servers `MakePartition` splits them into a majority and a rest that
contains the given server exactly if their number is odd: for an even one the two slices have
one element more than there are servers. -/
theorem makePartition_splits_iff_odd (n l : ℕ) (hn : 3 ≤ n) (hl : l < n) :
    (∃ p1 p2, makePartition n l = some (p1, p2) ∧ (p1 ++ p2).Perm (List.range n) ∧ l ∈ p2 ∧
      n / 2 < p1.length) ↔ n % 2 = 1 := by
  obtain ⟨f, hfilled, hresult⟩ := makePartition_filled hn hl
  have h1 := hfilled.length_p1
  have h2 := hfilled.length_p2
  constructor
  · rintro ⟨p1, p2, hp, hperm, -, -⟩
    rw [hresult, Option.some.injEq, Prod.mk.injEq] at hp
    obtain ⟨rfl, rfl⟩ := hp
    have hlen := hperm.length_eq
    rw [List.length_append, List.length_set, List.length_range] at hlen
    omega
  · intro hodd
    exact ⟨_, _, hresult, hfilled.perm hn hodd hl, List.mem_set (by omega) l, by omega⟩

theorem makePartition_five : ∃ p1 p2, makePartition 5 1 = some (p1, p2) ∧
    (p1 ++ p2).Perm (List.range 5) ∧ 1 ∈ p2 ∧ 5 / 2 < p1.length :=
  (makePartition_splits_iff_odd 5 1 (by decide) (by decide)).mpr (by decide)

/-- With four servers one element of the second side is never written. -/
theorem makePartition_four : makePartition 4 1 = some ([0, 2, 3], [0, 1]) ∧
    ¬ ([0, 2, 3] ++ [0, 1]).Perm (List.range 4) := by
  decide

end Tester
