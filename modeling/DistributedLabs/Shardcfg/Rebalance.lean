import DistributedLabs.Shardcfg.Config

/-! `Rebalance` ends, gives every shard a group of the configuration, and leaves the shard
counts of any two groups within one of each other. -/
namespace Shardcfg
open Balance

/-- The extremes of the counts `n` over the groups `l`. -/
structure Extremal (n : Tgid → ℤ) (l : List Tgid) (a : Extremes) : Prop where
  mg_mem : a.mg ∈ l
  mn_eq : a.mn = n a.mg
  le_mn : ∀ g ∈ l, n g ≤ a.mn
  lg_mem : a.lg ∈ l
  ln_eq : a.ln = n a.lg
  ln_le : ∀ g ∈ l, a.ln ≤ n g

section analyze
variable {n : Tgid → ℤ} {l : List Tgid} {a : Extremes} {g : Tgid}

theorem consider_first (hpos : 0 ≤ n g) (hlt : n g < 257) :
    Extremal n [g] (Extremes.start.consider n g) := by
  have hmn : n g > -1 := by omega
  have heq : Extremes.start.consider n g = ⟨g, n g, g, n g⟩ := by
    simp [Extremes.consider, Extremes.start, hlt, hmn]
  rw [heq]
  constructor <;> simp

theorem consider_next (h : Extremal n l a) : Extremal n (l ++ [g]) (a.consider n g) := by
  have hmn := h.mn_eq
  have hln := h.ln_eq
  have hmg := List.mem_append_left [g] h.mg_mem
  have hlg := List.mem_append_left [g] h.lg_mem
  have hg : g ∈ l ++ [g] := by simp
  unfold Extremes.consider
  by_cases hlt : n g < a.ln
  · have hle : ¬ n g > a.mn := by
      have := h.ln_le a.mg h.mg_mem
      omega
    simp only [hlt, hle, ↓reduceIte]
    refine ⟨hmg, hmn, ?_, hg, rfl, ?_⟩
    · intro x hx
      rcases List.mem_append.mp hx with hx | hx
      · exact h.le_mn x hx
      · rw [List.mem_singleton.mp hx]
        exact not_lt.mp hle
    · intro x hx
      rcases List.mem_append.mp hx with hx | hx
      · exact hlt.le.trans (h.ln_le x hx)
      · rw [List.mem_singleton.mp hx]
  · have hmin : ∀ x ∈ l ++ [g], a.ln ≤ n x := by
      intro x hx
      rcases List.mem_append.mp hx with hx | hx
      · exact h.ln_le x hx
      · rw [List.mem_singleton.mp hx]
        omega
    by_cases hgt : n g > a.mn
    · simp only [hlt, hgt, ↓reduceIte]
      refine ⟨hg, rfl, ?_, hlg, hln, hmin⟩
      intro x hx
      rcases List.mem_append.mp hx with hx | hx
      · exact (h.le_mn x hx).trans hgt.le
      · rw [List.mem_singleton.mp hx]
    · simp only [hlt, hgt, ↓reduceIte]
      refine ⟨hmg, hmn, ?_, hlg, hln, hmin⟩
      intro x hx
      rcases List.mem_append.mp hx with hx | hx
      · exact h.le_mn x hx
      · rw [List.mem_singleton.mp hx]
        omega

theorem extremal_foldl (hn : ∀ g, 0 ≤ n g ∧ n g < 257) (hl : l ≠ []) :
    Extremal n l (l.foldl (Extremes.consider n) .start) := by
  induction l using List.reverseRecOn with
  | nil => exact absurd rfl hl
  | append_singleton l g ih =>
    rw [List.foldl_append, List.foldl_cons, List.foldl_nil]
    by_cases hnil : l = []
    · subst hnil
      exact consider_first (hn g).1 (hn g).2
    · exact consider_next (ih hnil)

end analyze

variable {c d : ShardConfig} {s : Fin nShards} {g mg lg : Tgid} {fuel : ℕ}

theorem counts_bounds (c : ShardConfig) (g : Tgid) : 0 ≤ c.counts g ∧ c.counts g < 257 := by
  have hle : load c.shards g ≤ 12 := by simpa using load_le_card c.shards g
  unfold ShardConfig.counts
  omega

theorem analyze_extremal (h : c.groups.keys ≠ []) :
    Extremal c.counts c.groups.keys (analyze c) := by
  have hmem : ∀ x, x ∈ c.groups.keys.insertionSort (· ≤ ·) ↔ x ∈ c.groups.keys := by
    intro x
    exact List.mem_insertionSort _
  have hne : c.groups.keys.insertionSort (· ≤ ·) ≠ [] := by
    intro hnil
    obtain ⟨x, hx⟩ := List.exists_mem_of_ne_nil _ h
    simpa [hnil] using (hmem x).mpr hx
  have he := extremal_foldl (counts_bounds c) hne
  exact ⟨(hmem _).mp he.mg_mem, he.mn_eq, fun x hx => he.le_mn x ((hmem x).mpr hx),
    (hmem _).mp he.lg_mem, he.ln_eq, fun x hx => he.ln_le x ((hmem x).mpr hx)⟩

@[simp] theorem setShard_num : (c.setShard s g).num = c.num := rfl

@[simp] theorem setShard_groups : (c.setShard s g).groups = c.groups := rfl

@[simp] theorem setShard_shards : (c.setShard s g).shards = Function.update c.shards s g := rfl

/-- Only the assignment of the shards may have changed. -/
def SameGroups (c d : ShardConfig) : Prop := d.num = c.num ∧ d.groups = c.groups

theorem assign_same (c : ShardConfig) (s : Fin nShards) (g : Tgid) :
    SameGroups c (assign c s g) := by
  unfold assign
  split
  · exact ⟨rfl, rfl⟩
  · exact ⟨rfl, rfl⟩

theorem assign_shards_ne {s' : Fin nShards} (hne : s' ≠ s) :
    (assign c s g).shards s' = c.shards s' := by
  unfold assign
  split
  · rfl
  · simp [hne]

theorem assign_assigned (h : c.groups.keys ≠ []) :
    (assign c s (c.shards s)).shards s ∈ c.groups := by
  unfold assign
  split
  · assumption
  · have hmem : least c ∈ c.groups := AList.mem_keys.mpr (analyze_extremal h).lg_mem
    simpa using hmem

/-- The rounds over the shards `l`, none of which was reached before, assign all of them. -/
theorem assign_foldl {l : List (Fin nShards)} (h : c.groups.keys ≠ []) (hnd : l.Nodup)
    (hd : SameGroups c d) (hl : ∀ s ∈ l, d.shards s = c.shards s)
    (hrest : ∀ s ∉ l, d.shards s ∈ c.groups) :
    let e := l.foldl (fun d s => assign d s (c.shards s)) d
    SameGroups c e ∧ ∀ s, e.shards s ∈ c.groups := by
  induction l generalizing d with
  | nil =>
    refine ⟨hd, ?_⟩
    intro s
    exact hrest s (by simp)
  | cons x l ih =>
    obtain ⟨hx, hnd⟩ := List.nodup_cons.mp hnd
    have hsame := assign_same d x (c.shards x)
    have hxd : d.shards x = c.shards x := hl x (by simp)
    have hkeys : d.groups.keys ≠ [] := by rwa [hd.2]
    apply ih hnd ⟨hsame.1.trans hd.1, hsame.2.trans hd.2⟩
    · intro s hs
      have hne : s ≠ x := by
        intro heq
        exact hx (heq ▸ hs)
      rw [assign_shards_ne hne]
      exact hl s (List.mem_cons_of_mem _ hs)
    · intro s hs
      by_cases heq : s = x
      · subst heq
        rw [← hxd, ← hd.2]
        exact assign_assigned hkeys
      · rw [assign_shards_ne heq]
        exact hrest s (by simp [heq, hs])

/-- Every shard maps to a group of the configuration. -/
def Assigned (c : ShardConfig) : Prop := ∀ s, c.shards s ∈ c.groups

theorem assignAll_spec (h : c.groups.keys ≠ []) :
    SameGroups c (assignAll c) ∧ Assigned (assignAll c) := by
  obtain ⟨hsame, hall⟩ := assign_foldl (d := c) h (List.nodup_finRange nShards) ⟨rfl, rfl⟩
    (fun _ _ => rfl) (fun s hs => absurd (List.mem_finRange s) hs)
  unfold assignAll Assigned
  refine ⟨hsame, ?_⟩
  intro s
  rw [hsame.2]
  exact hall s

/-- The counts of any two groups differ by one at most. -/
def Balanced (c : ShardConfig) : Prop :=
  ∀ g ∈ c.groups, ∀ g' ∈ c.groups, load c.shards g ≤ load c.shards g' + 1

theorem moveOne_same (c : ShardConfig) (mg lg : Tgid) : SameGroups c (moveOne c mg lg) := by
  unfold moveOne
  split
  · exact ⟨rfl, rfl⟩
  · exact ⟨rfl, rfl⟩

theorem moveOne_eq (h : 0 < load c.shards mg) :
    ∃ s, c.shards s = mg ∧ moveOne c mg lg = c.setShard s lg := by
  obtain ⟨s, hs⟩ := exists_of_load_pos h
  cases hf : (List.finRange nShards).find? fun s => c.shards s = mg with
  | none =>
    have := List.find?_eq_none.mp hf s (List.mem_finRange s)
    simp [hs] at this
  | some s' =>
    have hs' := List.find?_some hf
    refine ⟨s', by simpa using hs', ?_⟩
    unfold moveOne
    rw [hf]

theorem moveOne_assigned (h : Assigned c) (hlg : lg ∈ c.groups) : Assigned (moveOne c mg lg) := by
  intro s
  rw [(moveOne_same c mg lg).2]
  unfold moveOne
  split
  next s' _ =>
    by_cases heq : s = s'
    · simpa [heq] using hlg
    · simpa [heq] using h s
  next => exact h s

/-- The measure of the loop that moves shards. -/
def imbalance (c : ShardConfig) : ℕ := potential c.groups.keys.toFinset c.shards

theorem imbalance_moveOne (h : c.groups.keys ≠ [])
    (hmove : ¬ (analyze c).mn < (analyze c).ln + 2) :
    imbalance (moveOne c (analyze c).mg (analyze c).lg) < imbalance c := by
  have he := analyze_extremal h
  have hload : load c.shards (analyze c).lg + 2 ≤ load c.shards (analyze c).mg := by
    have hmn : (analyze c).mn = load c.shards (analyze c).mg := he.mn_eq
    have hln : (analyze c).ln = load c.shards (analyze c).lg := he.ln_eq
    omega
  have hpos : 0 < load c.shards (analyze c).mg := by omega
  obtain ⟨s, hs, heq⟩ := moveOne_eq hpos
  rw [heq]
  exact potential_move_lt (List.mem_toFinset.mpr he.mg_mem) (List.mem_toFinset.mpr he.lg_mem)
    hs hload

theorem balanced_of_break (h : c.groups.keys ≠ []) (hbreak : (analyze c).mn < (analyze c).ln + 2) :
    Balanced c := by
  intro g hg g' hg'
  have he := analyze_extremal h
  have hle : (load c.shards g : ℤ) ≤ (analyze c).mn := he.le_mn g hg
  have hge : (analyze c).ln ≤ (load c.shards g' : ℤ) := he.ln_le g' hg'
  omega

/-- With more rounds than its measure the loop ends, and it ends balanced. -/
theorem moveLoop_spec (h : c.groups.keys ≠ []) (hc : Assigned c) (hfuel : imbalance c < fuel) :
    ∃ d, moveLoop fuel c = some d ∧ SameGroups c d ∧ Assigned d ∧ Balanced d := by
  induction fuel generalizing c with
  | zero => omega
  | succ fuel ih =>
    unfold moveLoop
    by_cases hbreak : (analyze c).mn < (analyze c).ln + 2
    · refine ⟨c, ?_, ⟨rfl, rfl⟩, hc, balanced_of_break h hbreak⟩
      simp [hbreak]
    · have hsame := moveOne_same c (analyze c).mg (analyze c).lg
      have hlt := imbalance_moveOne h hbreak
      have hkeys : (moveOne c (analyze c).mg (analyze c).lg).groups.keys ≠ [] := by
        rwa [hsame.2]
      have hassigned : Assigned (moveOne c (analyze c).mg (analyze c).lg) :=
        moveOne_assigned hc (analyze_extremal h).lg_mem
      obtain ⟨d, hd, hsame', had, hbd⟩ := ih hkeys hassigned (by omega)
      refine ⟨d, ?_, ⟨hsame'.1.trans hsame.1, hsame'.2.trans hsame.2⟩, had, hbd⟩
      simpa [hbreak] using hd

/-- What a configuration is like after `Rebalance`. -/
def Placed (c : ShardConfig) : Prop :=
  (c.groups.keys = [] → ∀ s, c.shards s = 0) ∧
    (c.groups.keys ≠ [] → Assigned c ∧ Balanced c)

theorem rebalance_spec (c : ShardConfig) :
    ∃ d, rebalance c = some d ∧ SameGroups c d ∧ Placed d := by
  unfold rebalance
  by_cases h : c.groups.keys = []
  · refine ⟨{ c with shards := fun _ => 0 }, ?_, ⟨rfl, rfl⟩, fun _ _ => rfl, ?_⟩
    · simp [h]
    · exact fun hne => absurd h hne
  · have hlen : ¬ c.groups.keys.length < 1 := by
      have := List.length_pos_iff.mpr h
      omega
    obtain ⟨hsame, hassigned⟩ := assignAll_spec h
    have hkeys : (assignAll c).groups.keys ≠ [] := by rwa [hsame.2]
    have hfuel : imbalance (assignAll c) < moveRounds := by
      have hle := potential_le (assignAll c).groups.keys.toFinset (assignAll c).shards
      rw [Fintype.card_fin] at hle
      unfold imbalance moveRounds
      omega
    obtain ⟨d, hd, hsame', had, hbd⟩ := moveLoop_spec hkeys hassigned hfuel
    refine ⟨d, ?_, ⟨hsame'.1.trans hsame.1, hsame'.2.trans hsame.2⟩, ?_, fun _ => ⟨had, hbd⟩⟩
    · rw [if_neg hlen, hd]
    · intro hnil
      rw [hsame'.2, hsame.2] at hnil
      exact absurd hnil h

/-- `Rebalance` ends for every configuration that has a group, and leaves all shards with
groups of the configuration and the counts of any two groups within one of each other. -/
theorem rebalance_balances (c : ShardConfig) (h : c.groups.keys ≠ []) :
    ∃ d, rebalance c = some d ∧ d.num = c.num ∧ d.groups = c.groups ∧
      (∀ s, d.shards s ∈ c.groups) ∧
      ∀ g ∈ c.groups, ∀ g' ∈ c.groups, load d.shards g ≤ load d.shards g' + 1 := by
  obtain ⟨d, hd, ⟨hnum, hgroups⟩, -, hplaced⟩ := rebalance_spec c
  have hkeys : d.groups.keys ≠ [] := by rwa [hgroups]
  obtain ⟨hassigned, hbalanced⟩ := hplaced hkeys
  refine ⟨d, hd, hnum, hgroups, ?_, ?_⟩
  · intro s
    rw [← hgroups]
    exact hassigned s
  · intro g hg g' hg'
    rw [← hgroups] at hg hg'
    exact hbalanced g hg g' hg'

/-- Nine shards of one group, two of another, one of a group that has left, and a group that
has none yet. -/
def lopsided : ShardConfig where
  num := 4
  shards s := if s < 9 then 7 else if s < 11 then -3 else 99
  groups := [⟨7, ["a"]⟩, ⟨-3, ["b"]⟩, ⟨12, ["c"]⟩].toAList

theorem lopsided_balances : lopsided.groups.keys ≠ [] ∧ ∃ d, rebalance lopsided = some d ∧
    d.num = lopsided.num ∧ d.groups = lopsided.groups ∧ (∀ s, d.shards s ∈ lopsided.groups) ∧
    ∀ g ∈ lopsided.groups, ∀ g' ∈ lopsided.groups, load d.shards g ≤ load d.shards g' + 1 :=
  ⟨by decide, rebalance_balances lopsided (by decide)⟩

end Shardcfg
