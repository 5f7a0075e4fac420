import DistributedLabs.Shardcfg.Rebalance
import DistributedLabs.Balance.Moves

/-! `Rebalance` moves as few shards as possible: both of its loops are greedy. -/
namespace Shardcfg
open Balance
variable {c d : ShardConfig} {s : Fin nShards}

/-- The groups of a configuration. -/
def ShardConfig.gids (c : ShardConfig) : Finset Tgid := c.groups.keys.toFinset

theorem mem_gids {g : Tgid} : g ∈ c.gids ↔ g ∈ c.groups := List.mem_toFinset

/-- `least` is a group with the fewest shards. -/
theorem least_le (h : c.groups.keys ≠ []) :
    least c ∈ c.gids ∧ ∀ g ∈ c.gids, load c.shards (least c) ≤ load c.shards g := by
  have he := analyze_extremal h
  refine ⟨mem_gids.mpr he.lg_mem, ?_⟩
  intro g hg
  have hle := he.ln_le g (mem_gids.mp hg)
  rw [he.ln_eq] at hle
  unfold ShardConfig.counts at hle
  unfold least
  omega

/-- One round of the loop over the unassigned shards. -/
theorem filled_assign {old : Fin nShards → Tgid} (h : c.groups.keys ≠ [])
    (hf : Filled c.gids old c.shards) : Filled c.gids old (assign c s (c.shards s)).shards := by
  unfold assign
  split
  next => exact hf
  next hnot =>
    obtain ⟨hmem, hmin⟩ := least_le h
    exact hf.fill (fun hs => hnot (mem_gids.mp hs)) hmem hmin

theorem filled_foldl {l : List (Fin nShards)} (h : c.groups.keys ≠ []) (hnd : l.Nodup)
    (hd : SameGroups c d) (hl : ∀ s ∈ l, d.shards s = c.shards s)
    (hf : Filled c.gids c.shards d.shards) :
    Filled c.gids c.shards (l.foldl (fun d s => assign d s (c.shards s)) d).shards := by
  induction l generalizing d with
  | nil => exact hf
  | cons x l ih =>
    obtain ⟨hx, hnd⟩ := List.nodup_cons.mp hnd
    have hsame := assign_same d x (c.shards x)
    have hgids : d.gids = c.gids := by rw [ShardConfig.gids, hd.2, ShardConfig.gids]
    have hkeys : d.groups.keys ≠ [] := by rwa [hd.2]
    apply ih hnd ⟨hsame.1.trans hd.1, hsame.2.trans hd.2⟩
    · intro s hs
      have hne : s ≠ x := fun heq => hx (heq ▸ hs)
      rw [assign_shards_ne hne]
      exact hl s (List.mem_cons_of_mem _ hs)
    · rw [← hl x List.mem_cons_self, ← hgids]
      exact filled_assign hkeys (hgids ▸ hf)

theorem filled_assignAll (h : c.groups.keys ≠ []) :
    Filled c.gids c.shards (assignAll c).shards :=
  filled_foldl h (List.nodup_finRange nShards) ⟨rfl, rfl⟩ (fun _ _ => rfl) (filled_refl _ _)

/-- One move of the second loop. -/
theorem greedy_moveOne {old : Fin nShards → Tgid} (h : c.groups.keys ≠ [])
    (hmove : ¬ (analyze c).mn < (analyze c).ln + 2) (hg : Greedy c.gids old c.shards) :
    Greedy c.gids old (moveOne c (analyze c).mg (analyze c).lg).shards := by
  have he := analyze_extremal h
  have hmn : (analyze c).mn = load c.shards (analyze c).mg := he.mn_eq
  have hln : (analyze c).ln = load c.shards (analyze c).lg := he.ln_eq
  have hpos : 0 < load c.shards (analyze c).mg := by omega
  obtain ⟨s, hs, heq⟩ := moveOne_eq hpos
  rw [heq, setShard_shards]
  apply hg.move
  refine ⟨mem_gids.mpr he.mg_mem, mem_gids.mpr he.lg_mem, hs, ?_, ?_, ?_⟩
  · intro g hg
    have hle : (load c.shards g : ℤ) ≤ (analyze c).mn := he.le_mn g (mem_gids.mp hg)
    omega
  · intro g hg
    have hge : (analyze c).ln ≤ (load c.shards g : ℤ) := he.ln_le g (mem_gids.mp hg)
    omega
  · omega

theorem greedy_moveLoop {old : Fin nShards → Tgid} {fuel : ℕ} (h : c.groups.keys ≠ [])
    (hg : Greedy c.gids old c.shards) (hd : moveLoop fuel c = some d) :
    Greedy c.gids old d.shards := by
  induction fuel generalizing c with
  | zero => contradiction
  | succ fuel ih =>
    unfold moveLoop at hd
    by_cases hbreak : (analyze c).mn < (analyze c).ln + 2
    · simp only [hbreak, ↓reduceIte, Option.some.injEq] at hd
      rwa [← hd]
    · simp only [hbreak, ↓reduceIte] at hd
      have hsame := moveOne_same c (analyze c).mg (analyze c).lg
      have hgids : (moveOne c (analyze c).mg (analyze c).lg).gids = c.gids := by
        rw [ShardConfig.gids, hsame.2, ShardConfig.gids]
      have hkeys : (moveOne c (analyze c).mg (analyze c).lg).groups.keys ≠ [] := by
        rwa [hsame.2]
      have hgreedy := greedy_moveOne h hbreak hg
      rw [← hgids] at hgreedy ⊢
      exact ih hkeys hgreedy hd

/-- The loops of `Rebalance`, one after the other. -/
theorem greedy_rebalance (h : c.groups.keys ≠ []) (hd : rebalance c = some d) :
    Greedy c.gids c.shards d.shards := by
  have hlen : ¬ c.groups.keys.length < 1 := by
    have := List.length_pos_iff.mpr h
    omega
  unfold rebalance at hd
  rw [if_neg hlen] at hd
  have hsame := (assignAll_spec h).1
  have hgids : (assignAll c).gids = c.gids := by rw [ShardConfig.gids, hsame.2, ShardConfig.gids]
  have hkeys : (assignAll c).groups.keys ≠ [] := by rwa [hsame.2]
  have hfilled := (filled_assignAll h).greedy
  rw [← hgids] at hfilled ⊢
  exact greedy_moveLoop hkeys hfilled hd

/-- The number of shards of the groups of `c` that the assignment `f` gives to another group. -/
def shardsMoved (c : ShardConfig) (f : Fin nShards → Tgid) : ℕ :=
  (Finset.univ.filter fun s => c.shards s ∈ c.groups ∧ f s ≠ c.shards s).card

theorem shardsMoved_eq (c : ShardConfig) (f : Fin nShards → Tgid) :
    shardsMoved c f = moved c.gids c.shards f := by
  unfold shardsMoved moved
  simp only [mem_gids]

theorem shardsMoved_self (c : ShardConfig) : shardsMoved c c.shards = 0 := by
  unfold shardsMoved
  simp

/-- An assignment that moves no shard of the groups is the old one if this is complete. -/
theorem eq_of_shardsMoved {f : Fin nShards → Tgid} (hc : Assigned c) (h : shardsMoved c f = 0) :
    f = c.shards := by
  unfold shardsMoved at h
  rw [Finset.card_eq_zero, Finset.filter_eq_empty_iff] at h
  funext s
  by_contra hne
  exact h (Finset.mem_univ s) ⟨hc s, hne⟩

/-- Among all balanced assignments to the groups, `Rebalance` makes one that moves the fewest
shards of the groups; if the assignment was one of them, nothing changes. -/
theorem rebalance_minimal (c : ShardConfig) (h : c.groups.keys ≠ []) :
    ∃ d, rebalance c = some d ∧
      (∀ f : Fin nShards → Tgid, (∀ s, f s ∈ c.groups) →
        (∀ g ∈ c.groups, ∀ g' ∈ c.groups, load f g ≤ load f g' + 1) →
        shardsMoved c d.shards ≤ shardsMoved c f) ∧
      ((∀ s, c.shards s ∈ c.groups) →
        (∀ g ∈ c.groups, ∀ g' ∈ c.groups, load c.shards g ≤ load c.shards g' + 1) → d = c) := by
  obtain ⟨d, hd, hsame, -, hplaced⟩ := rebalance_spec c
  have hkeys : d.groups.keys ≠ [] := by rwa [hsame.2]
  obtain ⟨hassigned, hbalanced⟩ := hplaced hkeys
  have hmin : ∀ f : Fin nShards → Tgid, (∀ s, f s ∈ c.groups) →
      (∀ g ∈ c.groups, ∀ g' ∈ c.groups, load f g ≤ load f g' + 1) →
      shardsMoved c d.shards ≤ shardsMoved c f := by
    intro f hf hlevel
    rw [shardsMoved_eq, shardsMoved_eq]
    apply (greedy_rebalance h hd).moved_le
    · intro s
      rw [mem_gids, ← hsame.2]
      exact hassigned s
    · intro g hg g' hg'
      rw [mem_gids, ← hsame.2] at hg hg'
      exact hbalanced g hg g' hg'
    · intro s
      exact mem_gids.mpr (hf s)
    · intro g hg g' hg'
      exact hlevel g (mem_gids.mp hg) g' (mem_gids.mp hg')
  refine ⟨d, hd, hmin, ?_⟩
  intro hc hlevel
  have hzero : shardsMoved c d.shards = 0 := by
    have := hmin c.shards hc hlevel
    rw [shardsMoved_self] at this
    omega
  have hshards := eq_of_shardsMoved hc hzero
  obtain ⟨hnum, hgroups⟩ := hsame
  cases d
  simp_all

theorem lopsided_minimal : lopsided.groups.keys ≠ [] ∧ ∃ d, rebalance lopsided = some d ∧
    (∀ f : Fin nShards → Tgid, (∀ s, f s ∈ lopsided.groups) →
      (∀ g ∈ lopsided.groups, ∀ g' ∈ lopsided.groups, load f g ≤ load f g' + 1) →
      shardsMoved lopsided d.shards ≤ shardsMoved lopsided f) ∧
    ((∀ s, lopsided.shards s ∈ lopsided.groups) →
      (∀ g ∈ lopsided.groups, ∀ g' ∈ lopsided.groups,
        load lopsided.shards g ≤ load lopsided.shards g' + 1) → d = lopsided) :=
  ⟨by decide, rebalance_minimal lopsided (by decide)⟩

end Shardcfg
