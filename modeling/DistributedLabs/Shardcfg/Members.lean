import DistributedLabs.Shardcfg.Minimal

/-! `IsMember` looks for a group in the assignment of the shards instead of the table of groups. -/
namespace Shardcfg
open Balance
variable {c d : ShardConfig} {gid : Tgid}

def ShardConfig.isMember (c : ShardConfig) (gid : Tgid) : Bool :=
  (List.finRange nShards).any fun s => c.shards s = gid

/-- The configurations that calls of `JoinBalance` and `LeaveBalance` lead to, each of which
returned true. -/
inductive Reached : ShardConfig → Prop
  | make : Reached makeShardConfig
  | join {c d : ShardConfig} (servers : List (Tgid × List String)) (hc : Reached c)
      (hd : joinBalance c servers = some (.returned d true)) : Reached d
  | leave {c d : ShardConfig} (gids : List Tgid) (hc : Reached c)
      (hd : leaveBalance c gids = some (.returned d true)) : Reached d

/-- A call that returns true has rebalanced the configuration. -/
theorem placed_of_balance {o : Outcome} (h : o.balance = some (.returned d true)) : Placed d := by
  cases o with
  | fatal => simp [Outcome.balance] at h
  | returned c ok =>
    cases ok with
    | false => simp [Outcome.balance] at h
    | true =>
      obtain ⟨d', hd', -, hplaced⟩ := rebalance_spec c
      simp only [Outcome.balance, hd', Option.map_some, Option.some.injEq, Outcome.returned.injEq,
        and_true] at h
      exact h ▸ hplaced

theorem placed_of_reached (h : Reached c) : Placed c := by
  cases h with
  | make => exact ⟨fun _ _ => rfl, fun hne => absurd rfl hne⟩
  | join servers hc hd => exact placed_of_balance hd
  | leave gids hc hd => exact placed_of_balance hd

theorem isMember_iff : c.isMember gid = true ↔ ∃ s, c.shards s = gid := by
  simp [ShardConfig.isMember]

/-- A group that owns a shard is in the table. -/
theorem mem_of_isMember (h : Placed c) (hgid : gid ≠ 0) (hm : c.isMember gid = true) :
    gid ∈ c.groups := by
  obtain ⟨s, hs⟩ := isMember_iff.mp hm
  by_cases hnil : c.groups.keys = []
  · exact absurd (hs.symm.trans (h.1 hnil s)) hgid
  · exact hs ▸ (h.2 hnil).1 s

/-- Of at most `nShards` groups every one owns a shard. -/
theorem isMember_of_mem (h : Placed c) (hcard : c.groups.keys.length ≤ nShards)
    (hm : gid ∈ c.groups) : c.isMember gid = true := by
  obtain ⟨hassigned, hbalanced⟩ := h.2 (List.ne_nil_of_mem hm)
  have hlevel : Level c.gids (load c.shards) := by
    intro g hg g' hg'
    exact hbalanced g (mem_gids.mp hg) g' (mem_gids.mp hg')
  have hfew : c.gids.card ≤ Fintype.card (Fin nShards) := by
    rw [Fintype.card_fin]
    exact (List.toFinset_card_le _).trans hcard
  have hpos := hlevel.load_pos (fun s => mem_gids.mpr (hassigned s)) hfew (mem_gids.mpr hm)
  exact isMember_iff.mpr (exists_of_load_pos hpos)

/-- With at most `nShards` groups `IsMember` agrees with the table. -/
theorem isMember_iff_mem (h : Reached c) (hcard : c.groups.keys.length ≤ nShards)
    (hgid : gid ≠ 0) : c.isMember gid = true ↔ gid ∈ c.groups := by
  have hplaced := placed_of_reached h
  constructor
  · exact mem_of_isMember hplaced hgid
  · exact isMember_of_mem hplaced hcard

/-- As many groups as there are shards join at once. -/
def fullTable : List (Tgid × List String) :=
  [(1, ["a"]), (2, ["b"]), (3, ["c"]), (4, ["d"]), (5, ["e"]), (6, ["f"]), (7, ["g"]), (8, ["h"]),
    (9, ["i"]), (10, ["j"]), (11, ["k"]), (12, ["l"])]

theorem fullTable_members : ∃ c, Reached c ∧ c.groups.keys.length = 12 ∧
    (c.isMember 7 = true ↔ 7 ∈ c.groups) := by
  have hjoin : (joinBalance makeShardConfig fullTable).any fun o => match o with
      | .returned c ok => ok && c.groups.keys.length = 12
      | .fatal => false := by decide +kernel
  obtain ⟨o, ho, hok⟩ := (Option.any_eq_true _ _).mp hjoin
  cases o with
  | fatal => cases hok
  | returned c ok =>
    simp only [Bool.and_eq_true, decide_eq_true_eq] at hok
    obtain ⟨rfl, hlen⟩ := hok
    have hreached : Reached c := .join fullTable .make ho
    exact ⟨c, hreached, hlen, isMember_iff_mem hreached hlen.le (by decide)⟩

/-- One group more joins. Some group is in the table without a shard. -/
theorem crowded_not_member : ∃ c, Reached c ∧ 13 ∈ c.groups ∧ c.isMember 13 = false := by
  have hjoin : (joinBalance makeShardConfig (fullTable ++ [(13, ["m"])])).any fun o => match o with
      | .returned c ok => ok && 13 ∈ c.groups.keys && !c.isMember 13
      | .fatal => false := by decide +kernel
  obtain ⟨o, ho, hok⟩ := (Option.any_eq_true _ _).mp hjoin
  cases o with
  | fatal => cases hok
  | returned c ok =>
    simp only [Bool.and_eq_true, decide_eq_true_eq, Bool.not_eq_true'] at hok
    obtain ⟨⟨rfl, hmem⟩, hnot⟩ := hok
    exact ⟨c, .join _ .make ho, AList.mem_keys.mpr hmem, hnot⟩

end Shardcfg
