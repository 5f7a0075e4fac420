import DistributedLabs.Shardcfg.Config

/-! Calls of `Join` and `Leave` that return false. Both change the groups in the loop that
finds the reason to refuse, so nothing has changed only if the first round finds it. -/
namespace Shardcfg
variable {c d : ShardConfig} {ok changed : Bool}

/-- The first entry that `Join` meets is of a group of the configuration. -/
def FirstJoined (c : ShardConfig) (servers : List (Tgid × List String)) : Prop :=
  ∃ x rest, servers = x :: rest ∧ x.1 ∈ c.groups

/-- The first gid that `Leave` meets is not of a group of the configuration. -/
def FirstAbsent (c : ShardConfig) (gids : List Tgid) : Prop :=
  ∃ gid rest, gids = gid :: rest ∧ gid ∉ c.groups

/-- The loop of `Join` removes no group. -/
theorem mem_of_joinLoop {servers : List (Tgid × List String)}
    (h : joinLoop servers changed c = .returned d ok) {g : Tgid} (hg : g ∈ c.groups) :
    g ∈ d.groups := by
  induction servers generalizing c changed with
  | nil =>
    unfold joinLoop at h
    split at h
    · cases h
      exact hg
    · contradiction
  | cons x rest ih =>
    unfold joinLoop at h
    split at h
    · cases h
      exact hg
    · split at h
      · contradiction
      · apply ih h
        exact (AList.mem_insert _).mpr (.inr hg)

/-- The loop of `Leave` adds no group. -/
theorem mem_of_leaveLoop {gids : List Tgid} (h : leaveLoop gids changed c = .returned d ok)
    {g : Tgid} (hg : g ∈ d.groups) : g ∈ c.groups := by
  induction gids generalizing c changed with
  | nil =>
    unfold leaveLoop at h
    split at h
    · cases h
      exact hg
    · contradiction
  | cons gid rest ih =>
    unfold leaveLoop at h
    split at h
    · exact (AList.mem_erase.mp (ih h)).2
    · cases h
      exact hg

theorem join_refused {servers : List (Tgid × List String)}
    (h : join c servers = .returned d false) : d = c ↔ FirstJoined c servers := by
  unfold join at h
  cases servers with
  | nil => contradiction
  | cons x rest =>
    unfold joinLoop at h
    split at h
    next hmem =>
      cases h
      exact ⟨fun _ => ⟨_, _, rfl, hmem⟩, fun _ => rfl⟩
    next hnot =>
      split at h
      next => contradiction
      next =>
        have hnew := mem_of_joinLoop h ((AList.mem_insert _).mpr (.inl rfl))
        constructor
        · rintro rfl
          exact absurd hnew hnot
        · rintro ⟨y, rest', heq, hy⟩
          cases heq
          exact absurd hy hnot

theorem leave_refused {gids : List Tgid} (h : leave c gids = .returned d false) :
    d = c ↔ FirstAbsent c gids := by
  unfold leave at h
  cases gids with
  | nil => contradiction
  | cons gid rest =>
    unfold leaveLoop at h
    split at h
    next hmem =>
      constructor
      · rintro rfl
        have hold := mem_of_leaveLoop h hmem
        exact absurd rfl (AList.mem_erase.mp hold).1
      · rintro ⟨gid', rest', heq, hnot⟩
        cases heq
        exact absurd hmem hnot
    next hnot =>
      cases h
      exact ⟨fun _ => ⟨_, _, rfl, hnot⟩, fun _ => rfl⟩

/-- `Rebalance` comes only after a call that returned true. -/
theorem balance_eq_false {o : Outcome} (h : o.balance = some (.returned d false)) :
    o = .returned d false := by
  cases o with
  | fatal => cases h
  | returned c ok =>
    cases ok with
    | false => exact Option.some.inj h
    | true =>
      obtain ⟨e, -, he⟩ := Option.map_eq_some_iff.mp h
      cases he

/-- A call that returns false has changed nothing exactly when the reason to refuse was found
at the first group it looked at. -/
theorem refused_unchanged_iff (c : ShardConfig) :
    (∀ servers d, join c servers = .returned d false → (d = c ↔ FirstJoined c servers)) ∧
    (∀ gids d, leave c gids = .returned d false → (d = c ↔ FirstAbsent c gids)) ∧
    (∀ servers d, joinBalance c servers = some (.returned d false) →
      (d = c ↔ FirstJoined c servers)) ∧
    (∀ gids d, leaveBalance c gids = some (.returned d false) → (d = c ↔ FirstAbsent c gids)) := by
  refine ⟨fun _ _ h => join_refused h, fun _ _ h => leave_refused h, ?_, ?_⟩
  · intro servers d h
    exact join_refused (balance_eq_false h)
  · intro gids d h
    exact leave_refused (balance_eq_false h)

/-- A configuration with two groups. -/
def twoGroups : ShardConfig where
  num := 2
  shards s := if s < 6 then 1 else 2
  groups := [⟨1, ["a"]⟩, ⟨2, ["b"]⟩].toAList

theorem twoGroups_unchanged :
    (∃ d, joinBalance twoGroups [(2, ["e"]), (3, ["f"])] = some (.returned d false) ∧
      d = twoGroups) ∧
    ∃ d, leaveBalance twoGroups [3, 1] = some (.returned d false) ∧ d = twoGroups := by
  obtain ⟨-, -, hjoin, hleave⟩ := refused_unchanged_iff twoGroups
  constructor
  · have hfirst : FirstJoined twoGroups [(2, ["e"]), (3, ["f"])] := ⟨_, _, rfl, by decide⟩
    exact ⟨_, rfl, (hjoin _ _ rfl).mpr hfirst⟩
  · have hfirst : FirstAbsent twoGroups [3, 1] := ⟨_, _, rfl, by decide⟩
    exact ⟨_, rfl, (hleave _ _ rfl).mpr hfirst⟩

/-- A new group joins together with one that is there already, and a group leaves twice: both
calls are refused, and the first group of each has joined or left. -/
theorem twoGroups_changed :
    (∃ d, joinBalance twoGroups [(3, ["f"]), (2, ["e"])] = some (.returned d false) ∧
      3 ∈ d.groups ∧ d ≠ twoGroups) ∧
    ∃ d, leaveBalance twoGroups [1, 1] = some (.returned d false) ∧ 1 ∉ d.groups ∧
      d ≠ twoGroups := by
  refine ⟨⟨_, rfl, by decide, ?_⟩, ⟨_, rfl, by decide, ?_⟩⟩
  · intro heq
    have hmem : 3 ∈ twoGroups.groups := by
      rw [← heq]
      decide
    exact absurd hmem (by decide)
  · intro heq
    have hnot : 1 ∉ twoGroups.groups := by
      rw [← heq]
      decide
    exact absurd (by decide) hnot

end Shardcfg
