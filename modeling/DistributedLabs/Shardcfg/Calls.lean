import DistributedLabs.Shardcfg.Rebalance
import DistributedLabs.Runs.History

/-! Sequences of `JoinBalance` and `LeaveBalance` calls that name one group each. -/
namespace Shardcfg
open Balance Runs

inductive Call
  | join (gid : Tgid) (servers : List String)
  | leave (gid : Tgid)
  deriving DecidableEq, Repr

def Call.run (c : ShardConfig) : Call → Option Outcome
  | .join gid servers => joinBalance c [(gid, servers)]
  | .leave gid => leaveBalance c [gid]

/-- The configuration, and how many calls returned true so far. -/
structure State where
  cfg : ShardConfig
  trues : ℕ
  deriving DecidableEq

/-- The runs in which no call stops the process. -/
def calls : System State Call where
  init := ⟨makeShardConfig, 0⟩
  step s e :=
    match e.run s.cfg with
    | some (.returned c ok) => some ⟨c, if ok then s.trues + 1 else s.trues⟩
    | some .fatal => none
    | none => none

/-- The ways in which a call ends. -/
inductive Ends (c : ShardConfig) : Call → Outcome → Prop
  | rejoin {gid : Tgid} {servers : List String} : Ends c (.join gid servers) (.returned c false)
  | clash {gid : Tgid} {servers : List String} : Ends c (.join gid servers) .fatal
  | joined {gid : Tgid} {servers : List String} {d : ShardConfig} :
      gid ∉ c.groups → c.clash servers = false → d.num = c.num + 1 →
      d.groups = c.groups.insert gid servers → Placed d →
      Ends c (.join gid servers) (.returned d true)
  | absent {gid : Tgid} : Ends c (.leave gid) (.returned c false)
  | left {gid : Tgid} {d : ShardConfig} : d.num = c.num + 1 →
      d.groups = c.groups.erase gid → Placed d → Ends c (.leave gid) (.returned d true)

/-- Every call ends. -/
theorem run_ends (c : ShardConfig) (e : Call) : ∃ o, e.run c = some o ∧ Ends c e o := by
  cases e with
  | join gid servers =>
    by_cases hgid : gid ∈ c.groups
    · exact ⟨_, by simp [Call.run, joinBalance, join, joinLoop, hgid, Outcome.balance], .rejoin⟩
    · cases hclash : c.clash servers with
      | true =>
        refine ⟨_, ?_, .clash⟩
        simp [Call.run, joinBalance, join, joinLoop, hgid, hclash, Outcome.balance]
      | false =>
        obtain ⟨d, hd, ⟨hnum, hgroups⟩, hplaced⟩ := rebalance_spec
          { c with num := c.num + 1, groups := c.groups.insert gid servers }
        refine ⟨_, ?_, .joined hgid hclash hnum hgroups hplaced⟩
        simp [Call.run, joinBalance, join, joinLoop, hgid, hclash, Outcome.balance, hd]
  | leave gid =>
    by_cases hgid : gid ∈ c.groups
    · obtain ⟨d, hd, ⟨hnum, hgroups⟩, hplaced⟩ := rebalance_spec
        { c with num := c.num + 1, groups := c.groups.erase gid }
      refine ⟨_, ?_, .left hnum hgroups hplaced⟩
      simp [Call.run, leaveBalance, leave, leaveLoop, hgid, Outcome.balance, hd]
    · exact ⟨_, by simp [Call.run, leaveBalance, leave, leaveLoop, hgid, Outcome.balance], .absent⟩

/-- No server name is listed in two different groups. -/
def Disjoint (c : ShardConfig) : Prop :=
  ∀ g g' servers servers', g ≠ g' → c.groups.lookup g = some servers →
    c.groups.lookup g' = some servers' → ∀ name ∈ servers, name ∉ servers'

variable {c d : ShardConfig} {gid g : Tgid} {servers : List String}

theorem not_mem_of_clash (h : c.clash servers = false) {old : List String}
    (hg : c.groups.lookup g = some old) : ∀ name ∈ old, name ∉ servers := by
  intro name hold hnew
  have hmem : Sigma.mk g old ∈ c.groups.entries := AList.mem_lookup_iff.mp hg
  have hclash : c.clash servers = true := by
    unfold ShardConfig.clash
    simp only [List.any_eq_true, decide_eq_true_eq]
    exact ⟨_, hmem, name, hold, name, hnew, rfl⟩
  rw [h] at hclash
  contradiction

theorem disjoint_insert (h : Disjoint c) (hclash : c.clash servers = false)
    (hd : d.groups = c.groups.insert gid servers) : Disjoint d := by
  intro g g' old old' hne hg hg'
  rw [hd] at hg hg'
  by_cases hgid : g = gid
  · subst hgid
    rw [AList.lookup_insert] at hg
    rw [AList.lookup_insert_ne hne.symm] at hg'
    intro name hname hname'
    rw [← Option.some.inj hg] at hname
    exact not_mem_of_clash hclash hg' name hname' hname
  · rw [AList.lookup_insert_ne hgid] at hg
    by_cases hgid' : g' = gid
    · subst hgid'
      rw [AList.lookup_insert] at hg'
      rw [← Option.some.inj hg']
      exact not_mem_of_clash hclash hg
    · rw [AList.lookup_insert_ne hgid'] at hg'
      exact h g g' old old' hne hg hg'

theorem lookup_of_erase {old : List String} (h : (c.groups.erase gid).lookup g = some old) :
    c.groups.lookup g = some old := by
  have hne : g ≠ gid := by
    intro heq
    subst heq
    rw [AList.lookup_erase] at h
    contradiction
  rwa [AList.lookup_erase_ne hne] at h

theorem disjoint_erase (h : Disjoint c) (hd : d.groups = c.groups.erase gid) : Disjoint d := by
  intro g g' old old' hne hg hg'
  rw [hd] at hg hg'
  exact h g g' old old' hne (lookup_of_erase hg) (lookup_of_erase hg')

structure Inv (s : State) : Prop where
  num_eq : s.cfg.num = s.trues
  disjoint : Disjoint s.cfg
  placed : Placed s.cfg

theorem inv_init : Inv calls.init where
  num_eq := rfl
  disjoint := by
    intro g g' old old' _ hg
    simp [calls, makeShardConfig] at hg
  placed := ⟨fun _ _ => rfl, fun hne => absurd rfl hne⟩

theorem inv_step {s t : State} {e : Call} (h : Inv s) (hs : calls.step s e = some t) : Inv t := by
  obtain ⟨o, ho, hends⟩ := run_ends s.cfg e
  simp only [calls, ho] at hs
  cases hends with
  | rejoin =>
    obtain rfl := Option.some.inj hs
    exact h
  | clash => contradiction
  | joined _ hclash hnum hgroups hplaced =>
    obtain rfl := Option.some.inj hs
    exact ⟨by simp [hnum, h.num_eq], disjoint_insert h.disjoint hclash hgroups, hplaced⟩
  | absent =>
    obtain rfl := Option.some.inj hs
    exact h
  | left hnum hgroups hplaced =>
    obtain rfl := Option.some.inj hs
    exact ⟨by simp [hnum, h.num_eq], disjoint_erase h.disjoint hgroups, hplaced⟩

theorem inv_of_run {es : List Call} {s : State} (h : calls.Run es s) : Inv s :=
  h.invariant' (I := fun _ s => Inv s) inv_init fun _ _ _ _ _ hi hs => inv_step hi hs

/-- Along every sequence of calls the configuration stays numbered, disjoint and balanced,
and the next call ends. -/
theorem config_of_run (es : List Call) (s : State) (h : calls.Run es s) :
    s.cfg.num = s.trues ∧ Disjoint s.cfg ∧
    (s.cfg.groups.keys = [] → ∀ x, s.cfg.shards x = 0) ∧
    (s.cfg.groups.keys ≠ [] → (∀ x, s.cfg.shards x ∈ s.cfg.groups) ∧
      ∀ g ∈ s.cfg.groups, ∀ g' ∈ s.cfg.groups,
        load s.cfg.shards g ≤ load s.cfg.shards g' + 1) ∧
    ∀ e : Call, (e.run s.cfg).isSome := by
  have hinv := inv_of_run h
  refine ⟨hinv.num_eq, hinv.disjoint, hinv.placed.1, hinv.placed.2, ?_⟩
  intro e
  obtain ⟨o, ho, _⟩ := run_ends s.cfg e
  simp [ho]

/-- Three groups join, a join is rejected, and the first group leaves. -/
def basicRun : List Call :=
  [.join 1 ["x", "y", "z"], .join 2 ["a", "b", "c"], .join 3 ["d"], .join 2 ["e"], .leave 1]

theorem basicRun_config : ∃ s, calls.Run basicRun s ∧ s.trues = 4 ∧ s.cfg.num = 4 ∧
    2 ∈ s.cfg.groups ∧ 3 ∈ s.cfg.groups ∧ (∀ x, s.cfg.shards x ∈ s.cfg.groups) ∧
    load s.cfg.shards 2 ≤ load s.cfg.shards 3 + 1 := by
  obtain ⟨s, hr, htrues, h2, h3⟩ := System.exists_run calls basicRun
    (fun s => s.trues = 4 ∧ 2 ∈ s.cfg.groups ∧ 3 ∈ s.cfg.groups) (by decide +kernel)
  obtain ⟨hnum, _, _, hplaced, _⟩ := config_of_run basicRun s hr
  have hne : s.cfg.groups.keys ≠ [] := List.ne_nil_of_mem h2
  exact ⟨s, hr, htrues, hnum.trans htrues, h2, h3, (hplaced hne).1, (hplaced hne).2 2 h2 3 h3⟩

/-- The loops of `CheckConfig` keep their first value or take the count of a group. -/
theorem foldl_eq_or (n : Tgid → ℤ) (p : ℤ → ℤ → Prop) [∀ a b, Decidable (p a b)]
    (l : List Tgid) (a : ℤ) :
    l.foldl (fun m g => if p (n g) m then n g else m) a = a ∨
      ∃ g ∈ l, l.foldl (fun m g => if p (n g) m then n g else m) a = n g := by
  induction l generalizing a with
  | nil => exact Or.inl rfl
  | cons x l ih =>
    rw [List.foldl_cons]
    rcases ih (if p (n x) a then n x else a) with h | ⟨g, hg, h⟩
    · rw [h]
      split
      · exact Or.inr ⟨x, by simp, rfl⟩
      · exact Or.inl rfl
    · exact Or.inr ⟨g, List.mem_cons_of_mem _ hg, h⟩

theorem counts_le (h : Placed c) {g' : Tgid} (hg : g ∈ c.groups.keys) (hg' : g' ∈ c.groups.keys) :
    c.counts g ≤ c.counts g' + 1 := by
  have hle := (h.2 (List.ne_nil_of_mem hg)).2 g hg g' hg'
  unfold ShardConfig.counts
  omega

/-- `CheckConfig` accepts the configurations that the calls produce. -/
theorem checkConfig_of_placed {groups : List Tgid} (h : Placed c)
    (hgroups : groups.Perm c.groups.keys) : checkConfig c groups = true := by
  have hspread : c.groups.keys.foldl (fun m g => if c.counts g > m then c.counts g else m) 0 ≤
      c.groups.keys.foldl (fun m g => if c.counts g < m then c.counts g else m) 257 + 1 := by
    rcases foldl_eq_or c.counts (· > ·) c.groups.keys 0 with hmax | ⟨g, hg, hmax⟩ <;>
      rcases foldl_eq_or c.counts (· < ·) c.groups.keys 257 with hmin | ⟨g', hg', hmin⟩ <;>
      rw [hmax, hmin]
    · omega
    · have := counts_bounds c g'
      omega
    · have := counts_bounds c g
      omega
    · exact counts_le h hg hg'
  have hassigned : groups.length = 0 ∨ ∀ s, c.shards s ∈ c.groups := by
    by_cases hnil : c.groups.keys = []
    · left
      rw [hgroups.length_eq, hnil, List.length_nil]
    · exact Or.inr (h.2 hnil).1
  have hmem : ∀ g ∈ groups, g ∈ c.groups := by
    intro g hg
    exact AList.mem_keys.mpr (hgroups.mem_iff.mp hg)
  unfold checkConfig
  simp only [Bool.and_eq_true, Bool.or_eq_true, List.all_eq_true, Bool.not_eq_true',
    decide_eq_true_eq, decide_eq_false_iff_not, not_lt, List.mem_finRange, true_implies]
  exact ⟨⟨⟨hgroups.length_eq.symm, hmem⟩, hassigned⟩, hspread⟩

end Shardcfg
