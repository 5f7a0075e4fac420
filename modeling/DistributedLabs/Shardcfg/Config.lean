import DistributedLabs.Balance.Loads
import Mathlib.Data.List.AList
import Mathlib.Data.List.FinRange
import Mathlib.Data.List.Sort

/-! Shard configurations: an assignment of the shards to replica groups, and the calls that
add and remove a group and rebalance the assignment. -/
namespace Shardcfg
open Balance

abbrev Tgid := ℤ

/-- The number of shards. -/
abbrev nShards : ℕ := 12

instance nShards_neZero : NeZero nShards :=
  ⟨by decide⟩

structure ShardConfig where
  num : ℕ
  shards : Fin nShards → Tgid
  groups : AList fun _ : Tgid => List String
  deriving DecidableEq

def makeShardConfig : ShardConfig := ⟨0, fun _ => 0, ∅⟩

/-- The count of a group in the map that `analyze` builds. -/
def ShardConfig.counts (c : ShardConfig) (g : Tgid) : ℤ := load c.shards g

/-- Group with the most shards and their number, group with the least and their number. -/
structure Extremes where
  mg : Tgid
  mn : ℤ
  lg : Tgid
  ln : ℤ
  deriving DecidableEq, Repr

/-- One round of the loop of `analyze` over the sorted groups. -/
def Extremes.consider (counts : Tgid → ℤ) (a : Extremes) (g : Tgid) : Extremes :=
  let a := if counts g < a.ln then { a with lg := g, ln := counts g } else a
  if counts g > a.mn then { a with mg := g, mn := counts g } else a

/-- The values of `analyze` before its loop. -/
def Extremes.start : Extremes := ⟨-1, -1, -1, 257⟩

def analyze (c : ShardConfig) : Extremes :=
  (c.groups.keys.insertionSort (· ≤ ·)).foldl (Extremes.consider c.counts) .start

def least (c : ShardConfig) : Tgid := (analyze c).lg

def ShardConfig.setShard (c : ShardConfig) (s : Fin nShards) (g : Tgid) : ShardConfig :=
  { c with shards := Function.update c.shards s g }

/-- One round of the loop that assigns the unassigned shards; `g` is the group of `s` in the
copy of the array that the loop ranges over. -/
def assign (c : ShardConfig) (s : Fin nShards) (g : Tgid) : ShardConfig :=
  if g ∈ c.groups then c else c.setShard s (least c)

def assignAll (c : ShardConfig) : ShardConfig :=
  (List.finRange nShards).foldl (fun d s => assign d s (c.shards s)) c

/-- Move the first shard of the group `mg` to the group `lg`. -/
def moveOne (c : ShardConfig) (mg lg : Tgid) : ShardConfig :=
  match (List.finRange nShards).find? fun s => c.shards s = mg with
  | some s => c.setShard s lg
  | none => c

/-- The loop that moves shards from the most to the least heavily loaded group, as far as
`fuel` rounds go. -/
def moveLoop : ℕ → ShardConfig → Option ShardConfig
  | 0, _ => none
  | fuel + 1, c =>
    let a := analyze c
    if a.mn < a.ln + 2 then some c else moveLoop fuel (moveOne c a.mg a.lg)

/-- The rounds that suffice for the moves of one call. -/
def moveRounds : ℕ := nShards * nShards + 1

def rebalance (c : ShardConfig) : Option ShardConfig :=
  if c.groups.keys.length < 1 then some { c with shards := fun _ => 0 }
  else moveLoop moveRounds (assignAll c)

/-- How a call ends: `log.Fatalf` stops the process, or the call returns. -/
inductive Outcome
  | fatal
  | returned (c : ShardConfig) (ok : Bool)

/-- Some server of the list is a server of a group already. -/
def ShardConfig.clash (c : ShardConfig) (servers : List String) : Bool :=
  c.groups.entries.any fun x => x.2.any fun s1 => servers.any fun s2 => s1 = s2

/-- The loop of `Join` over the entries of its map, in the order of the iteration. -/
def joinLoop : List (Tgid × List String) → Bool → ShardConfig → Outcome
  | [], changed, c => if changed then .returned { c with num := c.num + 1 } true else .fatal
  | (gid, servers) :: rest, _, c =>
    if gid ∈ c.groups then .returned c false
    else if c.clash servers then .fatal
    else joinLoop rest true { c with groups := c.groups.insert gid servers }

def join (c : ShardConfig) (servers : List (Tgid × List String)) : Outcome :=
  joinLoop servers false c

def leaveLoop : List Tgid → Bool → ShardConfig → Outcome
  | [], changed, c => if changed then .returned { c with num := c.num + 1 } true else .fatal
  | gid :: rest, _, c =>
    if gid ∈ c.groups then leaveLoop rest true { c with groups := c.groups.erase gid }
    else .returned c false

def leave (c : ShardConfig) (gids : List Tgid) : Outcome := leaveLoop gids false c

/-- Rebalance where the first half of the call returned true. -/
def Outcome.balance : Outcome → Option Outcome
  | .returned c true => (rebalance c).map fun d => .returned d true
  | .returned c false => some (.returned c false)
  | .fatal => some .fatal

def joinBalance (c : ShardConfig) (servers : List (Tgid × List String)) : Option Outcome :=
  (join c servers).balance

def leaveBalance (c : ShardConfig) (gids : List Tgid) : Option Outcome :=
  (leave c gids).balance

/-- Whether `CheckConfig` accepts the configuration, that is, calls no `fatalf`. -/
def checkConfig (c : ShardConfig) (groups : List Tgid) : Bool :=
  let max := c.groups.keys.foldl (fun m g => if c.counts g > m then c.counts g else m) 0
  let min := c.groups.keys.foldl (fun m g => if c.counts g < m then c.counts g else m) 257
  c.groups.keys.length = groups.length && (groups.all fun g => g ∈ c.groups) &&
    (groups.length = 0 || (List.finRange nShards).all fun s => c.shards s ∈ c.groups) &&
    ! max > min + 1

end Shardcfg
