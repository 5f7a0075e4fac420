import DistributedLabs.Runs.History
import Mathlib.Data.Fintype.Card
import Mathlib.Data.List.FinRange

/-! The Raft test's copy of what every server has applied: the readers of the apply channels and
the checks that they make of each message. Any Raft may be behind the channels. -/
namespace RaftTest
open Runs

/-- `raftapi.ApplyMsg`, without the field that the test does not read. A nil snapshot is `none`. -/
structure ApplyMsg (V B : Type*) where
  commandValid : Bool
  command : V
  commandIndex : ℤ
  snapshotValid : Bool
  snapshot : Option B
  snapshotIndex : ℤ
  deriving DecidableEq, Repr

/-- The error messages with what they print. -/
inductive ApplyErr (n : ℕ) (V : Type*) where
  /-- `commit index=%v server=%v %v != server=%v %v` -/
  | commit (index : ℤ) (server : Fin n) (command : V) (other : Fin n) (old : V)
  /-- `server %v apply out of order %v` -/
  | outOfOrder (server : Fin n) (index : ℤ)
  /-- `server %v apply out of order, expected index %v, got %v` -/
  | expected (server : Fin n) (want got : ℤ)
  /-- `nil snapshot` -/
  | nilSnapshot
  /-- `snapshot Decode() error` -/
  | decode
  /-- `server %v snapshot doesn't match m.SnapshotIndex` -/
  | snapshotIndex (server : Fin n)
  deriving DecidableEq, Repr

/-- A server as the test sees it. -/
structure Rfsrv (V : Type*) where
  lastApplied : ℤ
  logs : ℤ → Option V

/-- A server without a snapshot to start from. -/
def newRfsrv (V : Type*) : Rfsrv V := ⟨0, fun _ => none⟩

structure Test (n : ℕ) (V : Type*) where
  srvs : Fin n → Rfsrv V
  maxIndex : ℤ

variable {n : ℕ} {V B : Type*} [DecidableEq V]

/-- The body of the loop of `checkLogs` over the servers. -/
def report (ts : Test n V) (i : Fin n) (index : ℤ) (v : V) (err : Option (ApplyErr n V))
    (j : Fin n) : Option (ApplyErr n V) :=
  match (ts.srvs j).logs index with
  | some old => if old ≠ v then some (.commit index i v j old) else err
  | none => err

/-- The loop of `checkLogs`: the last server that disagrees is reported. -/
def disagreement (ts : Test n V) (i : Fin n) (index : ℤ) (v : V) : Option (ApplyErr n V) :=
  (List.finRange n).foldl (report ts i index v) none

/-- `checkLogs` returns the error, if there is one, and whether the server has the entry before.
It enters the command in any case. -/
def checkLogs (ts : Test n V) (i : Fin n) (m : ApplyMsg V B) :
    Test n V × Option (ApplyErr n V) × Bool :=
  let me := ts.srvs i
  let prevok := (me.logs (m.commandIndex - 1)).isSome
  let me' := { me with logs := Function.update me.logs m.commandIndex (some m.command) }
  (⟨Function.update ts.srvs i me',
      if m.commandIndex > ts.maxIndex then m.commandIndex else ts.maxIndex⟩,
    disagreement ts i m.commandIndex m.command, prevok)

/-- `checkLogs` and the check of the order that both readers make after it. -/
def checkCommand (ts : Test n V) (i : Fin n) (m : ApplyMsg V B) :
    Test n V × Option (ApplyErr n V) :=
  let (ts', err, prevok) := checkLogs ts i m
  (ts', if m.commandIndex > 1 ∧ prevok = false then some (.outOfOrder i m.commandIndex) else err)

/-- `applier` with one message. -/
def applier (ts : Test n V) (i : Fin n) (m : ApplyMsg V B) : Test n V × Option (ApplyErr n V) :=
  if m.commandValid = false then (ts, none) else checkCommand ts i m

/-- The test and, after an error, what ended its process. -/
structure Process (n : ℕ) (V : Type*) where
  test : Test n V
  exit : Option (ApplyErr n V)

inductive Event (n : ℕ) (V B : Type*) where
  /-- A server's reader takes a message from its apply channel. -/
  | apply (i : Fin n) (m : ApplyMsg V B)
  /-- A server is shut down and `mksrv` puts a new one in its place. -/
  | restart (i : Fin n)
  deriving DecidableEq, Repr

/-- A step of the test without snapshots. An error ends the process. A restart is one step, in which
no message is read, neither by the old reader nor by the new one. -/
def step (p : Process n V) (e : Event n V B) : Option (Process n V) :=
  if p.exit.isSome then none
  else match e with
    | .apply i m => some ⟨(applier p.test i m).1, (applier p.test i m).2⟩
    | .restart i =>
        some ⟨{ p.test with srvs := Function.update p.test.srvs i (newRfsrv V) }, none⟩

def harness (n : ℕ) (V B : Type*) [DecidableEq V] : System (Process n V) (Event n V B) where
  init := ⟨⟨fun _ => newRfsrv V, 0⟩, none⟩
  step := step

/-- The body of the loop of `nCommitted`. `none` is a `Fatalf`. -/
def tallyOne (ts : Test n V) (index : ℤ) (acc : Option (ℕ × Option V)) (j : Fin n) :
    Option (ℕ × Option V) :=
  acc.bind fun (count, cmd) =>
    match (ts.srvs j).logs index with
    | none => some (count, cmd)
    | some cmd1 => if count > 0 ∧ cmd ≠ some cmd1 then none else some (count + 1, some cmd1)

/-- `nCommitted`: how many servers have an entry, and the command. -/
def nCommitted (ts : Test n V) (index : ℤ) : Option (ℕ × Option V) :=
  (List.finRange n).foldl (tallyOne ts index) (some (0, none))

/-- `checkLogs` finds nothing exactly if every entry for the index is the command. -/
theorem disagreement_eq_none {ts : Test n V} {i : Fin n} {index : ℤ} {v : V} :
    disagreement ts i index v = none ↔ ∀ j old, (ts.srvs j).logs index = some old → old = v := by
  suffices hfold : ∀ (l : List (Fin n)) (err : Option (ApplyErr n V)),
      l.foldl (report ts i index v) err = none ↔
        err = none ∧ ∀ j ∈ l, ∀ old, (ts.srvs j).logs index = some old → old = v by
    have hrange := hfold (List.finRange n) none
    simp only [List.mem_finRange, forall_const, true_and] at hrange
    exact hrange
  intro l
  induction l with
  | nil => simp
  | cons j l ih =>
    intro err
    rw [List.foldl_cons, ih, List.forall_mem_cons, report]
    cases hj : (ts.srvs j).logs index with
    | none => simp
    | some old =>
      by_cases hold : old = v
      · simp [hold]
      · simp [hold]

/-- The report of `checkLogs` names the last server with another command at the index. -/
theorem disagreement_eq_some {ts : Test n V} {i : Fin n} {index : ℤ} {v : V} {err : ApplyErr n V}
    (h : disagreement ts i index v = some err) :
    ∃ j old, err = .commit index i v j old ∧ (ts.srvs j).logs index = some old ∧ old ≠ v ∧
      ∀ k, j < k → ∀ w, (ts.srvs k).logs index = some w → w = v := by
  suffices hfold : ∀ (l : List (Fin n)), l.foldl (report ts i index v) none = some err →
      ∃ pre j post old, l = pre ++ j :: post ∧ err = .commit index i v j old ∧
        (ts.srvs j).logs index = some old ∧ old ≠ v ∧
        ∀ k ∈ post, ∀ w, (ts.srvs k).logs index = some w → w = v by
    obtain ⟨pre, j, post, old, hl, herr, hj, hold, hpost⟩ := hfold (List.finRange n) h
    refine ⟨j, old, herr, hj, hold, ?_⟩
    intro k hk
    apply hpost k
    have hmem := List.mem_finRange k
    have hsorted := List.pairwise_lt_finRange n
    rw [hl, List.pairwise_append] at hsorted
    rw [hl, List.mem_append, List.mem_cons] at hmem
    rcases hmem with hmem | rfl | hmem
    · exact absurd (hsorted.2.2 k hmem j List.mem_cons_self) (lt_asymm hk)
    · exact absurd hk (lt_irrefl k)
    · exact hmem
  intro l
  induction l using List.reverseRecOn with
  | nil =>
    intro hnil
    cases hnil
  | append_singleton l j ih =>
    intro hfold
    rw [List.foldl_append, List.foldl_cons, List.foldl_nil, report] at hfold
    by_cases hbad : ∃ old, (ts.srvs j).logs index = some old ∧ old ≠ v
    · obtain ⟨old, hj, hold⟩ := hbad
      simp only [hj, ne_eq, hold, not_false_eq_true, if_true, Option.some.injEq] at hfold
      exact ⟨l, j, [], old, rfl, hfold.symm, hj, hold, by simp⟩
    · have hgood : ∀ w, (ts.srvs j).logs index = some w → w = v := by
        intro w hw
        by_contra hne
        exact hbad ⟨w, hw, hne⟩
      have hprev : l.foldl (report ts i index v) none = some err := by
        cases hj : (ts.srvs j).logs index with
        | none =>
          rw [hj] at hfold
          exact hfold
        | some w =>
          rw [hj] at hfold
          simp only [ne_eq, hgood w hj, not_true_eq_false, if_false] at hfold
          exact hfold
      obtain ⟨pre, k, post, old, rfl, herr, hk, hold, hpost⟩ := ih hprev
      refine ⟨pre, k, post ++ [j], old, by simp, herr, hk, hold, ?_⟩
      rw [List.forall_mem_append, List.forall_mem_singleton]
      exact ⟨hpost, hgood⟩

theorem checkCommand_err (ts : Test n V) (i : Fin n) (m : ApplyMsg V B) :
    (checkCommand ts i m).2 =
      if m.commandIndex > 1 ∧ ((ts.srvs i).logs (m.commandIndex - 1)).isSome = false then
        some (.outOfOrder i m.commandIndex)
      else disagreement ts i m.commandIndex m.command := rfl

/-- The server has an entry for the index. -/
def Rfsrv.has (rs : Rfsrv V) (index : ℤ) : Bool := (rs.logs index).isSome

/-- `nCommitted` when all entries for the index are the same command, if there are any. -/
theorem nCommitted_eq {ts : Test n V} {index : ℤ} {v : Option V}
    (hall : ∀ j old, (ts.srvs j).logs index = some old → v = some old) :
    nCommitted ts index = some ((List.finRange n).countP fun j => (ts.srvs j).has index,
      if (List.finRange n).any fun j => (ts.srvs j).has index then v else none) := by
  suffices hfold : ∀ (l : List (Fin n)) (count : ℕ) (cmd : Option V), (0 < count → cmd = v) →
      l.foldl (tallyOne ts index) (some (count, cmd)) =
        some (count + l.countP fun j => (ts.srvs j).has index,
          if l.any fun j => (ts.srvs j).has index then v else cmd) by
    have hrange := hfold (List.finRange n) 0 none (fun h => absurd h (Nat.lt_irrefl 0))
    rw [Nat.zero_add] at hrange
    exact hrange
  intro l
  induction l with
  | nil =>
    intro count cmd _
    rfl
  | cons j l ih =>
    intro count cmd hcmd
    rw [List.foldl_cons, List.countP_cons, List.any_cons, tallyOne]
    cases hj : (ts.srvs j).logs index with
    | none =>
      have hhas : (ts.srvs j).has index = false := by rw [Rfsrv.has, hj]; rfl
      simp only [Option.bind_some, hhas, Bool.false_or]
      exact ih count cmd hcmd
    | some old =>
      obtain rfl := hall j old hj
      have hhas : (ts.srvs j).has index = true := by rw [Rfsrv.has, hj]; rfl
      have hgo : ¬ (count > 0 ∧ cmd ≠ some old) := fun h => h.2 (hcmd h.1)
      simp only [Option.bind_some, hhas, Bool.true_or, if_neg hgo]
      rw [ih (count + 1) (some old) (fun _ => rfl)]
      simp only [if_true, ite_self, Option.some.injEq, Prod.mk.injEq, and_true]
      omega

end RaftTest
