import DistributedLabs.RaftTest.Harness
import Mathlib.Data.Set.Card

/-! What the test without snapshots finds out about the messages that the servers apply: it goes
on exactly as long as they agree and come in order, as far as a server still remembers. -/
namespace RaftTest
open Runs

variable {n : ℕ} {V B : Type*}

/-- Server `i` has applied the command at this index, and it has not been restarted since. -/
def Applied (es : List (Event n V B)) (i : Fin n) (index : ℤ) (v : V) : Prop :=
  ∃ pre m post, es = pre ++ .apply i m :: post ∧ m.commandValid = true ∧ m.commandIndex = index ∧
    m.command = v ∧ .restart i ∉ post

/-- The message may follow these events: no server has another command at its index, and the
server that applies it has an entry for the index before. -/
def Fits (es : List (Event n V B)) (i : Fin n) (m : ApplyMsg V B) : Prop :=
  (∀ j v, Applied es j m.commandIndex v → v = m.command) ∧
  (1 < m.commandIndex → ∃ v, Applied es i (m.commandIndex - 1) v)

/-- Every message with a command fits what was there before it. -/
def Orderly (es : List (Event n V B)) : Prop :=
  ∀ pre i m post, es = pre ++ .apply i m :: post → m.commandValid = true → Fits pre i m

section snoc
variable {es : List (Event n V B)} {e : Event n V B}

theorem snoc_eq_append_cons {α : Type*} {l pre post : List α} {a b : α} :
    l ++ [a] = pre ++ b :: post ↔
      (l = pre ∧ a = b ∧ post = []) ∨ ∃ post', post = post' ++ [a] ∧ l = pre ++ b :: post' := by
  induction post using List.reverseRecOn with
  | nil => simp
  | append_singleton post c _ =>
    constructor
    · intro h
      have hassoc : l ++ [a] = (pre ++ b :: post) ++ [c] := by simpa using h
      obtain ⟨hl, hac⟩ := List.append_inj' hassoc rfl
      exact .inr ⟨post, by rw [List.singleton_inj.mp hac], hl⟩
    · rintro (⟨-, -, hnil⟩ | ⟨post', hpost, rfl⟩)
      · simp at hnil
      · rw [hpost]
        simp

theorem applied_snoc {i : Fin n} {index : ℤ} {v : V} :
    Applied (es ++ [e]) i index v ↔
      (∃ m, e = .apply i m ∧ m.commandValid = true ∧ m.commandIndex = index ∧ m.command = v) ∨
      (e ≠ .restart i ∧ Applied es i index v) := by
  constructor
  · rintro ⟨pre, m, post, heq, hvalid, hindex, hv, hpost⟩
    rcases snoc_eq_append_cons.mp heq with ⟨-, he, -⟩ | ⟨post', rfl, hes⟩
    · exact .inl ⟨m, he, hvalid, hindex, hv⟩
    · rw [List.mem_append, List.mem_singleton, not_or] at hpost
      exact .inr ⟨Ne.symm hpost.2, pre, m, post', hes, hvalid, hindex, hv, hpost.1⟩
  · rintro (⟨m, rfl, hvalid, hindex, hv⟩ | ⟨he, pre, m, post, rfl, hvalid, hindex, hv, hpost⟩)
    · exact ⟨es, m, [], rfl, hvalid, hindex, hv, List.not_mem_nil⟩
    · refine ⟨pre, m, post ++ [e], by simp, hvalid, hindex, hv, ?_⟩
      rw [List.mem_append, List.mem_singleton, not_or]
      exact ⟨hpost, Ne.symm he⟩

theorem orderly_snoc : Orderly (es ++ [e]) ↔
    Orderly es ∧ ∀ i m, e = .apply i m → m.commandValid = true → Fits es i m := by
  constructor
  · intro h
    constructor
    · intro pre i m post heq
      exact h pre i m (post ++ [e]) (by simp [heq])
    · intro i m he
      exact h es i m [] (by rw [he])
  · rintro ⟨hes, he⟩ pre i m post heq hvalid
    rcases snoc_eq_append_cons.mp heq with ⟨rfl, hem, -⟩ | ⟨post', -, hpre⟩
    · exact he i m hem hvalid
    · exact hes pre i m post' hpre hvalid

end snoc

theorem orderly_nil : Orderly ([] : List (Event n V B)) := by
  intro pre i m post heq
  simp at heq

theorem not_applied_nil {i : Fin n} {index : ℤ} {v : V} :
    ¬ Applied ([] : List (Event n V B)) i index v := by
  rintro ⟨pre, m, post, heq, -⟩
  simp at heq

/-- The copies of the logs hold what the servers remember. -/
def Mirrors (es : List (Event n V B)) (ts : Test n V) : Prop :=
  ∀ i index v, (ts.srvs i).logs index = some v ↔ Applied es i index v

section step
variable {es : List (Event n V B)} {ts : Test n V} {i : Fin n} {m : ApplyMsg V B}

theorem mirrors_ignored (h : Mirrors es ts) (hvalid : m.commandValid = false) :
    Mirrors (es ++ [.apply i m]) ts := by
  intro j index v
  rw [h j index v, applied_snoc]
  constructor
  · intro happ
    exact .inr ⟨by simp, happ⟩
  · rintro (⟨m', hm, hvalid', -⟩ | ⟨-, happ⟩)
    · cases hm
      rw [hvalid] at hvalid'
      cases hvalid'
    · exact happ

theorem mirrors_restart (h : Mirrors es ts) :
    Mirrors (es ++ [.restart i])
      { ts with srvs := Function.update ts.srvs i (newRfsrv V) } := by
  intro j index v
  rw [applied_snoc]
  show (Function.update ts.srvs i (newRfsrv V) j).logs index = some v ↔ _
  by_cases hj : j = i
  · subst hj
    rw [Function.update_self]
    simp [newRfsrv]
  · rw [Function.update_of_ne hj, h j index v]
    constructor
    · intro happ
      refine .inr ⟨?_, happ⟩
      intro he
      cases he
      exact hj rfl
    · rintro (⟨m', hm, -⟩ | ⟨-, happ⟩)
      · cases hm
      · exact happ

variable [DecidableEq V]

/-- A message with a command raises no error exactly if it fits. -/
theorem checkCommand_iff (h : Mirrors es ts) : (checkCommand ts i m).2 = none ↔ Fits es i m := by
  have hagree : disagreement ts i m.commandIndex m.command = none ↔
      ∀ j v, Applied es j m.commandIndex v → v = m.command := by
    rw [disagreement_eq_none]
    constructor
    · intro hall j v hj
      exact hall j v ((h j _ v).mpr hj)
    · intro hall j v hj
      exact hall j v ((h j _ v).mp hj)
  have hprev : ((ts.srvs i).logs (m.commandIndex - 1)).isSome = true ↔
      ∃ v, Applied es i (m.commandIndex - 1) v := by
    rw [Option.isSome_iff_exists]
    exact exists_congr fun v => h i _ v
  unfold Fits
  rw [← hagree, ← hprev, checkCommand_err]
  cases ((ts.srvs i).logs (m.commandIndex - 1)).isSome with
  | true => simp
  | false =>
    by_cases hindex : m.commandIndex > 1
    · simp [hindex]
    · simp [hindex]

/-- What the test enters for a message that fits. -/
theorem mirrors_checkCommand (h : Mirrors es ts) (hvalid : m.commandValid = true)
    (hfits : Fits es i m) : Mirrors (es ++ [.apply i m]) (checkCommand ts i m).1 := by
  intro j index v
  show (Function.update ts.srvs i { ts.srvs i with
    logs := Function.update (ts.srvs i).logs m.commandIndex (some m.command) } j).logs index =
      some v ↔ _
  rw [applied_snoc]
  by_cases hj : j = i
  · subst hj
    rw [Function.update_self]
    show Function.update (ts.srvs j).logs m.commandIndex (some m.command) index = some v ↔ _
    by_cases hindex : index = m.commandIndex
    · subst hindex
      rw [Function.update_self, Option.some.injEq]
      constructor
      · intro hv
        exact .inl ⟨m, rfl, hvalid, rfl, hv⟩
      · rintro (⟨m', hm, -, -, hv⟩ | ⟨-, happ⟩)
        · cases hm
          exact hv
        · exact (hfits.1 j v happ).symm
    · rw [Function.update_of_ne hindex, h j index v]
      constructor
      · intro happ
        exact .inr ⟨by simp, happ⟩
      · rintro (⟨m', hm, -, hm', -⟩ | ⟨-, happ⟩)
        · cases hm
          exact absurd hm'.symm hindex
        · exact happ
  · rw [Function.update_of_ne hj, h j index v]
    constructor
    · intro happ
      exact .inr ⟨by simp, happ⟩
    · rintro (⟨m', hm, -⟩ | ⟨-, happ⟩)
      · cases hm
        exact absurd rfl hj
      · exact happ

end step

section runs
variable [DecidableEq V] {es : List (Event n V B)} {p : Process n V}

theorem step_spec (h : Mirrors es p.test) (hexit : p.exit = none) (e : Event n V B) :
    ∃ q, step p e = some q ∧
      (q.exit = none ↔ ∀ i m, e = .apply i m → m.commandValid = true → Fits es i m) ∧
      (q.exit = none → Mirrors (es ++ [e]) q.test) := by
  unfold step
  rw [hexit, Option.isSome_none, if_neg Bool.false_ne_true]
  cases e with
  | restart i => exact ⟨_, rfl, by simp, fun _ => mirrors_restart h⟩
  | apply i m =>
    refine ⟨_, rfl, ?_⟩
    cases hvalid : m.commandValid with
    | false =>
      have happlier : applier p.test i m = (p.test, none) := by rw [applier, if_pos hvalid]
      simp only [happlier]
      refine ⟨?_, fun _ => mirrors_ignored h hvalid⟩
      simp only [true_iff]
      intro j m' he hvalid'
      cases he
      rw [hvalid] at hvalid'
      cases hvalid'
    | true =>
      have happlier : applier p.test i m = checkCommand p.test i m := by
        rw [applier, if_neg (by simp [hvalid])]
      simp only [happlier]
      have hiff := checkCommand_iff (i := i) (m := m) h
      refine ⟨?_, fun hnone => mirrors_checkCommand h hvalid (hiff.mp hnone)⟩
      rw [hiff]
      constructor
      · intro hfits j m' he _
        cases he
        exact hfits
      · intro hall
        exact hall i m rfl hvalid

/-- What a run without an error has seen, and what the test remembers of it. -/
theorem seen_of_run (h : (harness n V B).Run es p) (hexit : p.exit = none) :
    Orderly es ∧ Mirrors es p.test := by
  revert hexit
  apply h.invariant' (I := fun es p => p.exit = none → Orderly es ∧ Mirrors es p.test)
  · intro _
    refine ⟨orderly_nil, ?_⟩
    intro i index v
    simp [harness, newRfsrv, not_applied_nil]
  · intro es p e q _ ih hstep hexit
    have hstep' : step p e = some q := hstep
    cases hp : p.exit with
    | some err => simp [step, hp] at hstep'
    | none =>
      obtain ⟨horderly, hmirrors⟩ := ih hp
      obtain ⟨q', hq', hiff, hnext⟩ := step_spec hmirrors hp e
      obtain rfl : q = q' := Option.some.inj (hstep'.symm.trans hq')
      exact ⟨orderly_snoc.mpr ⟨horderly, hiff.mp hexit⟩, hnext hexit⟩

theorem run_of_orderly (h : Orderly es) : ∃ p, (harness n V B).Run es p ∧ p.exit = none := by
  induction es using List.reverseRecOn with
  | nil => exact ⟨_, .nil, rfl⟩
  | append_singleton es e ih =>
    obtain ⟨hes, he⟩ := orderly_snoc.mp h
    obtain ⟨p, hrun, hexit⟩ := ih hes
    obtain ⟨q, hq, hiff, -⟩ := step_spec (seen_of_run hrun hexit).2 hexit e
    exact ⟨q, hrun.snoc hq, hiff.mpr he⟩

end runs

/-- The test goes on exactly as long as the servers apply one command at each index, each of them
in order, as far as they have not been restarted. -/
theorem goes_on_iff_orderly (n : ℕ) (V B : Type*) [DecidableEq V] (es : List (Event n V B)) :
    (∃ p, (harness n V B).Run es p ∧ p.exit = none) ↔ Orderly es := by
  constructor
  · rintro ⟨p, hrun, hexit⟩
    exact (seen_of_run hrun hexit).1
  · exact run_of_orderly

/-- The error of a message that does not fit says what is wrong with it. -/
theorem checkCommand_reports [DecidableEq V] {es : List (Event n V B)} {ts : Test n V} {i : Fin n}
    {m : ApplyMsg V B} {err : ApplyErr n V} (h : Mirrors es ts)
    (herr : (checkCommand ts i m).2 = some err) :
    (err = .outOfOrder i m.commandIndex ∧ 1 < m.commandIndex ∧
      ∀ v, ¬ Applied es i (m.commandIndex - 1) v) ∨
    ∃ j old, err = .commit m.commandIndex i m.command j old ∧ Applied es j m.commandIndex old ∧
      old ≠ m.command ∧ ∀ k, j < k → ∀ w, Applied es k m.commandIndex w → w = m.command := by
  rw [checkCommand_err] at herr
  split at herr
  next hprev =>
    refine .inl ⟨(Option.some.inj herr).symm, hprev.1, ?_⟩
    intro v hv
    rw [(h i _ v).mpr hv] at hprev
    cases hprev.2
  next =>
    obtain ⟨j, old, rfl, hj, hold, hlast⟩ := disagreement_eq_some herr
    refine .inr ⟨j, old, rfl, (h j _ old).mp hj, hold, ?_⟩
    intro k hk w hw
    exact hlast k hk w ((h k _ w).mpr hw)

/-- A message with a command. -/
def command (v : String) (index : ℤ) : ApplyMsg String Unit :=
  ⟨true, v, index, false, none, 0⟩

/-- Server `j` applies a command of its own after a restart. -/
def forkedRun (i j : Fin 2) : List (Event 2 String Unit) :=
  [.apply i (command "a" 1), .apply j (command "a" 1), .apply i (command "b" 2), .restart j,
    .apply j (command "a" 1), .apply j (command "c" 2)]

/-- Two servers that remember a command at one index remember the same one. -/
theorem orderly_agree {es : List (Event n V B)} (h : Orderly es) {i j : Fin n} {index : ℤ} {v w : V}
    (hv : Applied es i index v) (hw : Applied es j index w) : v = w := by
  induction es using List.reverseRecOn with
  | nil => exact absurd hv not_applied_nil
  | append_singleton es e ih =>
    obtain ⟨hes, he⟩ := orderly_snoc.mp h
    rcases applied_snoc.mp hv with ⟨m, rfl, hvalid, rfl, rfl⟩ | ⟨-, hv'⟩
    · rcases applied_snoc.mp hw with ⟨m', hm, -, -, rfl⟩ | ⟨-, hw'⟩
      · cases hm
        rfl
      · exact ((he i m rfl hvalid).1 j w hw').symm
    · rcases applied_snoc.mp hw with ⟨m, rfl, hvalid, rfl, rfl⟩ | ⟨-, hw'⟩
      · exact (he j m rfl hvalid).1 i v hv'
      · exact ih hes hv' hw'

theorem ncard_setOf_eq_countP (b : Fin n → Bool) :
    {i | b i = true}.ncard = (List.finRange n).countP b := by
  have hnodup : ((List.finRange n).filter b).Nodup := (List.nodup_finRange n).filter b
  rw [Set.ncard_eq_toFinset_card', List.countP_eq_length_filter,
    ← List.toFinset_card_of_nodup hnodup]
  congr 1
  ext i
  simp

/-- In a run without an error `nCommitted` counts the servers that remember a command at the
index, and it returns that command. -/
theorem nCommitted_exact (n : ℕ) (V B : Type*) [DecidableEq V] (es : List (Event n V B))
    (p : Process n V) (h : (harness n V B).Run es p) (hexit : p.exit = none) (index : ℤ) :
    ∃ cmd, nCommitted p.test index = some ({i | ∃ v, Applied es i index v}.ncard, cmd) ∧
      ∀ v, cmd = some v ↔ ∃ i, Applied es i index v := by
  obtain ⟨horderly, hmirrors⟩ := seen_of_run h hexit
  have hhas : ∀ i, (p.test.srvs i).has index = true ↔ ∃ v, Applied es i index v := by
    intro i
    rw [Rfsrv.has, Option.isSome_iff_exists]
    exact exists_congr fun v => hmirrors i index v
  have hset : {i | ∃ v, Applied es i index v} = {i | (p.test.srvs i).has index = true} := by
    ext i
    exact (hhas i).symm
  rw [hset, ncard_setOf_eq_countP]
  by_cases hsome : ∃ i v, Applied es i index v
  · obtain ⟨i, v, hv⟩ := hsome
    have hall : ∀ j old, (p.test.srvs j).logs index = some old → some v = some old := by
      intro j old hj
      rw [orderly_agree horderly hv ((hmirrors j index old).mp hj)]
    have hany : (List.finRange n).any (fun j => (p.test.srvs j).has index) = true :=
      List.any_eq_true.mpr ⟨i, List.mem_finRange i, (hhas i).mpr ⟨v, hv⟩⟩
    rw [nCommitted_eq hall, if_pos hany]
    refine ⟨some v, rfl, ?_⟩
    intro w
    constructor
    · intro hw
      cases hw
      exact ⟨i, hv⟩
    · rintro ⟨j, hw⟩
      rw [orderly_agree horderly hv hw]
  · push Not at hsome
    have hall : ∀ j old, (p.test.srvs j).logs index = some old → none = some old := by
      intro j old hj
      exact absurd ((hmirrors j index old).mp hj) (hsome j old)
    rw [nCommitted_eq hall, ite_self]
    refine ⟨none, rfl, ?_⟩
    intro w
    simp [hsome]

theorem caughtUp_nCommitted : ∃ p es, (harness 2 String Unit).Run es p ∧
    nCommitted p.test 2 = some ({i | ∃ v, Applied es i 2 v}.ncard, some "b") := by
  obtain ⟨p, hrun, hexit, hcmd⟩ := System.exists_run (harness 2 String Unit)
    [.apply 0 (command "a" 1), .apply 0 (command "b" 2), .restart 1, .apply 1 (command "a" 1),
      .apply 1 (command "b" 2), .restart 0]
    (fun p => p.exit = none ∧ nCommitted p.test 2 = some (1, some "b")) (by decide +kernel)
  obtain ⟨cmd, hcount, -⟩ := nCommitted_exact 2 String Unit _ p hrun hexit 2
  obtain ⟨-, rfl⟩ := Prod.mk.inj (Option.some.inj (hcmd.symm.trans hcount))
  exact ⟨p, _, hrun, hcount⟩

end RaftTest
