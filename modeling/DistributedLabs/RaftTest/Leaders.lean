import DistributedLabs.Raft.ElectionSafety
import Mathlib.Data.List.AList

/-! `checkOneLeader`, which asks the connected servers one after the other while the peers go on,
and what it makes of the runs in which election safety holds. -/
namespace RaftTest
open Runs

/-- How `checkOneLeader` ends. -/
inductive Verdict (n : ℕ) where
  | found (i : Fin n)
  /-- `term %d has %d (>1) leaders` -/
  | multiple (term : ℤ) (count : ℕ)
  /-- `expected one leader, got none` -/
  | noLeader
  /-- The index of an empty slice. -/
  | panicked
  deriving DecidableEq, Repr

/-- One round: the answers of `GetState`, which is called on connected servers only, and the order
in which the loop over the map visits its terms. -/
structure Round (n : ℕ) where
  seen : Fin n → Option (ℤ × Bool)
  order : List ℤ

variable {n : ℕ}

/-- The body of the loop over the servers. -/
def note (seen : Fin n → Option (ℤ × Bool)) (leaders : AList fun _ : ℤ => List (Fin n))
    (i : Fin n) : AList fun _ : ℤ => List (Fin n) :=
  match seen i with
  | some (term, true) => leaders.insert term ((leaders.lookup term).getD [] ++ [i])
  | _ => leaders

/-- The map `leaders`. -/
def Round.leaders (r : Round n) : AList fun _ : ℤ => List (Fin n) :=
  (List.finRange n).foldl (note r.seen) ∅

/-- The loop over the map, with `lastTermWithLeader`. -/
def judge (leaders : AList fun _ : ℤ => List (Fin n)) : List ℤ → ℤ → Except (ℤ × ℕ) ℤ
  | [], last => .ok last
  | term :: order, last =>
      let l := (leaders.lookup term).getD []
      if l.length > 1 then .error (term, l.length)
      else judge leaders order (if term > last then term else last)

/-- One round, with `none` for the next one. -/
def Round.check (r : Round n) : Option (Verdict n) :=
  match judge r.leaders r.order (-1) with
  | .error (term, count) => some (.multiple term count)
  | .ok last =>
      if r.leaders.keys.length ≠ 0 then
        match (r.leaders.lookup last).getD [] with
        | i :: _ => some (.found i)
        | [] => some .panicked
      else none

/-- `checkOneLeader` over its rounds. -/
def checkOneLeader : List (Round n) → Verdict n
  | [] => .noLeader
  | r :: rounds => r.check.getD (checkOneLeader rounds)

/-- The servers that were seen as leaders of a term. -/
def Round.leadersOf (r : Round n) (term : ℤ) : List (Fin n) :=
  (List.finRange n).filter fun i => r.seen i = some (term, true)

theorem Round.mem_leadersOf {r : Round n} {term : ℤ} {i : Fin n} :
    i ∈ r.leadersOf term ↔ r.seen i = some (term, true) := by
  simp [leadersOf]

/-- The map has the servers that were seen as leaders, under the terms that have one. -/
theorem Round.lookup_leaders (r : Round n) (term : ℤ) :
    r.leaders.lookup term = if r.leadersOf term = [] then none else some (r.leadersOf term) := by
  suffices hfold : ∀ l : List (Fin n), (l.foldl (note r.seen) ∅).lookup term =
      if l.filter (fun i => r.seen i = some (term, true)) = [] then none
      else some (l.filter fun i => r.seen i = some (term, true)) from hfold (List.finRange n)
  intro l
  induction l using List.reverseRecOn with
  | nil => simp
  | append_singleton l i ih =>
    rw [List.foldl_append, List.foldl_cons, List.foldl_nil, List.filter_append, note]
    split
    next T hi =>
      by_cases hT : term = T
      · subst hT
        rw [AList.lookup_insert, ih]
        split
        next hnil => simp [hnil, hi]
        next => simp [hi]
      · rw [AList.lookup_insert_ne hT, ih]
        have hne : ¬ T = term := fun h => hT h.symm
        simp [hi, hne]
    next hi =>
      have hno : r.seen i ≠ some (term, true) := fun h => hi term h
      rw [ih]
      simp [hno]

theorem Round.lookup_getD (r : Round n) (term : ℤ) :
    (r.leaders.lookup term).getD [] = r.leadersOf term := by
  rw [r.lookup_leaders]
  split
  next h => rw [h]; rfl
  next => rfl

theorem Round.mem_keys {r : Round n} {term : ℤ} :
    term ∈ r.leaders.keys ↔ ∃ i, r.seen i = some (term, true) := by
  rw [← AList.mem_keys, ← AList.lookup_isSome, r.lookup_leaders]
  constructor
  · intro h
    split at h
    next => cases h
    next hne =>
      obtain ⟨i, hi⟩ := List.exists_mem_of_ne_nil _ hne
      exact ⟨i, mem_leadersOf.mp hi⟩
  · rintro ⟨i, hi⟩
    rw [if_neg (List.ne_nil_of_mem (mem_leadersOf.mpr hi))]
    rfl

/-- The loop over the map ends with the newest of the terms, unless one of them has two leaders. -/
theorem judge_spec (leaders : AList fun _ : ℤ => List (Fin n)) (order : List ℤ) (last : ℤ)
    (hone : ∀ term ∈ order, ((leaders.lookup term).getD []).length ≤ 1) :
    ∃ last', judge leaders order last = .ok last' ∧ last ≤ last' ∧
      (∀ term ∈ order, term ≤ last') ∧ (last' = last ∨ last' ∈ order) := by
  induction order generalizing last with
  | nil => exact ⟨last, rfl, le_rfl, by simp, .inl rfl⟩
  | cons term order ih =>
    obtain ⟨hterm, horder⟩ := List.forall_mem_cons.mp hone
    obtain ⟨last', hjudge, hle, hall, hmem⟩ := ih (if term > last then term else last) horder
    have hmax : last ≤ (if term > last then term else last) ∧
        term ≤ (if term > last then term else last) := by
      split <;> omega
    refine ⟨last', ?_, hmax.1.trans hle, ?_, ?_⟩
    · rw [judge, if_neg (not_lt.mpr hterm), hjudge]
    · rw [List.forall_mem_cons]
      exact ⟨hmax.2.trans hle, hall⟩
    · rw [List.mem_cons]
      rcases hmem with rfl | hmem
      · split <;> simp
      · exact .inr (.inr hmem)

theorem judge_error {leaders : AList fun _ : ℤ => List (Fin n)} {order : List ℤ} {last term : ℤ}
    {count : ℕ} (h : judge leaders order last = .error (term, count)) :
    ((leaders.lookup term).getD []).length = count ∧ 1 < count := by
  induction order generalizing last with
  | nil => simp [judge] at h
  | cons T order ih =>
    rw [judge] at h
    split at h
    next hlong =>
      simp only [Except.error.injEq, Prod.mk.injEq] at h
      obtain ⟨rfl, rfl⟩ := h
      exact ⟨rfl, hlong⟩
    next => exact ih h

/-- If the loop ends without an error, no term that it has visited has two leaders. -/
theorem judge_ok {leaders : AList fun _ : ℤ => List (Fin n)} {order : List ℤ} {last last' : ℤ}
    (h : judge leaders order last = .ok last') :
    ∀ term ∈ order, ((leaders.lookup term).getD []).length ≤ 1 := by
  induction order generalizing last with
  | nil => simp
  | cons T order ih =>
    rw [judge] at h
    split at h
    next => cases h
    next hshort => exact List.forall_mem_cons.mpr ⟨not_lt.mp hshort, ih h⟩

/-- No server was seen as a leader. -/
def Round.Silent (r : Round n) : Prop := ∀ i term, r.seen i ≠ some (term, true)

/-- What the round takes from Go and from the servers: the loop visits every term of the map once,
and no term is negative. -/
structure Round.Regular (r : Round n) : Prop where
  visits : r.order.Perm r.leaders.keys
  nonneg : ∀ i term b, r.seen i = some (term, b) → 0 ≤ term

/-- What a round has seen when it ends with this verdict. -/
def Round.Justifies (r : Round n) : Verdict n → Prop
  | .found i => ∃ term, r.leadersOf term = [i] ∧
      ∀ T, (r.leadersOf T).length ≤ 1 ∧ (r.leadersOf T ≠ [] → T ≤ term)
  | .multiple term count => (r.leadersOf term).length = count ∧ 1 < count
  | .noLeader => False
  | .panicked => False

theorem Round.silent_iff {r : Round n} : r.Silent ↔ r.leaders.keys = [] := by
  rw [List.eq_nil_iff_forall_not_mem]
  constructor
  · intro h term hterm
    obtain ⟨i, hi⟩ := mem_keys.mp hterm
    exact h i term hi
  · intro h i term hi
    exact h term (mem_keys.mpr ⟨i, hi⟩)

theorem Round.leadersOf_ne_nil {r : Round n} {term : ℤ} :
    r.leadersOf term ≠ [] ↔ term ∈ r.leaders.keys := by
  rw [mem_keys]
  constructor
  · intro h
    obtain ⟨i, hi⟩ := List.exists_mem_of_ne_nil _ h
    exact ⟨i, mem_leadersOf.mp hi⟩
  · rintro ⟨i, hi⟩
    exact List.ne_nil_of_mem (mem_leadersOf.mpr hi)

/-- A term in which at most one leader was seen, for all terms, from those of the map. -/
theorem Round.length_le_one {r : Round n} (hr : r.Regular)
    (h : ∀ term ∈ r.order, ((r.leaders.lookup term).getD []).length ≤ 1) (T : ℤ) :
    (r.leadersOf T).length ≤ 1 := by
  by_cases hT : r.leadersOf T = []
  · simp [hT]
  · have hmem := hr.visits.mem_iff.mpr (leadersOf_ne_nil.mp hT)
    rw [← r.lookup_getD]
    exact h T hmem

theorem Round.check_spec (r : Round n) (hr : r.Regular) :
    (r.check = none ∧ r.Silent) ∨ ∃ v, r.check = some v ∧ r.Justifies v := by
  rw [Round.check]
  cases hj : judge r.leaders r.order (-1) with
  | error e =>
    obtain ⟨term, count⟩ := e
    obtain ⟨hcount, hlong⟩ := judge_error hj
    rw [r.lookup_getD] at hcount
    exact .inr ⟨_, rfl, hcount, hlong⟩
  | ok last =>
    have hone := judge_ok hj
    by_cases hkeys : r.leaders.keys = []
    · left
      exact ⟨by simp [hkeys], silent_iff.mpr hkeys⟩
    · right
      obtain ⟨last', hj', -, hall, hlast⟩ := judge_spec r.leaders r.order (-1) hone
      obtain rfl : last = last' := by
        rw [hj] at hj'
        exact Except.ok.inj hj'
      obtain ⟨T, hT⟩ := List.exists_mem_of_ne_nil _ hkeys
      have hTlast := hall T (hr.visits.mem_iff.mpr hT)
      obtain ⟨j, hTj⟩ := mem_keys.mp hT
      have hT0 := hr.nonneg j T true hTj
      have hmem : last ∈ r.order := hlast.resolve_left (by omega)
      have hne := leadersOf_ne_nil.mpr (hr.visits.mem_iff.mp hmem)
      have hlen := length_le_one hr hone last
      have hkeys' : r.leaders.keys.length ≠ 0 := by simpa using hkeys
      simp only [hkeys', r.lookup_getD, ne_eq, not_false_eq_true, if_true]
      match hl : r.leadersOf last with
      | [] => exact absurd hl hne
      | i :: rest =>
        rw [hl, List.length_cons] at hlen
        have hrest : rest = [] := List.length_eq_zero_iff.mp (by omega)
        subst hrest
        refine ⟨_, rfl, last, hl, fun T => ⟨length_le_one hr hone T, fun hT => ?_⟩⟩
        exact hall T (hr.visits.mem_iff.mpr (leadersOf_ne_nil.mp hT))

theorem Round.Justifies.not_silent {r : Round n} {v : Verdict n} (h : r.Justifies v) :
    ¬ r.Silent := by
  intro hs
  have hnil : ∀ term, r.leadersOf term = [] := by
    intro term
    rw [List.eq_nil_iff_forall_not_mem]
    exact fun i hi => hs i term (mem_leadersOf.mp hi)
  cases v with
  | found i =>
    obtain ⟨term, hterm, -⟩ := h
    simp [hnil] at hterm
  | multiple term count =>
    obtain ⟨hcount, hlong⟩ := h
    rw [hnil] at hcount
    simp at hcount
    omega
  | noLeader => exact h
  | panicked => exact h

/-- `checkOneLeader` ends in the first round that has seen a leader, with the verdict this round
justifies, in whatever order Go visits the map; it never indexes an empty slice. -/
theorem checkOneLeader_spec (rounds : List (Round n)) (hr : ∀ r ∈ rounds, r.Regular) :
    (checkOneLeader rounds = .noLeader ∧ ∀ r ∈ rounds, r.Silent) ∨
      ∃ before r after, rounds = before ++ r :: after ∧ (∀ q ∈ before, q.Silent) ∧
        ¬ r.Silent ∧ r.Justifies (checkOneLeader rounds) := by
  induction rounds with
  | nil => exact .inl ⟨rfl, by simp⟩
  | cons r rounds ih =>
    obtain ⟨hr, hrs⟩ := List.forall_mem_cons.mp hr
    rw [checkOneLeader]
    rcases r.check_spec hr with ⟨hnone, hsilent⟩ | ⟨v, hv, hj⟩
    · rw [hnone, Option.getD_none]
      rcases ih hrs with ⟨hno, hall⟩ | ⟨before, q, after, hq, hbefore, hseen, hj⟩
      · exact .inl ⟨hno, List.forall_mem_cons.mpr ⟨hsilent, hall⟩⟩
      · right
        refine ⟨r :: before, q, after, ?_, List.forall_mem_cons.mpr ⟨hsilent, hbefore⟩, hseen, hj⟩
        rw [hq, List.cons_append]
    · rw [hv, Option.getD_some]
      exact .inr ⟨[], r, rounds, rfl, by simp, hj.not_silent, hj⟩

theorem checkOneLeader_append {before : List (Round n)} (hr : ∀ q ∈ before, q.Regular)
    (hs : ∀ q ∈ before, q.Silent) (rounds : List (Round n)) :
    checkOneLeader (before ++ rounds) = checkOneLeader rounds := by
  induction before with
  | nil => rfl
  | cons q before ih =>
    obtain ⟨hq, hr⟩ := List.forall_mem_cons.mp hr
    obtain ⟨hsq, hs⟩ := List.forall_mem_cons.mp hs
    rcases q.check_spec hq with ⟨hnone, -⟩ | ⟨v, -, hj⟩
    · rw [List.cons_append, checkOneLeader, hnone, Option.getD_none, ih hr hs]
    · exact absurd hsq hj.not_silent

theorem Round.length_leadersOf {r : Round n} {term : ℤ} :
    1 < (r.leadersOf term).length ↔
      ∃ i j, i ≠ j ∧ r.seen i = some (term, true) ∧ r.seen j = some (term, true) := by
  have hnodup : (r.leadersOf term).Nodup := (List.nodup_finRange n).filter _
  simp only [← mem_leadersOf]
  match hl : r.leadersOf term with
  | [] => simp
  | [k] =>
    simp only [List.length_singleton, lt_irrefl, List.mem_singleton, false_iff]
    rintro ⟨i, j, hij, rfl, rfl⟩
    exact hij rfl
  | i :: j :: rest =>
    rw [hl] at hnodup
    have hij : i ≠ j := by
      rintro rfl
      simp at hnodup
    simp only [List.length_cons]
    exact ⟨fun _ => ⟨i, j, hij, by simp, by simp⟩, fun _ => by omega⟩

/-- `checkOneLeader` reports two leaders exactly if the first round with a leader has seen two
servers as leaders of one term. -/
theorem checkOneLeader_multiple_iff (rounds : List (Round n)) (hr : ∀ r ∈ rounds, r.Regular) :
    (∃ term count, checkOneLeader rounds = .multiple term count) ↔
      ∃ before r after, rounds = before ++ r :: after ∧ (∀ q ∈ before, q.Silent) ∧
        ∃ term i j, i ≠ j ∧ r.seen i = some (term, true) ∧ r.seen j = some (term, true) := by
  constructor
  · rintro ⟨term, count, hv⟩
    rcases checkOneLeader_spec rounds hr with ⟨hno, -⟩ | ⟨before, r, after, hsplit, hb, -, hj⟩
    · simp [hno] at hv
    · rw [hv] at hj
      obtain ⟨rfl, hlong⟩ := hj
      exact ⟨before, r, after, hsplit, hb, term, Round.length_leadersOf.mp hlong⟩
  · rintro ⟨before, r, after, rfl, hb, term, htwo⟩
    have hlong := Round.length_leadersOf.mpr htwo
    rw [checkOneLeader_append (fun q hq => hr q (by simp [hq])) hb, checkOneLeader]
    rcases r.check_spec (hr r (by simp)) with ⟨-, hsilent⟩ | ⟨v, hv, hj⟩
    · obtain ⟨i, -, -, hi, -⟩ := htwo
      exact absurd hi (hsilent i term)
    · rw [hv, Option.getD_some]
      cases v with
      | found i =>
        obtain ⟨_, -, hone⟩ := hj
        have hshort := (hone term).1
        omega
      | multiple T count => exact ⟨T, count, rfl⟩
      | noLeader => exact hj.elim
      | panicked => exact hj.elim

/-- Two servers answer as leaders of term 1 and a third one as the leader of term 2. -/
def splitRound : Round 3 := ⟨![some (1, true), some (2, true), some (1, true)], [2, 1]⟩

theorem splitRound_reported :
    ∃ term count, checkOneLeader [splitRound] = .multiple term count := by
  refine (checkOneLeader_multiple_iff [splitRound] ?_).mpr
    ⟨[], splitRound, [], rfl, by simp, 1, 0, 2, by decide, rfl, rfl⟩
  intro r hr
  obtain rfl := List.mem_singleton.mp hr
  refine ⟨by decide, fun i => ?_⟩
  fin_cases i <;> simp [splitRound]

/-- Every answer of the round is what `GetState` gives at some moment of the run. -/
def Round.Observed (r : Round n) (es : List (Raft.Event n)) : Prop :=
  ∀ i term b, r.seen i = some (term, b) →
    ∃ T : ℕ, term = T ∧ (Raft.system n).Once es fun s => (s.peers i).getState = (T, b)

/-- In an orderly run no round sees two leaders of one term, although it asks the servers at
different moments. -/
theorem Round.Observed.length_le_one {r : Round n} {es : List (Raft.Event n)}
    {s : Raft.Cluster n} (ho : r.Observed es) (h : (Raft.system n).Run es s)
    (hc : (Raft.system n).Along es Raft.Orderly) (term : ℤ) : (r.leadersOf term).length ≤ 1 := by
  by_contra hlong
  obtain ⟨i, j, hij, hi, hj⟩ := length_leadersOf.mp (not_le.mp hlong)
  obtain ⟨T, rfl, hiT⟩ := ho i term true hi
  obtain ⟨T', hT', hjT⟩ := ho j _ true hj
  obtain rfl : T = T' := by exact_mod_cast hT'
  obtain ⟨v, hvi, hvj⟩ := Raft.majorities_meet
    (Raft.majority_of_once hc hiT) (Raft.majority_of_once hc hjT)
  have hvote := Raft.oneVotePerTerm_of_along h fun pre u e hpre hr => (hc pre u e hpre hr).1
  exact hij (hvote v T hvi hvj)

/-- Over an orderly run of the peers `checkOneLeader` never reports two leaders: it returns the
leader of the newest term that its first round with a leader has seen, and that server has led this
term; it fails for want of a leader only if no round has seen one. -/
theorem checkOneLeader_orderly (n : ℕ) (es : List (Raft.Event n)) (s : Raft.Cluster n)
    (h : (Raft.system n).Run es s) (hc : (Raft.system n).Along es Raft.Orderly)
    (rounds : List (Round n))
    (hr : ∀ r ∈ rounds, r.Observed es ∧ r.order.Perm r.leaders.keys) :
    (checkOneLeader rounds = .noLeader ∧ ∀ r ∈ rounds, r.Silent) ∨
      ∃ (before after : List (Round n)) (r : Round n), rounds = before ++ r :: after ∧
        (∀ q ∈ before, q.Silent) ∧ ∃ (i : Fin n) (T : ℕ), checkOneLeader rounds = .found i ∧
        r.seen i = some (↑T, true) ∧ (Raft.system n).Once es (Raft.IsLeader i T) ∧
        ∀ j term, r.seen j = some (term, true) → term ≤ T ∧ (term = T → j = i) := by
  have hreg : ∀ r ∈ rounds, r.Regular := by
    intro r hmem
    obtain ⟨hobs, hperm⟩ := hr r hmem
    refine ⟨hperm, fun i term b hseen => ?_⟩
    obtain ⟨T, rfl, -⟩ := hobs i term b hseen
    omega
  rcases checkOneLeader_spec rounds hreg with
    hno | ⟨before, r, after, hsplit, hbefore, -, hj⟩
  · exact .inl hno
  · right
    have hmem : r ∈ rounds := by simp [hsplit]
    have hone := (hr r hmem).1.length_le_one h hc
    refine ⟨before, after, r, hsplit, hbefore, ?_⟩
    cases hv : checkOneLeader rounds with
    | found i =>
      rw [hv] at hj
      obtain ⟨term, hterm, hnewest⟩ := hj
      have hi : r.seen i = some (term, true) := Round.mem_leadersOf.mp (by simp [hterm])
      obtain ⟨T, rfl, hT⟩ := (hr r hmem).1 i term true hi
      refine ⟨i, T, rfl, hi, hT, fun j term hseen => ⟨?_, ?_⟩⟩
      · exact (hnewest term).2 (List.ne_nil_of_mem (Round.mem_leadersOf.mpr hseen))
      · rintro rfl
        have hjm := Round.mem_leadersOf.mpr hseen
        simpa [hterm] using hjm
    | multiple term count =>
      rw [hv] at hj
      have hlen := hone term
      obtain ⟨hcount, hlong⟩ := hj
      omega
    | noLeader => rw [hv] at hj; exact hj.elim
    | panicked => rw [hv] at hj; exact hj.elim

/-- No server leads yet. -/
def quietRound : Round 3 := ⟨fun _ => some (0, false), []⟩

/-- Server 0 leads term 1, and server 1 is not connected. -/
def electRound : Round 3 := ⟨![some (1, true), none, some (1, false)], [1]⟩

theorem electRun_found : ∃ (before after : List (Round 3)) (r : Round 3) (T : ℕ),
    [quietRound, electRound] = before ++ r :: after ∧ (∀ q ∈ before, q.Silent) ∧
    checkOneLeader [quietRound, electRound] = .found 0 ∧ r.seen 0 = some (↑T, true) ∧
    (Raft.system 3).Once (Raft.electRun 0) (Raft.IsLeader 0 T) := by
  have hr := (Raft.system 3).run_exec_get (Raft.electRun 0) (by decide)
  have h := checkOneLeader_orderly 3 (Raft.electRun 0) _ hr
    (System.along_of_allSteps Raft.punctual (fun _ _ _ => Raft.orderly_of_punctual) (by decide))
    [quietRound, electRound] ?_
  · rcases h with ⟨-, hsilent⟩ | ⟨before, after, r, hsplit, hbefore, i, T, hv, hseen, hT, -⟩
    · exact absurd rfl (hsilent electRound (by simp) 0 1)
    · have hi : checkOneLeader [quietRound, electRound] = .found 0 := by decide
      obtain rfl := Verdict.found.inj (hi.symm.trans hv)
      exact ⟨before, after, r, T, hsplit, hbefore, hi, hseen, hT⟩
  · intro r hmem
    rcases List.mem_pair.mp hmem with rfl | rfl
    · refine ⟨fun i term b h => ⟨0, ?_, [], _, List.nil_prefix, .nil, ?_⟩, by decide⟩
      · simp [quietRound] at h
        omega
      · simp [quietRound] at h
        simp [← h.2, Raft.system, Raft.Cluster.initial, Raft.Peer.make, Raft.Peer.getState]
    · refine ⟨fun i term b h => ⟨1, ?_, System.once_now hr ?_⟩, by decide⟩
      · fin_cases i <;> simp [electRound] at h <;> omega
      · fin_cases i <;> simp [electRound] at h <;> obtain ⟨-, rfl⟩ := h <;> decide

end RaftTest
