import DistributedLabs.Raft.Counting
import DistributedLabs.Raft.OneVote

/-! Election safety: a leader has a majority of real votes of its term, two majorities
share a voter, and a voter votes once. -/
namespace Raft
open Runs
variable {n : ℕ} {s t : Cluster n} {e : Event n} {es : List (Event n)} {p q : Fin n} {T : ℕ}

/-- Two sets of more than half of the peers meet. -/
theorem majorities_meet {A B : Set (Fin n)} (hA : n / 2 < A.ncard) (hB : n / 2 < B.ncard) :
    (A ∩ B).Nonempty := by
  have hsum := Set.ncard_union_add_ncard_inter A B
  have hle : (A ∪ B).ncard ≤ n := by
    simpa using Set.ncard_le_ncard (Set.subset_univ (A ∪ B)) (Set.toFinite _)
  apply (Set.ncard_pos (Set.toFinite _)).mp
  omega

/-- None of the three schedules that spoil an election occurs in this step. -/
def Orderly (es : List (Event n)) (s : Cluster n) (e : Event n) : Prop :=
  ¬ Revote es s e ∧ ¬ StaleGrant s e ∧ ¬ LateSend s e

theorem along_counting (hc : (system n).Along es Orderly) :
    (system n).Along es fun _ u e => ¬ StaleGrant u e ∧ ¬ LateSend u e :=
  fun pre u e hp hr => (hc pre u e hp hr).2

/-- The peers that have voted for `p` in term `T`. -/
def voters (es : List (Event n)) (p : Fin n) (T : ℕ) : Set (Fin n) := {q | Voted es q T p}

theorem voters_mono {pre : List (Event n)} (hp : pre <+: es) : voters pre p T ⊆ voters es p T :=
  fun _ hv => voted_mono hv hp

theorem voters_ncard_mono {pre : List (Event n)} (hp : pre <+: es) :
    (voters pre p T).ncard ≤ (voters es p T).ncard :=
  Set.ncard_le_ncard (voters_mono hp) (Set.toFinite _)

/-- The voters of a candidate are itself and the peers that granted it their vote. -/
theorem voters_ncard_of_started (hs : Started es p T) :
    1 + {q | q ≠ p ∧ Granted es q T p}.ncard ≤ (voters es p T).ncard := by
  have hp : p ∉ {q | q ≠ p ∧ Granted es q T p} := fun h => h.1 rfl
  rw [Nat.add_comm, ← Set.ncard_insert_of_notMem hp (Set.toFinite _)]
  apply Set.ncard_le_ncard _ (Set.toFinite _)
  intro i hi
  rcases hi with rfl | ⟨-, hg⟩
  · exact Or.inl ⟨rfl, hs⟩
  · exact Or.inr hg

/-- A candidate that is elected in this step has a majority of voters in its term. -/
theorem majority_of_win (hr : (system n).Run es s) (hf : SendsFresh s) (hcov : CountCovered s)
    (hc : ¬ StaleGrant s e) (h : s.step e = some t) {k : ℕ} {c : VoteCall n}
    {a : RequestVoteArgs n} {r : RequestVoteReply} (he : e = .replyVote k)
    (hk : s.votes[k]? = some c) (hst : c.stage = .answered a r) (hq : c.caller = p)
    (hg : r.voteGranted = true) (hs : (s.peers p).state = .candidate)
    (hn : n / 2 < (s.peers p).voteCount + 1) :
    n / 2 < (voters (es ++ [e]) p (s.peers p).currTerm).ncard := by
  subst he hq
  have hT : a.term = (s.peers c.caller).currTerm := by
    by_contra hne
    exact hc ⟨k, c, a, r, rfl, hk, hst, hg, hs, hne⟩
  have hborn : ∀ d ∈ t.votes, ∀ b, d.caller = c.caller → d.stage.args? = some b →
      b.term = (s.peers c.caller).currTerm → d.born = (s.peers c.caller).currTerm := by
    intro d hd b hdp hb hbT
    rcases mem_votes_of_step h hd with hd | ⟨_, _, he, -⟩ | ⟨j, d₀, hj, hadv⟩
    · exact (hf d hd b hb (hdp ▸ hs) (hdp ▸ hbT)).trans hbT
    · simp at he
    · cases hadv with
      | reply k x y z b' r' =>
        exact (hf _ (List.mem_of_getElem? hj) b hb (hdp ▸ hs) (hdp ▸ hbT)).trans hbT
  have hcount := countP_counted_reply h hk hst hg
  have hstep : (system n).step s (.replyVote k) = some t := h
  have hle := countP_counted_le (hr.snoc hstep) hborn
  have hst' := (started_snoc hr h).mpr (Or.inl ((voteFacts hr).started c.caller (by rw [hs]; simp)))
  have hvot := voters_ncard_of_started hst'
  have h0 := hcov c.caller hs
  rw [hT] at hcount
  omega

/-- Every leader has a majority of voters in its term. -/
def LeaderElected (es : List (Event n)) (s : Cluster n) : Prop :=
  ∀ p, (s.peers p).state = .leader → n / 2 < (voters es p (s.peers p).currTerm).ncard

theorem leaderElected_step (hr : (system n).Run es s) (hl : LeaderElected es s)
    (hf : SendsFresh s) (hcov : CountCovered s) (hc : ¬ StaleGrant s e)
    (h : s.step e = some t) : LeaderElected (es ++ [e]) t := by
  intro p hp
  have keep : (s.peers p).state = .leader →
      n / 2 < (voters (es ++ [e]) p (s.peers p).currTerm).ncard := fun hs =>
    (hl p hs).trans_le (voters_ncard_mono (List.prefix_append _ _))
  have hb := step_ballot h p
  generalize (t.peers p).toBallot = b at hb hp ⊢
  cases hb with
  | same | grantFree | count => exact keep hp
  | win k c a r he hk hst hq hg hs hn =>
    exact majority_of_win hr hf hcov hc h he hk hst hq hg hs hn
  | elect | grantNewer | stepDown | adopt => simp at hp

theorem leaderElected_of_along (h : (system n).Run es s) (hc : (system n).Along es Orderly) :
    LeaderElected es s := by
  induction h with
  | nil =>
    intro p hp
    simp [system, Cluster.initial, Peer.make] at hp
  | snoc hr hs ih =>
    obtain ⟨hc, he⟩ := (System.along_snoc hr).mp hc
    exact leaderElected_step hr (ih hc) (sendsFresh_of_along hr (along_counting hc))
      (countCovered_of_along hr (along_counting hc)) he.2.1 hs

/-- A leader at some moment of the run has a majority of voters at its end. -/
theorem majority_of_once (hc : (system n).Along es Orderly)
    (hp : (system n).Once es (IsLeader p T)) : n / 2 < (voters es p T).ncard := by
  obtain ⟨pre, u, hpre, hr, hl⟩ := hp
  obtain ⟨hs, rfl⟩ := Peer.getState_eq_leader.mp hl
  exact (leaderElected_of_along hr (System.along_mono hc hpre) p hs).trans_le
    (voters_ncard_mono hpre)

/-- In every orderly run of any number of peers, two leaders of one term, at whatever
moments, are the same peer. -/
theorem electionSafety (h : (system n).Run es s) (hc : (system n).Along es Orderly)
    (hp : (system n).Once es (IsLeader p T)) (hq : (system n).Once es (IsLeader q T)) :
    p = q := by
  obtain ⟨v, hvp, hvq⟩ := majorities_meet (majority_of_once hc hp) (majority_of_once hc hq)
  have hone := oneVotePerTerm_of_along h fun pre u e hpre hr => (hc pre u e hpre hr).1
  exact hone v T hvp hvq

theorem orderly_of_punctual (h : punctual s e = true) : Orderly es s e :=
  ⟨not_revote_of_punctual h, not_staleGrant_of_punctual h, not_lateSend_of_punctual h⟩

theorem electRun_single_leader : ∃ s, (system 3).Run (electRun 0) s ∧ IsLeader 0 1 s ∧
    ∀ q, (system 3).Once (electRun 0) (IsLeader q 1) → 0 = q := by
  have hr := (system 3).run_exec_get (electRun 0) (by decide)
  have hl : IsLeader 0 1 ((system 3).exec (system 3).init (electRun 0) |>.get (by decide)) := by
    decide
  refine ⟨_, hr, hl, fun q hq => electionSafety hr ?_ (System.once_now hr hl) hq⟩
  exact System.along_of_allSteps punctual (fun _ _ _ => orderly_of_punctual) (by decide)

/-- Once peer 0 has granted peer 1 its freed vote, peer 1 becomes leader of term 1 too. -/
theorem revoteRun_two_leaders :
    ¬ ∀ (n : ℕ) (es : List (Event n)) (s : Cluster n) (p q : Fin n) (T : ℕ), 2 ≤ n →
      (system n).Run es s → (system n).Once es (IsLeader p T) →
      (system n).Once es (IsLeader q T) → p = q := by
  intro hall
  have hr := (system 3).run_exec_get (revoteRun 0 1 ++ [.replyVote 2]) (by decide)
  have h01 := hall 3 _ _ 0 1 1 (by decide) hr (System.once_now hr (by decide))
    (System.once_now hr (by decide))
  exact absurd h01 (by decide)

end Raft
