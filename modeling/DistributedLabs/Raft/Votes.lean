import DistributedLabs.Raft.Steps

/-! Votes cast over a whole run. A peer votes for itself in `startElection` and for a
candidate when it answers a `RequestVote` with `VoteGranted = true`. -/
namespace Raft
open Runs
variable {n : ℕ} {s t : Cluster n} {e : Event n} {es : List (Event n)} {p q c d : Fin n} {T : ℕ}

/-- The peer `p` is in state Leader with `currTerm = T`. -/
def IsLeader (p : Fin n) (T : ℕ) (s : Cluster n) : Prop := (s.peers p).getState = (T, true)

instance (p : Fin n) (T : ℕ) (s : Cluster n) : Decidable (IsLeader p T s) :=
  inferInstanceAs (Decidable (_ = _))

/-- The step is `p`'s `ticker` running `startElection` and so entering term `T`. -/
def ElectionStep (p : Fin n) (T : ℕ) (s : Cluster n) (e : Event n) (t : Cluster n) : Prop :=
  e = .election p ∧ (s.peers p).state ≠ .leader ∧ (t.peers p).currTerm = T

/-- In this step `p` answers the `RequestVote` of term `T` from `c` with a granted vote. -/
def GrantStep (p : Fin n) (T : ℕ) (c : Fin n) (s : Cluster n) (e : Event n) : Prop :=
  ∃ k call a, e = .handleVote k ∧ s.votes[k]? = some call ∧ call.stage = .sent a ∧
    call.server = p ∧ a.term = T ∧ a.candidateId = c ∧
    ((s.peers p).requestVote a).2.voteGranted = true

/-- The peer `p` has run a `startElection` that set its `currTerm` to `T`. -/
def Started (es : List (Event n)) (p : Fin n) (T : ℕ) : Prop :=
  (system n).Did es (ElectionStep p T)

/-- The peer `p` has granted a `RequestVote` of term `T` from `c`. -/
def Granted (es : List (Event n)) (p : Fin n) (T : ℕ) (c : Fin n) : Prop :=
  (system n).Did es fun s e _ => GrantStep p T c s e

/-- The peer `p` has voted for `c` in term `T`. -/
def Voted (es : List (Event n)) (p : Fin n) (T : ℕ) (c : Fin n) : Prop :=
  (c = p ∧ Started es p T) ∨ Granted es p T c

theorem started_snoc (h : (system n).Run es s) (hs : s.step e = some t) :
    Started (es ++ [e]) p T ↔ Started es p T ∨ ElectionStep p T s e t :=
  System.did_snoc h hs

theorem granted_snoc (h : (system n).Run es s) (hs : s.step e = some t) :
    Granted (es ++ [e]) p T c ↔ Granted es p T c ∨ GrantStep p T c s e :=
  System.did_snoc h hs

theorem voted_snoc (h : (system n).Run es s) (hs : s.step e = some t) :
    Voted (es ++ [e]) p T c ↔
      Voted es p T c ∨ (c = p ∧ ElectionStep p T s e t) ∨ GrantStep p T c s e := by
  unfold Voted
  rw [started_snoc h hs, granted_snoc h hs]
  tauto

theorem voted_mono {pre : List (Event n)} (hv : Voted pre p T c) (hp : pre <+: es) :
    Voted es p T c :=
  hv.imp (fun h => ⟨h.1, System.did_mono h.2 hp⟩) fun h => System.did_mono h hp

/-- A peer's term never falls. -/
theorem currTerm_le_of_step (h : s.step e = some t) (q : Fin n) :
    (s.peers q).currTerm ≤ (t.peers q).currTerm := by
  have hb := step_ballot h q
  generalize (t.peers q).toBallot = b at hb ⊢
  cases hb <;> simp <;> omega

theorem ElectionStep.ballot (h : s.step e = some t) (he : ElectionStep p T s e t) :
    T = (s.peers p).currTerm + 1 ∧ (t.peers p).toBallot = ⟨T, some p, .candidate, 1⟩ := by
  obtain ⟨rfl, hl, hT⟩ := he
  cases Cluster.Step.of_step h with
  | election =>
    simp only [Cluster.tickElection, hl, ↓reduceIte, Cluster.setPeer_peers] at hT ⊢
    subst hT
    exact ⟨rfl, rfl⟩

theorem GrantStep.ballot (h : s.step e = some t) (hg : GrantStep p T c s e) :
    (t.peers p).currTerm = T ∧ (t.peers p).voteFor = some c ∧
    ((s.peers p).currTerm < T ∨
      (s.peers p).currTerm = T ∧ ((s.peers p).voteFor = none ∨ (s.peers p).voteFor = some c)) := by
  obtain ⟨k, call, a, rfl, hk, hc, rfl, rfl, rfl, hg⟩ := hg
  have ht : (t.peers call.server).toBallot =
      ((s.peers call.server).requestVote a).1.toBallot := by
    cases Cluster.Step.of_step h with
    | handleVote hk' hc' =>
      obtain rfl : call = _ := Option.some.inj (hk.symm.trans hk')
      obtain rfl : a = _ := by simpa [hc] using hc'
      simp [Cluster.handleVote]
  rcases Peer.requestVote_granted hg with ⟨hT, hb⟩ | ⟨hT, hv, hb⟩
  · rw [ht, hb]
    exact ⟨rfl, rfl, Or.inl hT⟩
  · rw [ht, hb]
    exact ⟨hT, rfl, Or.inr ⟨hT, hv⟩⟩

/-- Inside a term the vote moves only from free to a granted candidate, or from a
candidate's own vote to free when it becomes leader. -/
theorem voteFor_of_step (h : s.step e = some t)
    (hT : (t.peers p).currTerm = (s.peers p).currTerm) :
    (t.peers p).voteFor = (s.peers p).voteFor ∨
    ((s.peers p).voteFor = none ∧ ∃ k call a, e = .handleVote k ∧ s.votes[k]? = some call ∧
      call.stage = .sent a ∧ call.server = p ∧ a.term = (s.peers p).currTerm) ∨
    ((s.peers p).state = .candidate ∧ (t.peers p).state = .leader ∧
      (t.peers p).voteFor = none) := by
  have hb := step_ballot h p
  generalize (t.peers p).toBallot = b at hb hT ⊢
  cases hb with
  | same | count | adopt => exact Or.inl rfl
  | elect => simp at hT
  | grantNewer | stepDown => simp at hT; omega
  | grantFree k c a he hk hc hq ha hv =>
    exact Or.inr (Or.inl ⟨hv, k, c, a, he, hk, hc, hq, ha.symm⟩)
  | win k c a r he hk hc hq hg hs hn => exact Or.inr (Or.inr ⟨hs, rfl, rfl⟩)

/-- Facts about votes that hold in every run. -/
structure VoteFacts (es : List (Event n)) (s : Cluster n) : Prop where
  /-- Votes belong to terms that the voter has reached. -/
  term_le : ∀ p T c, Voted es p T c → T ≤ (s.peers p).currTerm
  /-- Candidates and leaders started the election of their term themselves. -/
  started : ∀ p, (s.peers p).state ≠ .follower → Started es p (s.peers p).currTerm
  /-- Candidates hold their own vote. -/
  own : ∀ p, (s.peers p).state = .candidate → (s.peers p).voteFor = some p

theorem voteFacts_init : VoteFacts (n := n) [] (system n).init where
  term_le p T c h := by
    rcases h with ⟨-, h⟩ | h
    · exact absurd h System.did_nil
    · exact absurd h System.did_nil
  started p h := absurd rfl h
  own p h := by simp [system, Cluster.initial, Peer.make] at h

theorem voteFacts_step (hr : (system n).Run es s) (hf : VoteFacts es s)
    (h : s.step e = some t) : VoteFacts (es ++ [e]) t where
  term_le p T c hv := by
    have hle := currTerm_le_of_step h p
    rcases (voted_snoc hr h).mp hv with hv | ⟨-, he⟩ | hg
    · exact (hf.term_le p T c hv).trans hle
    · exact (congrArg Ballot.currTerm (he.ballot h).2).ge
    · exact (hg.ballot h).1.ge
  started p hp := by
    have hb := step_ballot h p
    have keep : (s.peers p).state ≠ .follower →
        (t.peers p).currTerm = (s.peers p).currTerm →
          Started (es ++ [e]) p (t.peers p).currTerm := by
      intro hs hT
      rw [hT]
      exact (started_snoc hr h).mpr (Or.inl (hf.started p hs))
    generalize hbt : (t.peers p).toBallot = b at hb hp keep ⊢
    cases hb with
    | same | grantFree | count => exact keep hp rfl
    | elect he hl => exact (started_snoc hr h).mpr (Or.inr ⟨he, hl, by rw [hbt]⟩)
    | win k c a r he hk hc hq hg hs hn => exact keep (by rw [hs]; simp) rfl
    | grantNewer | stepDown | adopt => exact absurd rfl hp
  own p hp := by
    have hb := step_ballot h p
    generalize (t.peers p).toBallot = b at hb hp ⊢
    cases hb with
    | same | count => exact hf.own p hp
    | elect => rfl
    | grantFree k c a he hk hc hq hT hv => simp [hf.own p hp] at hv
    | grantNewer | stepDown | adopt | win => simp at hp

theorem voteFacts (h : (system n).Run es s) : VoteFacts es s :=
  h.invariant' voteFacts_init fun _ _ _ _ hr hf hs => voteFacts_step hr hf hs

end Raft
