import DistributedLabs.Raft.Calls

/-! One vote per term. `becomeLeader` clears `voteFor` without leaving the term, so a peer
that has won a term can be asked for its vote again; nothing else breaks the rule. -/
namespace Raft
open Runs
variable {n : ℕ} {s t : Cluster n} {e : Event n} {es : List (Event n)} {p c d : Fin n} {T : ℕ}

/-- No peer votes for two candidates in one term. -/
def OneVotePerTerm (es : List (Event n)) : Prop :=
  ∀ p T, {c | Voted es p T c}.Subsingleton

/-- In this step a peer whose vote is free handles a `RequestVote` of its own term, in
which it has been the leader. -/
def Revote (es : List (Event n)) (s : Cluster n) (e : Event n) : Prop :=
  ∃ k call a, e = .handleVote k ∧ s.votes[k]? = some call ∧ call.stage = .sent a ∧
    a.term = (s.peers call.server).currTerm ∧ (s.peers call.server).voteFor = none ∧
    (system n).Once es (IsLeader call.server a.term)

/-- A leader of term `T` voted for itself in term `T`. -/
theorem voted_self_of_leader (hl : (system n).Once es (IsLeader p T)) :
    Voted es p T p := by
  obtain ⟨pre, u, hp, hr, hl⟩ := hl
  obtain ⟨hs, rfl⟩ := Peer.getState_eq_leader.mp hl
  have hst := (voteFacts hr).started p (by rw [hs]; simp)
  exact Or.inl ⟨rfl, System.did_mono hst hp⟩

/-- The vote a peer has cast in its present term is still in `voteFor`, unless it was
its own and the peer has won the term. -/
def VoteKept (es : List (Event n)) (s : Cluster n) : Prop :=
  ∀ p c, Voted es p (s.peers p).currTerm c → (s.peers p).voteFor = some c ∨
    ((s.peers p).voteFor = none ∧ (system n).Once es (IsLeader p (s.peers p).currTerm))

theorem voteKept_step (hr : (system n).Run es s) (hk : VoteKept es s)
    (hc : ¬ Revote es s e) (h : s.step e = some t) : VoteKept (es ++ [e]) t := by
  intro p c hv
  have hf := voteFacts hr
  rcases (voted_snoc hr h).mp hv with hv | ⟨rfl, he⟩ | hg
  · have hT : (t.peers p).currTerm = (s.peers p).currTerm :=
      le_antisymm (hf.term_le p _ c hv) (currTerm_le_of_step h p)
    rw [hT] at hv ⊢
    have hold := hk p c hv
    rw [System.once_snoc hr h]
    rcases voteFor_of_step h hT with
      hsame | ⟨hnone, k, call, a, he, hk', hst, hq, ha⟩ | ⟨hs, hl, hnone⟩
    · rw [hsame]
      tauto
    · have hl : (system n).Once es (IsLeader p (s.peers p).currTerm) := by
        rcases hold with hold | hold
        · simp [hnone] at hold
        · exact hold.2
      subst hq
      exact absurd ⟨k, call, a, he, hk', hst, ha, hnone, ha ▸ hl⟩ hc
    · right
      exact ⟨hnone, Or.inr (Peer.getState_eq_leader.mpr ⟨hl, hT⟩)⟩
  · left
    rw [(he.ballot h).2]
  · exact Or.inl (hg.ballot h).2.1

theorem oneVote_step (hr : (system n).Run es s) (hk : VoteKept es s) (ho : OneVotePerTerm es)
    (hc : ¬ Revote es s e) (h : s.step e = some t) : OneVotePerTerm (es ++ [e]) := by
  have hf := voteFacts hr
  intro p T c hvc d hvd
  have fresh : ∀ {c d}, Voted es p T c → (d = p ∧ ElectionStep p T s e t) ∨ GrantStep p T d s e →
      c = d := by
    intro c d hv hnew
    have hle := hf.term_le p T c hv
    rcases hnew with ⟨-, he⟩ | hg
    · have := (he.ballot h).1
      omega
    · obtain ⟨-, -, hlt | ⟨rfl, hfree⟩⟩ := hg.ballot h
      · omega
      · rcases hk p c hv with hvote | ⟨hnone, hl⟩
        · rcases hfree with hfree | hfree
          · simp [hfree] at hvote
          · exact Option.some.inj (hvote.symm.trans hfree)
        · obtain ⟨k, call, a, he, hk', hst, rfl, ha, -⟩ := hg
          exact absurd ⟨k, call, a, he, hk', hst, ha, hnone, ha ▸ hl⟩ hc
  rcases (voted_snoc hr h).mp hvc with hvc | hnc
  · rcases (voted_snoc hr h).mp hvd with hvd | hnd
    · exact ho p T hvc hvd
    · exact fresh hvc hnd
  · rcases (voted_snoc hr h).mp hvd with hvd | hnd
    · exact (fresh hvd hnc).symm
    · have hc' : (t.peers p).voteFor = some c := by
        rcases hnc with ⟨rfl, he⟩ | hg
        · rw [(he.ballot h).2]
        · exact (hg.ballot h).2.1
      have hd' : (t.peers p).voteFor = some d := by
        rcases hnd with ⟨rfl, he⟩ | hg
        · rw [(he.ballot h).2]
        · exact (hg.ballot h).2.1
      exact Option.some.inj (hc'.symm.trans hd')

theorem oneVotePerTerm_of_along (h : (system n).Run es s)
    (hc : (system n).Along es fun pre u e => ¬ Revote pre u e) : OneVotePerTerm es := by
  have hinv : VoteKept es s ∧ OneVotePerTerm es := by
    apply h.invariant (I := fun es s => VoteKept es s ∧ OneVotePerTerm es) _ _ hc
    · have none : ∀ p T c, ¬ Voted (n := n) [] p T c := by
        rintro p T c (⟨-, hv⟩ | hv) <;> exact System.did_nil hv
      exact ⟨fun p c hv => absurd hv (none _ _ _), fun p T c hv => absurd hv (none _ _ _)⟩
    · intro es s e t hr hI hc hs
      exact ⟨voteKept_step hr hI.1 hc hs, oneVote_step hr hI.1 hI.2 hc hs⟩
  exact hinv.2

/-- A peer that is asked again in a term it has won votes twice in that term. -/
theorem revote_breaks (hr : (system n).Run es s) (h : s.step e = some t) (hc : Revote es s e) :
    ¬ OneVotePerTerm (es ++ [e]) := by
  obtain ⟨k, call, a, rfl, hk, hst, ha, hnone, hl⟩ := hc
  intro ho
  have hcf := callFacts hr
  have hm := List.mem_of_getElem? hk
  have hself : Voted (es ++ [.handleVote k]) call.server a.term call.server :=
    (voted_snoc hr h).mpr (Or.inl (voted_self_of_leader hl))
  have hother : Voted (es ++ [.handleVote k]) call.server a.term a.candidateId :=
    (voted_snoc hr h).mpr (Or.inr (Or.inr
      ⟨k, call, a, rfl, hk, hst, rfl, rfl, rfl, Peer.requestVote_grants ha hnone⟩))
  have hcand := (hcf.args call hm a (by rw [hst]; rfl)).1
  exact hcf.ne call hm (hcand ▸ ho _ _ hself hother)

/-- A run gives every peer at most one vote per term exactly when no step of it asks a
peer for its vote in a term that this peer has already won. -/
theorem oneVotePerTerm_iff (h : (system n).Run es s) :
    OneVotePerTerm es ↔ (system n).Along es fun pre u e => ¬ Revote pre u e := by
  refine ⟨fun ho pre u e hp hr hc => ?_, oneVotePerTerm_of_along h⟩
  obtain ⟨v, hv⟩ := h.of_prefix hp
  obtain ⟨w, hw, hs⟩ := hv.inv_snoc
  obtain rfl := hr.unique hw
  exact revote_breaks hr hs hc fun q T x hx y hy =>
    ho q T (voted_mono hx hp) (voted_mono hy hp)

theorem not_revote_of_punctual (h : punctual s e = true) : ¬ Revote es s e := by
  rintro ⟨k, c, a, rfl, hk, hst, ha, -⟩
  simp [punctual, hk, hst, Stage.args?, ha] at h

theorem oneVotePerTerm_electRun : OneVotePerTerm (electRun 0) :=
  (oneVotePerTerm_iff ((system 3).run_exec_get (electRun 0) (by decide))).mpr
    (System.along_of_allSteps punctual (fun _ _ _ => not_revote_of_punctual) (by decide))

/-- Peers `p` and `q` of three stand in term 1; `p` wins with the vote of the third one, which
frees its own vote, and then handles the request of `q`. -/
def revoteRun (p q : Fin 3) : List (Event 3) :=
  [.electionExpires p, .receiveElection p, .election p,
    .electionExpires q, .receiveElection q, .election q,
    .sendVote 1, .handleVote 1, .replyVote 1, .sendVote 2] ++ [.handleVote 2]

theorem revoteRun_votes_twice :
    (∃ s, (system 3).Run (revoteRun 0 1) s) ∧ ¬ OneVotePerTerm (revoteRun 0 1) := by
  refine ⟨⟨_, (system 3).run_exec_get (revoteRun 0 1) (by decide)⟩, ?_⟩
  have hr := (system 3).run_exec_get (revoteRun 0 1).dropLast (by decide)
  refine revote_breaks (e := .handleVote 2) hr rfl ?_
  exact ⟨2, _, ⟨1, 1⟩, rfl, rfl, rfl, by decide, by decide, System.once_now hr (by decide)⟩

end Raft
