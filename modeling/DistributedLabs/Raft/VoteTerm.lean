import DistributedLabs.Raft.Calls

/-! Whether `voteFor` is a vote of the current term. `AppendEntries` raises `currTerm` and
keeps `voteFor`, so a peer that adopts a leader's newer term takes its old vote along. -/
namespace Raft
open Runs
variable {n : ℕ} {s t : Cluster n} {e : Event n} {es : List (Event n)} {p c : Fin n}

/-- Every vote that a peer holds is one it has cast in its current term. -/
def VotesCurrent (es : List (Event n)) (s : Cluster n) : Prop :=
  ∀ p c, (s.peers p).voteFor = some c → Voted es p (s.peers p).currTerm c

/-- In this step a peer that holds a vote handles an `AppendEntries` of a newer term. -/
def VoteCarried (s : Cluster n) (e : Event n) : Prop :=
  ∃ k call a, e = .handleBeat k ∧ s.beats[k]? = some call ∧ call.stage = .sent a ∧
    (s.peers call.server).currTerm < a.term ∧ (s.peers call.server).voteFor ≠ none

/-- A vote held after a step was held in the same term before it, is cast in it, or is
carried into a newer term. -/
theorem vote_of_step (h : s.step e = some t) (hv : (t.peers p).voteFor = some c) :
    ((s.peers p).voteFor = some c ∧ (s.peers p).currTerm = (t.peers p).currTerm) ∨
    (c = p ∧ ElectionStep p (t.peers p).currTerm s e t) ∨
    GrantStep p (t.peers p).currTerm c s e ∨ VoteCarried s e := by
  have hp := step_peer h p
  generalize hrf : t.peers p = rf at hp hv
  cases hp with
  | stand ht hl =>
    obtain rfl : p = c := by simpa [Peer.startElection, Peer.tickerLoop] using hv
    exact Or.inr (Or.inl ⟨rfl, rfl, hl, by rw [hrf]⟩)
  | @handleVote k call a hk hc hq =>
    cases hg : ((s.peers p).requestVote a).2.voteGranted with
    | false =>
      rw [(Peer.requestVote_refused hg).1] at hv ⊢
      exact Or.inl ⟨hv, rfl⟩
    | true =>
      right; right; left
      rcases Peer.requestVote_granted hg with ⟨hT, hb⟩ | ⟨hT, -, hb⟩
      · rw [hb] at hv ⊢
        exact ⟨k, call, a, rfl, hk, hc, hq, rfl, Option.some.inj hv, hg⟩
      · rw [hb] at hv ⊢
        exact ⟨k, call, a, rfl, hk, hc, hq, hT.symm, Option.some.inj hv, hg⟩
  | @replyVote k call a r hk hc hq =>
    left
    cases hg : r.voteGranted with
    | false =>
      rcases (Peer.sendRequestVoteReply_refused (s.peers p) hg).2 with hb | ⟨-, hb⟩
      · rw [hb] at hv ⊢
        exact ⟨hv, rfl⟩
      · rw [hb] at hv
        contradiction
    | true =>
      rcases Peer.sendRequestVoteReply_granted (s.peers p) hg with ⟨-, -, hb, -⟩ | ⟨-, hb, -⟩
      · rw [hb] at hv
        contradiction
      · rw [hb] at hv ⊢
        exact ⟨hv, rfl⟩
  | @handleBeat k call a hk hc hq =>
    rw [Peer.appendEntries_ballot] at hv ⊢
    split_ifs at hv ⊢ with hlt
    · exact Or.inl ⟨hv, rfl⟩
    · by_cases heq : (s.peers p).currTerm = a.term
      · exact Or.inl ⟨hv, heq⟩
      · subst hq
        refine Or.inr (Or.inr (Or.inr ⟨k, call, a, rfl, hk, hc, by omega, ?_⟩))
        simp only at hv
        simp [hv]
  | @replyBeat k call a r hk hc hq =>
    left
    rcases Peer.sendAppendEntriesReply_ballot (s.peers p) r with hb | ⟨-, hb⟩
    · rw [hb] at hv ⊢
      exact ⟨hv, rfl⟩
    · rw [hb] at hv
      contradiction
  | same | electionExpires | heartbeatExpires | receiveElection | receiveHeartbeat
  | leaveElection | beat | leaveHeartbeat | kill => exact Or.inl ⟨hv, rfl⟩

theorem votesCurrent_step (hr : (system n).Run es s) (hI : VotesCurrent es s)
    (hc : ¬ VoteCarried s e) (h : s.step e = some t) : VotesCurrent (es ++ [e]) t := by
  intro p c hv
  rw [voted_snoc hr h]
  rcases vote_of_step h hv with ⟨hold, hT⟩ | hnew | hnew | hcarried
  · left
    rw [← hT]
    exact hI p c hold
  · exact Or.inr (Or.inl hnew)
  · exact Or.inr (Or.inr hnew)
  · exact absurd hcarried hc

theorem votesCurrent_of_along (h : (system n).Run es s)
    (hc : (system n).Along es fun _ u e => ¬ VoteCarried u e) : VotesCurrent es s := by
  apply h.invariant (I := VotesCurrent) _ _ hc
  · intro p c hv
    simp [system, Cluster.initial, Peer.make] at hv
  · intro es s e t hr hI hc hs
    exact votesCurrent_step hr hI hc hs

/-- A vote that is carried into a newer term is not a vote of that term. -/
theorem voteCarried_breaks (hr : (system n).Run es s) (h : s.step e = some t)
    (hc : VoteCarried s e) : ¬ VotesCurrent (es ++ [e]) t := by
  obtain ⟨k, call, a, rfl, hk, hst, hlt, hvote⟩ := hc
  obtain ⟨c, hvote⟩ := Option.ne_none_iff_exists'.mp hvote
  have ht : (t.peers call.server).toBallot = ⟨a.term, some c, .follower, 0⟩ := by
    cases Cluster.Step.of_step h with
    | handleBeat hk' hst' =>
      obtain rfl : call = _ := Option.some.inj (hk.symm.trans hk')
      obtain rfl : a = _ := by simpa [hst] using hst'
      have hnot : ¬ a.term < (s.peers call.server).currTerm := by omega
      simp [Cluster.handleBeat, Peer.appendEntries_ballot, hnot, hvote]
  intro hI
  have hv := hI call.server c (by rw [ht])
  rw [ht, voted_snoc hr h] at hv
  rcases hv with hv | ⟨-, he⟩ | hg
  · have := (voteFacts hr).term_le _ _ _ hv
    simp only at this
    omega
  · obtain ⟨he, -⟩ := he
    simp at he
  · obtain ⟨_, _, _, he, -⟩ := hg
    simp at he

/-- The votes held are votes of the current term throughout a run exactly when no peer that
holds a vote handles an `AppendEntries` of a newer term. -/
theorem votesCurrent_iff (h : (system n).Run es s) :
    (∀ pre u, pre <+: es → (system n).Run pre u → VotesCurrent pre u) ↔
      (system n).Along es fun _ u e => ¬ VoteCarried u e := by
  constructor
  · intro hall pre u e hp hr hc
    obtain ⟨v, hv⟩ := h.of_prefix hp
    obtain ⟨w, hw, hs⟩ := hv.inv_snoc
    obtain rfl := hr.unique hw
    exact voteCarried_breaks hr hs hc (hall _ v hp hv)
  · intro hc pre u hp hr
    exact votesCurrent_of_along hr (System.along_mono hc hp)

/-- A peer that has not voted in its term is then free to grant a request of that term. -/
theorem grants_of_votesCurrent (hI : VotesCurrent es s) {a : RequestVoteArgs n}
    (ha : a.term = (s.peers p).currTerm) (hnot : ∀ c, ¬ Voted es p a.term c) :
    ((s.peers p).requestVote a).2.voteGranted = true := by
  apply Peer.requestVote_grants ha
  cases hv : (s.peers p).voteFor with
  | none => rfl
  | some c =>
    have hvoted := hI p c hv
    rw [← ha] at hvoted
    exact absurd hvoted (hnot c)

/-- A test for steps that carry no vote along. -/
def dropsVote (s : Cluster n) : Event n → Bool
  | .handleBeat k => (s.beats[k]?).all fun c => c.stage.args?.all fun a =>
      ! decide ((s.peers c.server).currTerm < a.term) || (s.peers c.server).voteFor.isNone
  | _ => true

theorem not_voteCarried_of_dropsVote (h : dropsVote s e = true) : ¬ VoteCarried s e := by
  rintro ⟨k, c, a, rfl, hk, hst, hlt, hvote⟩
  simp [dropsVote, hk, hst, Stage.args?, hlt] at h
  exact hvote h

/-- The elected peer `p` of three sends its first heartbeat to a peer that has not voted. -/
def adoptRun (p : Fin 3) : List (Event 3) :=
  electRun p ++ [.broadcast p, .sendBeat 0, .handleBeat 0]

theorem votesCurrent_adoptRun : ∃ s, (system 3).Run (adoptRun 0) s ∧
    (s.peers 1).currTerm = 1 ∧ (s.peers 2).voteFor = some 0 ∧ Voted (adoptRun 0) 2 1 0 := by
  obtain ⟨s, hr, h1, h2, hT⟩ := System.exists_run (system 3) (adoptRun 0)
    (fun s => (s.peers 1).currTerm = 1 ∧ (s.peers 2).voteFor = some 0 ∧
      (s.peers 2).currTerm = 1) (by decide +kernel)
  have hc : (system 3).Along (adoptRun 0) fun _ u e => ¬ VoteCarried u e :=
    System.along_of_allSteps dropsVote (fun _ _ _ => not_voteCarried_of_dropsVote)
      (by decide +kernel)
  have hv := (votesCurrent_iff hr).mpr hc (adoptRun 0) s List.prefix_rfl hr 2 0 h2
  rw [hT] at hv
  exact ⟨s, hr, h1, h2, hv⟩

/-- Peer `p` of three is elected in term 1. Peer `q` stands in terms 1 and 2, wins term 2 with the
vote of `p`, and its heartbeat reaches the third peer before its request for a vote. -/
def carriedRun (p q : Fin 3) : List (Event 3) :=
  [electRun p, [.electionExpires q, .receiveElection q, .election q,
    .electionExpires q, .receiveElection q, .election q, .sendVote 4, .handleVote 4, .replyVote 4,
    .broadcast q, .sendBeat 1, .handleBeat 1, .sendVote 5]].flatten

/-- A test for steps in which the peer `p` does not vote in term `T`. -/
def abstains (p : Fin n) (T : ℕ) (s : Cluster n) : Event n → Bool
  | .election q => q ≠ p
  | .handleVote k => (s.votes[k]?).all fun c => c.stage.args?.all fun a =>
      c.server ≠ p ∨ a.term ≠ T
  | _ => true

theorem not_voted_of_abstains {T : ℕ} (h : (system n).allSteps (abstains p T) (system n).init es) :
    ¬ Voted es p T c := by
  rintro (⟨-, hd⟩ | hd)
  · refine System.not_did_of_along (System.along_of_allSteps _ ?_ h) hd
    rintro pre s e he t hs ⟨rfl, -⟩
    simp [abstains] at he
  · refine System.not_did_of_along (System.along_of_allSteps _ ?_ h) hd
    rintro pre s e he t hs ⟨k, call, a, rfl, hk, hst, hq, hT, -⟩
    simp [abstains, hk, hst, Stage.args?, hq, hT] at he

theorem carriedRun_stale : ∃ s, (system 3).Run (carriedRun 0 1) s ∧
    (s.peers 2).currTerm = 2 ∧ (s.peers 2).voteFor = some 0 ∧
    (∀ c, ¬ Voted (carriedRun 0 1) 2 2 c) ∧
    ((s.peers 2).requestVote ⟨2, 1⟩).2.voteGranted = false := by
  obtain ⟨s, hr, hT, hv, hg⟩ := System.exists_run (system 3) (carriedRun 0 1)
    (fun s => (s.peers 2).currTerm = 2 ∧ (s.peers 2).voteFor = some 0 ∧
      ((s.peers 2).requestVote ⟨2, 1⟩).2.voteGranted = false) (by decide +kernel)
  refine ⟨s, hr, hT, hv, ?_, hg⟩
  intro c
  exact not_voted_of_abstains (by decide +kernel)

end Raft
