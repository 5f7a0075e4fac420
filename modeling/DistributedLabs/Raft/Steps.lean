import DistributedLabs.Raft.Cluster

/-! What one step of the cluster can do, said once: to the whole state, to one peer and its
ballot, and to the lists of RPC goroutines. The invariants of the other modules are read
off these inversions. -/
namespace Raft
open Runs
variable {n : ℕ} {s t : Cluster n} {e : Event n}

@[simp] theorem Cluster.setPeer_peers (s : Cluster n) (p q : Fin n) (rf : Peer n) :
    (s.setPeer p rf).peers q = if q = p then rf else s.peers q := by
  simp [Cluster.setPeer, Function.update_apply]

@[simp] theorem Cluster.setPeer_votes (s : Cluster n) (p : Fin n) (rf : Peer n) :
    (s.setPeer p rf).votes = s.votes := rfl

@[simp] theorem Cluster.setPeer_beats (s : Cluster n) (p : Fin n) (rf : Peer n) :
    (s.setPeer p rf).beats = s.beats := rfl

@[simp] theorem Cluster.setPeer_broadcasts (s : Cluster n) (p : Fin n) (rf : Peer n) :
    (s.setPeer p rf).broadcasts = s.broadcasts := rfl

theorem mem_others {p i : Fin n} : i ∈ others p ↔ i ≠ p := by simp [others]

theorem mem_spawn {α ρ : Type} {p : Fin n} {T : ℕ} {c : Call n α ρ} :
    c ∈ spawn p T ↔ ∃ i, i ≠ p ∧ c = ⟨p, i, T, .started⟩ := by
  simp only [spawn, List.mem_map, mem_others]
  constructor
  · rintro ⟨i, hi, rfl⟩
    exact ⟨i, hi, rfl⟩
  · rintro ⟨i, hi, rfl⟩
    exact ⟨i, hi, rfl⟩

/-- The steps of the cluster, one constructor for each branch of `Cluster.step`. -/
inductive Cluster.Step (s : Cluster n) : Event n → Cluster n → Prop
  | electionExpires {p : Fin n} (ht : (s.peers p).electionTimer = .armed) :
      Step s (.electionExpires p) (s.setPeer p { s.peers p with electionTimer := .fired })
  | heartbeatExpires {p : Fin n} (ht : (s.peers p).heartbeatTimer = .armed) :
      Step s (.heartbeatExpires p) (s.setPeer p { s.peers p with heartbeatTimer := .fired })
  | receiveElection {p : Fin n} (hs : (s.peers p).ticker = .select)
      (ht : (s.peers p).electionTimer = .fired) : Step s (.receiveElection p)
        (s.setPeer p { s.peers p with electionTimer := .idle, ticker := .tookElection })
  | receiveHeartbeat {p : Fin n} (hs : (s.peers p).ticker = .select)
      (ht : (s.peers p).heartbeatTimer = .fired) : Step s (.receiveHeartbeat p)
        (s.setPeer p { s.peers p with heartbeatTimer := .idle, ticker := .tookHeartbeat })
  | election {p : Fin n} (ht : (s.peers p).ticker = .tookElection) :
      Step s (.election p) (s.tickElection p)
  | heartbeat {p : Fin n} (ht : (s.peers p).ticker = .tookHeartbeat) :
      Step s (.heartbeat p) (s.tickHeartbeat p)
  | kill {p : Fin n} : Step s (.kill p) (s.setPeer p { s.peers p with dead := true })
  | broadcast {k : ℕ} {b : Broadcast n} (hk : s.broadcasts[k]? = some b) :
      Step s (.broadcast k) (s.runBroadcast k b)
  | sendVote {k : ℕ} {c : VoteCall n} (hk : s.votes[k]? = some c) (hc : c.stage = .started) :
      Step s (.sendVote k) (s.sendVote k c)
  | handleVote {k : ℕ} {c : VoteCall n} {a : RequestVoteArgs n} (hk : s.votes[k]? = some c)
      (hc : c.stage = .sent a) : Step s (.handleVote k) (s.handleVote k c a)
  | replyVote {k : ℕ} {c : VoteCall n} {a : RequestVoteArgs n} {r : RequestVoteReply}
      (hk : s.votes[k]? = some c) (hc : c.stage = .answered a r) :
      Step s (.replyVote k) (s.replyVote k c a r)
  | sendBeat {k : ℕ} {c : BeatCall n} (hk : s.beats[k]? = some c) (hc : c.stage = .started) :
      Step s (.sendBeat k) (s.sendBeat k c)
  | handleBeat {k : ℕ} {c : BeatCall n} {a : AppendEntriesArgs n} (hk : s.beats[k]? = some c)
      (hc : c.stage = .sent a) : Step s (.handleBeat k) (s.handleBeat k c a)
  | replyBeat {k : ℕ} {c : BeatCall n} {a : AppendEntriesArgs n} {r : AppendEntriesReply}
      (hk : s.beats[k]? = some c) (hc : c.stage = .answered a r) :
      Step s (.replyBeat k) (s.replyBeat k c a r)

theorem Cluster.Step.of_step (h : s.step e = some t) : s.Step e t := by
  cases e with
  | electionExpires p =>
    simp only [Cluster.step, Option.ite_none_right_eq_some, Option.some.injEq] at h
    obtain ⟨ht, rfl⟩ := h
    exact .electionExpires ht
  | heartbeatExpires p =>
    simp only [Cluster.step, Option.ite_none_right_eq_some, Option.some.injEq] at h
    obtain ⟨ht, rfl⟩ := h
    exact .heartbeatExpires ht
  | receiveElection p =>
    simp only [Cluster.step, Option.ite_none_right_eq_some, Option.some.injEq] at h
    obtain ⟨⟨hs, ht⟩, rfl⟩ := h
    exact .receiveElection hs ht
  | receiveHeartbeat p =>
    simp only [Cluster.step, Option.ite_none_right_eq_some, Option.some.injEq] at h
    obtain ⟨⟨hs, ht⟩, rfl⟩ := h
    exact .receiveHeartbeat hs ht
  | election p =>
    simp only [Cluster.step, Option.ite_none_right_eq_some, Option.some.injEq] at h
    obtain ⟨ht, rfl⟩ := h
    exact .election ht
  | heartbeat p =>
    simp only [Cluster.step, Option.ite_none_right_eq_some, Option.some.injEq] at h
    obtain ⟨ht, rfl⟩ := h
    exact .heartbeat ht
  | kill p =>
    obtain rfl := Option.some.inj h
    exact .kill
  | broadcast k =>
    simp only [Cluster.step] at h
    split at h
    next b hk =>
      simp only [Option.ite_none_left_eq_some, Option.some.injEq] at h
      obtain ⟨-, rfl⟩ := h
      exact .broadcast hk
    next => contradiction
  | sendVote k =>
    simp only [Cluster.step] at h
    split at h
    next hk =>
      obtain rfl := Option.some.inj h
      exact .sendVote hk rfl
    next => contradiction
  | handleVote k =>
    simp only [Cluster.step] at h
    split at h
    next hk =>
      obtain rfl := Option.some.inj h
      exact .handleVote hk rfl
    next => contradiction
  | replyVote k =>
    simp only [Cluster.step] at h
    split at h
    next hk =>
      obtain rfl := Option.some.inj h
      exact .replyVote hk rfl
    next => contradiction
  | sendBeat k =>
    simp only [Cluster.step] at h
    split at h
    next hk =>
      obtain rfl := Option.some.inj h
      exact .sendBeat hk rfl
    next => contradiction
  | handleBeat k =>
    simp only [Cluster.step] at h
    split at h
    next hk =>
      obtain rfl := Option.some.inj h
      exact .handleBeat hk rfl
    next => contradiction
  | replyBeat k =>
    simp only [Cluster.step] at h
    split at h
    next hk =>
      obtain rfl := Option.some.inj h
      exact .replyBeat hk rfl
    next => contradiction

/-- How a step moves one vote goroutine on. -/
inductive Advance (s : Cluster n) : Event n → ℕ → VoteCall n → VoteCall n → Prop
  | send (k : ℕ) (p q : Fin n) (b : ℕ) : Advance s (.sendVote k) k ⟨p, q, b, .started⟩
      ⟨p, q, b, .sent ⟨(s.peers p).currTerm, p⟩⟩
  | handle (k : ℕ) (p q : Fin n) (b : ℕ) (a : RequestVoteArgs n) :
      Advance s (.handleVote k) k ⟨p, q, b, .sent a⟩
        ⟨p, q, b, .answered a ((s.peers q).requestVote a).2⟩
  | reply (k : ℕ) (p q : Fin n) (b : ℕ) (a : RequestVoteArgs n) (r : RequestVoteReply) :
      Advance s (.replyVote k) k ⟨p, q, b, .answered a r⟩ ⟨p, q, b, .returned a r⟩

/-- A step leaves the vote goroutines alone, starts those of an election, or moves one on. -/
theorem step_votes (h : s.step e = some t) :
    t.votes = s.votes ∨
    (∃ p, e = .election p ∧ (s.peers p).state ≠ .leader ∧
      t.votes = s.votes ++ spawn p ((s.peers p).currTerm + 1)) ∨
    ∃ k c c', s.votes[k]? = some c ∧ Advance s e k c c' ∧ t.votes = s.votes.set k c' := by
  cases Cluster.Step.of_step h with
  | @election p =>
    by_cases hl : (s.peers p).state = .leader
    · left
      simp [Cluster.tickElection, hl]
    · right; left
      exact ⟨p, rfl, hl, by simp [Cluster.tickElection, hl, Peer.startElection]⟩
  | @heartbeat p =>
    left
    by_cases hl : (s.peers p).state = .leader <;> simp [Cluster.tickHeartbeat, hl]
  | @sendVote k c hk hc =>
    obtain ⟨p, q, b, _⟩ := c
    subst hc
    exact Or.inr (Or.inr ⟨k, _, _, hk, .send k p q b, rfl⟩)
  | @handleVote k c a hk hc =>
    obtain ⟨p, q, b, _⟩ := c
    subst hc
    exact Or.inr (Or.inr ⟨k, _, _, hk, .handle k p q b a, rfl⟩)
  | @replyVote k c a r hk hc =>
    obtain ⟨p, q, b, _⟩ := c
    subst hc
    exact Or.inr (Or.inr ⟨k, _, _, hk, .reply k p q b a r, rfl⟩)
  | electionExpires | heartbeatExpires | receiveElection | receiveHeartbeat | kill | broadcast
  | sendBeat | handleBeat | replyBeat => exact Or.inl rfl

/-- How a step moves one heartbeat goroutine on. -/
inductive BeatAdvance (s : Cluster n) : Event n → ℕ → BeatCall n → BeatCall n → Prop
  | send (k : ℕ) (p q : Fin n) (b : ℕ) : BeatAdvance s (.sendBeat k) k ⟨p, q, b, .started⟩
      ⟨p, q, b, .sent ⟨(s.peers p).currTerm, p⟩⟩
  | handle (k : ℕ) (p q : Fin n) (b : ℕ) (a : AppendEntriesArgs n) :
      BeatAdvance s (.handleBeat k) k ⟨p, q, b, .sent a⟩
        ⟨p, q, b, .answered a ((s.peers q).appendEntries a).2⟩
  | reply (k : ℕ) (p q : Fin n) (b : ℕ) (a : AppendEntriesArgs n) (r : AppendEntriesReply) :
      BeatAdvance s (.replyBeat k) k ⟨p, q, b, .answered a r⟩ ⟨p, q, b, .returned a r⟩

/-- A step leaves the heartbeat goroutines alone, starts those of a broadcast, or moves one
on. -/
theorem step_beats (h : s.step e = some t) :
    t.beats = s.beats ∨
    (∃ p, (s.peers p).state = .leader ∧ t.beats = s.beats ++ spawn p (s.peers p).currTerm) ∨
    (∃ b ∈ s.broadcasts, t.beats = s.beats ++ spawn b.leader b.born) ∨
    ∃ k c c', s.beats[k]? = some c ∧ BeatAdvance s e k c c' ∧ t.beats = s.beats.set k c' := by
  cases Cluster.Step.of_step h with
  | @election p =>
    left
    by_cases hl : (s.peers p).state = .leader <;> simp [Cluster.tickElection, hl]
  | @heartbeat p =>
    by_cases hl : (s.peers p).state = .leader
    · right; left
      exact ⟨p, hl, by simp [Cluster.tickHeartbeat, hl]⟩
    · left
      simp [Cluster.tickHeartbeat, hl]
  | @broadcast k b hk => exact Or.inr (Or.inr (Or.inl ⟨b, List.mem_of_getElem? hk, rfl⟩))
  | @sendBeat k c hk hc =>
    obtain ⟨p, q, b, _⟩ := c
    subst hc
    exact Or.inr (Or.inr (Or.inr ⟨k, _, _, hk, .send k p q b, rfl⟩))
  | @handleBeat k c a hk hc =>
    obtain ⟨p, q, b, _⟩ := c
    subst hc
    exact Or.inr (Or.inr (Or.inr ⟨k, _, _, hk, .handle k p q b a, rfl⟩))
  | @replyBeat k c a r hk hc =>
    obtain ⟨p, q, b, _⟩ := c
    subst hc
    exact Or.inr (Or.inr (Or.inr ⟨k, _, _, hk, .reply k p q b a r, rfl⟩))
  | electionExpires | heartbeatExpires | receiveElection | receiveHeartbeat | kill | sendVote
  | handleVote | replyVote => exact Or.inl rfl

/-- What one step can do to the peer `q`. -/
inductive PeerStep (s : Cluster n) (q : Fin n) : Event n → Peer n → Prop
  | same {e : Event n} : PeerStep s q e (s.peers q)
  | electionExpires (ht : (s.peers q).electionTimer = .armed) :
      PeerStep s q (.electionExpires q) { s.peers q with electionTimer := .fired }
  | heartbeatExpires (ht : (s.peers q).heartbeatTimer = .armed) :
      PeerStep s q (.heartbeatExpires q) { s.peers q with heartbeatTimer := .fired }
  | receiveElection (hs : (s.peers q).ticker = .select)
      (ht : (s.peers q).electionTimer = .fired) : PeerStep s q (.receiveElection q)
        { s.peers q with electionTimer := .idle, ticker := .tookElection }
  | receiveHeartbeat (hs : (s.peers q).ticker = .select)
      (ht : (s.peers q).heartbeatTimer = .fired) : PeerStep s q (.receiveHeartbeat q)
        { s.peers q with heartbeatTimer := .idle, ticker := .tookHeartbeat }
  | stand (ht : (s.peers q).ticker = .tookElection) (hl : (s.peers q).state ≠ .leader) :
      PeerStep s q (.election q) ((s.peers q).startElection q).tickerLoop
  | leaveElection (ht : (s.peers q).ticker = .tookElection) (hl : (s.peers q).state = .leader) :
      PeerStep s q (.election q) (s.peers q).tickerLoop
  | beat (ht : (s.peers q).ticker = .tookHeartbeat) (hl : (s.peers q).state = .leader) :
      PeerStep s q (.heartbeat q) { s.peers q with heartbeatTimer := .armed }.tickerLoop
  | leaveHeartbeat (ht : (s.peers q).ticker = .tookHeartbeat)
      (hl : (s.peers q).state ≠ .leader) : PeerStep s q (.heartbeat q) (s.peers q).tickerLoop
  | kill : PeerStep s q (.kill q) { s.peers q with dead := true }
  | handleVote {k : ℕ} {c : VoteCall n} {a : RequestVoteArgs n} (hk : s.votes[k]? = some c)
      (hc : c.stage = .sent a) (hq : c.server = q) :
      PeerStep s q (.handleVote k) ((s.peers q).requestVote a).1
  | replyVote {k : ℕ} {c : VoteCall n} {a : RequestVoteArgs n} {r : RequestVoteReply}
      (hk : s.votes[k]? = some c) (hc : c.stage = .answered a r) (hq : c.caller = q) :
      PeerStep s q (.replyVote k) ((s.peers q).sendRequestVoteReply r).1
  | handleBeat {k : ℕ} {c : BeatCall n} {a : AppendEntriesArgs n} (hk : s.beats[k]? = some c)
      (hc : c.stage = .sent a) (hq : c.server = q) :
      PeerStep s q (.handleBeat k) ((s.peers q).appendEntries a).1
  | replyBeat {k : ℕ} {c : BeatCall n} {a : AppendEntriesArgs n} {r : AppendEntriesReply}
      (hk : s.beats[k]? = some c) (hc : c.stage = .answered a r) (hq : c.caller = q) :
      PeerStep s q (.replyBeat k) ((s.peers q).sendAppendEntriesReply r)

theorem PeerStep.set {p q : Fin n} {rf : Peer n} (h : q = p → PeerStep s q e rf) :
    PeerStep s q e ((s.setPeer p rf).peers q) := by
  rw [Cluster.setPeer_peers]
  split_ifs with hq
  · exact h hq
  · exact .same

theorem step_peer (h : s.step e = some t) (q : Fin n) : PeerStep s q e (t.peers q) := by
  cases Cluster.Step.of_step h with
  | electionExpires ht =>
    apply PeerStep.set
    rintro rfl
    exact .electionExpires ht
  | heartbeatExpires ht =>
    apply PeerStep.set
    rintro rfl
    exact .heartbeatExpires ht
  | receiveElection hs ht =>
    apply PeerStep.set
    rintro rfl
    exact .receiveElection hs ht
  | receiveHeartbeat hs ht =>
    apply PeerStep.set
    rintro rfl
    exact .receiveHeartbeat hs ht
  | @election p ht =>
    unfold Cluster.tickElection
    by_cases hl : (s.peers p).state = .leader
    · rw [if_pos hl]
      apply PeerStep.set
      rintro rfl
      exact .leaveElection ht hl
    · rw [if_neg hl]
      apply PeerStep.set
      rintro rfl
      exact .stand ht hl
  | @heartbeat p ht =>
    unfold Cluster.tickHeartbeat
    by_cases hl : (s.peers p).state = .leader
    · rw [if_pos hl]
      apply PeerStep.set
      rintro rfl
      exact .beat ht hl
    · rw [if_neg hl]
      apply PeerStep.set
      rintro rfl
      exact .leaveHeartbeat ht hl
  | kill =>
    apply PeerStep.set
    rintro rfl
    exact .kill
  | handleVote hk hc =>
    apply PeerStep.set
    rintro rfl
    exact .handleVote hk hc rfl
  | replyVote hk hc =>
    apply PeerStep.set
    rintro rfl
    exact .replyVote hk hc rfl
  | handleBeat hk hc =>
    apply PeerStep.set
    rintro rfl
    exact .handleBeat hk hc rfl
  | replyBeat hk hc =>
    apply PeerStep.set
    rintro rfl
    exact .replyBeat hk hc rfl
  | broadcast | sendVote | sendBeat => exact .same

/-- What one step can do to the ballot of the peer `q`. -/
inductive BallotStep (s : Cluster n) (e : Event n) (q : Fin n) : Ballot n → Prop
  | same : BallotStep s e q (s.peers q).toBallot
  | elect (he : e = .election q) (hs : (s.peers q).state ≠ .leader) :
      BallotStep s e q ⟨(s.peers q).currTerm + 1, some q, .candidate, 1⟩
  | grantNewer (k : ℕ) (c : VoteCall n) (a : RequestVoteArgs n) (he : e = .handleVote k)
      (hk : s.votes[k]? = some c) (hc : c.stage = .sent a) (hq : c.server = q)
      (hT : (s.peers q).currTerm < a.term) :
      BallotStep s e q ⟨a.term, some a.candidateId, .follower, 0⟩
  | grantFree (k : ℕ) (c : VoteCall n) (a : RequestVoteArgs n) (he : e = .handleVote k)
      (hk : s.votes[k]? = some c) (hc : c.stage = .sent a) (hq : c.server = q)
      (hT : (s.peers q).currTerm = a.term) (hv : (s.peers q).voteFor = none) :
      BallotStep s e q { (s.peers q).toBallot with voteFor := some a.candidateId }
  | win (k : ℕ) (c : VoteCall n) (a : RequestVoteArgs n) (r : RequestVoteReply)
      (he : e = .replyVote k) (hk : s.votes[k]? = some c) (hc : c.stage = .answered a r)
      (hq : c.caller = q) (hg : r.voteGranted = true) (hs : (s.peers q).state = .candidate)
      (hn : n / 2 < (s.peers q).voteCount + 1) :
      BallotStep s e q ⟨(s.peers q).currTerm, none, .leader, 0⟩
  | count (k : ℕ) (c : VoteCall n) (a : RequestVoteArgs n) (r : RequestVoteReply)
      (he : e = .replyVote k) (hk : s.votes[k]? = some c) (hc : c.stage = .answered a r)
      (hq : c.caller = q) (hg : r.voteGranted = true)
      (hs : ¬ ((s.peers q).state = .candidate ∧ n / 2 < (s.peers q).voteCount + 1)) :
      BallotStep s e q { (s.peers q).toBallot with voteCount := (s.peers q).voteCount + 1 }
  | stepDown (T : ℕ) (hT : (s.peers q).currTerm < T) : BallotStep s e q ⟨T, none, .follower, 0⟩
  | adopt (T : ℕ) (hT : (s.peers q).currTerm ≤ T) :
      BallotStep s e q ⟨T, (s.peers q).voteFor, .follower, 0⟩

theorem BallotStep.of_eq {b : Ballot n} {q : Fin n} (h : b = (s.peers q).toBallot) :
    BallotStep s e q b := h ▸ .same

theorem step_ballot_handleVote {k : ℕ} {c : VoteCall n} {a : RequestVoteArgs n}
    (hk : s.votes[k]? = some c) (hc : c.stage = .sent a) :
    BallotStep s (.handleVote k) c.server ((s.peers c.server).requestVote a).1.toBallot := by
  cases hg : ((s.peers c.server).requestVote a).2.voteGranted with
  | false => exact .of_eq (by rw [(Peer.requestVote_refused hg).1])
  | true =>
    rcases Peer.requestVote_granted hg with ⟨hT, hb⟩ | ⟨hT, hv | hv, hb⟩
    · exact hb ▸ .grantNewer k c a rfl hk hc rfl hT
    · exact hb ▸ .grantFree k c a rfl hk hc rfl hT hv
    · exact .of_eq (by rw [hb, ← hv])

theorem step_ballot_replyVote {k : ℕ} {c : VoteCall n} {a : RequestVoteArgs n}
    {r : RequestVoteReply} (hk : s.votes[k]? = some c) (hc : c.stage = .answered a r) :
    BallotStep s (.replyVote k) c.caller
      ((s.peers c.caller).sendRequestVoteReply r).1.toBallot := by
  cases hg : r.voteGranted with
  | false =>
    rcases (Peer.sendRequestVoteReply_refused _ hg).2 with hb | ⟨hT, hb⟩
    · exact .of_eq hb
    · exact hb ▸ .stepDown _ hT
  | true =>
    rcases Peer.sendRequestVoteReply_granted _ hg with ⟨hs, hn, hb, -⟩ | ⟨hs, hb, -⟩
    · exact hb ▸ .win k c a r rfl hk hc rfl hg hs hn
    · exact hb ▸ .count k c a r rfl hk hc rfl hg hs

theorem step_ballot (h : s.step e = some t) (q : Fin n) :
    BallotStep s e q (t.peers q).toBallot := by
  have hp := step_peer h q
  generalize t.peers q = rf at hp ⊢
  cases hp with
  | stand ht hl => exact .elect rfl hl
  | handleVote hk hc hq =>
    subst hq
    exact step_ballot_handleVote hk hc
  | replyVote hk hc hq =>
    subst hq
    exact step_ballot_replyVote hk hc
  | handleBeat hk hc hq =>
    rw [Peer.appendEntries_ballot]
    split_ifs with hT
    · exact .same
    · exact .adopt _ (by omega)
  | @replyBeat k c a r hk hc hq =>
    rcases Peer.sendAppendEntriesReply_ballot (s.peers q) r with hb | ⟨hT, hb⟩
    · exact .of_eq hb
    · exact hb ▸ .stepDown _ hT
  | same | electionExpires | heartbeatExpires | receiveElection | receiveHeartbeat
  | leaveElection | beat | leaveHeartbeat | kill => exact .same

end Raft
