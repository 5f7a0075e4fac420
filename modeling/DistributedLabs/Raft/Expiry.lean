import DistributedLabs.Raft.Steps

/-! Whether an election is due to an expiry that is out of date. `resetTimer` drains the channel
of the timer, but it cannot take back a signal that `ticker` has received and not yet acted on. -/
namespace Raft
open Runs
variable {n : ℕ} {s t : Cluster n} {e : Event n} {es : List (Event n)} {p : Fin n}

/-- In this step the peer `p` handles an `AppendEntries` of a term at least its own, or grants a
`RequestVote`. -/
def Cluster.hears (s : Cluster n) (p : Fin n) : Event n → Bool
  | .handleBeat k =>
    match s.beats[k]? with
    | some ⟨_, q, _, .sent a⟩ => q = p ∧ (s.peers p).currTerm ≤ a.term
    | _ => false
  | .handleVote k =>
    match s.votes[k]? with
    | some ⟨_, q, _, .sent a⟩ => q = p ∧ ((s.peers p).requestVote a).2.voteGranted
    | _ => false
  | _ => false

namespace Peer

theorem requestVote_electionTimer (rf : Peer n) (a : RequestVoteArgs n) :
    (rf.requestVote a).1.electionTimer =
      if (rf.requestVote a).2.voteGranted then .armed else rf.electionTimer := by
  cases hg : (rf.requestVote a).2.voteGranted with
  | false => rw [(requestVote_refused hg).1, if_neg Bool.false_ne_true]
  | true =>
    rw [if_pos rfl]
    unfold requestVote at hg ⊢
    by_cases hlt : a.term < rf.currTerm
    · simp [hlt] at hg
    by_cases hgt : rf.currTerm < a.term
    · simp [hlt, hgt, resetTimer]
    · simp only [hlt, hgt, ↓reduceIte] at hg ⊢
      split_ifs at hg ⊢
      rfl

theorem appendEntries_electionTimer (rf : Peer n) (a : AppendEntriesArgs n) :
    (rf.appendEntries a).1.electionTimer =
      if a.term < rf.currTerm then rf.electionTimer else .armed := by
  unfold appendEntries
  split <;> rfl

theorem sendRequestVoteReply_electionTimer (rf : Peer n) (r : RequestVoteReply)
    (h : rf.electionTimer = .armed) : (rf.sendRequestVoteReply r).1.electionTimer = .armed := by
  unfold sendRequestVoteReply
  by_cases hg : r.voteGranted = true
  · simp only [hg, ↓reduceIte]
    split_ifs <;> exact h
  · rw [if_neg hg]
    split_ifs
    · rfl
    · exact h

theorem sendAppendEntriesReply_electionTimer (rf : Peer n) (r : AppendEntriesReply)
    (h : rf.electionTimer = .armed) : (rf.sendAppendEntriesReply r).electionTimer = .armed := by
  unfold sendAppendEntriesReply
  split_ifs
  · exact h
  · rfl
  · exact h

end Peer

/-- Hearing from a leader or a candidate arms the election timer. -/
theorem armed_of_hears (h : s.step e = some t) (hh : s.hears p e = true) :
    (t.peers p).electionTimer = .armed := by
  cases Cluster.Step.of_step h with
  | @handleVote k c a hk hc =>
    obtain ⟨q, r, b, _⟩ := c
    subst hc
    simp only [Cluster.hears, hk, Bool.decide_and, Bool.decide_eq_true, Bool.and_eq_true,
      decide_eq_true_eq] at hh
    obtain ⟨rfl, hg⟩ := hh
    simp [Cluster.handleVote, Peer.requestVote_electionTimer, hg]
  | @handleBeat k c a hk hc =>
    obtain ⟨q, r, b, _⟩ := c
    subst hc
    simp only [Cluster.hears, hk, decide_eq_true_eq] at hh
    obtain ⟨rfl, hT⟩ := hh
    simp [Cluster.handleBeat, Peer.appendEntries_electionTimer, not_lt.mpr hT]
  | electionExpires | heartbeatExpires | receiveElection | receiveHeartbeat | election | heartbeat
  | kill | broadcast | sendVote | replyVote | sendBeat | replyBeat => cases hh

/-- An armed election timer stays armed until it expires. -/
theorem armed_step (h : s.step e = some t) (ha : (s.peers p).electionTimer = .armed)
    (he : e ≠ .electionExpires p) : (t.peers p).electionTimer = .armed := by
  have hp := step_peer h p
  generalize t.peers p = rf at hp ⊢
  cases hp with
  | electionExpires => exact absurd rfl he
  | receiveElection hs ht =>
    rw [ha] at ht
    cases ht
  | handleVote hk hc hq =>
    rw [Peer.requestVote_electionTimer, ha, ite_self]
  | handleBeat hk hc hq =>
    rw [Peer.appendEntries_electionTimer, ha, ite_self]
  | replyVote hk hc hq => exact Peer.sendRequestVoteReply_electionTimer _ _ ha
  | replyBeat hk hc hq => exact Peer.sendAppendEntriesReply_electionTimer _ _ ha
  | stand => rfl
  | same | heartbeatExpires | receiveHeartbeat | leaveElection | beat | leaveHeartbeat | kill =>
    exact ha

theorem armed_of_run {pre : List (Event n)} (hs : (system n).Run pre s)
    (ha : (s.peers p).electionTimer = .armed) (h : (system n).Run (pre ++ es) t)
    (he : .electionExpires p ∉ es) : (t.peers p).electionTimer = .armed := by
  refine System.Run.invariant_from (I := fun es t => .electionExpires p ∉ es →
    (t.peers p).electionTimer = .armed) hs (fun _ => ha) ?_ h he
  intro es s e t _ ih hstep he
  rw [List.mem_append, List.mem_singleton, not_or] at he
  exact armed_step hstep (ih he.1) (Ne.symm he.2)

/-- The labels of a run up to the moment when `ticker` has taken the signal of an expiry. -/
def upToSignal (p : Fin n) (pre mid : List (Event n)) : List (Event n) :=
  pre ++ [.electionExpires p] ++ mid ++ [.receiveElection p]

/-- The peer `p` is about to start an election because of the expiry after `pre`: `ticker` took
its signal after `mid`, and now, after `late`, it gets the lock. -/
structure Challenge (p : Fin n) (pre mid late : List (Event n)) (s : Cluster n) : Prop where
  run : (system n).Run (upToSignal p pre mid ++ late) s
  expiry : .electionExpires p ∉ mid
  signal : .receiveElection p ∉ late
  ticker : (s.peers p).ticker = .tookElection
  stands : (s.peers p).state ≠ .leader

/-- A signal that `ticker` takes has not been in the channel when the timer was reset. -/
theorem not_hears_before_signal {pre mid rest m : List (Event n)} {u : Cluster n}
    (hmid : .electionExpires p ∉ mid) (hsplit : mid = m ++ [e] ++ rest)
    (hrun : (system n).Run (upToSignal p pre mid) t)
    (hu : (system n).Run (pre ++ [.electionExpires p] ++ m) u) : u.hears p e = false := by
  rw [Bool.eq_false_iff]
  intro hears
  subst hsplit
  obtain ⟨w, hw, hreceive⟩ := hrun.inv_snoc
  have hprefix : pre ++ [.electionExpires p] ++ m ++ [e] <+:
      pre ++ [.electionExpires p] ++ (m ++ [e] ++ rest) := ⟨rest, by simp⟩
  obtain ⟨v, hv⟩ := hw.of_prefix hprefix
  obtain ⟨u', hu', hstep⟩ := hv.inv_snoc
  obtain rfl := hu.unique hu'
  have hrest : .electionExpires p ∉ rest := fun h => hmid (List.mem_append_right _ h)
  have harmed : (w.peers p).electionTimer = .armed :=
    armed_of_run hv (armed_of_hears hstep hears) (by simpa using hw) hrest
  cases Cluster.Step.of_step (show w.step (.receiveElection p) = some t from hreceive) with
  | receiveElection hs hfired =>
    rw [harmed] at hfired
    cases hfired

/-- When `ticker` starts an election because of an expiry and the peer heard from nobody between
the receive of the signal and the lock, then it heard from nobody since the expiry. -/
theorem not_hears_since_expiry (n : ℕ) (p : Fin n) (pre mid late : List (Event n))
    (s : Cluster n) (h : Challenge p pre mid late s)
    (hwindow : (system n).Along (upToSignal p pre mid ++ late) fun b u e =>
      upToSignal p pre mid <+: b → u.hears p e = false) :
    (system n).Along (upToSignal p pre mid ++ late) fun b u e =>
      pre ++ [.electionExpires p] <+: b → u.hears p e = false := by
  intro b u e hb hu hsince
  have hsignal : upToSignal p pre mid <+: upToSignal p pre mid ++ late := List.prefix_append _ _
  obtain ⟨t, ht⟩ := h.run.of_prefix hsignal
  have hlast : b ++ [e] = upToSignal p pre mid → u.hears p e = false := by
    intro heq
    obtain ⟨-, he⟩ := List.append_inj' heq rfl
    obtain rfl : e = .receiveElection p := by simpa using he
    rfl
  rcases List.prefix_or_prefix_of_prefix hsignal hb with hle | hle
  · rcases List.prefix_concat_iff.mp hle with heq | hle
    · exact hlast heq.symm
    · exact hwindow b u e hb hu hle
  · rcases List.prefix_concat_iff.mp hle with heq | ⟨rest, hrest⟩
    · exact hlast heq
    · obtain ⟨m, rfl⟩ := hsince
      have hsplit : mid = m ++ [e] ++ rest := by simpa using hrest.symm
      exact not_hears_before_signal h.expiry hsplit ht hu

/-- Peer 0 of two is elected and has sent a heartbeat to peer 1. -/
def heartbeatOnItsWay : List (Event 2) :=
  [.electionExpires 0, .receiveElection 0, .election 0, .sendVote 0, .handleVote 0, .replyVote 0,
    .broadcast 0, .sendBeat 0]

/-- Peer 1 has handled the heartbeat. -/
def heartbeatHandled : List (Event 2) := heartbeatOnItsWay ++ [.handleBeat 0]

/-- Peer 1 has heard from the leader before its timer expires, and from nobody since. -/
theorem challenge_after_silence : ∃ s,
    Challenge 1 heartbeatHandled [.heartbeatExpires 1] [.heartbeatExpires 0] s ∧
    (system 2).Along (upToSignal 1 heartbeatHandled [.heartbeatExpires 1] ++
        [.heartbeatExpires 0]) fun b u e =>
      heartbeatHandled ++ [.electionExpires 1] <+: b → u.hears 1 e = false := by
  obtain ⟨s, hr, hticker, hstate⟩ := System.exists_run (system 2)
    (upToSignal 1 heartbeatHandled [.heartbeatExpires 1] ++ [.heartbeatExpires 0])
    (fun s => (s.peers 1).ticker = .tookElection ∧ (s.peers 1).state ≠ .leader)
    (by decide +kernel)
  have hchallenge : Challenge 1 heartbeatHandled [.heartbeatExpires 1] [.heartbeatExpires 0] s :=
    ⟨hr, by decide, by decide, hticker, hstate⟩
  refine ⟨s, hchallenge, not_hears_since_expiry 2 1 _ _ _ s hchallenge ?_⟩
  rintro b u e hb - ⟨m, rfl⟩
  rw [List.append_assoc, List.prefix_append_right_inj] at hb
  have hmem : e ∈ [Event.heartbeatExpires 0] := hb.subset (by simp)
  obtain rfl := List.mem_singleton.mp hmem
  rfl

/-- Peer 1 handles the leader's heartbeat after `ticker` took the signal of the timer and before
it gets the lock. It starts an election all the same. -/
theorem challenge_after_heartbeat : ∃ s, Challenge 1 heartbeatOnItsWay [] [.handleBeat 0] s ∧
    ¬ (system 2).Along (upToSignal 1 heartbeatOnItsWay [] ++ [.handleBeat 0]) fun b u e =>
      heartbeatOnItsWay ++ [.electionExpires 1] <+: b → u.hears 1 e = false := by
  obtain ⟨s, hr, hticker, hstate⟩ := System.exists_run (system 2)
    (upToSignal 1 heartbeatOnItsWay [] ++ [.handleBeat 0])
    (fun s => (s.peers 1).ticker = .tookElection ∧ (s.peers 1).state ≠ .leader)
    (by decide +kernel)
  obtain ⟨u, hu, hears⟩ := System.exists_run (system 2) (upToSignal 1 heartbeatOnItsWay [])
    (fun u => u.hears 1 (.handleBeat 0) = true) (by decide +kernel)
  refine ⟨s, ⟨hr, by decide, by decide, hticker, hstate⟩, ?_⟩
  intro hsilent
  have hfalse := hsilent _ u (.handleBeat 0) List.prefix_rfl hu ⟨[.receiveElection 1], rfl⟩
  rw [hears] at hfalse
  cases hfalse

end Raft
