import DistributedLabs.Raft.Calls

/-! `ticker` does not re-arm a timer that fires in the wrong role. The timer of the role a
peer is in is nevertheless never lost: each change of the role re-arms the right one. -/
namespace Raft
open Runs
variable {n : ℕ}

namespace Peer

/-- The election timer is armed, has fired, or its signal was taken by `ticker`. -/
def ElectionPending (rf : Peer n) : Prop :=
  rf.electionTimer = .armed ∨ rf.electionTimer = .fired ∨ rf.ticker = .tookElection

/-- The heartbeat timer is armed, has fired, or its signal was taken by `ticker`. -/
def HeartbeatPending (rf : Peer n) : Prop :=
  rf.heartbeatTimer = .armed ∨ rf.heartbeatTimer = .fired ∨ rf.ticker = .tookHeartbeat

instance (rf : Peer n) : Decidable rf.ElectionPending := inferInstanceAs (Decidable (_ ∨ _))

instance (rf : Peer n) : Decidable rf.HeartbeatPending := inferInstanceAs (Decidable (_ ∨ _))

/-- The timer of the peer's role is pending, and `ticker` runs until the peer is killed. -/
structure Ticks (rf : Peer n) : Prop where
  election : rf.state ≠ .leader → rf.ElectionPending
  heartbeat : rf.state = .leader → rf.HeartbeatPending
  ticker : rf.ticker = .exited → rf.dead = true

variable {rf rf' : Peer n}

/-- A handler that re-arms the election timer and makes nobody leader keeps the invariant. -/
theorem Ticks.rearm (h : rf.Ticks) (he : rf'.electionTimer = .armed)
    (hs : rf'.state = .leader → rf.state = .leader) (hh : rf'.heartbeatTimer = rf.heartbeatTimer)
    (ht : rf'.ticker = rf.ticker) (hd : rf'.dead = rf.dead) : rf'.Ticks where
  election _ := Or.inl he
  heartbeat hl := by
    have hpending := h.heartbeat (hs hl)
    unfold HeartbeatPending at hpending ⊢
    rwa [hh, ht]
  ticker hx := by
    rw [hd]
    exact h.ticker (ht ▸ hx)

theorem ticks_stepDown (h : rf.Ticks) (T : ℕ) : (rf.stepDown T).Ticks := by
  refine h.rearm rfl ?_ rfl rfl rfl
  intro hl
  contradiction

/-- The step-down of `RequestVote` does not touch the timer, but it ends in a granted vote. -/
theorem ticks_requestVote (h : rf.Ticks) (a : RequestVoteArgs n) : (rf.requestVote a).1.Ticks := by
  cases hg : (rf.requestVote a).2.voteGranted with
  | false =>
    rw [(requestVote_refused hg).1]
    exact h
  | true =>
    unfold requestVote at hg ⊢
    by_cases hlt : a.term < rf.currTerm
    · simp [hlt] at hg
    by_cases hgt : rf.currTerm < a.term
    · simp only [hlt, hgt, ↓reduceIte, true_or]
      refine h.rearm rfl ?_ rfl rfl rfl
      intro hl
      contradiction
    · simp only [hlt, hgt, ↓reduceIte] at hg ⊢
      split_ifs at hg ⊢
      exact h.rearm rfl id rfl rfl rfl

theorem ticks_appendEntries (h : rf.Ticks) (a : AppendEntriesArgs n) :
    (rf.appendEntries a).1.Ticks := by
  unfold appendEntries
  split_ifs
  · exact h
  · refine h.rearm rfl ?_ rfl rfl rfl
    intro hl
    contradiction

theorem ticks_becomeLeader (h : rf.Ticks) : rf.becomeLeader.Ticks where
  election hl := absurd rfl hl
  heartbeat _ := Or.inl rfl
  ticker := h.ticker

theorem ticks_sendRequestVoteReply (h : rf.Ticks) (r : RequestVoteReply) :
    (rf.sendRequestVoteReply r).1.Ticks := by
  have hcount : { rf with voteCount := rf.voteCount + 1 }.Ticks :=
    ⟨h.election, h.heartbeat, h.ticker⟩
  unfold sendRequestVoteReply
  by_cases hg : r.voteGranted = true
  · simp only [hg, ↓reduceIte]
    split_ifs
    · exact hcount
    · exact ticks_becomeLeader hcount
    · exact hcount
  · rw [if_neg hg]
    split_ifs
    · exact ticks_stepDown h r.term
    · exact h

theorem ticks_sendAppendEntriesReply (h : rf.Ticks) (r : AppendEntriesReply) :
    (rf.sendAppendEntriesReply r).Ticks := by
  unfold sendAppendEntriesReply
  split_ifs
  · exact h
  · exact ticks_stepDown h r.term
  · exact h

theorem tickerLoop_exited (h : rf.tickerLoop.ticker = .exited) : rf.tickerLoop.dead = true := by
  cases hd : rf.dead with
  | true => exact hd
  | false => simp [tickerLoop, hd] at h

/-- A signal of the other timer that `ticker` took does not concern the timer of the role. -/
theorem electionPending_tickerLoop (h : rf.ElectionPending) (ht : rf.ticker ≠ .tookElection) :
    rf.tickerLoop.ElectionPending := by
  rcases h with h | h | h
  · exact Or.inl h
  · exact Or.inr (Or.inl h)
  · exact absurd h ht

theorem heartbeatPending_tickerLoop (h : rf.HeartbeatPending)
    (ht : rf.ticker ≠ .tookHeartbeat) : rf.tickerLoop.HeartbeatPending := by
  rcases h with h | h | h
  · exact Or.inl h
  · exact Or.inr (Or.inl h)
  · exact absurd h ht

end Peer

variable {s t : Cluster n} {e : Event n} {es : List (Event n)} {p q : Fin n}

theorem ticks_step {rf : Peer n} (h : (s.peers q).Ticks) (hp : PeerStep s q e rf) : rf.Ticks := by
  cases hp with
  | same => exact h
  | electionExpires =>
    exact ⟨fun _ => Or.inr (Or.inl rfl), h.heartbeat, h.ticker⟩
  | heartbeatExpires =>
    exact ⟨h.election, fun _ => Or.inr (Or.inl rfl), h.ticker⟩
  | receiveElection hs ht =>
    refine ⟨fun _ => Or.inr (Or.inr rfl), fun hl => ?_, fun hx => by contradiction⟩
    rcases h.heartbeat hl with hb | hb | hb
    · exact Or.inl hb
    · exact Or.inr (Or.inl hb)
    · rw [hs] at hb
      contradiction
  | receiveHeartbeat hs ht =>
    refine ⟨fun hl => ?_, fun _ => Or.inr (Or.inr rfl), fun hx => by contradiction⟩
    rcases h.election hl with he | he | he
    · exact Or.inl he
    · exact Or.inr (Or.inl he)
    · rw [hs] at he
      contradiction
  | stand ht hl =>
    refine ⟨fun _ => Or.inl rfl, fun hl => ?_, Peer.tickerLoop_exited⟩
    contradiction
  | leaveElection ht hl =>
    refine ⟨fun hne => absurd hl hne, fun _ => ?_, Peer.tickerLoop_exited⟩
    exact Peer.heartbeatPending_tickerLoop (h.heartbeat hl) (by simp [ht])
  | beat ht hl =>
    exact ⟨fun hne => absurd hl hne, fun _ => Or.inl rfl, Peer.tickerLoop_exited⟩
  | leaveHeartbeat ht hl =>
    refine ⟨fun _ => ?_, fun heq => absurd heq hl, Peer.tickerLoop_exited⟩
    exact Peer.electionPending_tickerLoop (h.election hl) (by simp [ht])
  | kill => exact ⟨h.election, h.heartbeat, fun _ => rfl⟩
  | handleVote => exact Peer.ticks_requestVote h _
  | replyVote => exact Peer.ticks_sendRequestVoteReply h _
  | handleBeat => exact Peer.ticks_appendEntries h _
  | replyBeat => exact Peer.ticks_sendAppendEntriesReply h _

theorem ticks_make : (Peer.make : Peer n).Ticks where
  election _ := Or.inl rfl
  heartbeat hl := by contradiction
  ticker hx := by contradiction

theorem ticks_of_run (h : (system n).Run es s) : ∀ q, (s.peers q).Ticks := by
  apply h.invariant' (I := fun _ s => ∀ q, (s.peers q).Ticks)
  · intro q
    exact ticks_make
  · intro es s e t _ hI hs q
    exact ticks_step (hI q) (step_peer hs q)

/-- The `ticker` of `p` waits for the lock to run `startElection`. -/
def AboutToStand (p : Fin n) (s : Cluster n) : Prop :=
  (s.peers p).ticker = .tookElection ∧ (s.peers p).state ≠ .leader

/-- The `ticker` of `p` waits for the lock to run `broadcastHeartbeat`. -/
def AboutToBeat (p : Fin n) (s : Cluster n) : Prop :=
  (s.peers p).ticker = .tookHeartbeat ∧ (s.peers p).state = .leader

/-- The steps of `p`'s timers and `ticker` before an election. -/
def electionSteps (p : Fin n) : List (Event n) :=
  [.electionExpires p, .receiveElection p, .heartbeat p]

/-- The steps of `p`'s timers and `ticker` before a heartbeat. -/
def heartbeatSteps (p : Fin n) : List (Event n) :=
  [.heartbeatExpires p, .receiveHeartbeat p, .election p]

theorem stands_of_select (ht : (s.peers p).ticker = .select) (hl : (s.peers p).state ≠ .leader)
    (h : (s.peers p).ElectionPending) :
    (system n).CanReach (electionSteps p) (AboutToStand p) s := by
  have hfired : ∀ u : Cluster n, (u.peers p).ticker = .select → (u.peers p).state ≠ .leader →
      (u.peers p).electionTimer = .fired →
      (system n).CanReach (electionSteps p) (AboutToStand p) u := by
    intro u hu hul hf
    refine System.canReach_step (e := .receiveElection p) (by simp [electionSteps])
      (by simp only [system, Cluster.step, hu, hf, and_self, ↓reduceIte]; rfl) ?_
    apply System.canReach_now
    simp [AboutToStand, hul]
  rcases h with h | h | h
  · refine System.canReach_step (e := .electionExpires p) (by simp [electionSteps])
      (by simp only [system, Cluster.step, h, ↓reduceIte]; rfl) ?_
    apply hfired
    · simpa using ht
    · simpa using hl
    · simp
  · exact hfired s ht hl h
  · rw [ht] at h
    contradiction

theorem beats_of_select (ht : (s.peers p).ticker = .select) (hl : (s.peers p).state = .leader)
    (h : (s.peers p).HeartbeatPending) :
    (system n).CanReach (heartbeatSteps p) (AboutToBeat p) s := by
  have hfired : ∀ u : Cluster n, (u.peers p).ticker = .select → (u.peers p).state = .leader →
      (u.peers p).heartbeatTimer = .fired →
      (system n).CanReach (heartbeatSteps p) (AboutToBeat p) u := by
    intro u hu hul hf
    refine System.canReach_step (e := .receiveHeartbeat p) (by simp [heartbeatSteps])
      (by simp only [system, Cluster.step, hu, hf, and_self, ↓reduceIte]; rfl) ?_
    apply System.canReach_now
    simp [AboutToBeat, hul]
  rcases h with h | h | h
  · refine System.canReach_step (e := .heartbeatExpires p) (by simp [heartbeatSteps])
      (by simp only [system, Cluster.step, h, ↓reduceIte]; rfl) ?_
    apply hfired
    · simpa using ht
    · simpa using hl
    · simp
  · exact hfired s ht hl h
  · rw [ht] at h
    contradiction

/-- A signal of the heartbeat timer that `ticker` holds is dropped before the election. -/
theorem stands_of_ticks (h : (s.peers p).Ticks) (hd : (s.peers p).dead = false)
    (hl : (s.peers p).state ≠ .leader) :
    (system n).CanReach (electionSteps p) (AboutToStand p) s := by
  cases ht : (s.peers p).ticker with
  | select => exact stands_of_select ht hl (h.election hl)
  | tookElection => exact System.canReach_now ⟨ht, hl⟩
  | tookHeartbeat =>
    refine System.canReach_step (e := .heartbeat p) (by simp [electionSteps])
      (by simp only [system, Cluster.step, ht, ↓reduceIte]; rfl) ?_
    unfold Cluster.tickHeartbeat
    rw [if_neg hl]
    apply stands_of_select
    · simp [Peer.tickerLoop, hd]
    · simpa using hl
    · simpa using Peer.electionPending_tickerLoop (h.election hl) (by simp [ht])
  | exited =>
    have hdead := h.ticker ht
    rw [hd] at hdead
    contradiction

theorem beats_of_ticks (h : (s.peers p).Ticks) (hd : (s.peers p).dead = false)
    (hl : (s.peers p).state = .leader) :
    (system n).CanReach (heartbeatSteps p) (AboutToBeat p) s := by
  cases ht : (s.peers p).ticker with
  | select => exact beats_of_select ht hl (h.heartbeat hl)
  | tookHeartbeat => exact System.canReach_now ⟨ht, hl⟩
  | tookElection =>
    refine System.canReach_step (e := .election p) (by simp [heartbeatSteps])
      (by simp only [system, Cluster.step, ht, ↓reduceIte]; rfl) ?_
    unfold Cluster.tickElection
    rw [if_pos hl]
    apply beats_of_select
    · simp [Peer.tickerLoop, hd]
    · simpa using hl
    · simpa using Peer.heartbeatPending_tickerLoop (h.heartbeat hl) (by simp [ht])
  | exited =>
    have hdead := h.ticker ht
    rw [hd] at hdead
    contradiction

/-- A peer that was not killed always has the timer of its role pending, so that its own
`ticker` can get to the next election or heartbeat. -/
theorem timersPending_of_run (n : ℕ) (es : List (Event n)) (s : Cluster n)
    (h : (system n).Run es s) (p : Fin n) (hd : (s.peers p).dead = false) :
    ((s.peers p).state ≠ .leader → (s.peers p).ElectionPending) ∧
    ((s.peers p).state = .leader → (s.peers p).HeartbeatPending) ∧
    ((s.peers p).state ≠ .leader →
      (system n).CanReach (electionSteps p) (AboutToStand p) s) ∧
    ((s.peers p).state = .leader →
      (system n).CanReach (heartbeatSteps p) (AboutToBeat p) s) := by
  have hticks := ticks_of_run h p
  exact ⟨hticks.election, hticks.heartbeat, stands_of_ticks hticks hd, beats_of_ticks hticks hd⟩

/-- The elected peer `p` of three takes a late signal of its election timer, so that this timer
is lost, and is then deposed by the vote request of peer `q`. -/
def lostTimerRun (p q : Fin 3) : List (Event 3) :=
  [electRun p, [.electionExpires p, .receiveElection p, .election p,
    .electionExpires q, .receiveElection q, .election q,
    .electionExpires q, .receiveElection q, .election q, .sendVote 4, .handleVote 4]].flatten

theorem lostTimerRun_pending :
    (∃ s, (system 3).Run ((lostTimerRun 0 1).take 9) s ∧ (s.peers 0).electionTimer = .idle ∧
      (s.peers 0).HeartbeatPending) ∧
    ∃ s, (system 3).Run (lostTimerRun 0 1) s ∧ (s.peers 0).state = .follower ∧
      (s.peers 0).ElectionPending ∧
      (system 3).CanReach (electionSteps 0) (AboutToStand 0) s := by
  constructor
  · obtain ⟨s, hr, hidle, hl, hd⟩ := System.exists_run (system 3) ((lostTimerRun 0 1).take 9)
      (fun s => (s.peers 0).electionTimer = .idle ∧ (s.peers 0).state = .leader ∧
        (s.peers 0).dead = false) (by decide +kernel)
    exact ⟨s, hr, hidle, (timersPending_of_run 3 _ s hr 0 hd).2.1 hl⟩
  · obtain ⟨s, hr, hf, hd⟩ := System.exists_run (system 3) (lostTimerRun 0 1)
      (fun s => (s.peers 0).state = .follower ∧ (s.peers 0).dead = false) (by decide +kernel)
    have hl : (s.peers 0).state ≠ .leader := by simp [hf]
    obtain ⟨hpending, -, hstands, -⟩ := timersPending_of_run 3 _ s hr 0 hd
    exact ⟨s, hr, hf, hpending hl, hstands hl⟩

end Raft
