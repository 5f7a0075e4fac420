import DistributedLabs.Raft.Timers

/-! No run of the peers is a dead end: a peer that was not killed can still become leader. It
asks the peer of the newest term, takes that term over from its refusal, and stands once more. -/
namespace Raft
open Runs
variable {n : ℕ} {s t u : Cluster n} {p q : Fin n} {es : List (Event n)}

/-- The steps of timers and `ticker` before an election leave terms alone. -/
theorem step_electionSteps {e : Event n} (he : e ∈ electionSteps p) (h : s.step e = some t)
    (r : Fin n) : (t.peers r).currTerm = (s.peers r).currTerm ∧
      (t.peers r).dead = (s.peers r).dead := by
  simp only [electionSteps, List.mem_cons, List.not_mem_nil, or_false] at he
  rcases he with rfl | rfl | rfl
  · simp only [Cluster.step, Option.ite_none_right_eq_some, Option.some.injEq] at h
    obtain ⟨-, rfl⟩ := h
    by_cases hr : r = p <;> simp [hr]
  · simp only [Cluster.step, Option.ite_none_right_eq_some, Option.some.injEq] at h
    obtain ⟨-, rfl⟩ := h
    by_cases hr : r = p <;> simp [hr]
  · simp only [Cluster.step, Option.ite_none_right_eq_some, Option.some.injEq] at h
    obtain ⟨-, rfl⟩ := h
    by_cases hl : (s.peers p).state = .leader
    · by_cases hr : r = p <;> simp [Cluster.tickHeartbeat, hl, hr, Peer.tickerLoop]
    · by_cases hr : r = p <;> simp [Cluster.tickHeartbeat, hl, hr, Peer.tickerLoop]

theorem exec_electionSteps (hsub : es ⊆ electionSteps p)
    (h : (system n).exec s es = some t) (r : Fin n) :
    (t.peers r).currTerm = (s.peers r).currTerm ∧ (t.peers r).dead = (s.peers r).dead := by
  induction es generalizing s with
  | nil =>
    obtain rfl := Option.some.inj h
    exact ⟨rfl, rfl⟩
  | cons e es ih =>
    obtain ⟨u, hu, hes⟩ := Option.bind_eq_some_iff.mp h
    obtain ⟨he, hsub⟩ := List.cons_subset.mp hsub
    obtain ⟨hterm, hdead⟩ := step_electionSteps he hu r
    obtain ⟨hterm', hdead'⟩ := ih hsub hes
    exact ⟨hterm'.trans hterm, hdead'.trans hdead⟩

/-- The state of the peers right after `p` has started an election. -/
structure Stands (p : Fin n) (s t : Cluster n) : Prop where
  ballot : (t.peers p).toBallot = ⟨(s.peers p).currTerm + 1, some p, .candidate, 1⟩
  live : (t.peers p).dead = false
  rest : ∀ r, r ≠ p → (t.peers r).currTerm = (s.peers r).currTerm
  votes : ∃ old, t.votes = old ++ spawn p ((s.peers p).currTerm + 1)

/-- A live peer that is not leader can start an election. -/
theorem reaches_stands (h : (system n).Run es s) (hd : (s.peers p).dead = false)
    (hl : (s.peers p).state ≠ .leader) : ∃ t, (system n).Reaches s t ∧ Stands p s t := by
  obtain ⟨es', u, hsub, hexec, hticker, hlu⟩ := stands_of_ticks (ticks_of_run h p) hd hl
  obtain ⟨hterm, hdead⟩ := exec_electionSteps hsub hexec p
  have hstep : (system n).step u (.election p) = some (u.tickElection p) := by
    simp [system, Cluster.step, hticker]
  refine ⟨u.tickElection p, .trans ⟨es', hexec⟩ (.head hstep (.refl _)), ?_⟩
  unfold Cluster.tickElection
  rw [if_neg hlu]
  constructor
  · simp [Peer.startElection, Peer.tickerLoop, hterm]
  · simp [Peer.startElection, Peer.tickerLoop, hdead, hd]
  · intro r hr
    simp [hr, (exec_electionSteps hsub hexec r).1]
  · exact ⟨u.votes, by simp [Peer.startElection, hterm]⟩

/-- One goroutine of an election from its start to the end of `sendRequestVote`. -/
theorem reaches_poll {k b : ℕ} (hk : s.votes[k]? = some ⟨p, q, b, .started⟩) (hqp : q ≠ p) :
    ∃ t, (system n).Reaches s t ∧
      t.peers p = ((s.peers p).sendRequestVoteReply
        ((s.peers q).requestVote ⟨(s.peers p).currTerm, p⟩).2).1 ∧
      t.peers q = ((s.peers q).requestVote ⟨(s.peers p).currTerm, p⟩).1 ∧
      (∀ r, r ≠ p → r ≠ q → t.peers r = s.peers r) ∧
      ∀ j, j ≠ k → t.votes[j]? = s.votes[j]? := by
  have hlt : k < s.votes.length := (List.getElem?_eq_some_iff.mp hk).1
  let a : RequestVoteArgs n := ⟨(s.peers p).currTerm, p⟩
  let s1 := s.sendVote k ⟨p, q, b, .started⟩
  let s2 := s1.handleVote k ⟨p, q, b, .sent a⟩ a
  let r := ((s.peers q).requestVote a).2
  have hsend : (system n).step s (.sendVote k) = some s1 := by
    simp [system, Cluster.step, hk, s1]
  have hk1 : s1.votes[k]? = some ⟨p, q, b, .sent a⟩ := by
    simp [s1, a, Cluster.sendVote, hlt]
  have hhandle : (system n).step s1 (.handleVote k) = some s2 := by
    simp only [system, Cluster.step, hk1, s2]
  have hk2 : s2.votes[k]? = some ⟨p, q, b, .answered a r⟩ := by
    simp [s2, s1, r, Cluster.handleVote, Cluster.sendVote, hlt]
  have hreply : (system n).step s2 (.replyVote k) =
      some (s2.replyVote k ⟨p, q, b, .answered a r⟩ a r) := by
    simp only [system, Cluster.step, hk2]
  refine ⟨_, .head hsend (.head hhandle (.head hreply (.refl _))), ?_, ?_, ?_, ?_⟩
  · simp [Cluster.replyVote, s2, s1, r, a, Cluster.handleVote, Cluster.sendVote, hqp.symm]
  · simp [Cluster.replyVote, s2, s1, a, Cluster.handleVote, Cluster.sendVote, hqp]
  · intro i hip hiq
    simp [Cluster.replyVote, s2, s1, Cluster.handleVote, Cluster.sendVote, hip, hiq]
  · intro j hj
    simp [Cluster.replyVote, s2, s1, Cluster.handleVote, Cluster.sendVote,
      List.getElem?_set_ne hj.symm]

/-- A request of a newer term is granted. -/
theorem requestVote_newer {rf : Peer n} {a : RequestVoteArgs n} (h : rf.currTerm < a.term) :
    (rf.requestVote a).2 = ⟨a.term, true⟩ := by
  simp [Peer.requestVote, h, h.le.not_gt]

/-- A candidate whose term is newer than those of the peers that it has yet to ask can ask them
one after the other until it has a majority. -/
theorem reaches_leader {T : ℕ} (qs : List (Fin n)) (hnodup : qs.Nodup) (hqs : ∀ q ∈ qs, q ≠ p)
    {k : ℕ} (hcalls : ∀ i q, qs[i]? = some q → s.votes[k + i]? = some ⟨p, q, T, .started⟩)
    (hstate : (s.peers p).state = .candidate)
    (hterms : ∀ q ∈ qs, (s.peers q).currTerm < (s.peers p).currTerm)
    (hcount : n / 2 < (s.peers p).voteCount + qs.length)
    (hnot : (s.peers p).voteCount ≤ n / 2) :
    ∃ t, (system n).Reaches s t ∧ (t.peers p).state = .leader := by
  induction qs generalizing s k with
  | nil =>
    rw [List.length_nil] at hcount
    omega
  | cons q qs ih =>
    obtain ⟨hq, hqs⟩ := List.forall_mem_cons.mp hqs
    obtain ⟨hterm, hterms⟩ := List.forall_mem_cons.mp hterms
    obtain ⟨hmem, hnodup⟩ := List.nodup_cons.mp hnodup
    obtain ⟨t, hreach, hp, -, hrest, hvotes⟩ := reaches_poll (hcalls 0 q rfl) hq
    rw [requestVote_newer hterm] at hp
    rcases Peer.sendRequestVoteReply_granted (s.peers p)
        (r := ⟨(s.peers p).currTerm, true⟩) rfl with
      ⟨-, -, hballot, -⟩ | ⟨hfew, hballot, -⟩
    · rw [← hp] at hballot
      exact ⟨t, hreach, by rw [hballot]⟩
    · rw [← hp] at hballot
      have hterm' : (t.peers p).currTerm = (s.peers p).currTerm := by rw [hballot]
      have hcount' : (t.peers p).voteCount = (s.peers p).voteCount + 1 := by rw [hballot]
      have hfew' : ¬ n / 2 < (s.peers p).voteCount + 1 := fun h => hfew ⟨hstate, h⟩
      have hnext : ∀ i r, qs[i]? = some r → t.votes[k + 1 + i]? = some ⟨p, r, T, .started⟩ := by
        intro i r hi
        rw [hvotes _ (by omega), show k + 1 + i = k + (i + 1) by omega]
        exact hcalls (i + 1) r hi
      have hnewer : ∀ r ∈ qs, (t.peers r).currTerm < (t.peers p).currTerm := by
        intro r hr
        have hrq : r ≠ q := fun h => hmem (h ▸ hr)
        rw [hrest r (hqs r hr) hrq, hterm']
        exact hterms r hr
      rw [List.length_cons] at hcount
      obtain ⟨u, hu, hleader⟩ := ih hnodup hqs hnext (by rw [hballot]; exact hstate) hnewer
        (by omega) (by omega)
      exact ⟨u, hreach.trans hu, hleader⟩

theorem length_others (p : Fin n) : (others p).length + 1 = n := by
  have hsplit := List.length_eq_countP_add_countP (fun i => decide (i ≠ p)) (l := List.finRange n)
  have hone : (List.finRange n).countP (fun i => ¬ decide (i ≠ p) = true) = 1 := by
    rw [← List.count_eq_one_of_mem (List.nodup_finRange n) (List.mem_finRange p), List.count]
    congr 1
    funext i
    by_cases hi : i = p <;> simp [hi]
  rw [List.length_finRange, hone, List.countP_eq_length_filter] at hsplit
  exact hsplit.symm

theorem Stands.call (h : Stands p s t) :
    ∃ k : ℕ, ∀ (i : ℕ) (q : Fin n), (others p)[i]? = some q →
      t.votes[k + i]? = some ⟨p, q, (s.peers p).currTerm + 1, .started⟩ := by
  obtain ⟨old, hvotes⟩ := h.votes
  refine ⟨old.length, ?_⟩
  intro i q hi
  rw [hvotes, List.getElem?_append_right (Nat.le_add_right _ _), Nat.add_sub_cancel_left, spawn,
    List.getElem?_map, hi]
  rfl

/-- Right after it has started an election of a term that is newer than all others, a peer can
become leader. -/
theorem leader_of_stands (hn : 2 ≤ n) (h : Stands p s t)
    (hahead : ∀ q, q ≠ p → (s.peers q).currTerm ≤ (s.peers p).currTerm) :
    ∃ u, (system n).Reaches t u ∧ (u.peers p).state = .leader := by
  obtain ⟨k, hcalls⟩ := h.call
  have hlen := length_others p
  refine reaches_leader (others p) ((List.nodup_finRange n).filter _)
    (fun q hq => mem_others.mp hq) hcalls (by rw [h.ballot]) ?_ ?_ ?_
  · intro q hq
    rw [h.rest q (mem_others.mp hq), h.ballot]
    exact Nat.lt_succ_of_le (hahead q (mem_others.mp hq))
  · rw [h.ballot]
    show n / 2 < 1 + (others p).length
    omega
  · rw [h.ballot]
    show 1 ≤ n / 2
    omega

/-- A refusal from a newer term takes the peer to that term. -/
theorem refused_by_newer {rf rf' : Peer n} {a : RequestVoteArgs n} (ha : a.term = rf.currTerm)
    (h : rf.currTerm < rf'.currTerm) :
    (rf'.requestVote a).1 = rf' ∧
      (rf.sendRequestVoteReply (rf'.requestVote a).2).1 = rf.stepDown rf'.currTerm := by
  have hlt : a.term < rf'.currTerm := ha ▸ h
  simp [Peer.requestVote, hlt, Peer.sendRequestVoteReply, h]

/-- A peer can get to the newest term of all. -/
theorem reaches_ahead (h : (system n).Run es s) (hd : (s.peers p).dead = false)
    (hl : (s.peers p).state ≠ .leader) :
    ∃ t, (system n).Reaches s t ∧ (t.peers p).dead = false ∧ (t.peers p).state ≠ .leader ∧
      ∀ q, (t.peers q).currTerm ≤ (t.peers p).currTerm := by
  obtain ⟨t, hreach, hstands⟩ := reaches_stands h hd hl
  have : Nonempty (Fin n) := ⟨p⟩
  obtain ⟨m, hm⟩ := Finite.exists_max fun r => (t.peers r).currTerm
  by_cases hle : (t.peers m).currTerm ≤ (t.peers p).currTerm
  · refine ⟨t, hreach, hstands.live, ?_, fun q => (hm q).trans hle⟩
    rw [hstands.ballot]
    simp
  · have hmp : m ≠ p := by
      intro heq
      exact hle (heq ▸ le_rfl)
    obtain ⟨i, hi⟩ := List.getElem?_of_mem (mem_others.mpr hmp)
    obtain ⟨k, hcalls⟩ := hstands.call
    obtain ⟨u, hu, hp, hm', hrest, -⟩ := reaches_poll (hcalls i m hi) hmp
    obtain ⟨hkeep, hdown⟩ := refused_by_newer (a := ⟨(t.peers p).currTerm, p⟩) rfl (not_le.mp hle)
    rw [hdown] at hp
    rw [hkeep] at hm'
    refine ⟨u, hreach.trans hu, ?_, ?_, ?_⟩
    · rw [hp]
      exact hstands.live
    · rw [hp]
      simp [Peer.stepDown]
    · intro q
      have hterm : (u.peers p).currTerm = (t.peers m).currTerm := by rw [hp]; rfl
      rw [hterm]
      by_cases hqp : q = p
      · rw [hqp, hterm]
      · by_cases hqm : q = m
        · rw [hqm, hm']
        · rw [hrest q hqp hqm]
          exact hm q

/-- In every run of at least two peers, every peer that was not killed can still become leader,
whatever the roles, terms, votes and messages under way are. -/
theorem electable_of_run (n : ℕ) (hn : 2 ≤ n) (es : List (Event n)) (s : Cluster n)
    (h : (system n).Run es s) (p : Fin n) (hd : (s.peers p).dead = false) :
    ∃ es' t, (system n).Run (es ++ es') t ∧ (t.peers p).state = .leader := by
  by_cases hl : (s.peers p).state = .leader
  · exact ⟨[], s, by rwa [List.append_nil], hl⟩
  · obtain ⟨t, hst, hdt, hlt, hahead⟩ := reaches_ahead h hd hl
    obtain ⟨es', hrun⟩ := h.reaches hst
    obtain ⟨u, htu, hstands⟩ := reaches_stands hrun hdt hlt
    obtain ⟨v, huv, hleader⟩ := leader_of_stands hn hstands fun q _ => hahead q
    obtain ⟨es'', hexec⟩ := (hst.trans htu).trans huv
    exact ⟨es'', v, h.exec_append hexec, hleader⟩

/-- Peer 2 is behind the others, one of which has been leader and one of which stands. -/
theorem lostTimerRun_electable : ∃ s, (system 3).Run (lostTimerRun 0 1) s ∧
    (s.peers 2).currTerm < (s.peers 1).currTerm ∧
    ∃ es t, (system 3).Run (lostTimerRun 0 1 ++ es) t ∧ (t.peers 2).state = .leader := by
  obtain ⟨s, hr, hbehind, hd⟩ := System.exists_run (system 3) (lostTimerRun 0 1)
    (fun s => (s.peers 2).currTerm < (s.peers 1).currTerm ∧ (s.peers 2).dead = false)
    (by decide +kernel)
  exact ⟨s, hr, hbehind, electable_of_run 3 (by decide) (lostTimerRun 0 1) s hr 2 hd⟩

end Raft
