import DistributedLabs.Raft.Calls
import Mathlib.Data.Set.Card

/-! Whether `voteCount` counts votes. `sendRequestVote` adds a granted reply to the count
of whatever election is running when the reply arrives, and the goroutines of an election
send the term they find when they run; without those two delays the count is right. -/
namespace Raft
open Runs
variable {n : ℕ} {s t : Cluster n} {e : Event n} {es : List (Event n)} {p q : Fin n} {T : ℕ}

/-- In this step a granted reply to a request of another term reaches a candidate. -/
def StaleGrant (s : Cluster n) (e : Event n) : Prop :=
  ∃ k call a r, e = .replyVote k ∧ s.votes[k]? = some call ∧ call.stage = .answered a r ∧
    r.voteGranted = true ∧ (s.peers call.caller).state = .candidate ∧
    a.term ≠ (s.peers call.caller).currTerm

/-- In this step a goroutine of an earlier election sends its request while its peer is
the candidate of a later one. -/
def LateSend (s : Cluster n) (e : Event n) : Prop :=
  ∃ k call, e = .sendVote k ∧ s.votes[k]? = some call ∧ call.stage = .started ∧
    (s.peers call.caller).state = .candidate ∧ call.born ≠ (s.peers call.caller).currTerm

/-- The candidate `p` of term `T` counts a grant of `q` to a request of term `τ`. -/
def CountStep (p q : Fin n) (T τ : ℕ) (s : Cluster n) (e : Event n) : Prop :=
  ∃ k call a r, e = .replyVote k ∧ s.votes[k]? = some call ∧ call.stage = .answered a r ∧
    call.caller = p ∧ call.server = q ∧ a.term = τ ∧ r.voteGranted = true ∧
    (s.peers p).state = .candidate ∧ (s.peers p).currTerm = T

/-- Among the grants that have reached `p`, those that answer a request of term `T`. -/
def counted (p : Fin n) (T : ℕ) (c : VoteCall n) : Bool :=
  match c.stage with
  | .returned a r => c.caller = p ∧ a.term = T ∧ r.voteGranted
  | _ => false

/-- Counted votes are real. -/
structure VotesReal (es : List (Event n)) (s : Cluster n) : Prop where
  /-- At most the peer's own vote and one for each other peer that granted it are counted. -/
  bound : ∀ p, (s.peers p).state = .candidate →
    (s.peers p).voteCount ≤ 1 + {q | q ≠ p ∧ Granted es q (s.peers p).currTerm p}.ncard
  /-- Grants to requests of other terms are not counted. -/
  current : ∀ p q T τ, (system n).Did es (fun u e _ => CountStep p q T τ u e) → τ = T
  /-- No peer is counted twice in one election. -/
  once : (system n).Along es fun pre u e => ∀ p q T τ τ', CountStep p q T τ u e →
    ¬ (system n).Did pre fun u e _ => CountStep p q T τ' u e

/-- A candidate was the candidate of the same term before, or has just started. -/
theorem candidate_of_step (h : s.step e = some t) (hp : (t.peers p).state = .candidate) :
    ((s.peers p).state = .candidate ∧ (t.peers p).currTerm = (s.peers p).currTerm) ∨
    ((t.peers p).currTerm = (s.peers p).currTerm + 1 ∧ (t.peers p).voteCount = 1) := by
  have hb := step_ballot h p
  generalize (t.peers p).toBallot = b at hb hp ⊢
  cases hb with
  | same | count | grantFree => exact Or.inl ⟨hp, rfl⟩
  | elect => exact Or.inr ⟨rfl, rfl⟩
  | grantNewer | stepDown | adopt | win => simp at hp

/-- Requests of the running election come from its own goroutines. -/
def SendsFresh (s : Cluster n) : Prop :=
  ∀ c ∈ s.votes, ∀ a, c.stage.args? = some a → (s.peers c.caller).state = .candidate →
    a.term = (s.peers c.caller).currTerm → c.born = a.term

theorem sendsFresh_step (hr : (system n).Run es s) (hf : SendsFresh s) (hl : ¬ LateSend s e)
    (h : s.step e = some t) : SendsFresh t := by
  have old : ∀ c ∈ s.votes, ∀ a, c.stage.args? = some a →
      (t.peers c.caller).state = .candidate → a.term = (t.peers c.caller).currTerm →
      c.born = a.term := by
    intro c hc a ha hp hT
    rcases candidate_of_step h hp with ⟨hs, hT'⟩ | ⟨hT', -⟩
    · exact hf c hc a ha hs (hT.trans hT')
    · have := ((callFacts hr).args c hc a ha).2
      omega
  intro c hc a ha hp hT
  rcases mem_votes_of_step h hc with hc | ⟨p, i, -, -, -, rfl⟩ | ⟨k, c₀, hk, hadv⟩
  · exact old c hc a ha hp hT
  · simp [Stage.args?] at ha
  · have hm := List.mem_of_getElem? hk
    cases hadv with
    | send k p q b =>
      obtain rfl : _ = a := by simpa [Stage.args?] using ha
      rcases candidate_of_step h hp with ⟨hs, -⟩ | ⟨hT', -⟩
      · by_contra hb
        exact hl ⟨k, _, rfl, hk, rfl, hs, hb⟩
      · exact absurd (hT.trans hT') (Nat.ne_of_lt (Nat.lt_succ_self _))
    | handle k p q b a' | reply k p q b a' => exact old _ hm a ha hp hT

/-- Every grant in flight or processed was given. -/
theorem granted_of_reply (h : (system n).Run es s) :
    ∀ c ∈ s.votes, ∀ a r, (c.stage = .answered a r ∨ c.stage = .returned a r) →
      r.voteGranted = true → Granted es c.server a.term c.caller := by
  apply h.invariant' (I := fun es s => ∀ c ∈ s.votes, ∀ a r,
    (c.stage = .answered a r ∨ c.stage = .returned a r) →
      r.voteGranted = true → Granted es c.server a.term c.caller)
  · intro c hc
    simp [system, Cluster.initial] at hc
  · intro es s e t hr hI h c hc a r hst hg
    rw [granted_snoc hr h]
    rcases mem_votes_of_step h hc with hc | ⟨p, i, -, -, -, rfl⟩ | ⟨k, c₀, hk, hadv⟩
    · exact Or.inl (hI c hc a r hst hg)
    · simp at hst
    · have hm := List.mem_of_getElem? hk
      cases hadv with
      | send => simp at hst
      | handle k p q b a' =>
        simp only [Stage.answered.injEq, reduceCtorEq, or_false] at hst
        obtain ⟨rfl, rfl⟩ := hst
        have hcand := ((callFacts hr).args _ hm a' rfl).1
        exact Or.inr ⟨k, _, a', rfl, hk, rfl, rfl, rfl, hcand, hg⟩
      | reply k p q b a' r' =>
        simp only [reduceCtorEq, Stage.returned.injEq, false_or] at hst
        obtain ⟨rfl, rfl⟩ := hst
        exact Or.inl (hI _ hm _ _ (Or.inl rfl) hg)

/-- When the requests of term `T` come from one election, the processed grants come from
as many peers. -/
theorem countP_counted_le (h : (system n).Run es s)
    (hb : ∀ c ∈ s.votes, ∀ a, c.caller = p → c.stage.args? = some a → a.term = T → c.born = T) :
    s.votes.countP (counted p T) ≤ {q | q ≠ p ∧ Granted es q T p}.ncard := by
  have hf := callFacts h
  let l := s.votes.filter (counted p T)
  have hl : ∀ c ∈ l, c ∈ s.votes ∧ c.caller = p ∧ c.born = T ∧ Granted es c.server T p := by
    intro c hc
    obtain ⟨hm, hc⟩ := List.mem_filter.mp hc
    unfold counted at hc
    split at hc
    next a r hst =>
      simp only [Bool.decide_and, Bool.and_eq_true, decide_eq_true_eq] at hc
      obtain ⟨hp, hT, hg⟩ := hc
      have hgr := granted_of_reply h c hm a r (Or.inr hst) hg
      exact ⟨hm, hp, hb c hm a hp (by rw [hst]; rfl) hT, hT ▸ hp ▸ hgr⟩
    next => simp at hc
  have hnd : (l.map Call.server).Nodup := by
    have hk : l.map Call.key = (l.map Call.server).map fun i => (p, i, T) := by
      rw [List.map_map]
      apply List.map_congr_left
      intro c hc
      obtain ⟨-, hp, hT, -⟩ := hl c hc
      simp [Call.key, hp, hT]
    have hkn : (l.map Call.key).Nodup :=
      hf.keys.sublist ((List.filter_sublist (p := counted p T)).map Call.key)
    exact List.Nodup.of_map _ (hk ▸ hkn)
  calc s.votes.countP (counted p T)
      = (l.map Call.server).toFinset.card := by
        rw [List.toFinset_card_of_nodup hnd, List.length_map, List.countP_eq_length_filter]
    _ = ((l.map Call.server).toFinset : Set (Fin n)).ncard := (Set.ncard_coe_finset _).symm
    _ ≤ _ := by
      apply Set.ncard_le_ncard _ (Set.toFinite _)
      intro i hi
      simp only [List.coe_toFinset, List.mem_map, Set.mem_ofPred_eq] at hi
      obtain ⟨c, hc, rfl⟩ := hi
      obtain ⟨hm, hp, -, hg⟩ := hl c hc
      exact ⟨hp ▸ hf.ne c hm, hg⟩

/-- No step takes a processed grant away. -/
theorem countP_counted_mono (h : s.step e = some t) :
    s.votes.countP (counted p T) ≤ t.votes.countP (counted p T) := by
  rcases step_votes h with hv | ⟨i, -, -, hv⟩ | ⟨k, c, c', hk, ha, hv⟩
  · rw [hv]
  · rw [hv, List.countP_append]
    exact Nat.le_add_right _ _
  · have hc : counted p T c = false := by cases ha <;> rfl
    rw [hv, countP_set_of_not _ hk hc]
    exact Nat.le_add_right _ _

/-- Processing a grant of term `T` adds one. -/
theorem countP_counted_reply {k : ℕ} {c : VoteCall n} {a : RequestVoteArgs n}
    {r : RequestVoteReply} (h : s.step (.replyVote k) = some t) (hk : s.votes[k]? = some c)
    (hc : c.stage = .answered a r) (hg : r.voteGranted = true) :
    t.votes.countP (counted c.caller a.term) = s.votes.countP (counted c.caller a.term) + 1 := by
  have hv : t.votes = s.votes.set k { c with stage := .returned a r } := by
    obtain ⟨p, q, b, st⟩ := c
    simp only at hc
    subst hc
    simp only [Cluster.step, hk, Option.some.injEq] at h
    exact h ▸ rfl
  have hn : counted c.caller a.term c = false := by simp [counted, hc]
  rw [hv, countP_set_of_not _ hk hn]
  simp [counted, hg]

/-- The count of a candidate is covered by the processed grants of its term. -/
def CountCovered (s : Cluster n) : Prop :=
  ∀ p, (s.peers p).state = .candidate →
    (s.peers p).voteCount ≤ 1 + s.votes.countP (counted p (s.peers p).currTerm)

theorem countCovered_step (hf : CountCovered s) (hc : ¬ StaleGrant s e)
    (h : s.step e = some t) : CountCovered t := by
  intro p hp
  have hm := countP_counted_mono (p := p) (T := (s.peers p).currTerm) h
  have hb := step_ballot h p
  rcases candidate_of_step h hp with ⟨hs, hT⟩ | ⟨-, h1⟩
  · have h0 := hf p hs
    rw [hT]
    generalize (t.peers p).toBallot = b at hb hp
    cases hb with
    | same | grantFree => exact h0.trans (by omega)
    | count k c a r he hk hst hq hg hw =>
      subst he hq
      have hT' : a.term = (s.peers c.caller).currTerm := by
        by_contra hne
        exact hc ⟨k, c, a, r, rfl, hk, hst, hg, hs, hne⟩
      have h1 := countP_counted_reply h hk hst hg
      rw [hT'] at h1
      simp only
      omega
    | elect => exact Nat.le_add_right 1 _
    | grantNewer | stepDown | adopt | win => simp at hp
  · omega

theorem sendsFresh_of_along (h : (system n).Run es s)
    (hc : (system n).Along es fun _ u e => ¬ StaleGrant u e ∧ ¬ LateSend u e) : SendsFresh s :=
  h.invariant (I := fun _ s => SendsFresh s) (fun c hc => by simp [system, Cluster.initial] at hc)
    (fun _ _ _ _ hr hI hc hs => sendsFresh_step hr hI hc.2 hs) hc

theorem countCovered_of_along (h : (system n).Run es s)
    (hc : (system n).Along es fun _ u e => ¬ StaleGrant u e ∧ ¬ LateSend u e) : CountCovered s :=
  h.invariant (I := fun _ s => CountCovered s)
    (fun p hp => by simp [system, Cluster.initial, Peer.make] at hp)
    (fun _ _ _ _ _ hI hc hs => countCovered_step hI hc.1 hs) hc

/-- A grant that has been counted sits in a goroutine that is done. -/
theorem returned_of_counted {τ : ℕ} (h : (system n).Run es s)
    (hd : (system n).Did es fun u e _ => CountStep p q T τ u e) :
    ∃ (j : ℕ) (c : VoteCall n) (a : RequestVoteArgs n) (r : RequestVoteReply),
      s.votes[j]? = some c ∧ c.stage = .returned a r ∧ c.caller = p ∧ c.server = q ∧
      a.term = τ := by
  induction h with
  | nil => exact absurd hd System.did_nil
  | snoc hr hs ih =>
    rcases (System.did_snoc hr hs).mp hd with hd | hd
    · obtain ⟨j, c, a, r, hj, hc, hp⟩ := ih hd
      exact ⟨j, c, a, r, returned_of_step hs hj hc, hc, hp⟩
    · obtain ⟨k, c, a, r, rfl, hk, hc, hp, hq, ha, -⟩ := hd
      obtain ⟨x, y, b, st⟩ := c
      simp only at hc hp hq
      subst hc
      simp only [system, Cluster.step, hk, Option.some.injEq] at hs
      refine ⟨k, ⟨x, y, b, .returned a r⟩, a, r, ?_, rfl, hp, hq, ha⟩
      rw [← hs]
      exact (getElem?_set_of_some hk k).trans (if_pos rfl)

/-- In every run in which no granted reply of another term reaches a candidate and no
goroutine of an earlier election runs while its peer is a candidate, counted votes are real. -/
theorem votesReal_of_along (h : (system n).Run es s)
    (hc : (system n).Along es fun _ u e => ¬ StaleGrant u e ∧ ¬ LateSend u e) :
    VotesReal es s where
  bound p hp := by
    have hcov := countCovered_of_along h hc p hp
    have hle := countP_counted_le (p := p) (T := (s.peers p).currTerm) h fun c hm a hcp ha hT =>
      hT ▸ sendsFresh_of_along h hc c hm a ha (hcp ▸ hp) (hcp ▸ hT)
    omega
  current p q T τ hd := by
    obtain ⟨pre, u, e, -, hp, hr, -, k, c, a, r, he, hk, hst, rfl, -, rfl, hg, hs, rfl⟩ := hd
    by_contra hne
    exact (hc pre u e hp hr).1 ⟨k, c, a, r, he, hk, hst, hg, hs, hne⟩
  once := by
    rintro pre u e hp hr p q T τ τ' ⟨k, c, a, r, he, hk, hst, rfl, rfl, rfl, hg, hs, rfl⟩ hd
    have hpre : pre <+: es := (List.prefix_append _ _).trans hp
    have hcp := System.along_mono hc hpre
    have hfresh := sendsFresh_of_along hr hcp
    have hT : a.term = (u.peers c.caller).currTerm := by
      by_contra hne
      exact (hc pre u e hp hr).1 ⟨k, c, a, r, he, hk, hst, hg, hs, hne⟩
    have hT' : τ' = (u.peers c.caller).currTerm := by
      obtain ⟨pre', v, e', -, hp', hr', -, k', c', a', r', he', hk', hst', hcp', -, rfl, hg', hs',
        hTv⟩ := hd
      by_contra hne
      rw [← hTv, ← hcp'] at hne
      exact (hc pre' v e' (hp'.trans hpre) hr').1
        ⟨k', c', a', r', he', hk', hst', hg', hcp' ▸ hs', hne⟩
    obtain ⟨j, d, b, r', hj, hd, hdp, hdq, hb⟩ := returned_of_counted hr hd
    have hbc := hfresh c (List.mem_of_getElem? hk) a (by rw [hst]; rfl) hs hT
    have hbd := hfresh d (List.mem_of_getElem? hj) b (by rw [hd]; rfl) (hdp ▸ hs)
      (by rw [hb, hT', hdp])
    have hkey : d.key = c.key := by simp [Call.key, hdp, hdq, hbc, hbd, hb, hT, hT']
    obtain rfl := (callFacts hr).index_eq hj hk hkey
    obtain rfl : c = d := Option.some.inj (hk.symm.trans hj)
    simp [hst] at hd

theorem not_staleGrant_of_punctual (h : punctual s e = true) : ¬ StaleGrant s e := by
  rintro ⟨k, c, a, r, rfl, hk, hst, -, -, hne⟩
  simp [punctual, hk, hst, Stage.args?, hne] at h

theorem not_lateSend_of_punctual (h : punctual s e = true) : ¬ LateSend s e := by
  rintro ⟨k, c, rfl, hk, -, -, hne⟩
  simp [punctual, hk, hne] at h

/-- Peer 0 of five stands in term 1 and counts the vote of peer 2. -/
def countRun : List (Event 5) :=
  [.electionExpires 0, .receiveElection 0, .election 0, .sendVote 1, .handleVote 1, .replyVote 1]

theorem votesReal_countRun : ∃ s, (system 5).Run countRun s ∧
    (s.peers 0).state = .candidate ∧ (s.peers 0).voteCount = 2 ∧ VotesReal countRun s := by
  have hr := (system 5).run_exec_get countRun (by decide)
  refine ⟨_, hr, by decide, by decide, votesReal_of_along hr ?_⟩
  exact System.along_of_allSteps punctual
    (fun _ _ _ h => ⟨not_staleGrant_of_punctual h, not_lateSend_of_punctual h⟩) (by decide)

/-- Peer 0 of five stands in term 1, is granted the vote of peer 1, stands again in term 2
and only then processes that grant. -/
def staleRun : List (Event 5) :=
  [.electionExpires 0, .receiveElection 0, .election 0, .sendVote 0, .handleVote 0,
    .electionExpires 0, .receiveElection 0, .election 0, .replyVote 0]

theorem staleRun_counts_stale :
    ∃ s, (system 5).Run staleRun s ∧ ¬ VotesReal staleRun s := by
  have hr := (system 5).run_exec_get staleRun (by decide)
  refine ⟨_, hr, fun hv => ?_⟩
  have hnone : ∀ q, ¬ Granted staleRun q 2 0 := by
    intro q
    let f (s : Cluster 5) : Event 5 → Bool
      | .handleVote k => (s.votes[k]?).all fun c => c.stage.args?.all fun a => a.term ≠ 2
      | _ => true
    refine System.not_did_of_along (System.along_of_allSteps f ?_ (by decide))
    rintro pre s e h t - ⟨k, c, a, rfl, hk, hst, -, ha, -⟩
    simp [f, hk, hst, Stage.args?, ha] at h
  have hb := hv.bound 0 (by decide)
  have hempty : {q | q ≠ 0 ∧ Granted staleRun q 2 0} = ∅ := by
    ext q
    simp [hnone q]
  have hle : 2 ≤ 1 + {q | q ≠ 0 ∧ Granted staleRun q 2 0}.ncard := hb
  rw [hempty, Set.ncard_empty] at hle
  omega

/-- The peer is no candidate with a majority of votes. -/
def Ballot.NoMajority (b : Ballot n) : Prop := b.state = .candidate → b.voteCount ≤ n / 2

/-- A grant that completes a majority makes a leader, and a candidate starts with one vote. -/
theorem noMajority_step (hn : 2 ≤ n) (hf : (s.peers p).toBallot.NoMajority) {b : Ballot n}
    (h : BallotStep s e p b) : b.NoMajority := by
  intro hstate
  cases h with
  | same => exact hf hstate
  | elect =>
    show 1 ≤ n / 2
    omega
  | grantFree => exact hf hstate
  | count k c a r he hk hc hq hg hs =>
    have hnot : ¬ n / 2 < (s.peers p).voteCount + 1 := fun hlt => hs ⟨hstate, hlt⟩
    show (s.peers p).voteCount + 1 ≤ n / 2
    omega
  | grantNewer | win | stepDown | adopt => cases hstate

/-- With two peers or more, no candidate ever holds a majority of votes between steps. -/
theorem voteCount_le_of_candidate (n : ℕ) (hn : 2 ≤ n) (es : List (Event n)) (s : Cluster n)
    (h : (system n).Run es s) (p : Fin n) (hp : (s.peers p).state = .candidate) :
    (s.peers p).voteCount ≤ n / 2 := by
  suffices hall : ∀ p, (s.peers p).toBallot.NoMajority from hall p hp
  apply h.invariant' (I := fun _ s => ∀ p, (s.peers p).toBallot.NoMajority)
  · intro p hstate
    cases hstate
  · intro es s e t _ hf hs p
    exact noMajority_step hn (hf p) (step_ballot hs p)

theorem countRun_no_majority : ∃ s, (system 5).Run countRun s ∧
    (s.peers 0).state = .candidate ∧ (s.peers 0).voteCount ≤ 5 / 2 := by
  have hr := (system 5).run_exec_get countRun (by decide)
  exact ⟨_, hr, by decide, voteCount_le_of_candidate 5 (by decide) countRun _ hr 0 (by decide)⟩

/-- A peer without others stands. It has no reply to wait for and stays a candidate. -/
theorem lone_candidate_majority : ∃ s,
    (system 1).Run [.electionExpires 0, .receiveElection 0, .election 0] s ∧
    (s.peers 0).state = .candidate ∧ 1 / 2 < (s.peers 0).voteCount :=
  System.exists_run (system 1) [.electionExpires 0, .receiveElection 0, .election 0]
    (fun s => (s.peers 0).state = .candidate ∧ 1 / 2 < (s.peers 0).voteCount) (by decide)

end Raft
