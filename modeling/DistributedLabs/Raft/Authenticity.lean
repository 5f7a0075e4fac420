import DistributedLabs.Raft.Calls

/-! Whether requests say what their sender was. The goroutines of `startElection` and
`broadcastHeartbeat` read `rf.currTerm` after the lock was released, so a request is
authentic when its goroutine runs before the term it was started in has passed. -/
namespace Raft
open Runs
variable {n : ℕ} {s t : Cluster n} {e : Event n} {es : List (Event n)} {p q : Fin n} {T : ℕ}

/-- The goroutine `k` sends the `AppendEntries` request `a` in this step. -/
def SendsBeat (k : ℕ) (c : BeatCall n) (a : AppendEntriesArgs n) (e : Event n) (t : Cluster n) :
    Prop :=
  e = .sendBeat k ∧ t.beats[k]? = some c ∧ c.stage = .sent a

/-- Every heartbeat sent in the run comes from the peer it names, and this peer had been
leader of the heartbeat's term by then. -/
def HeartbeatsAuthentic (es : List (Event n)) : Prop :=
  ∀ pre s e t, pre ++ [e] <+: es → (system n).Run pre s → s.step e = some t →
    ∀ k c a, SendsBeat k c a e t →
      c.caller = a.leaderId ∧ (system n).Once pre (IsLeader a.leaderId a.term)

/-- In this step a heartbeat goroutine runs while its peer is not leader and is no longer
in the term of the leadership that started the goroutine. -/
def LateBeat (s : Cluster n) (e : Event n) : Prop :=
  ∃ k c, e = .sendBeat k ∧ s.beats[k]? = some c ∧ c.stage = .started ∧
    (s.peers c.caller).state ≠ .leader ∧ c.born ≠ (s.peers c.caller).currTerm

/-- Where a heartbeat goroutine of the new state comes from. -/
theorem mem_beats_of_step (h : s.step e = some t) {c : BeatCall n} (hm : c ∈ t.beats) :
    (∃ c₀ ∈ s.beats, c₀.caller = c.caller ∧ c₀.born = c.born) ∨
    IsLeader c.caller c.born s ∨
    ∃ b ∈ s.broadcasts, b.leader = c.caller ∧ b.born = c.born := by
  rcases step_beats h with hv | ⟨p, hl, hv⟩ | ⟨b, hb, hv⟩ | ⟨k, c₀, c', hk, ha, hv⟩
  · exact Or.inl ⟨c, hv ▸ hm, rfl, rfl⟩
  · rw [hv, List.mem_append, mem_spawn] at hm
    rcases hm with hm | ⟨i, -, rfl⟩
    · exact Or.inl ⟨c, hm, rfl, rfl⟩
    · exact Or.inr (Or.inl (Peer.getState_eq_leader.mpr ⟨hl, rfl⟩))
  · rw [hv, List.mem_append, mem_spawn] at hm
    rcases hm with hm | ⟨i, -, rfl⟩
    · exact Or.inl ⟨c, hm, rfl, rfl⟩
    · exact Or.inr (Or.inr ⟨b, hb, rfl, rfl⟩)
  · rw [hv] at hm
    rcases List.mem_or_eq_of_mem_set hm with hm | rfl
    · exact Or.inl ⟨c, hm, rfl, rfl⟩
    · have hmem := List.mem_of_getElem? hk
      cases ha <;> exact Or.inl ⟨_, hmem, rfl, rfl⟩

/-- Where a goroutine of `becomeLeader` in the new state comes from. -/
theorem mem_broadcasts_of_step (h : s.step e = some t) {b : Broadcast n}
    (hm : b ∈ t.broadcasts) :
    (∃ b₀ ∈ s.broadcasts, b₀.leader = b.leader ∧ b₀.born = b.born) ∨
    IsLeader b.leader b.born t := by
  cases Cluster.Step.of_step h with
  | @replyVote k c a r hk hc =>
    simp only [Cluster.replyVote] at hm
    split_ifs at hm with hw
    · rcases List.mem_append.mp hm with hm | hm
      · exact Or.inl ⟨b, hm, rfl, rfl⟩
      · obtain rfl := List.mem_singleton.mp hm
        have hg : r.voteGranted = true := by
          by_contra hg
          rw [(Peer.sendRequestVoteReply_refused _ (Bool.not_eq_true _ ▸ hg)).1] at hw
          simp at hw
        rcases Peer.sendRequestVoteReply_granted (s.peers c.caller) hg with
          ⟨-, -, hb, -⟩ | ⟨-, -, hf⟩
        · right
          simp [IsLeader, Peer.getState, Cluster.replyVote, hb]
        · simp [hf] at hw
    · exact Or.inl ⟨b, hm, rfl, rfl⟩
  | @broadcast k b₀ hk =>
    rcases List.mem_or_eq_of_mem_set hm with hm | rfl
    · exact Or.inl ⟨b, hm, rfl, rfl⟩
    · exact Or.inl ⟨b₀, List.mem_of_getElem? hk, rfl, rfl⟩
  | @election p =>
    refine Or.inl ⟨b, ?_, rfl, rfl⟩
    by_cases hl : (s.peers p).state = .leader <;>
      simpa [Cluster.tickElection, hl] using hm
  | @heartbeat p =>
    refine Or.inl ⟨b, ?_, rfl, rfl⟩
    by_cases hl : (s.peers p).state = .leader <;>
      simpa [Cluster.tickHeartbeat, hl] using hm
  | electionExpires | heartbeatExpires | receiveElection | receiveHeartbeat | kill | sendVote
  | handleVote | sendBeat | handleBeat | replyBeat => exact Or.inl ⟨b, hm, rfl, rfl⟩

/-- Heartbeat goroutines are started by leaders of the term they are born in. -/
structure BeatFacts (es : List (Event n)) (s : Cluster n) : Prop where
  beats : ∀ c ∈ s.beats, (system n).Once es (IsLeader c.caller c.born)
  broadcasts : ∀ b ∈ s.broadcasts, (system n).Once es (IsLeader b.leader b.born)

theorem beatFacts (h : (system n).Run es s) : BeatFacts es s := by
  apply h.invariant' (I := BeatFacts)
  · exact ⟨fun c hc => by simp [system, Cluster.initial] at hc,
      fun b hb => by simp [system, Cluster.initial] at hb⟩
  · intro es s e t hr hf h
    have old {x : Fin n} {T : ℕ} (ho : (system n).Once es (IsLeader x T)) :
        (system n).Once (es ++ [e]) (IsLeader x T) :=
      System.once_mono ho (List.prefix_append _ _)
    refine ⟨fun c hc => ?_, fun b hb => ?_⟩
    · rcases mem_beats_of_step h hc with ⟨c₀, h0, hp, hb⟩ | hl | ⟨b, h0, hp, hb⟩
      · exact old (hp ▸ hb ▸ hf.beats c₀ h0)
      · exact old (System.once_now hr hl)
      · exact old (hp ▸ hb ▸ hf.broadcasts b h0)
    · rcases mem_broadcasts_of_step h hb with ⟨b₀, h0, hp, hb⟩ | hl
      · exact old (hp ▸ hb ▸ hf.broadcasts b₀ h0)
      · exact System.once_now (hr.snoc h) hl

/-- The request a heartbeat goroutine sends. -/
theorem SendsBeat.args_eq {k : ℕ} {c : BeatCall n} {a : AppendEntriesArgs n}
    (h : s.step e = some t) (hs : SendsBeat k c a e t) :
    ∃ c₀, s.beats[k]? = some c₀ ∧ c₀.stage = .started ∧ c₀.caller = c.caller ∧
      c₀.born = c.born ∧ a = ⟨(s.peers c.caller).currTerm, c.caller⟩ := by
  obtain ⟨rfl, hk, hc⟩ := hs
  cases Cluster.Step.of_step h with
  | sendBeat hk₀ hc₀ =>
    simp only [Cluster.sendBeat, getElem?_set_of_some hk₀, ↓reduceIte, Option.some.injEq] at hk
    subst hk
    obtain rfl : _ = a := by simpa using hc
    exact ⟨_, hk₀, hc₀, rfl, rfl, rfl⟩

/-- In every run in which no heartbeat goroutine runs after its leadership and its term,
heartbeats are authentic. -/
theorem heartbeatsAuthentic_of_along
    (hc : (system n).Along es fun _ u e => ¬ LateBeat u e) : HeartbeatsAuthentic es := by
  intro pre s e t hp hr h k c a hs
  obtain ⟨c₀, hk, hst, hcaller, hborn, rfl⟩ := hs.args_eq h
  refine ⟨rfl, ?_⟩
  by_cases hl : (s.peers c.caller).state = .leader
  · exact System.once_now hr (Peer.getState_eq_leader.mpr ⟨hl, rfl⟩)
  · have hT : c₀.born = (s.peers c₀.caller).currTerm := by
      by_contra hne
      exact hc pre s e hp hr ⟨k, c₀, hs.1, hk, hst, hcaller ▸ hl, hne⟩
    have ho := (beatFacts hr).beats c₀ (List.mem_of_getElem? hk)
    rw [hT, hcaller] at ho
    exact ho

/-- The elected peer `p` of three sends its first heartbeat. -/
def beatRun (p : Fin 3) : List (Event 3) := electRun p ++ [.broadcast p, .sendBeat 0]

theorem heartbeatsAuthentic_beatRun : (∃ s, (system 3).Run (beatRun 0) s ∧
    (s.beats[0]?.map Call.stage) = some (.sent ⟨1, 0⟩)) ∧ HeartbeatsAuthentic (beatRun 0) := by
  refine ⟨(system 3).exists_run (beatRun 0) _ (by decide +kernel), ?_⟩
  refine heartbeatsAuthentic_of_along (System.along_of_allSteps punctual ?_ (by decide +kernel))
  rintro pre s e h ⟨k, c, rfl, hk, -, -, hne⟩
  simp [punctual, hk, hne] at h

/-- Peer `p` of three is elected in term 1 and starts its heartbeats; peer `q` stands in
terms 1 and 2 and `p` grants its second request; then a heartbeat goroutine runs. -/
def forgedBeatRun (p q : Fin 3) : List (Event 3) :=
  electRun p ++ [.broadcast p, .electionExpires q, .receiveElection q, .election q,
    .electionExpires q, .receiveElection q, .election q, .sendVote 4, .handleVote 4] ++
    [.sendBeat 0]

theorem forgedBeatRun_forges :
    (∃ s, (system 3).Run (forgedBeatRun 0 1) s) ∧ ¬ HeartbeatsAuthentic (forgedBeatRun 0 1) := by
  obtain ⟨s, t, hr, hstep, hsent⟩ := (system 3).exists_last_step (forgedBeatRun 0 1).dropLast
    (.sendBeat 0) (fun _ t => t.beats[0]?.map Call.stage = some (.sent ⟨2, 0⟩)) (by decide +kernel)
  refine ⟨⟨t, hr.snoc hstep⟩, fun ha => ?_⟩
  obtain ⟨c, hk, hc⟩ := Option.map_eq_some_iff.mp hsent
  have hl := (ha (forgedBeatRun 0 1).dropLast s _ t (List.prefix_refl _) hr hstep 0 c ⟨2, 0⟩
    ⟨rfl, hk, hc⟩).2
  refine System.not_once_of_allStates (fun s => decide (¬ IsLeader 0 2 s)) ?_ (by decide +kernel) hl
  intro s h
  simpa using h

/-- The goroutine `k` sends the `RequestVote` request `a` in this step. -/
def SendsVote (k : ℕ) (c : VoteCall n) (a : RequestVoteArgs n) (e : Event n) (t : Cluster n) :
    Prop :=
  e = .sendVote k ∧ t.votes[k]? = some c ∧ c.stage = .sent a

/-- The peer `p` has sent a `RequestVote` of term `T` to `q`. -/
def Requested (es : List (Event n)) (p q : Fin n) (T : ℕ) : Prop :=
  (system n).Did es fun _ e t => ∃ k c a, SendsVote k c a e t ∧ c.caller = p ∧ c.server = q ∧
    a.term = T

/-- Every vote request sent in the run comes from the candidate it names, which had started
the election of the request's term by then and had not sent this peer one of that term. -/
def RequestsAuthentic (es : List (Event n)) : Prop :=
  ∀ pre s e t, pre ++ [e] <+: es → (system n).Run pre s → s.step e = some t →
    ∀ k c a, SendsVote k c a e t → c.caller = a.candidateId ∧
      Started pre a.candidateId a.term ∧ ¬ Requested pre a.candidateId c.server a.term

/-- In this step a goroutine of `startElection` runs after its peer has left the term of
that election. -/
def LateRequest (s : Cluster n) (e : Event n) : Prop :=
  ∃ k c, e = .sendVote k ∧ s.votes[k]? = some c ∧ c.stage = .started ∧
    c.born ≠ (s.peers c.caller).currTerm

/-- Vote goroutines are born in an election of their caller. -/
theorem started_of_vote (h : (system n).Run es s) :
    ∀ c ∈ s.votes, Started es c.caller c.born := by
  apply h.invariant' (I := fun es s => ∀ c ∈ s.votes, Started es c.caller c.born)
  · intro c hc
    simp [system, Cluster.initial] at hc
  · intro es s e t hr hI h c hc
    rw [started_snoc hr h]
    rcases mem_votes_of_step h hc with hc | ⟨p, i, rfl, hl, -, rfl⟩ | ⟨k, c₀, hk, ha⟩
    · exact Or.inl (hI c hc)
    · have hstep : s.step (.election p) = some t := h
      exact Or.inr ⟨rfl, hl, (ElectionStep.ballot hstep ⟨rfl, hl, rfl⟩).1⟩
    · have h0 := hI c₀ (List.mem_of_getElem? hk)
      cases ha <;> exact Or.inl h0

/-- Without late goroutines the requests carry the term of their election. -/
theorem term_eq_born (h : (system n).Run es s)
    (hc : (system n).Along es fun _ u e => ¬ LateRequest u e) :
    ∀ c ∈ s.votes, ∀ a, c.stage.args? = some a → a.term = c.born := by
  apply h.invariant (I := fun _ s => ∀ c ∈ s.votes, ∀ a, c.stage.args? = some a →
    a.term = c.born) _ _ hc
  · intro c hc
    simp [system, Cluster.initial] at hc
  · intro es s e t hr hI hc h c hm a ha
    rcases mem_votes_of_step h hm with hm | ⟨p, i, -, -, -, rfl⟩ | ⟨k, c₀, hk, hadv⟩
    · exact hI c hm a ha
    · simp [Stage.args?] at ha
    · have h0 := hI c₀ (List.mem_of_getElem? hk)
      cases hadv with
      | send k p q b =>
        obtain rfl : _ = a := by simpa [Stage.args?] using ha
        by_contra hne
        exact hc ⟨k, _, rfl, hk, rfl, fun hb => hne hb.symm⟩
      | handle k p q b a' | reply k p q b a' => exact h0 a ha

/-- A goroutine keeps its request for ever. -/
theorem args_of_step (h : s.step e = some t) {j : ℕ} {c : VoteCall n} {a : RequestVoteArgs n}
    (hj : s.votes[j]? = some c) (ha : c.stage.args? = some a) :
    ∃ c', t.votes[j]? = some c' ∧ c'.caller = c.caller ∧ c'.server = c.server ∧
      c'.stage.args? = some a := by
  rcases step_votes h with hv | ⟨p, -, -, hv⟩ | ⟨k, c₀, c', hk, hadv, hv⟩
  · exact ⟨c, by rw [hv, hj], rfl, rfl, ha⟩
  · refine ⟨c, ?_, rfl, rfl, ha⟩
    rw [hv, List.getElem?_append_left (List.getElem?_eq_some_iff.mp hj).1, hj]
  · by_cases hkj : k = j
    · subst hkj
      obtain rfl : c₀ = c := Option.some.inj (hk.symm.trans hj)
      refine ⟨c', by rw [hv, getElem?_set_of_some hk, if_pos rfl], ?_⟩
      cases hadv with
      | send => simp [Stage.args?] at ha
      | handle | reply => exact ⟨rfl, rfl, ha⟩
    · exact ⟨c, by rw [hv, getElem?_set_of_some hk, if_neg hkj, hj], rfl, rfl, ha⟩

theorem vote_of_requested (h : (system n).Run es s) (hd : Requested es p q T) :
    ∃ (j : ℕ) (c : VoteCall n) (a : RequestVoteArgs n), s.votes[j]? = some c ∧ c.caller = p ∧
      c.server = q ∧ c.stage.args? = some a ∧ a.term = T := by
  induction h with
  | nil => exact absurd hd System.did_nil
  | snoc hr hs ih =>
    rcases (System.did_snoc hr hs).mp hd with hd | ⟨k, c, a, ⟨-, hk, hc⟩, hp, hq, hT⟩
    · obtain ⟨j, c, a, hj, hp, hq, ha, hT⟩ := ih hd
      obtain ⟨c', hj', hp', hq', ha'⟩ := args_of_step hs hj ha
      exact ⟨j, c', a, hj', hp'.trans hp, hq'.trans hq, ha', hT⟩
    · exact ⟨k, c, a, hk, hp, hq, by rw [hc]; rfl, hT⟩

/-- The request a vote goroutine sends. -/
theorem SendsVote.args_eq {k : ℕ} {c : VoteCall n} {a : RequestVoteArgs n}
    (h : s.step e = some t) (hs : SendsVote k c a e t) :
    ∃ c₀, s.votes[k]? = some c₀ ∧ c₀.stage = .started ∧ c₀.key = c.key ∧
      a = ⟨(s.peers c.caller).currTerm, c.caller⟩ := by
  obtain ⟨rfl, hk, hc⟩ := hs
  cases Cluster.Step.of_step h with
  | sendVote hk₀ hc₀ =>
    simp only [Cluster.sendVote, getElem?_set_of_some hk₀, ↓reduceIte, Option.some.injEq] at hk
    subst hk
    obtain rfl : _ = a := by simpa using hc
    exact ⟨_, hk₀, hc₀, rfl, rfl⟩

/-- In every run in which no goroutine of `startElection` outlives the term of its election,
vote requests are authentic. -/
theorem requestsAuthentic_of_along
    (hc : (system n).Along es fun _ u e => ¬ LateRequest u e) : RequestsAuthentic es := by
  intro pre s e t hp hr h k c a hs
  obtain ⟨c₀, hk, hst, hkey, rfl⟩ := hs.args_eq h
  have hcaller : c₀.caller = c.caller := congrArg Prod.fst hkey
  have hT : c₀.born = (s.peers c.caller).currTerm := by
    by_contra hne
    exact hc pre s e hp hr ⟨k, c₀, hs.1, hk, hst, hcaller ▸ hne⟩
  refine ⟨rfl, ?_, fun hreq => ?_⟩
  · have hstart := started_of_vote hr c₀ (List.mem_of_getElem? hk)
    rw [hT, hcaller] at hstart
    exact hstart
  · obtain ⟨j, d, b, hj, hdp, hdq, hb, hbT⟩ := vote_of_requested hr hreq
    have hcp := System.along_mono hc ((List.prefix_append _ _).trans hp)
    have hborn := term_eq_born hr hcp d (List.mem_of_getElem? hj) b hb
    have hserver : c₀.server = c.server := congrArg (fun x => x.2.1) hkey
    have hdk : d.key = c₀.key := by
      simp [Call.key, hdp, hdq, hcaller, hserver, hT, ← hborn, hbT]
    obtain rfl := (callFacts hr).index_eq hj hk hdk
    obtain rfl : c₀ = d := Option.some.inj (hk.symm.trans hj)
    simp [hst, Stage.args?] at hb

theorem requestsAuthentic_electRun : (∃ s, (system 3).Run (electRun 0) s ∧ IsLeader 0 1 s) ∧
    RequestsAuthentic (electRun 0) := by
  refine ⟨(system 3).exists_run (electRun 0) _ (by decide +kernel), ?_⟩
  refine requestsAuthentic_of_along (System.along_of_allSteps punctual ?_ (by decide +kernel))
  rintro pre s e h ⟨k, c, rfl, hk, -, hne⟩
  simp [punctual, hk, hne] at h

/-- Peer `p` of three stands in term 1; peer `q` stands in terms 1 and 2, and `p` grants its
second request and so enters term 2; then a goroutine of the election of `p` runs. -/
def forgedVoteRun (p q : Fin 3) : List (Event 3) :=
  [.electionExpires p, .receiveElection p, .election p,
    .electionExpires q, .receiveElection q, .election q,
    .electionExpires q, .receiveElection q, .election q, .sendVote 4, .handleVote 4] ++
    [.sendVote 0]

theorem forgedVoteRun_forges :
    (∃ s, (system 3).Run (forgedVoteRun 0 1) s) ∧ ¬ RequestsAuthentic (forgedVoteRun 0 1) := by
  obtain ⟨s, t, hr, hstep, hsent⟩ := (system 3).exists_last_step (forgedVoteRun 0 1).dropLast
    (.sendVote 0) (fun _ t => t.votes[0]?.map Call.stage = some (.sent ⟨2, 0⟩)) (by decide +kernel)
  refine ⟨⟨t, hr.snoc hstep⟩, fun ha => ?_⟩
  obtain ⟨c, hk, hc⟩ := Option.map_eq_some_iff.mp hsent
  have hs : Started (forgedVoteRun 0 1).dropLast 0 2 :=
    (ha (forgedVoteRun 0 1).dropLast s _ t (List.prefix_refl _) hr hstep 0 c ⟨2, 0⟩
      ⟨rfl, hk, hc⟩).2.1
  let f (s : Cluster 3) : Event 3 → Bool
    | .election p => p ≠ 0 ∨ (s.peers 0).currTerm ≠ 1
    | _ => true
  refine System.not_did_of_along (System.along_of_allSteps f ?_ (by decide +kernel)) hs
  rintro pre s e h t hstep he
  have hT := (he.ballot hstep).1
  obtain ⟨rfl, -⟩ := he
  simp only [f, ne_eq, not_true_eq_false, false_or, decide_eq_true_eq] at h
  omega

end Raft
