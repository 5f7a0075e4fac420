import DistributedLabs.Raft.Calls

/-! Where terms come from and how far they spread: only `startElection` makes a new term, and
a peer that has handled a message is in the message's term or a later one. -/
namespace Raft
open Runs
variable {n : ℕ} {s t : Cluster n} {e : Event n} {es : List (Event n)} {p q : Fin n} {T : ℕ}

/-- The term stands in a peer, in a request or in a reply. -/
inductive Found (s : Cluster n) : ℕ → Prop
  | peer (p : Fin n) : Found s (s.peers p).currTerm
  | voteRequest {c : VoteCall n} {a : RequestVoteArgs n} (hc : c ∈ s.votes)
      (ha : c.stage.args? = some a) : Found s a.term
  | voteReply {c : VoteCall n} {r : RequestVoteReply} (hc : c ∈ s.votes)
      (hr : c.stage.reply? = some r) : Found s r.term
  | beatRequest {c : BeatCall n} {a : AppendEntriesArgs n} (hc : c ∈ s.beats)
      (ha : c.stage.args? = some a) : Found s a.term
  | beatReply {c : BeatCall n} {r : AppendEntriesReply} (hc : c ∈ s.beats)
      (hr : c.stage.reply? = some r) : Found s r.term

theorem found_max {T' : ℕ} (h : Found s T) (h' : Found s T') : Found s (max T T') := by
  rcases max_choice T T' with heq | heq
  · rwa [heq]
  · rwa [heq]

/-- Where a heartbeat goroutine of the new state comes from, with its stage. -/
theorem beat_of_step (h : s.step e = some t) {c : BeatCall n} (hm : c ∈ t.beats) :
    c ∈ s.beats ∨ c.stage = .started ∨ ∃ k c₀, s.beats[k]? = some c₀ ∧ BeatAdvance s e k c₀ c := by
  have hspawn {x : Fin n} {b : ℕ} (hb : t.beats = s.beats ++ spawn x b) :
      c ∈ s.beats ∨ c.stage = .started := by
    rw [hb, List.mem_append, mem_spawn] at hm
    rcases hm with hm | ⟨i, -, rfl⟩
    · exact Or.inl hm
    · exact Or.inr rfl
  rcases step_beats h with hb | ⟨p, -, hb⟩ | ⟨b, -, hb⟩ | ⟨k, c₀, c', hk, ha, hb⟩
  · exact Or.inl (hb ▸ hm)
  · exact (hspawn hb).imp_right Or.inl
  · exact (hspawn hb).imp_right Or.inl
  · rw [hb] at hm
    rcases List.mem_or_eq_of_mem_set hm with hm | rfl
    · exact Or.inl hm
    · exact Or.inr (Or.inr ⟨k, c₀, hk, ha⟩)

/-- A term of a peer was there before the step or is made by its election. -/
theorem found_of_peer (h : s.step e = some t) (p : Fin n) :
    Found s (t.peers p).currTerm ∨ ElectionStep p (t.peers p).currTerm s e t := by
  have hp := step_peer h p
  generalize hrf : t.peers p = rf at hp
  have hold : Found s (s.peers p).currTerm := .peer p
  cases hp with
  | stand ht hl => exact Or.inr ⟨rfl, hl, by rw [hrf]⟩
  | @handleVote k c a hk hc hq =>
    left
    rw [(Peer.requestVote_term _ a).1]
    exact found_max hold (.voteRequest (List.mem_of_getElem? hk) (by rw [hc]; rfl))
  | @replyVote k c a r hk hc hq =>
    left
    have hr : Found s r.term := .voteReply (List.mem_of_getElem? hk) (by rw [hc]; rfl)
    rw [Peer.sendRequestVoteReply_term]
    split_ifs
    · exact hold
    · exact found_max hold hr
  | @handleBeat k c a hk hc hq =>
    left
    rw [(Peer.appendEntries_term _ a).1]
    exact found_max hold (.beatRequest (List.mem_of_getElem? hk) (by rw [hc]; rfl))
  | @replyBeat k c a r hk hc hq =>
    left
    have hr : Found s r.term := .beatReply (List.mem_of_getElem? hk) (by rw [hc]; rfl)
    rw [Peer.sendAppendEntriesReply_term]
    split_ifs
    · exact hold
    · exact found_max hold hr
  | same | electionExpires | heartbeatExpires | receiveElection | receiveHeartbeat
  | leaveElection | beat | leaveHeartbeat | kill => exact Or.inl hold

/-- A term of the new state was there before the step or is made by an election. -/
theorem found_of_step (h : s.step e = some t) (hT : Found t T) :
    Found s T ∨ ∃ p, ElectionStep p T s e t := by
  cases hT with
  | peer p => exact (found_of_peer h p).imp_right fun he => ⟨p, he⟩
  | @voteRequest c a hc ha =>
    left
    rcases mem_votes_of_step h hc with hc | ⟨p, i, -, -, -, rfl⟩ | ⟨k, c₀, hk, hadv⟩
    · exact .voteRequest hc ha
    · simp [Stage.args?] at ha
    · have hmem := List.mem_of_getElem? hk
      cases hadv with
      | send k p q b =>
        obtain rfl : _ = a := by simpa [Stage.args?] using ha
        exact .peer p
      | handle | reply => exact .voteRequest hmem ha
  | @voteReply c r hc hr =>
    left
    rcases mem_votes_of_step h hc with hc | ⟨p, i, -, -, -, rfl⟩ | ⟨k, c₀, hk, hadv⟩
    · exact .voteReply hc hr
    · simp [Stage.reply?] at hr
    · have hmem := List.mem_of_getElem? hk
      cases hadv with
      | send => simp [Stage.reply?] at hr
      | handle k p q b a =>
        obtain rfl : _ = r := by simpa [Stage.reply?] using hr
        rw [(Peer.requestVote_term _ a).2]
        exact found_max (.peer q) (.voteRequest hmem rfl)
      | reply => exact .voteReply hmem hr
  | @beatRequest c a hc ha =>
    left
    rcases beat_of_step h hc with hc | hst | ⟨k, c₀, hk, hadv⟩
    · exact .beatRequest hc ha
    · simp [hst, Stage.args?] at ha
    · have hmem := List.mem_of_getElem? hk
      cases hadv with
      | send k p q b =>
        obtain rfl : _ = a := by simpa [Stage.args?] using ha
        exact .peer p
      | handle | reply => exact .beatRequest hmem ha
  | @beatReply c r hc hr =>
    left
    rcases beat_of_step h hc with hc | hst | ⟨k, c₀, hk, hadv⟩
    · exact .beatReply hc hr
    · simp [hst, Stage.reply?] at hr
    · have hmem := List.mem_of_getElem? hk
      cases hadv with
      | send => simp [Stage.reply?] at hr
      | handle k p q b a =>
        obtain rfl : _ = r := by simpa [Stage.reply?] using hr
        rw [(Peer.appendEntries_term _ a).2]
        exact found_max (.peer q) (.beatRequest hmem rfl)
      | reply => exact .beatReply hmem hr

theorem found_init (h : Found (system n).init T) : T = 0 := by
  cases h with
  | peer p => rfl
  | voteRequest hc | voteReply hc | beatRequest hc | beatReply hc =>
    simp [system, Cluster.initial] at hc

theorem started_of_found (h : (system n).Run es s) :
    ∀ T, Found s T → 0 < T → ∃ p, Started es p T := by
  apply h.invariant' (I := fun es s => ∀ T, Found s T → 0 < T → ∃ p, Started es p T)
  · intro T hT hpos
    have := found_init hT
    omega
  · intro es s e t hr hI hs T hT hpos
    rcases found_of_step hs hT with hT | ⟨p, he⟩
    · obtain ⟨p, hp⟩ := hI T hT hpos
      exact ⟨p, (started_snoc hr hs).mpr (Or.inl hp)⟩
    · exact ⟨p, (started_snoc hr hs).mpr (Or.inr he)⟩

/-- The label runs the body of `ticker` for the election timer. -/
def Event.isElection : Event n → Bool
  | .election _ => true
  | _ => false

/-- Terms count elections, so they fit a machine integer as long as those do. -/
theorem found_le_elections (h : (system n).Run es s) :
    ∀ T, Found s T → T ≤ es.countP Event.isElection := by
  apply h.invariant' (I := fun es s => ∀ T, Found s T → T ≤ es.countP Event.isElection)
  · intro T hT
    rw [found_init hT]
    exact Nat.zero_le _
  · intro es s e t hr hI hs T hT
    rw [List.countP_append]
    rcases found_of_step hs hT with hT | ⟨p, he⟩
    · exact (hI T hT).trans (Nat.le_add_right _ _)
    · have hnew := (he.ballot hs).1
      have hold := hI _ (.peer p)
      obtain ⟨rfl, -⟩ := he
      have hone : [Event.election p].countP Event.isElection = 1 := rfl
      omega

/-- What the replies in the goroutines say about the requests they answer. -/
structure ReplyFacts (s : Cluster n) : Prop where
  /-- Heartbeats carry a term their caller has reached. -/
  beat : ∀ c ∈ s.beats, ∀ a, c.stage.args? = some a → a.term ≤ (s.peers c.caller).currTerm
  granted : ∀ c ∈ s.votes, ∀ a r, c.stage.args? = some a → c.stage.reply? = some r →
    r.voteGranted = true → r.term = a.term
  success : ∀ c ∈ s.beats, ∀ a r, c.stage.args? = some a → c.stage.reply? = some r →
    r.success = true → r.term = a.term

theorem requestVote_granted_term {rf : Peer n} {a : RequestVoteArgs n}
    (h : (rf.requestVote a).2.voteGranted = true) : (rf.requestVote a).2.term = a.term := by
  have hle : rf.currTerm ≤ a.term := by
    rcases Peer.requestVote_granted h with ⟨hT, -⟩ | ⟨hT, -⟩
    · exact hT.le
    · exact hT.le
  rw [(Peer.requestVote_term rf a).2, max_eq_right hle]

theorem appendEntries_success_term {rf : Peer n} {a : AppendEntriesArgs n}
    (h : (rf.appendEntries a).2.success = true) : (rf.appendEntries a).2.term = a.term := by
  unfold Peer.appendEntries at h ⊢
  by_cases hlt : a.term < rf.currTerm
  · simp [hlt] at h
  · rw [if_neg hlt]

theorem replyFacts_init : ReplyFacts (system n).init where
  beat c hc := by simp [system, Cluster.initial] at hc
  granted c hc := by simp [system, Cluster.initial] at hc
  success c hc := by simp [system, Cluster.initial] at hc

theorem replyFacts_step (hf : ReplyFacts s) (h : s.step e = some t) : ReplyFacts t where
  beat c hc a ha := by
    rcases beat_of_step h hc with hc | hst | ⟨k, c₀, hk, hadv⟩
    · exact (hf.beat c hc a ha).trans (currTerm_le_of_step h _)
    · simp [hst, Stage.args?] at ha
    · have hold := hf.beat c₀ (List.mem_of_getElem? hk)
      cases hadv with
      | send k p q b =>
        obtain rfl : _ = a := by simpa [Stage.args?] using ha
        exact currTerm_le_of_step h p
      | handle | reply => exact (hold a ha).trans (currTerm_le_of_step h _)
  granted c hc a r ha hr hg := by
    rcases mem_votes_of_step h hc with hc | ⟨p, i, -, -, -, rfl⟩ | ⟨k, c₀, hk, hadv⟩
    · exact hf.granted c hc a r ha hr hg
    · simp [Stage.args?] at ha
    · have hold := hf.granted c₀ (List.mem_of_getElem? hk)
      cases hadv with
      | send => simp [Stage.reply?] at hr
      | handle k p q b a' =>
        obtain rfl : _ = r := by simpa [Stage.reply?] using hr
        obtain rfl : a' = a := by simpa [Stage.args?] using ha
        exact requestVote_granted_term hg
      | reply => exact hold a r ha hr hg
  success c hc a r ha hr hg := by
    rcases beat_of_step h hc with hc | hst | ⟨k, c₀, hk, hadv⟩
    · exact hf.success c hc a r ha hr hg
    · simp [hst, Stage.args?] at ha
    · have hold := hf.success c₀ (List.mem_of_getElem? hk)
      cases hadv with
      | send => simp [Stage.reply?] at hr
      | handle k p q b a' =>
        obtain rfl : _ = r := by simpa [Stage.reply?] using hr
        obtain rfl : a' = a := by simpa [Stage.args?] using ha
        exact appendEntries_success_term hg
      | reply => exact hold a r ha hr hg

theorem replyFacts (h : (system n).Run es s) : ReplyFacts s :=
  h.invariant' (I := fun _ s => ReplyFacts s) replyFacts_init
    fun _ _ _ _ _ hf hs => replyFacts_step hf hs

/-- In this step the peer handles a message that carries the term. -/
inductive Receives (s : Cluster n) : Event n → Fin n → ℕ → Prop
  | vote {k : ℕ} {c : VoteCall n} {a : RequestVoteArgs n} (hk : s.votes[k]? = some c)
      (hc : c.stage = .sent a) : Receives s (.handleVote k) c.server a.term
  | voteReply {k : ℕ} {c : VoteCall n} {a : RequestVoteArgs n} {r : RequestVoteReply}
      (hk : s.votes[k]? = some c) (hc : c.stage = .answered a r) :
      Receives s (.replyVote k) c.caller r.term
  | beat {k : ℕ} {c : BeatCall n} {a : AppendEntriesArgs n} (hk : s.beats[k]? = some c)
      (hc : c.stage = .sent a) : Receives s (.handleBeat k) c.server a.term
  | beatReply {k : ℕ} {c : BeatCall n} {a : AppendEntriesArgs n} {r : AppendEntriesReply}
      (hk : s.beats[k]? = some c) (hc : c.stage = .answered a r) :
      Receives s (.replyBeat k) c.caller r.term

/-- A granted vote and a successful heartbeat answer with the request's own term, which the
caller has reached; the handlers adopt any other newer term. -/
theorem term_le_of_receives (hr : (system n).Run es s) (h : s.step e = some t)
    (hm : Receives s e p T) : T ≤ (t.peers p).currTerm := by
  cases hm with
  | @vote k c a hk hc =>
    cases Cluster.Step.of_step h with
    | handleVote hk' hc' =>
      obtain rfl : c = _ := Option.some.inj (hk.symm.trans hk')
      obtain rfl : a = _ := by simpa [hc] using hc'
      simp [Cluster.handleVote, (Peer.requestVote_term _ a).1]
  | @voteReply k c a r hk hc =>
    have hmem := List.mem_of_getElem? hk
    have harg := ((callFacts hr).args c hmem a (by rw [hc]; rfl)).2
    have hgranted := (replyFacts hr).granted c hmem a r (by rw [hc]; rfl) (by rw [hc]; rfl)
    cases Cluster.Step.of_step h with
    | replyVote hk' hc' =>
      obtain rfl : c = _ := Option.some.inj (hk.symm.trans hk')
      obtain ⟨rfl, rfl⟩ : a = _ ∧ r = _ := by simpa [hc] using hc'
      simp only [Cluster.replyVote, Cluster.setPeer_peers, ↓reduceIte,
        Peer.sendRequestVoteReply_term]
      split_ifs with hg
      · exact (hgranted hg).trans_le harg
      · exact le_max_right _ _
  | @beat k c a hk hc =>
    cases Cluster.Step.of_step h with
    | handleBeat hk' hc' =>
      obtain rfl : c = _ := Option.some.inj (hk.symm.trans hk')
      obtain rfl : a = _ := by simpa [hc] using hc'
      simp [Cluster.handleBeat, (Peer.appendEntries_term _ a).1]
  | @beatReply k c a r hk hc =>
    have hmem := List.mem_of_getElem? hk
    have harg := (replyFacts hr).beat c hmem a (by rw [hc]; rfl)
    have hsuccess := (replyFacts hr).success c hmem a r (by rw [hc]; rfl) (by rw [hc]; rfl)
    cases Cluster.Step.of_step h with
    | replyBeat hk' hc' =>
      obtain rfl : c = _ := Option.some.inj (hk.symm.trans hk')
      obtain ⟨rfl, rfl⟩ : a = _ ∧ r = _ := by simpa [hc] using hc'
      simp only [Cluster.replyBeat, Cluster.setPeer_peers, ↓reduceIte,
        Peer.sendAppendEntriesReply_term]
      split_ifs with hg
      · exact (hsuccess hg).trans_le harg
      · exact le_max_right _ _

/-- Terms never fall, messages carry their receivers to their term, candidates and leaders
started their election themselves, and only elections make terms. -/
theorem termDiscipline (n : ℕ) (es : List (Event n)) (s : Cluster n) (h : (system n).Run es s) :
    (∀ e t, s.step e = some t → ∀ p, (s.peers p).currTerm ≤ (t.peers p).currTerm) ∧
    (∀ e t p T, s.step e = some t → Receives s e p T → T ≤ (t.peers p).currTerm) ∧
    (∀ p, (s.peers p).state = .candidate ∨ (s.peers p).state = .leader →
      Started es p (s.peers p).currTerm) ∧
    (∀ T, Found s T → 0 < T → ∃ p, Started es p T) := by
  refine ⟨fun e t hs p => currTerm_le_of_step hs p, fun e t p T hs => term_le_of_receives h hs,
    ?_, started_of_found h⟩
  intro p hp
  apply (voteFacts h).started p
  rcases hp with hp | hp <;> simp [hp]

theorem termDiscipline_electRun : ∃ s, (system 3).Run (electRun 0) s ∧
    (s.peers 0).state = .leader ∧ (s.peers 0).currTerm = 1 ∧ Started (electRun 0) 0 1 := by
  obtain ⟨s, hr, hl, hT⟩ := System.exists_run (system 3) (electRun 0)
    (fun s => (s.peers 0).state = .leader ∧ (s.peers 0).currTerm = 1) (by decide +kernel)
  have hstarted := (termDiscipline 3 (electRun 0) s hr).2.2.1 0 (Or.inr hl)
  rw [hT] at hstarted
  exact ⟨s, hr, hl, hT, hstarted⟩

end Raft
