import DistributedLabs.Raft.Votes
import DistributedLabs.Runs.Records

/-! Facts about the vote goroutines that hold in every run: whom they are between, what
their requests say, and that an election starts one goroutine for each other peer. -/
namespace Raft
open Runs
variable {n : ℕ} {s t : Cluster n} {e : Event n} {es : List (Event n)}

/-- An election starts at most one goroutine with a given key. -/
def Call.key {α ρ : Type} (c : Call n α ρ) : Fin n × Fin n × ℕ := (c.caller, c.server, c.born)

theorem Advance.key_eq {k : ℕ} {c c' : VoteCall n} (h : Advance s e k c c') : c'.key = c.key := by
  cases h <;> rfl

/-- Where a goroutine of the new state comes from. -/
theorem mem_votes_of_step (h : s.step e = some t) {c : VoteCall n} (hm : c ∈ t.votes) :
    c ∈ s.votes ∨
    (∃ p i, e = .election p ∧ (s.peers p).state ≠ .leader ∧ i ≠ p ∧
      c = ⟨p, i, (s.peers p).currTerm + 1, .started⟩) ∨
    ∃ k c₀, s.votes[k]? = some c₀ ∧ Advance s e k c₀ c := by
  rcases step_votes h with hv | ⟨p, he, hl, hv⟩ | ⟨k, c₀, c', hk, ha, hv⟩
  · exact Or.inl (hv ▸ hm)
  · rw [hv, List.mem_append, mem_spawn] at hm
    rcases hm with hm | ⟨i, hi, hc⟩
    · exact Or.inl hm
    · exact Or.inr (Or.inl ⟨p, i, he, hl, hi, hc⟩)
  · rw [hv] at hm
    rcases List.mem_or_eq_of_mem_set hm with hm | rfl
    · exact Or.inl hm
    · exact Or.inr (Or.inr ⟨k, c₀, hk, ha⟩)

structure CallFacts (s : Cluster n) : Prop where
  /-- No peer asks itself. -/
  ne : ∀ c ∈ s.votes, c.server ≠ c.caller
  /-- Goroutines are not born in a term their caller has not reached. -/
  born_le : ∀ c ∈ s.votes, c.born ≤ (s.peers c.caller).currTerm
  /-- Requests name their caller and carry a term it has reached. -/
  args : ∀ c ∈ s.votes, ∀ a, c.stage.args? = some a →
    a.candidateId = c.caller ∧ a.term ≤ (s.peers c.caller).currTerm
  /-- Each election asks each peer by one goroutine only. -/
  keys : (s.votes.map Call.key).Nodup

theorem callFacts_init : CallFacts (system n).init where
  ne c hc := by simp [system, Cluster.initial] at hc
  born_le c hc := by simp [system, Cluster.initial] at hc
  args c hc := by simp [system, Cluster.initial] at hc
  keys := by simp [system, Cluster.initial]

theorem spawn_keys {α ρ : Type} (p : Fin n) (T : ℕ) :
    ((spawn p T : List (Call n α ρ)).map Call.key).Nodup := by
  simp only [spawn, List.map_map]
  apply List.Nodup.map
  · intro i j hij
    simpa [Call.key] using hij
  · exact (List.nodup_finRange n).filter _

theorem callFacts_step (hf : CallFacts s) (h : s.step e = some t) : CallFacts t where
  ne c hc := by
    rcases mem_votes_of_step h hc with hc | ⟨p, i, -, -, hi, rfl⟩ | ⟨k, c₀, hk, ha⟩
    · exact hf.ne c hc
    · exact hi
    · have h0 := hf.ne c₀ (List.mem_of_getElem? hk)
      cases ha <;> exact h0
  born_le c hc := by
    rcases mem_votes_of_step h hc with hc | ⟨p, i, rfl, hl, -, rfl⟩ | ⟨k, c₀, hk, ha⟩
    · exact (hf.born_le c hc).trans (currTerm_le_of_step h _)
    · have hb := (ElectionStep.ballot h ⟨rfl, hl, rfl⟩).1
      exact hb.ge
    · have h0 := (hf.born_le c₀ (List.mem_of_getElem? hk)).trans (currTerm_le_of_step h _)
      cases ha <;> exact h0
  args c hc a hca := by
    rcases mem_votes_of_step h hc with hc | ⟨p, i, -, -, -, rfl⟩ | ⟨k, c₀, hk, ha⟩
    · obtain ⟨h1, h2⟩ := hf.args c hc a hca
      exact ⟨h1, h2.trans (currTerm_le_of_step h _)⟩
    · simp [Stage.args?] at hca
    · have h0 := hf.args c₀ (List.mem_of_getElem? hk)
      cases ha with
      | send k p q b =>
        obtain rfl : _ = a := by simpa [Stage.args?] using hca
        exact ⟨rfl, currTerm_le_of_step h _⟩
      | handle k p q b a' | reply k p q b a' =>
        obtain ⟨h1, h2⟩ := h0 a hca
        exact ⟨h1, h2.trans (currTerm_le_of_step h _)⟩
  keys := by
    rcases step_votes h with hv | ⟨p, -, hl, hv⟩ | ⟨k, c₀, c', hk, ha, hv⟩
    · rw [hv]
      exact hf.keys
    · rw [hv, List.map_append]
      refine hf.keys.append (spawn_keys p _) ?_
      intro x hx hy
      obtain ⟨c, hc, rfl⟩ := List.mem_map.mp hx
      obtain ⟨c', hc', hkey⟩ := List.mem_map.mp hy
      obtain ⟨i, -, rfl⟩ := mem_spawn.mp hc'
      have hcaller : c.caller = p := (congrArg Prod.fst hkey).symm
      have hborn : c.born = (s.peers p).currTerm + 1 := (congrArg (fun x => x.2.2) hkey).symm
      have hle := hf.born_le c hc
      rw [hcaller] at hle
      omega
    · rw [hv, map_set_of_eq Call.key hk ha.key_eq]
      exact hf.keys

theorem callFacts (h : (system n).Run es s) : CallFacts s :=
  h.invariant' (I := fun _ s => CallFacts s) callFacts_init
    fun _ _ _ _ _ hf hs => callFacts_step hf hs

/-- A goroutine that has processed its reply does nothing more. -/
theorem returned_of_step (h : s.step e = some t) {j : ℕ} {c : VoteCall n} {a : RequestVoteArgs n}
    {r : RequestVoteReply} (hj : s.votes[j]? = some c) (hc : c.stage = .returned a r) :
    t.votes[j]? = some c := by
  rcases step_votes h with hv | ⟨p, -, -, hv⟩ | ⟨k, c₀, c', hk, ha, hv⟩
  · rw [hv, hj]
  · rw [hv, List.getElem?_append_left (List.getElem?_eq_some_iff.mp hj).1, hj]
  · have hne : k ≠ j := by
      rintro rfl
      obtain rfl : c₀ = c := Option.some.inj (hk.symm.trans hj)
      cases ha <;> simp at hc
    rw [hv, getElem?_set_of_some hk, if_neg hne, hj]

/-- Two goroutines with one key are the same. -/
theorem CallFacts.index_eq (hf : CallFacts s) {j k : ℕ} {c d : VoteCall n}
    (hj : s.votes[j]? = some c) (hk : s.votes[k]? = some d) (he : c.key = d.key) : j = k := by
  have hlt : j < (s.votes.map Call.key).length := by
    simpa using (List.getElem?_eq_some_iff.mp hj).1
  apply (List.getElem?_inj hlt hf.keys).mp
  simp [hj, hk, he]

/-- A test for steps of a punctual schedule: goroutines send and process replies in the
term they were born in, and requests arrive before their server has reached their term. -/
def punctual (s : Cluster n) : Event n → Bool
  | .sendVote k => (s.votes[k]?).all fun c => c.born = (s.peers c.caller).currTerm
  | .handleVote k => (s.votes[k]?).all fun c =>
      c.stage.args?.all fun a => a.term ≠ (s.peers c.server).currTerm
  | .replyVote k => (s.votes[k]?).all fun c =>
      c.stage.args?.all fun a => a.term = (s.peers c.caller).currTerm
  | .sendBeat k => (s.beats[k]?).all fun c => c.born = (s.peers c.caller).currTerm
  | _ => true

/-- Peer `p` of three is elected in term 1 by one other peer, on time. -/
def electRun (p : Fin 3) : List (Event 3) :=
  [.electionExpires p, .receiveElection p, .election p, .sendVote 1, .handleVote 1, .replyVote 1]

end Raft
