import Mathlib.Tactic

/-! One Raft peer: the fields `raft.go` reads in elections, its two RPC handlers, the
reply handlers, and the bodies of `startElection` and `becomeLeader`. The handlers run
under `rf.mu`, so each of them is a function of the peer alone. -/
namespace Raft

inductive Role where
  | follower | candidate | leader
  deriving DecidableEq, Repr

/-- A `time.Timer` with its channel: `fired` means that the signal is still in the
channel, `idle` that it was received and the timer has not been reset since. -/
inductive Timer where
  | armed | fired | idle
  deriving DecidableEq, Repr

/-- Where the `ticker` goroutine stands: in its `select`, holding a signal it has
received while it waits for `rf.mu`, or past its loop. -/
inductive Ticker where
  | select | tookElection | tookHeartbeat | exited
  deriving DecidableEq, Repr

/-- The fields elections are decided by. `voteFor = none` is the source's `-1`. -/
structure Ballot (n : ℕ) where
  currTerm : ℕ
  voteFor : Option (Fin n)
  state : Role
  voteCount : ℕ
  deriving DecidableEq, Repr

/-- The Raft object with its timers and its `ticker` goroutine. -/
structure Peer (n : ℕ) extends Ballot n where
  electionTimer : Timer
  heartbeatTimer : Timer
  ticker : Ticker
  dead : Bool
  deriving DecidableEq, Repr

structure RequestVoteArgs (n : ℕ) where
  term : ℕ
  candidateId : Fin n
  deriving DecidableEq, Repr

structure RequestVoteReply where
  term : ℕ
  voteGranted : Bool
  deriving DecidableEq, Repr

structure AppendEntriesArgs (n : ℕ) where
  term : ℕ
  leaderId : Fin n
  deriving DecidableEq, Repr

structure AppendEntriesReply where
  term : ℕ
  success : Bool
  deriving DecidableEq, Repr

variable {n : ℕ}

/-- Stop the timer, drain a signal left in its channel, and arm it again. -/
def resetTimer (_ : Timer) : Timer := .armed

namespace Peer

/-- The object `Make` builds. -/
def make : Peer n where
  currTerm := 0
  voteFor := none
  state := .follower
  voteCount := 0
  electionTimer := .armed
  heartbeatTimer := .armed
  ticker := .select
  dead := false

def getState (rf : Peer n) : ℕ × Bool := (rf.currTerm, decide (rf.state = .leader))

/-- The handler of `Raft.RequestVote`. The last branch is the reply's zero value: the
source leaves `reply` alone when the term is neither smaller nor equal. -/
def requestVote (rf : Peer n) (args : RequestVoteArgs n) : Peer n × RequestVoteReply :=
  if args.term < rf.currTerm then (rf, ⟨rf.currTerm, false⟩)
  else
    let rf := if rf.currTerm < args.term then
        { rf with currTerm := args.term, state := .follower, voteFor := none, voteCount := 0 }
      else rf
    if args.term = rf.currTerm then
      if rf.voteFor = none ∨ rf.voteFor = some args.candidateId then
        ({ rf with
            voteFor := some args.candidateId
            electionTimer := resetTimer rf.electionTimer }, ⟨rf.currTerm, true⟩)
      else (rf, ⟨rf.currTerm, false⟩)
    else (rf, ⟨0, false⟩)

/-- The handler of `Raft.AppendEntries`. -/
def appendEntries (rf : Peer n) (args : AppendEntriesArgs n) : Peer n × AppendEntriesReply :=
  if args.term < rf.currTerm then (rf, ⟨rf.currTerm, false⟩)
  else
    ({ rf with
        currTerm := args.term
        state := .follower
        voteCount := 0
        electionTimer := resetTimer rf.electionTimer }, ⟨args.term, true⟩)

/-- What both reply handlers do when a refusal carries a newer term. -/
def stepDown (rf : Peer n) (term : ℕ) : Peer n :=
  { rf with
    currTerm := term
    state := .follower
    voteCount := 0
    voteFor := none
    electionTimer := resetTimer rf.electionTimer }

/-- The fields `becomeLeader` writes; its goroutine is started by the cluster step. -/
def becomeLeader (rf : Peer n) : Peer n :=
  { rf with
    state := .leader
    voteCount := 0
    voteFor := none
    heartbeatTimer := resetTimer rf.heartbeatTimer }

/-- The part of `sendRequestVote` after `Call` has returned true. The second component
says whether `becomeLeader` ran, that is, whether it started `rf.broadcastHeartbeat()`. -/
def sendRequestVoteReply (rf : Peer n) (reply : RequestVoteReply) : Peer n × Bool :=
  if reply.voteGranted then
    let rf := { rf with voteCount := rf.voteCount + 1 }
    if rf.state = .follower then (rf, false)
    else if rf.state = .candidate ∧ n / 2 < rf.voteCount then (rf.becomeLeader, true)
    else (rf, false)
  else if rf.currTerm < reply.term then (rf.stepDown reply.term, false)
  else (rf, false)

/-- The part of `sendAppendEntries` after `Call` has returned true. -/
def sendAppendEntriesReply (rf : Peer n) (reply : AppendEntriesReply) : Peer n :=
  if reply.success then rf
  else if rf.currTerm < reply.term then rf.stepDown reply.term
  else rf

/-- The fields `startElection` writes for the peer `me`. -/
def startElection (rf : Peer n) (me : Fin n) : Peer n :=
  { rf with
    currTerm := rf.currTerm + 1
    voteFor := some me
    voteCount := 1
    state := .candidate
    electionTimer := resetTimer rf.electionTimer }

/-- The head of the `ticker` loop: it is left once the peer has been killed. -/
def tickerLoop (rf : Peer n) : Peer n :=
  { rf with ticker := if rf.dead then .exited else .select }

@[simp] theorem tickerLoop_toBallot (rf : Peer n) : rf.tickerLoop.toBallot = rf.toBallot := rfl

theorem getState_eq_leader {rf : Peer n} {T : ℕ} :
    rf.getState = (T, true) ↔ rf.state = .leader ∧ rf.currTerm = T := by
  simp [getState, and_comm]

/-- A granted request leaves the peer in the request's term with its vote on the candidate. -/
theorem requestVote_granted {rf : Peer n} {a : RequestVoteArgs n}
    (h : (rf.requestVote a).2.voteGranted = true) :
    (rf.currTerm < a.term ∧ (rf.requestVote a).1.toBallot =
        ⟨a.term, some a.candidateId, .follower, 0⟩) ∨
    (rf.currTerm = a.term ∧ (rf.voteFor = none ∨ rf.voteFor = some a.candidateId) ∧
      (rf.requestVote a).1.toBallot =
        { rf.toBallot with voteFor := some a.candidateId }) := by
  unfold requestVote at h ⊢
  by_cases hlt : a.term < rf.currTerm
  · simp [hlt] at h
  by_cases hgt : rf.currTerm < a.term
  · left
    simp [hlt, hgt]
  · have heq : rf.currTerm = a.term := by omega
    right
    by_cases hv : rf.voteFor = none ∨ rf.voteFor = some a.candidateId
    · simp [heq, hv]
    · simp [heq, hv] at h

/-- A request of a newer term is always granted, so a refusal changes nothing. -/
theorem requestVote_refused {rf : Peer n} {a : RequestVoteArgs n}
    (h : (rf.requestVote a).2.voteGranted = false) :
    (rf.requestVote a).1 = rf ∧ (a.term < rf.currTerm ∨
      (a.term = rf.currTerm ∧ rf.voteFor ≠ none ∧ rf.voteFor ≠ some a.candidateId)) := by
  unfold requestVote at h ⊢
  by_cases hlt : a.term < rf.currTerm
  · simp [hlt]
  by_cases hgt : rf.currTerm < a.term
  · simp [hlt, hgt] at h
  · have heq : a.term = rf.currTerm := by omega
    by_cases hv : rf.voteFor = none ∨ rf.voteFor = some a.candidateId
    · simp [heq, hv] at h
    · rw [not_or] at hv
      simp [heq, hv.1, hv.2]

/-- The handlers bring the peer to the request's term and answer with the term it is in. -/
theorem requestVote_term (rf : Peer n) (a : RequestVoteArgs n) :
    (rf.requestVote a).1.currTerm = max rf.currTerm a.term ∧
    (rf.requestVote a).2.term = max rf.currTerm a.term := by
  unfold requestVote
  by_cases hlt : a.term < rf.currTerm
  · simp [hlt, hlt.le]
  by_cases hgt : rf.currTerm < a.term
  · simp [hlt, hgt, hgt.le]
  · have heq : rf.currTerm = a.term := by omega
    by_cases hv : rf.voteFor = none ∨ rf.voteFor = some a.candidateId
    · simp [heq, hv]
    · simp [heq, hv]

theorem appendEntries_term (rf : Peer n) (a : AppendEntriesArgs n) :
    (rf.appendEntries a).1.currTerm = max rf.currTerm a.term ∧
    (rf.appendEntries a).2.term = max rf.currTerm a.term := by
  unfold appendEntries
  split_ifs with hlt
  · simp [hlt.le]
  · simp [not_lt.mp hlt]

/-- The free vote is always given in the peer's own term. -/
theorem requestVote_grants {rf : Peer n} {a : RequestVoteArgs n} (ht : a.term = rf.currTerm)
    (hv : rf.voteFor = none) : (rf.requestVote a).2.voteGranted = true := by
  simp [requestVote, ht, hv]

theorem appendEntries_ballot (rf : Peer n) (a : AppendEntriesArgs n) :
    (rf.appendEntries a).1.toBallot =
      if a.term < rf.currTerm then rf.toBallot else ⟨a.term, rf.voteFor, .follower, 0⟩ := by
  unfold appendEntries
  split <;> rfl

@[simp] theorem stepDown_toBallot (rf : Peer n) (T : ℕ) :
    (rf.stepDown T).toBallot = ⟨T, none, .follower, 0⟩ := rfl

theorem sendAppendEntriesReply_ballot (rf : Peer n) (r : AppendEntriesReply) :
    (rf.sendAppendEntriesReply r).toBallot = rf.toBallot ∨
    (rf.currTerm < r.term ∧ (rf.sendAppendEntriesReply r).toBallot =
      ⟨r.term, none, .follower, 0⟩) := by
  unfold sendAppendEntriesReply
  split_ifs with hs ht
  · exact Or.inl rfl
  · exact Or.inr ⟨ht, rfl⟩
  · exact Or.inl rfl

/-- A processed grant either elects a candidate or adds one to its count. -/
theorem sendRequestVoteReply_granted (rf : Peer n) {r : RequestVoteReply}
    (h : r.voteGranted = true) :
    (rf.state = .candidate ∧ n / 2 < rf.voteCount + 1 ∧
      (rf.sendRequestVoteReply r).1.toBallot = ⟨rf.currTerm, none, .leader, 0⟩ ∧
      (rf.sendRequestVoteReply r).2 = true) ∨
    (¬ (rf.state = .candidate ∧ n / 2 < rf.voteCount + 1) ∧
      (rf.sendRequestVoteReply r).1.toBallot =
        { rf.toBallot with voteCount := rf.voteCount + 1 } ∧
      (rf.sendRequestVoteReply r).2 = false) := by
  unfold sendRequestVoteReply
  by_cases hw : rf.state = .candidate ∧ n / 2 < rf.voteCount + 1
  · left
    simp [h, hw, becomeLeader]
  · right
    refine ⟨hw, ?_⟩
    by_cases hf : rf.state = .follower
    · simp [h, hf]
    · simp only [h, hf, hw, ↓reduceIte, and_self]

theorem sendRequestVoteReply_refused (rf : Peer n) {r : RequestVoteReply}
    (h : r.voteGranted = false) :
    (rf.sendRequestVoteReply r).2 = false ∧
    ((rf.sendRequestVoteReply r).1.toBallot = rf.toBallot ∨
    (rf.currTerm < r.term ∧ (rf.sendRequestVoteReply r).1.toBallot =
      ⟨r.term, none, .follower, 0⟩)) := by
  unfold sendRequestVoteReply
  by_cases ht : rf.currTerm < r.term
  · simp [h, ht]
  · simp [h, ht]

theorem sendRequestVoteReply_term (rf : Peer n) (r : RequestVoteReply) :
    (rf.sendRequestVoteReply r).1.currTerm =
      if r.voteGranted then rf.currTerm else max rf.currTerm r.term := by
  cases hg : r.voteGranted with
  | true =>
    rcases sendRequestVoteReply_granted rf hg with ⟨-, -, hb, -⟩ | ⟨-, hb, -⟩
    · rw [hb, if_pos rfl]
    · rw [hb, if_pos rfl]
  | false =>
    unfold sendRequestVoteReply
    by_cases ht : rf.currTerm < r.term
    · simp [hg, ht, ht.le]
    · simp [hg, ht, not_lt.mp ht]

theorem sendAppendEntriesReply_term (rf : Peer n) (r : AppendEntriesReply) :
    (rf.sendAppendEntriesReply r).currTerm =
      if r.success then rf.currTerm else max rf.currTerm r.term := by
  unfold sendAppendEntriesReply
  by_cases hs : r.success = true
  · simp [hs]
  · by_cases ht : rf.currTerm < r.term
    · simp [hs, ht, ht.le]
    · simp [hs, ht, not_lt.mp ht]

end Peer
end Raft
