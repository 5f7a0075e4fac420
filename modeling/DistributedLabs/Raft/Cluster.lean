import DistributedLabs.Raft.Peer
import DistributedLabs.Runs.History
import Mathlib.Data.List.FinRange
import Mathlib.Data.List.Nodup
import Mathlib.Tactic

/-! The cluster: all peers, and every goroutine they have started. A goroutine that sends
an RPC builds its arguments when it runs, after `rf.mu` was released, so starting it,
sending the request, handling the request and processing the reply are four steps. A
request that is never handled and a reply that is never processed are lost. -/
namespace Raft
open Runs

/-- How far an RPC goroutine has come. -/
inductive Stage (α ρ : Type) where
  | started
  | sent (args : α)
  | answered (args : α) (reply : ρ)
  | returned (args : α) (reply : ρ)
  deriving DecidableEq, Repr

namespace Stage
variable {α ρ : Type}

/-- The request, once it has been sent. -/
def args? : Stage α ρ → Option α
  | .started => none
  | .sent a | .answered a _ | .returned a _ => some a

/-- The reply, once the handler has run. -/
def reply? : Stage α ρ → Option ρ
  | .started | .sent _ => none
  | .answered _ r | .returned _ r => some r

end Stage

/-- One RPC goroutine. `born` is a history variable: the term in which the caller became
candidate or leader and started it. No step reads it. -/
structure Call (n : ℕ) (α ρ : Type) where
  caller : Fin n
  server : Fin n
  born : ℕ
  stage : Stage α ρ
  deriving DecidableEq, Repr

abbrev VoteCall (n : ℕ) := Call n (RequestVoteArgs n) RequestVoteReply
abbrev BeatCall (n : ℕ) := Call n (AppendEntriesArgs n) AppendEntriesReply

/-- The goroutine `go rf.broadcastHeartbeat()` of `becomeLeader`. -/
structure Broadcast (n : ℕ) where
  leader : Fin n
  born : ℕ
  ran : Bool
  deriving DecidableEq, Repr

/-- Goroutines are never removed, so the lists also record all requests and replies. -/
structure Cluster (n : ℕ) where
  peers : Fin n → Peer n
  votes : List (VoteCall n)
  beats : List (BeatCall n)
  broadcasts : List (Broadcast n)

inductive Event (n : ℕ) where
  | electionExpires (p : Fin n)
  | heartbeatExpires (p : Fin n)
  | receiveElection (p : Fin n)
  | receiveHeartbeat (p : Fin n)
  | election (p : Fin n)
  | heartbeat (p : Fin n)
  | kill (p : Fin n)
  | broadcast (k : ℕ)
  | sendVote (k : ℕ)
  | handleVote (k : ℕ)
  | replyVote (k : ℕ)
  | sendBeat (k : ℕ)
  | handleBeat (k : ℕ)
  | replyBeat (k : ℕ)
  deriving DecidableEq, Repr

variable {n : ℕ}

/-- The peers `startElection` and `broadcastHeartbeat` start a goroutine for. -/
def others (p : Fin n) : List (Fin n) := (List.finRange n).filter (fun i => i ≠ p)

/-- One new goroutine for each other peer. -/
def spawn {α ρ : Type} (p : Fin n) (term : ℕ) : List (Call n α ρ) :=
  (others p).map fun i => ⟨p, i, term, .started⟩

namespace Cluster

def initial : Cluster n := ⟨fun _ => .make, [], [], []⟩

def setPeer (s : Cluster n) (p : Fin n) (rf : Peer n) : Cluster n :=
  { s with peers := Function.update s.peers p rf }

/-- The body of `ticker` after it took a signal of the election timer and got the lock. -/
def tickElection (s : Cluster n) (p : Fin n) : Cluster n :=
  let rf := s.peers p
  if rf.state = .leader then s.setPeer p rf.tickerLoop
  else
    let rf := rf.startElection p
    { s.setPeer p { rf with electionTimer := resetTimer rf.electionTimer }.tickerLoop with
      votes := s.votes ++ spawn p rf.currTerm }

/-- The body of `ticker` after it took a signal of the heartbeat timer and got the lock. -/
def tickHeartbeat (s : Cluster n) (p : Fin n) : Cluster n :=
  let rf := s.peers p
  if rf.state = .leader then
    { s.setPeer p { rf with heartbeatTimer := resetTimer rf.heartbeatTimer }.tickerLoop with
      beats := s.beats ++ spawn p rf.currTerm }
  else s.setPeer p rf.tickerLoop

/-- The goroutine reads `rf.currTerm` and issues its `Raft.RequestVote`. -/
def sendVote (s : Cluster n) (k : ℕ) (c : VoteCall n) : Cluster n :=
  let a : RequestVoteArgs n := ⟨(s.peers c.caller).currTerm, c.caller⟩
  { s with votes := s.votes.set k { c with stage := .sent a } }

def handleVote (s : Cluster n) (k : ℕ) (c : VoteCall n) (a : RequestVoteArgs n) : Cluster n :=
  let r := (s.peers c.server).requestVote a
  { s.setPeer c.server r.1 with votes := s.votes.set k { c with stage := .answered a r.2 } }

def replyVote (s : Cluster n) (k : ℕ) (c : VoteCall n) (a : RequestVoteArgs n)
    (r : RequestVoteReply) : Cluster n :=
  let u := (s.peers c.caller).sendRequestVoteReply r
  { s.setPeer c.caller u.1 with
    votes := s.votes.set k { c with stage := .returned a r }
    broadcasts := if u.2 then s.broadcasts ++ [⟨c.caller, u.1.currTerm, false⟩]
      else s.broadcasts }

/-- The goroutine reads `rf.currTerm` and issues its `Raft.AppendEntries`. -/
def sendBeat (s : Cluster n) (k : ℕ) (c : BeatCall n) : Cluster n :=
  let a : AppendEntriesArgs n := ⟨(s.peers c.caller).currTerm, c.caller⟩
  { s with beats := s.beats.set k { c with stage := .sent a } }

def handleBeat (s : Cluster n) (k : ℕ) (c : BeatCall n) (a : AppendEntriesArgs n) : Cluster n :=
  let r := (s.peers c.server).appendEntries a
  { s.setPeer c.server r.1 with beats := s.beats.set k { c with stage := .answered a r.2 } }

def replyBeat (s : Cluster n) (k : ℕ) (c : BeatCall n) (a : AppendEntriesArgs n)
    (r : AppendEntriesReply) : Cluster n :=
  { s.setPeer c.caller ((s.peers c.caller).sendAppendEntriesReply r) with
    beats := s.beats.set k { c with stage := .returned a r } }

/-- The goroutine of `becomeLeader` runs `broadcastHeartbeat`. -/
def runBroadcast (s : Cluster n) (k : ℕ) (b : Broadcast n) : Cluster n :=
  { s with
    broadcasts := s.broadcasts.set k { b with ran := true }
    beats := s.beats ++ spawn b.leader b.born }

def step (s : Cluster n) : Event n → Option (Cluster n)
  | .electionExpires p =>
    if (s.peers p).electionTimer = .armed then
      some (s.setPeer p { s.peers p with electionTimer := .fired })
    else none
  | .heartbeatExpires p =>
    if (s.peers p).heartbeatTimer = .armed then
      some (s.setPeer p { s.peers p with heartbeatTimer := .fired })
    else none
  | .receiveElection p =>
    if (s.peers p).ticker = .select ∧ (s.peers p).electionTimer = .fired then
      some (s.setPeer p { s.peers p with electionTimer := .idle, ticker := .tookElection })
    else none
  | .receiveHeartbeat p =>
    if (s.peers p).ticker = .select ∧ (s.peers p).heartbeatTimer = .fired then
      some (s.setPeer p { s.peers p with heartbeatTimer := .idle, ticker := .tookHeartbeat })
    else none
  | .election p => if (s.peers p).ticker = .tookElection then some (s.tickElection p) else none
  | .heartbeat p => if (s.peers p).ticker = .tookHeartbeat then some (s.tickHeartbeat p) else none
  | .kill p => some (s.setPeer p { s.peers p with dead := true })
  | .broadcast k =>
    match s.broadcasts[k]? with
    | some b => if b.ran then none else some (s.runBroadcast k b)
    | none => none
  | .sendVote k =>
    match s.votes[k]? with
    | some ⟨p, q, t, .started⟩ => some (s.sendVote k ⟨p, q, t, .started⟩)
    | _ => none
  | .handleVote k =>
    match s.votes[k]? with
    | some ⟨p, q, t, .sent a⟩ => some (s.handleVote k ⟨p, q, t, .sent a⟩ a)
    | _ => none
  | .replyVote k =>
    match s.votes[k]? with
    | some ⟨p, q, t, .answered a r⟩ => some (s.replyVote k ⟨p, q, t, .answered a r⟩ a r)
    | _ => none
  | .sendBeat k =>
    match s.beats[k]? with
    | some ⟨p, q, t, .started⟩ => some (s.sendBeat k ⟨p, q, t, .started⟩)
    | _ => none
  | .handleBeat k =>
    match s.beats[k]? with
    | some ⟨p, q, t, .sent a⟩ => some (s.handleBeat k ⟨p, q, t, .sent a⟩ a)
    | _ => none
  | .replyBeat k =>
    match s.beats[k]? with
    | some ⟨p, q, t, .answered a r⟩ => some (s.replyBeat k ⟨p, q, t, .answered a r⟩ a r)
    | _ => none

end Cluster

/-- The runs of `n` peers that never crash. -/
def system (n : ℕ) : System (Cluster n) (Event n) := ⟨.initial, Cluster.step⟩

end Raft
