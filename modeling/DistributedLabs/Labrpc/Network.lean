import DistributedLabs.Runs.History
import Mathlib.Logic.Function.Basic

/-! The simulated network of `labrpc`. A `Call` hands its request to the network, which
serves it in goroutines of its own: `processReq`, the handler, the goroutine that drains an
abandoned handler, and the timer of a delayed reply. -/
namespace Labrpc
open Runs
variable {ε ν α ρ : Type*}

/-- A reply is encoded bytes, `none` for `nil`. -/
structure ReplyMsg (ρ : Type*) where
  ok : Bool
  reply : Option ρ
  deriving DecidableEq, Repr

/-- The message that stands for a timeout or a dead server. -/
def ReplyMsg.failure : ReplyMsg ρ := ⟨false, none⟩

/-- A request is named by its position among the calls, which stands for its channel. -/
structure ReqMsg (ε α : Type*) where
  endname : ε
  svcMeth : String
  args : α
  deriving DecidableEq, Repr

/-- The services of a server, each with the names of its methods. -/
structure Server where
  services : String → Option (List String)

/-- Split at the last dot; without a dot the slice expressions panic. -/
def splitMethod (svcMeth : String) : Option (String × String) :=
  let cs := svcMeth.toList.reverse
  match cs.dropWhile (· ≠ '.') with
  | [] => none
  | _ :: svc => some (String.ofList svc.reverse, String.ofList (cs.takeWhile (· ≠ '.')).reverse)

/-- Whether both `dispatch` functions find what the request names. -/
def Server.finds (rs : Server) (svcMeth : String) : Bool :=
  match splitMethod svcMeth with
  | none => false
  | some (serviceName, methodName) =>
      (rs.services serviceName).any fun methods => methods.contains methodName

/-- The fields of `Network`. A pointer to a server is a position in `objects`. `serving` says
that the goroutine that takes requests runs, `fatal` that the process has stopped. -/
structure Net (ε ν : Type*) where
  reliable : Bool
  longReordering : Bool
  ends : ε → Bool
  enabled : ε → Bool
  connections : ε → Option ν
  servers : ν → Option ℕ
  objects : List Server
  serving : Bool
  done : Bool
  fatal : Bool

def makeNetwork : Net ε ν where
  reliable := true
  longReordering := false
  ends := fun _ => false
  enabled := fun _ => false
  connections := fun _ => none
  servers := fun _ => none
  objects := []
  serving := true
  done := false
  fatal := false

/-- What `processReq` remembers of a request that it can serve. -/
structure Info (ν : Type*) where
  servername : ν
  server : ℕ
  reliable : Bool
  longreordering : Bool
  deriving DecidableEq, Repr

/-- `readEndnameInfo` and the test on its results. -/
def Net.readEndnameInfo (n : Net ε ν) (endname : ε) : Option (Info ν) :=
  match n.enabled endname, n.connections endname with
  | true, some servername =>
      (n.servers servername).map fun server =>
        ⟨servername, server, n.reliable, n.longReordering⟩
  | _, _ => none

def Net.isServerDead [DecidableEq ν] (n : Net ε ν) (endname : ε) (i : Info ν) : Bool :=
  n.enabled endname = false ∨ n.servers i.servername ≠ some i.server

/-- The caller in `Call`: at the `select` that sends the request, at the receive, and after
the return; `gaveUp` is the return from a network that has been cleaned up. -/
inductive Caller (ρ : Type*) where
  | sending
  | waiting
  | returned (m : ReplyMsg ρ)
  | gaveUp
  deriving DecidableEq, Repr

/-- The goroutine of `processReq`. -/
inductive Proc (ν ρ : Type*) where
  | absent
  | started
  /-- The branch of a request that cannot be served. -/
  | unreachable
  | accepted (i : Info ν)
  /-- The loop that waits for the handler. -/
  | polling (i : Info ν)
  /-- Behind the loop, with the reply if there is one. -/
  | checking (i : Info ν) (reply : Option (ReplyMsg ρ))
  /-- At a send on the channel of the request. -/
  | sending (m : ReplyMsg ρ)
  | returned
  deriving DecidableEq, Repr

/-- The goroutine that runs the handler on a server: before `dispatch`, inside the handler,
at the send of the result, and after it. -/
inductive Handler (ρ : Type*) where
  | absent
  | spawned (server : ℕ)
  | running (server : ℕ)
  | finished (server : ℕ) (m : ReplyMsg ρ)
  | ended
  /-- `dispatch` has found no such service or method and stopped the process. -/
  | crashed
  deriving DecidableEq, Repr

/-- The function that `time.AfterFunc` runs. -/
inductive Timer (ρ : Type*) where
  | absent
  | pending (m : ReplyMsg ρ)
  | sending (m : ReplyMsg ρ)
  | ended
  deriving DecidableEq, Repr

/-- One `Call` with the goroutines that serve it. `sent` is a history variable: the messages
that have come to a send on the channel of the request. No step reads it. -/
structure Call (ε ν α ρ : Type*) where
  req : ReqMsg ε α
  caller : Caller ρ
  proc : Proc ν ρ
  handler : Handler ρ
  drain : Bool
  timer : Timer ρ
  sent : List (ReplyMsg ρ)
  deriving DecidableEq, Repr

/-- A step of one of the goroutines of a call. -/
inductive Act (ρ : Type*) where
  | giveUp
  | take
  | read
  | arm
  | drop
  | spawn
  | start
  | finish (reply : ρ)
  | receive
  | poll
  | drain
  /-- The last part of `processReq`; the arguments are the outcomes of the two random tests. -/
  | decide (drop late : Bool)
  | fire
  | reply
  | replyLate
  deriving DecidableEq, Repr

namespace Call

def make (req : ReqMsg ε α) : Call ε ν α ρ := ⟨req, .sending, .absent, .absent, false, .absent, []⟩

/-- `processReq` comes to a send of the message. -/
def offer (c : Call ε ν α ρ) (m : ReplyMsg ρ) : Call ε ν α ρ :=
  { c with proc := .sending m, sent := c.sent ++ [m] }

/-- The branches behind the loop. -/
def conclude [DecidableEq ν] (n : Net ε ν) (c : Call ε ν α ρ) (i : Info ν)
    (reply : Option (ReplyMsg ρ)) (drop late : Bool) : Call ε ν α ρ :=
  match reply with
  | none => c.offer .failure
  | some m =>
      if n.isServerDead c.req.endname i then c.offer .failure
      else if i.reliable = false && drop then c.offer .failure
      else if i.longreordering && late then { c with proc := .returned, timer := .pending m }
      else c.offer m

def act [DecidableEq ν] (n : Net ε ν) (c : Call ε ν α ρ) : Act ρ → Option (Call ε ν α ρ)
  | .giveUp =>
      match c.caller with
      | .sending => if n.done then some { c with caller := .gaveUp } else none
      | _ => none
  | .take =>
      match c.caller with
      | .sending => if n.serving then some { c with caller := .waiting, proc := .started } else none
      | _ => none
  | .read =>
      match c.proc with
      | .started =>
          match n.readEndnameInfo c.req.endname with
          | some i => some { c with proc := .accepted i }
          | none => some { c with proc := .unreachable }
      | _ => none
  | .arm =>
      match c.proc with
      | .unreachable => some { c with proc := .returned, timer := .pending .failure }
      | _ => none
  | .drop =>
      match c.proc with
      | .accepted i => if i.reliable = false then some (c.offer .failure) else none
      | _ => none
  | .spawn =>
      match c.proc with
      | .accepted i => some { c with proc := .polling i, handler := .spawned i.server }
      | _ => none
  | .start =>
      match c.handler with
      | .spawned o =>
          if (n.objects[o]?).any fun rs => rs.finds c.req.svcMeth then
            some { c with handler := .running o }
          else some { c with handler := .crashed }
      | _ => none
  | .finish reply =>
      match c.handler with
      | .running o => some { c with handler := .finished o ⟨true, some reply⟩ }
      | _ => none
  | .receive =>
      match c.proc, c.handler with
      | .polling i, .finished _ m => some { c with proc := .checking i (some m), handler := .ended }
      | _, _ => none
  | .poll =>
      match c.proc with
      | .polling i =>
          if n.isServerDead c.req.endname i then
            some { c with proc := .checking i none, drain := true }
          else some c
      | _ => none
  | .drain =>
      match c.drain, c.handler with
      | true, .finished _ _ => some { c with drain := false, handler := .ended }
      | _, _ => none
  | .decide drop late =>
      match c.proc with
      | .checking i reply => some (c.conclude n i reply drop late)
      | _ => none
  | .fire =>
      match c.timer with
      | .pending m => some { c with timer := .sending m, sent := c.sent ++ [m] }
      | _ => none
  | .reply =>
      match c.proc, c.caller with
      | .sending m, .waiting => some { c with proc := .returned, caller := .returned m }
      | _, _ => none
  | .replyLate =>
      match c.timer, c.caller with
      | .sending m, .waiting => some { c with timer := .ended, caller := .returned m }
      | _, _ => none

end Call

/-- The functions of `Network` that its users call. -/
inductive NetEvent (ε ν : Type*) where
  | makeEnd (endname : ε)
  | deleteEnd (endname : ε)
  | addServer (servername : ν) (rs : Server)
  | deleteServer (servername : ν)
  | connect (endname : ε) (servername : ν)
  | enable (endname : ε) (enabled : Bool)
  | reliable (yes : Bool)
  | longReordering (yes : Bool)
  | cleanup
  /-- The goroutine that takes requests returns after `Cleanup`. -/
  | quit

def Net.apply [DecidableEq ε] [DecidableEq ν] (n : Net ε ν) : NetEvent ε ν → Option (Net ε ν)
  | .makeEnd e =>
      if n.ends e then some { n with fatal := true }
      else some { n with
        ends := Function.update n.ends e true
        enabled := Function.update n.enabled e false
        connections := Function.update n.connections e none }
  | .deleteEnd e =>
      if n.ends e then some { n with
        ends := Function.update n.ends e false
        enabled := Function.update n.enabled e false
        connections := Function.update n.connections e none }
      else some { n with fatal := true }
  | .addServer name rs => some { n with
      servers := Function.update n.servers name (some n.objects.length)
      objects := n.objects ++ [rs] }
  | .deleteServer name => some { n with servers := Function.update n.servers name none }
  | .connect e name => some { n with connections := Function.update n.connections e (some name) }
  | .enable e b => some { n with enabled := Function.update n.enabled e b }
  | .reliable b => some { n with reliable := b }
  | .longReordering b => some { n with longReordering := b }
  | .cleanup => if n.done then some { n with fatal := true } else some { n with done := true }
  | .quit => if n.done && n.serving then some { n with serving := false } else none

structure Network (ε ν α ρ : Type*) where
  net : Net ε ν
  calls : List (Call ε ν α ρ)

inductive Label (ε ν α ρ : Type*) where
  | net (ev : NetEvent ε ν)
  | call (req : ReqMsg ε α)
  | act (i : ℕ) (a : Act ρ)

namespace Network

def exited (s : Network ε ν α ρ) : Bool :=
  s.net.fatal || s.calls.any fun c => match c.handler with
    | .crashed => true
    | _ => false

def step [DecidableEq ε] [DecidableEq ν] (s : Network ε ν α ρ) (l : Label ε ν α ρ) :
    Option (Network ε ν α ρ) :=
  if s.exited then none
  else match l with
    | .net ev => (s.net.apply ev).map fun n => { s with net := n }
    | .call req => some { s with calls := s.calls ++ [Call.make req] }
    | .act i a =>
        (s.calls[i]?).bind fun c => (c.act s.net a).map fun d => { s with calls := s.calls.set i d }

end Network

/-- A new network with any users. -/
def network (ε ν α ρ : Type*) [DecidableEq ε] [DecidableEq ν] :
    System (Network ε ν α ρ) (Label ε ν α ρ) where
  init := ⟨makeNetwork, []⟩
  step := Network.step

end Labrpc
