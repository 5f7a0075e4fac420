import DistributedLabs.KVSrv.Versions
import DistributedLabs.Linearizability.Points
import DistributedLabs.Runs.History
import Mathlib.Tactic.Simps.Basic

/-! Clerks that call one server through a network. Each attempt of a clerk's retry loop is
one RPC: its handler runs once or never, at any moment after the call, and the clerk may be
told that the call failed whether or not the handler runs. -/
namespace KVSrv

/-- What `Clerk.Get` returns from the reply of the call that succeeded. -/
def clerkGet (reply : GetReply) : GetReply :=
  if reply.err = .errNoKey then { value := "", version := 0, err := .errNoKey } else reply

/-- What `Clerk.Put` returns from the reply of the call that succeeded. -/
def clerkPut (firstAttempt : Bool) (reply : PutReply) : PutReply :=
  if reply.err = .ok then ⟨.ok⟩
  else if reply.err = .errVersion then
    if firstAttempt then ⟨.errVersion⟩ else ⟨.errMaybe⟩
  else reply

def clerkResult (firstAttempt : Bool) : Reply → Reply
  | .get reply => .get (clerkGet reply)
  | .put reply => .put (clerkPut firstAttempt reply)

theorem clerkResult_eq_ok {b : Bool} {reply : Reply} (h : clerkResult b reply = .put ⟨.ok⟩) :
    reply = .put ⟨.ok⟩ := by
  cases reply with
  | get reply => simp [clerkResult] at h
  | put reply =>
    obtain ⟨err⟩ := reply
    cases err <;> cases b <;> simp_all [clerkResult, clerkPut]

theorem clerkResult_eq_errNoKey {b : Bool} {reply : Reply}
    (h : clerkResult b reply = .put ⟨.errNoKey⟩) : reply = .put ⟨.errNoKey⟩ := by
  cases reply with
  | get reply => simp [clerkResult] at h
  | put reply =>
    obtain ⟨err⟩ := reply
    cases err <;> cases b <;> simp_all [clerkResult, clerkPut]

/-- One RPC of a clerk. -/
structure Attempt (ι : Type*) where
  clerk : ι
  op : ℕ
  req : Request
  deriving DecidableEq, Repr

/-- A clerk outside `Get` and `Put`, at the head of a retry loop, or inside `Call`. -/
inductive Clerk where
  | idle
  | ready (op : ℕ) (req : Request) (firstAttempt : Bool)
  | waiting (op : ℕ) (req : Request) (firstAttempt : Bool) (attempt : ℕ)
  deriving DecidableEq, Repr

/-- The operation a clerk is executing and its `firstAttempt`. -/
def Clerk.current : Clerk → Option (ℕ × Request × Bool)
  | .idle => none
  | .ready i req b => some (i, req, b)
  | .waiting i req b _ => some (i, req, b)

@[simp] theorem Clerk.current_idle : Clerk.idle.current = none := rfl

@[simp] theorem Clerk.current_ready (i : ℕ) (req : Request) (b : Bool) :
    (Clerk.ready i req b).current = some (i, req, b) := rfl

@[simp] theorem Clerk.current_waiting (i : ℕ) (req : Request) (b : Bool) (k : ℕ) :
    (Clerk.waiting i req b k).current = some (i, req, b) := rfl

abbrev Operation := Linearizability.Operation ℕ Request Reply

/-- The server with its clerks, the RPCs issued so far and the handler runs so far. The
operations called so far and the step counter `now` record the history. -/
structure Service (ι : Type*) where
  server : KVServer
  clerks : ι → Clerk
  attempts : List (Attempt ι)
  log : List Exec
  ops : List Operation
  now : ℕ

inductive Event (ι : Type*) where
  /-- A clerk's `Get` or `Put` is called. -/
  | invoke (c : ι) (req : Request)
  /-- The retry loop issues the next call. -/
  | send (c : ι)
  /-- The handler of an attempt runs. -/
  | exec (k : ℕ)
  /-- `Call` returns true, and with it the clerk's operation returns. -/
  | deliver (c : ι)
  /-- `Call` returns false. -/
  | fail (c : ι)
  deriving DecidableEq, Repr

variable {ι : Type*} [DecidableEq ι]

def Service.init (ι : Type*) : Service ι where
  server := makeKVServer
  clerks := fun _ => .idle
  attempts := []
  log := []
  ops := []
  now := 0

namespace Service

/-- The reply that the handler run of attempt `k` has made. -/
def reply? (s : Service ι) (k : ℕ) : Option Reply :=
  (s.log.find? fun r => r.attempt = k).map Exec.reply

@[simps]
def invoke (s : Service ι) (c : ι) (req : Request) : Service ι :=
  { s with
    clerks := Function.update s.clerks c (.ready s.ops.length req true)
    ops := s.ops ++ [⟨req, s.now, none⟩]
    now := s.now + 1 }

@[simps]
def send (s : Service ι) (c : ι) (i : ℕ) (req : Request) (b : Bool) : Service ι :=
  { s with
    clerks := Function.update s.clerks c (.waiting i req b s.attempts.length)
    attempts := s.attempts ++ [⟨c, i, req⟩]
    now := s.now + 1 }

@[simps]
def exec (s : Service ι) (k : ℕ) (a : Attempt ι) : Service ι :=
  { s with
    server := (s.server.handle a.req).1
    log := s.log ++ [⟨k, a.op, s.now, a.req, (s.server.handle a.req).2⟩]
    now := s.now + 1 }

@[simps]
def deliver (s : Service ι) (c : ι) (i : ℕ) (out : Reply) : Service ι :=
  { s with
    clerks := Function.update s.clerks c .idle
    ops := s.ops.modify i fun o => { o with ret := some (s.now, out) }
    now := s.now + 1 }

@[simps]
def fail (s : Service ι) (c : ι) (i : ℕ) (req : Request) : Service ι :=
  { s with
    clerks := Function.update s.clerks c (.ready i req false)
    now := s.now + 1 }

def step (s : Service ι) : Event ι → Option (Service ι)
  | .invoke c req =>
      match s.clerks c with
      | .idle => some (s.invoke c req)
      | _ => none
  | .send c =>
      match s.clerks c with
      | .ready i req b => some (s.send c i req b)
      | _ => none
  | .exec k =>
      match s.attempts[k]?, s.reply? k with
      | some a, none => some (s.exec k a)
      | _, _ => none
  | .deliver c =>
      match s.clerks c with
      | .waiting i _ b k => (s.reply? k).map fun reply => s.deliver c i (clerkResult b reply)
      | _ => none
  | .fail c =>
      match s.clerks c with
      | .waiting i req _ _ => some (s.fail c i req)
      | _ => none

end Service

def system (ι : Type*) [DecidableEq ι] : Runs.System (Service ι) (Event ι) where
  init := Service.init ι
  step := Service.step

variable {s t : Service ι} {e : Event ι}

/-- The steps with what they require of the state. -/
inductive Service.Step (s : Service ι) : Event ι → Service ι → Prop
  | invoke (c : ι) (req : Request) (hc : s.clerks c = .idle) :
      Step s (.invoke c req) (s.invoke c req)
  | send (c : ι) (i : ℕ) (req : Request) (b : Bool) (hc : s.clerks c = .ready i req b) :
      Step s (.send c) (s.send c i req b)
  | exec (k : ℕ) (a : Attempt ι) (hk : s.attempts[k]? = some a) (hr : s.reply? k = none) :
      Step s (.exec k) (s.exec k a)
  | deliver (c : ι) (i : ℕ) (req : Request) (b : Bool) (k : ℕ) (reply : Reply)
      (hc : s.clerks c = .waiting i req b k) (hr : s.reply? k = some reply) :
      Step s (.deliver c) (s.deliver c i (clerkResult b reply))
  | fail (c : ι) (i : ℕ) (req : Request) (b : Bool) (k : ℕ)
      (hc : s.clerks c = .waiting i req b k) :
      Step s (.fail c) (s.fail c i req)

theorem Service.step_iff : s.step e = some t ↔ Service.Step s e t := by
  constructor
  · intro h
    cases e with
    | invoke c req =>
      simp only [Service.step] at h
      split at h <;> simp only [Option.some.injEq, reduceCtorEq] at h
      next hc => exact h ▸ .invoke c req hc
    | send c =>
      simp only [Service.step] at h
      split at h <;> simp only [Option.some.injEq, reduceCtorEq] at h
      next i req b hc => exact h ▸ .send c i req b hc
    | exec k =>
      simp only [Service.step] at h
      split at h <;> simp only [Option.some.injEq, reduceCtorEq] at h
      next a hk hr => exact h ▸ .exec k a hk hr
    | deliver c =>
      simp only [Service.step] at h
      split at h
      next i req b k hc =>
        obtain ⟨reply, hr, rfl⟩ := Option.map_eq_some_iff.mp h
        exact .deliver c i req b k reply hc hr
      next => simp at h
    | fail c =>
      simp only [Service.step] at h
      split at h <;> simp only [Option.some.injEq, reduceCtorEq] at h
      next i req b k hc => exact h ▸ .fail c i req b k hc
  · intro h
    cases h with
    | invoke c req hc => simp [Service.step, hc]
    | send c i req b hc => simp [Service.step, hc]
    | exec k a hk hr => simp [Service.step, hk, hr]
    | deliver c i req b k reply hc hr => simp [Service.step, hc, hr]
    | fail c i req b k hc => simp [Service.step, hc]

end KVSrv
