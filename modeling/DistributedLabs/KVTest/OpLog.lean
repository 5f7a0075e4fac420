import DistributedLabs.KVSrv.Programs
import DistributedLabs.Models.Kv

/-! The log of operations that the tests keep, `porcupine.go`: clients that read the clock, call
their clerk, read the clock again and append an entry, in any interleaving with the service. -/
namespace KVTest
open KVSrv Models Runs

/-- Where a client is in `Get` or `Put`. The number is that of its operation in the history of the
service. -/
inductive Phase where
  | idle
  /-- The clock is read, the clerk not yet called. -/
  | started (start : ℤ) (req : Request)
  | calling (start : ℤ) (req : Request) (i : ℕ)
  | returned (start : ℤ) (req : Request) (out : Reply) (i : ℕ)
  /-- The clock is read again, the entry not yet appended. -/
  | stopped (start stop : ℤ) (req : Request) (out : Reply) (i : ℕ)
  deriving DecidableEq, Repr

def Phase.op : Phase → Option ℕ
  | .idle => none
  | .started _ _ => none
  | .calling _ _ i => some i
  | .returned _ _ _ i => some i
  | .stopped _ _ _ _ i => some i

/-- The service with the clients of a test. The entries of the log come with the numbers of their
operations, and `times` has the clock at each step of the service. -/
structure Tested (ι : Type*) where
  kv : Service ι
  phase : ι → Phase
  clock : ℤ
  times : List ℤ
  entries : List (ℕ × Models.Operation)

/-- What `OpLog.Read` returns. -/
def Tested.oplog {ι : Type*} (s : Tested ι) : List Models.Operation := s.entries.map Prod.snd

inductive TestEvent (ι : Type*) where
  /-- The wall clock, which `time.Since(t0)` reads, is now at `now`; it can be set back. -/
  | clock (now : ℤ)
  | start (c : ι) (req : Request)
  | call (c : ι)
  /-- A step of the clerks' loops or of the network. -/
  | net (e : KVSrv.Event ι)
  /-- The clerk's call returns. -/
  | deliver (c : ι)
  | stop (c : ι)
  | append (c : ι)
  deriving DecidableEq, Repr

/-- The entry that is appended for a call of the client `cli`. -/
def logEntry (cli : ℤ) (req : Request) (out : Reply) (start stop : ℤ) : Models.Operation where
  clientId := cli
  input := logInput req
  call := start
  output := logOutput out
  ret := stop

variable {ι : Type*} [DecidableEq ι]

namespace Tested

def init (ι : Type*) : Tested ι where
  kv := Service.init ι
  phase := fun _ => .idle
  clock := 0
  times := []
  entries := []

def setPhase (s : Tested ι) (c : ι) (p : Phase) : Tested ι :=
  { s with phase := Function.update s.phase c p }

def serve (s : Tested ι) (kv : Service ι) : Tested ι :=
  { s with kv := kv, times := s.times ++ [s.clock] }

def step (cli : ι → ℤ) (s : Tested ι) : TestEvent ι → Option (Tested ι)
  | .clock now => some { s with clock := now }
  | .start c req =>
      match s.phase c with
      | .idle => some (s.setPhase c (.started s.clock req))
      | _ => none
  | .call c =>
      match s.phase c with
      | .started start req =>
          (s.kv.step (.invoke c req)).map fun kv =>
            (s.serve kv).setPhase c (.calling start req s.kv.ops.length)
      | _ => none
  | .net (.invoke _ _) => none
  | .net (.deliver _) => none
  | .net e => (s.kv.step e).map s.serve
  | .deliver c =>
      match s.phase c, s.kv.result? c with
      | .calling start req i, some out =>
          (s.kv.step (.deliver c)).map fun kv =>
            (s.serve kv).setPhase c (.returned start req out i)
      | _, _ => none
  | .stop c =>
      match s.phase c with
      | .returned start req out i => some (s.setPhase c (.stopped start s.clock req out i))
      | _ => none
  | .append c =>
      match s.phase c with
      | .stopped start stop req out i =>
          some { s.setPhase c .idle with
            entries := s.entries ++ [(i, logEntry (cli c) req out start stop)] }
      | _ => none

end Tested

def tested (ι : Type*) [DecidableEq ι] (cli : ι → ℤ) : System (Tested ι) (TestEvent ι) where
  init := .init ι
  step := Tested.step cli

variable {cli : ι → ℤ} {s t : Tested ι} {e : TestEvent ι} {es : List (TestEvent ι)}

/-- The steps with what they require of the state. -/
inductive Tested.Step (cli : ι → ℤ) (s : Tested ι) : TestEvent ι → Tested ι → Prop
  | clock (now : ℤ) : Step cli s (.clock now) { s with clock := now }
  | start (c : ι) (req : Request) (hc : s.phase c = .idle) :
      Step cli s (.start c req) (s.setPhase c (.started s.clock req))
  | call (c : ι) (start : ℤ) (req : Request) (kv : Service ι)
      (hc : s.phase c = .started start req) (hkv : Service.Step s.kv (.invoke c req) kv) :
      Step cli s (.call c) ((s.serve kv).setPhase c (.calling start req s.kv.ops.length))
  | net (e : KVSrv.Event ι) (kv : Service ι) (hinvoke : ∀ c req, e ≠ .invoke c req)
      (hdeliver : ∀ c, e ≠ .deliver c) (hkv : Service.Step s.kv e kv) :
      Step cli s (.net e) (s.serve kv)
  | deliver (c : ι) (start : ℤ) (req : Request) (i : ℕ) (out : Reply) (kv : Service ι)
      (hc : s.phase c = .calling start req i) (hout : s.kv.result? c = some out)
      (hkv : Service.Step s.kv (.deliver c) kv) :
      Step cli s (.deliver c) ((s.serve kv).setPhase c (.returned start req out i))
  | stop (c : ι) (start : ℤ) (req : Request) (out : Reply) (i : ℕ)
      (hc : s.phase c = .returned start req out i) :
      Step cli s (.stop c) (s.setPhase c (.stopped start s.clock req out i))
  | append (c : ι) (start stop : ℤ) (req : Request) (out : Reply) (i : ℕ)
      (hc : s.phase c = .stopped start stop req out i) :
      Step cli s (.append c) { s.setPhase c .idle with
        entries := s.entries ++ [(i, logEntry (cli c) req out start stop)] }

theorem Tested.Step.of_step (h : s.step cli e = some t) : Tested.Step cli s e t := by
  cases e with
  | clock now =>
    cases h
    exact .clock now
  | start c req =>
    simp only [Tested.step] at h
    split at h
    next hc =>
      cases h
      exact .start c req hc
    next => cases h
  | call c =>
    simp only [Tested.step] at h
    split at h
    next start req hc =>
      obtain ⟨kv, hkv, rfl⟩ := Option.map_eq_some_iff.mp h
      exact .call c start req kv hc (Service.step_iff.mp hkv)
    next => cases h
  | net e =>
    cases e with
    | invoke c req => cases h
    | deliver c => cases h
    | send c | exec k | fail c =>
      obtain ⟨kv, hkv, rfl⟩ := Option.map_eq_some_iff.mp h
      exact .net _ kv (by simp) (by simp) (Service.step_iff.mp hkv)
  | deliver c =>
    simp only [Tested.step] at h
    split at h
    next start req i out hc hout =>
      obtain ⟨kv, hkv, rfl⟩ := Option.map_eq_some_iff.mp h
      exact .deliver c start req i out kv hc hout (Service.step_iff.mp hkv)
    next => cases h
  | stop c =>
    simp only [Tested.step] at h
    split at h
    next start req out i hc =>
      cases h
      exact .stop c start req out i hc
    next => cases h
  | append c =>
    simp only [Tested.step] at h
    split at h
    next start stop req out i hc =>
      cases h
      exact .append c start stop req out i hc
    next => cases h

@[simp] theorem Tested.setPhase_kv (s : Tested ι) (c : ι) (p : Phase) :
    (s.setPhase c p).kv = s.kv := rfl

@[simp] theorem Tested.setPhase_clock (s : Tested ι) (c : ι) (p : Phase) :
    (s.setPhase c p).clock = s.clock := rfl

@[simp] theorem Tested.setPhase_times (s : Tested ι) (c : ι) (p : Phase) :
    (s.setPhase c p).times = s.times := rfl

end KVTest
