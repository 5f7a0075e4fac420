import Mathlib.Logic.Function.Basic
import Mathlib.Data.UInt

/-! The key/value server: its two maps and the handlers `Get` and `Put`. -/
namespace KVSrv

/-- `rpc.Tversion`, an unsigned 64-bit counter that wraps around. -/
abbrev Tversion := UInt64

/-- The values of `rpc.Err` that the server and the clerk return. -/
inductive Err where
  | ok
  | errNoKey
  | errVersion
  | errMaybe
  deriving DecidableEq, Repr

structure GetArgs where
  key : String
  deriving DecidableEq, Repr

structure PutArgs where
  key : String
  value : String
  version : Tversion
  deriving DecidableEq, Repr

/-- A reply has Go's zero values in the fields that the handler does not set. -/
structure GetReply where
  value : String := ""
  version : Tversion := 0
  err : Err
  deriving DecidableEq, Repr

structure PutReply where
  err : Err
  deriving DecidableEq, Repr

inductive Request where
  | get (args : GetArgs)
  | put (args : PutArgs)
  deriving DecidableEq, Repr

def Request.key : Request → String
  | .get args => args.key
  | .put args => args.key

inductive Reply where
  | get (reply : GetReply)
  | put (reply : PutReply)
  deriving DecidableEq, Repr

structure KVServer where
  kv : String → Option String
  versionMap : String → Option Tversion

def makeKVServer : KVServer where
  kv := fun _ => none
  versionMap := fun _ => none

namespace KVServer

/-- The two assignments that a successful `Put` makes. -/
def install (s : KVServer) (args : PutArgs) : KVServer where
  kv := Function.update s.kv args.key (some args.value)
  versionMap := Function.update s.versionMap args.key (some (args.version + 1))

/-- `Get` looks for the key in `kv` and then reads `versionMap`. -/
def get (s : KVServer) (args : GetArgs) : GetReply :=
  match s.kv args.key with
  | none => { err := .errNoKey }
  | some value => { value := value, version := (s.versionMap args.key).getD 0, err := .ok }

/-- `Put` looks for the key in `versionMap` only. -/
def put (s : KVServer) (args : PutArgs) : KVServer × PutReply :=
  match s.versionMap args.key with
  | none => if args.version = 0 then (s.install args, ⟨.ok⟩) else (s, ⟨.errNoKey⟩)
  | some serverVersion =>
      if args.version = serverVersion then (s.install args, ⟨.ok⟩) else (s, ⟨.errVersion⟩)

def handle (s : KVServer) : Request → KVServer × Reply
  | .get args => (s, .get (s.get args))
  | .put args => ((s.put args).1, .put (s.put args).2)

/-- A `Put` is matched when its version is the one stored, or 0 for a key that is not. -/
def Matches (s : KVServer) (args : PutArgs) : Prop :=
  args.version = (s.versionMap args.key).getD 0

theorem put_cases (s : KVServer) (args : PutArgs) :
    (s.Matches args ∧ s.put args = (s.install args, ⟨.ok⟩)) ∨
    (¬ s.Matches args ∧ s.versionMap args.key = none ∧ s.put args = (s, ⟨.errNoKey⟩)) ∨
    (¬ s.Matches args ∧ (s.versionMap args.key).isSome ∧ s.put args = (s, ⟨.errVersion⟩)) := by
  unfold put Matches
  cases hver : s.versionMap args.key with
  | none => by_cases h0 : args.version = 0 <;> simp [h0]
  | some v => by_cases hv : args.version = v <;> simp [hv]

theorem put_err_ok_iff (s : KVServer) (args : PutArgs) :
    (s.put args).2.err = .ok ↔ s.Matches args := by
  rcases s.put_cases args with ⟨hm, h⟩ | ⟨hm, -, h⟩ | ⟨hm, -, h⟩ <;> simp [h, hm]

theorem put_of_err_ok {s : KVServer} {args : PutArgs} (h : (s.put args).2.err = .ok) :
    (s.put args).1 = s.install args := by
  rcases s.put_cases args with ⟨-, he⟩ | ⟨-, -, he⟩ | ⟨-, -, he⟩ <;> simp_all

/-- Only a successful `Put` changes the server. -/
theorem put_of_err_ne_ok {s : KVServer} {args : PutArgs} (h : (s.put args).2.err ≠ .ok) :
    (s.put args).1 = s := by
  rcases s.put_cases args with ⟨-, he⟩ | ⟨-, -, he⟩ | ⟨-, -, he⟩ <;> simp_all

theorem put_err_ne_errMaybe (s : KVServer) (args : PutArgs) :
    (s.put args).2.err ≠ .errMaybe := by
  rcases s.put_cases args with ⟨-, h⟩ | ⟨-, -, h⟩ | ⟨-, -, h⟩ <;> simp [h]

@[simp] theorem install_kv_self (s : KVServer) (args : PutArgs) :
    (s.install args).kv args.key = some args.value := by
  simp [install]

@[simp] theorem install_versionMap_self (s : KVServer) (args : PutArgs) :
    (s.install args).versionMap args.key = some (args.version + 1) := by
  simp [install]

theorem install_kv_of_ne (s : KVServer) (args : PutArgs) {x : String} (h : x ≠ args.key) :
    (s.install args).kv x = s.kv x := by
  simp [install, h]

theorem install_versionMap_of_ne (s : KVServer) (args : PutArgs) {x : String}
    (h : x ≠ args.key) : (s.install args).versionMap x = s.versionMap x := by
  simp [install, h]

end KVServer
end KVSrv
