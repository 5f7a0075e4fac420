import DistributedLabs.KVTest.Append

/-! The put test of `kvtest`: clients that race to put the same keys with the versions they have
read, and the check of how many of their `Put`s the server has counted. -/
namespace KVTest
open KVSrv Runs

/-- The value of a `Put`: the client and the version it is conditional on. -/
structure EntryV where
  id : ℕ
  v : Tversion
  deriving DecidableEq, Repr

/-- All that is assumed of `encoding/json` on entries. -/
structure JsonV where
  marshal : EntryV → String
  unmarshal : String → Option EntryV
  roundTrip : ∀ e, unmarshal (marshal e) = some e

/-- An encoding that is as good as JSON for runs of the test. -/
def strokesV : JsonV where
  marshal e := String.ofList (strokes e.id ++ strokes e.v.toNat)
  unmarshal text :=
    match numbers 0 text.toList with
    | [i, v] => some ⟨i, UInt64.ofNat v⟩
    | _ => none
  roundTrip := by
    intro e
    rw [String.toList_ofList, ← List.append_nil (strokes e.id ++ _), List.append_assoc,
      numbers_strokes, numbers_strokes, Nat.zero_add, Nat.zero_add, numbers]
    simp only [UInt64.ofNat_toNat]

/-- The variables of `OneClientPut`. A key that is missing from `verm` reads as 0. -/
structure PutLoop where
  verm : AList fun _ : String => Tversion
  nok : ℕ
  nmaybe : ℕ

namespace PutLoop

/-- The entries decide, so that the kernel can evaluate it: the instance of `AList` is a cast. -/
instance : DecidableEq PutLoop := fun p q =>
  decidable_of_iff (p.verm.entries = q.verm.entries ∧ p.nok = q.nok ∧ p.nmaybe = q.nmaybe) <| by
    cases p
    cases q
    simp only [mk.injEq, AList.ext_iff]

/-- The loop that sets the version of every key to 0. -/
def start (ka : List String) : PutLoop :=
  ⟨ka.foldl (fun m k => m.insert k 0) ∅, 0, 0⟩

def ver (p : PutLoop) (k : String) : Tversion := (p.verm.lookup k).getD 0

/-- `OnePut` on the key has returned. -/
def done (p : PutLoop) (k : String) (ver : Tversion) (ok : Bool) : PutLoop :=
  if ok then { p with verm := p.verm.insert k ver, nok := p.nok + 1 }
  else { p with verm := p.verm.insert k ver, nmaybe := p.nmaybe + 1 }

def res (p : PutLoop) : ClntRes := ⟨p.nok, p.nmaybe⟩

end PutLoop

/-- Where a client of `OneClientPut` is. -/
inductive PutPc where
  /-- The `select` at the head of the loop. -/
  | select (p : PutLoop)
  /-- The `Put` of `PutJson` in `OnePut`. -/
  | putJson (p : PutLoop) (k : String) (ver : Tversion)
  /-- The `Get` of `GetJson` in `OnePut`, after its `Put` has returned `err`. -/
  | getJson (p : PutLoop) (k : String) (ver : Tversion) (err : Err)
  | returned (p : PutLoop)
  /-- After a `Fatalf` or a run time panic. -/
  | stopped (p : PutLoop)
  deriving DecidableEq

def PutPc.loop : PutPc → PutLoop
  | .select p => p
  | .putJson p _ _ => p
  | .getJson p _ _ _ => p
  | .returned p => p
  | .stopped p => p

/-- The keys that a round may take: the first one, or any of them. -/
def choices (ka : List String) (randomkeys : Bool) : List String :=
  if randomkeys then ka else ka.take 1

variable {n : ℕ}

def putCalls (J : JsonV) (me : Fin n) : PutPc → Request → Bool
  | .putJson _ k ver, req => req = .put ⟨k, J.marshal ⟨me, ver⟩, ver⟩
  | .getJson _ k _ _, req => req = .get ⟨k⟩
  | _, _ => false

/-- The `select`: a signal on `done`, or a round with one of the keys. Without any key the
choice of one panics. -/
def putMoves (ka : List String) (randomkeys : Bool) : PutPc → PutPc → Bool
  | .select p, pc => pc = .returned p ∨
      pc ∈ (choices ka randomkeys).map (fun k => .putJson p k (p.ver k)) ∨
      (ka = [] ∧ pc = .stopped p)
  | _, _ => false

/-- `OnePut` after its `Put`: an error that is not expected is fatal. -/
def onePutDone (p : PutLoop) (k : String) (ver : Tversion) (err : Err) : PutPc :=
  if err = .ok ∨ err = .errVersion ∨ err = .errMaybe then .getJson p k ver err else .stopped p

/-- `OnePut` after its `Get`: it checks its own entry, and returns or tries again. -/
def onePutGot (J : JsonV) (me : ℕ) (p : PutLoop) (k : String) (ver : Tversion) (err : Err)
    (reply : GetReply) : PutPc :=
  if reply.err = .ok then
    match J.unmarshal reply.value with
    | none => .stopped p
    | some e =>
        if err = .ok ∧ reply.version = ver + 1 ∧ e.id ≠ me ∧ e.v ≠ ver then .stopped p
        else if err = .ok ∨ err = .errMaybe then .select (p.done k reply.version (err = .ok))
        else .putJson p k reply.version
  else .stopped p

def putReturns (J : JsonV) (me : Fin n) : PutPc → Reply → PutPc
  | .putJson p k ver, .put reply => onePutDone p k ver reply.err
  | .getJson p k ver err, .get reply => onePutGot J me p k ver err reply
  | pc, _ => pc

def oneClientPut (J : JsonV) (ka : List String) (randomkeys : Bool) (n : ℕ) :
    Program (Fin n) PutPc where
  calls := putCalls J
  moves := fun _ => putMoves ka randomkeys
  returns := putReturns J

/-- Clients of the put test on a new server. -/
def puts (J : JsonV) (ka : List String) (randomkeys : Bool) (n : ℕ) :
    System (Clients (Fin n) PutPc) (Action (Fin n) PutPc) :=
  (oneClientPut J ka randomkeys n).system (.select (.start ka))

/-- Whether `CheckPutConcurrent` ends without a call of `Fatalf`, when its `Get` returns this
reply. -/
def checkPutConcurrent (J : JsonV) (reply : GetReply) (rs : List ClntRes) (reliable : Bool) :
    Bool :=
  let nok := (rs.map ClntRes.nok).sum
  let nmaybe := (rs.map ClntRes.nmaybe).sum
  reply.err = .ok && (J.unmarshal reply.value).isSome &&
    if reliable then reply.version = UInt64.ofNat nok
    else ¬ reply.version > UInt64.ofNat (nok + nmaybe)

end KVTest
