import DistributedLabs.KVSrv.Refinement
import DistributedLabs.KVTest.Append
import DistributedLabs.Lock.MutualExclusion

/-! The clients of the lock's test: inside the lock each one writes a key of its own and clears it
again. The runs of the test show runs of the lock. -/
namespace Lock
open KVSrv Runs

/-- The calls of `Fatalf` with what they print. -/
inductive Fatal where
  | twoClients (val : String)
  | getFailed (err : Err)
  | putFailed (err : Err)
  deriving DecidableEq, Repr

/-- Where a client of `oneClient` is, in which round. The sleep is a delay before `clear`. -/
inductive TestPc where
  /-- The first `Put`, which creates the key. -/
  | create
  /-- The `select` at the head of the loop. -/
  | select (i : ℕ)
  | acquire (i : ℕ) (pc : Pc)
  | get (i : ℕ)
  /-- The `Put` of the client's number with the version that it has read. -/
  | put (i : ℕ) (ver : Tversion)
  /-- The `Put` of the empty string with the version after it. -/
  | clear (i : ℕ) (ver : Tversion)
  | release (i : ℕ) (pc : Pc)
  | returned (res : KVTest.ClntRes)
  | fatal (f : Fatal)
  deriving DecidableEq, Repr

/-- The key that the clients write inside the lock. -/
def l0 : String := "l0"

variable {n : ℕ}

/-- `Acquire` has gone on, or returned. -/
def acquired (i : ℕ) : Pc → TestPc
  | .holding => .get i
  | pc => .acquire i pc

/-- `Release` has gone on, or returned. -/
def released (i : ℕ) : Pc → TestPc
  | .outside => .select (i + 1)
  | pc => .release i pc

def testGot (i : ℕ) (reply : GetReply) : TestPc :=
  if reply.err = .ok then
    if reply.value ≠ "" then .fatal (.twoClients reply.value) else .put i reply.version
  else .fatal (.getFailed reply.err)

/-- Where a client continues after a `Put` to its key inside the lock. -/
def testPut (next : TestPc) (err : Err) : TestPc :=
  if err = .ok ∨ err = .errMaybe then next else .fatal (.putFailed err)

namespace Locks

def testCalls (L : Locks (Fin n)) (me : Fin n) : TestPc → Request → Bool
  | .create, req => req = .put ⟨l0, "", 0⟩
  | .acquire _ pc, req => req.key = L.lockName && L.calls me pc req
  | .get _, req => req = .get ⟨l0⟩
  | .put _ ver, req => req = .put ⟨l0, formatInt me, ver⟩
  | .clear _ ver, req => req = .put ⟨l0, "", ver + 1⟩
  | .release _ pc, req => req.key = L.lockName && L.calls me pc req
  | _, _ => false

def testMoves : TestPc → TestPc → Bool
  | .select i, pc => pc = .returned ⟨i, 0⟩ ∨ pc = .acquire i .acqGet
  | _, _ => false

def testReturns (L : Locks (Fin n)) (me : Fin n) : TestPc → Reply → TestPc
  | .create, .put _ => .select 1
  | .acquire i pc, out => acquired i (L.returns me pc out)
  | .get i, .get reply => testGot i reply
  | .put i ver, .put reply => testPut (.clear i ver) reply.err
  | .clear i _, .put reply => testPut (.release i .relGet) reply.err
  | .release i pc, out => released i (L.returns me pc out)
  | pc, _ => pc

def oneClient (L : Locks (Fin n)) : Program (Fin n) TestPc where
  calls := L.testCalls
  moves := fun _ => testMoves
  returns := L.testReturns

/-- Clients of the test on a new server. -/
def test (L : Locks (Fin n)) : System (Clients (Fin n) TestPc) (Action (Fin n) TestPc) :=
  L.oneClient.system .create

end Locks

/-- What the lock sees of a client. -/
def lockPc : TestPc → Pc
  | .create => .outside
  | .select _ => .outside
  | .acquire _ pc => pc
  | .get _ => .holding
  | .put _ _ => .holding
  | .clear _ _ => .holding
  | .release _ pc => pc
  | .returned _ => .outside
  | .fatal _ => .holding

@[simp] theorem lockPc_acquired (i : ℕ) (pc : Pc) : lockPc (acquired i pc) = pc := by
  cases pc <;> rfl

@[simp] theorem lockPc_released (i : ℕ) (pc : Pc) : lockPc (released i pc) = pc := by
  cases pc <;> rfl

theorem lockPc_testGot (i : ℕ) (reply : GetReply) : lockPc (testGot i reply) = .holding := by
  unfold testGot
  split_ifs <;> rfl

variable {L : Locks (Fin n)}

/-- The clients of the test use the lock as it is to be used. -/
theorem oneClient_refines (hname : L.lockName ≠ l0) :
    L.oneClient.Refines L.program lockPc where
  calls := by
    intro c pc req h
    cases pc with
    | create | get | put | clear =>
      obtain rfl := of_decide_eq_true h
      exact decide_eq_true hname.symm
    | acquire i pc | release i pc => exact ((Bool.and_eq_true _ _).mp h).2
    | select | returned | fatal => cases h
  moves := by
    intro c pc pc' h
    cases pc with
    | select i =>
      rcases of_decide_eq_true h with rfl | rfl
      · exact .inl rfl
      · exact .inr rfl
    | create | get | put | clear | acquire | release | returned | fatal => cases h
  returns := by
    intro c pc out
    cases pc with
    | acquire i pc => exact .inl (lockPc_acquired i _)
    | release i pc => exact .inl (lockPc_released i _)
    | create | select | returned | fatal => cases out <;> exact .inl rfl
    | get i =>
      cases out with
      | get reply => exact .inl (lockPc_testGot i reply)
      | put reply => exact .inl rfl
    | put i ver =>
      cases out with
      | get reply => exact .inl rfl
      | put reply =>
        left
        show lockPc (testPut (.clear i ver) reply.err) = .holding
        unfold testPut
        split_ifs <;> rfl
    | clear i ver =>
      cases out with
      | get reply => exact .inl rfl
      | put reply =>
        show lockPc (testPut (.release i .relGet) reply.err) = .holding ∨
          Locks.moves .holding (lockPc (testPut (.release i .relGet) reply.err)) = true
        unfold testPut
        split_ifs
        · exact .inr rfl
        · exact .inl rfl

/-- What the lock's invariant says in a run of the test. -/
theorem test_inv (hname : L.lockName ≠ l0) {es : List (Action (Fin n) TestPc)}
    {s : Clients (Fin n) TestPc} (h : L.test.Run es s)
    (hb : version s.kv.log L.lockName < 2 ^ 64) : Inv L (s.map lockPc) := by
  obtain ⟨ds, hrun⟩ := ((oneClient_refines hname).simulates .create).run h
  exact inv_of_run hrun hb

end Lock
