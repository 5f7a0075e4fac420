import DistributedLabs.KVSrv.Programs

/-! Clients of the lock built on the key/value service: `Acquire` and `Release` as control
states between clerk calls. -/
namespace Lock
open KVSrv

/-- `strconv.FormatInt(n, 10)`, from which `MakeLock` takes its client ids. -/
def formatInt (n : ℤ) : String := toString n

theorem formatInt_ne_empty (n : ℤ) : formatInt n ≠ "" := by
  cases n with
  | ofNat m => exact Nat.repr_ne_empty
  | negSucc m =>
    intro h
    exact Nat.repr_ne_empty (String.append_eq_empty_iff.mp h).2

/-- The `Lock` objects of the clients `ι` on one key. The ids come from `nrand` and are
pairwise distinct. -/
structure Locks (ι : Type*) where
  lockName : String
  nrand : ι → ℤ
  distinct : Function.Injective fun c => formatInt (nrand c)

variable {ι : Type*}

def Locks.clientID (L : Locks ι) (c : ι) : String := formatInt (L.nrand c)

theorem Locks.clientID_ne_empty (L : Locks ι) (c : ι) : L.clientID c ≠ "" :=
  formatInt_ne_empty _

/-- Where a client is. In the states of `Acquire` and `Release` the clerk call named there is
being made or is the next one; the random backoff is a delay before `acqGet`. -/
inductive Pc where
  /-- Before the first `Acquire`, or after `Release` has returned. -/
  | outside
  /-- The `Get` at the head of `Acquire`'s loop. -/
  | acqGet
  /-- The `Put` of the own id with this version. -/
  | acqPut (version : Tversion)
  /-- The `Get` that checks a `Put` answered `ErrMaybe`. -/
  | acqCheck
  /-- After `Acquire` has returned. -/
  | holding
  /-- The `Get` at the head of `Release`'s loop. -/
  | relGet
  /-- The `Put` of the empty string with this version. -/
  | relPut (version : Tversion)
  deriving DecidableEq, Repr

namespace Locks

/-- The clerk calls of `Acquire` and `Release`. Outside them a client may use other keys. -/
def calls (L : Locks ι) (c : ι) : Pc → Request → Bool
  | .outside, req => req.key ≠ L.lockName
  | .holding, req => req.key ≠ L.lockName
  | .acqGet, req => req = .get ⟨L.lockName⟩
  | .acqCheck, req => req = .get ⟨L.lockName⟩
  | .relGet, req => req = .get ⟨L.lockName⟩
  | .acqPut version, req => req = .put ⟨L.lockName, L.clientID c, version⟩
  | .relPut version, req => req = .put ⟨L.lockName, "", version⟩

/-- `Acquire` and `Release` are called in turn. -/
def moves : Pc → Pc → Bool
  | .outside, .acqGet => true
  | .holding, .relGet => true
  | _, _ => false

/-- `Acquire` after its first `Get`. -/
def acquireGot (L : Locks ι) (c : ι) (reply : GetReply) : Pc :=
  if reply.err = .errNoKey then .acqPut 0
  else if reply.value = L.clientID c then .holding
  else if reply.value = "" then .acqPut reply.version
  else .acqGet

/-- `Acquire` after its `Put`. -/
def acquirePut : Err → Pc
  | .ok => .holding
  | .errMaybe => .acqCheck
  | .errVersion => .acqGet
  | .errNoKey => .acqGet

def acquireChecked (L : Locks ι) (c : ι) (reply : GetReply) : Pc :=
  if reply.value = L.clientID c then .holding else .acqGet

/-- `Release` after its `Get`. -/
def releaseGot (L : Locks ι) (c : ι) (reply : GetReply) : Pc :=
  if reply.err = .errNoKey then .outside
  else if reply.value ≠ L.clientID c then .outside
  else .relPut reply.version

def releasePut : Err → Pc
  | .ok => .outside
  | _ => .relGet

def returns (L : Locks ι) (c : ι) : Pc → Reply → Pc
  | .acqGet, .get reply => L.acquireGot c reply
  | .acqPut _, .put reply => acquirePut reply.err
  | .acqCheck, .get reply => L.acquireChecked c reply
  | .relGet, .get reply => L.releaseGot c reply
  | .relPut _, .put reply => releasePut reply.err
  | pc, _ => pc

/-- The ways in which a client continues after a clerk call. -/
inductive Returned (L : Locks ι) (c : ι) : Pc → Reply → Pc → Prop
  | stay (pc : Pc) (out : Reply) : Returned L c pc out pc
  | absent (g : GetReply) (he : g.err = .errNoKey) : Returned L c .acqGet (.get g) (.acqPut 0)
  | already (g : GetReply) (he : g.err ≠ .errNoKey) (hv : g.value = L.clientID c) :
      Returned L c .acqGet (.get g) .holding
  | free (g : GetReply) (he : g.err ≠ .errNoKey) (hv : g.value = "") :
      Returned L c .acqGet (.get g) (.acqPut g.version)
  | acquired (v : Tversion) : Returned L c (.acqPut v) (.put ⟨.ok⟩) .holding
  | unsure (v : Tversion) : Returned L c (.acqPut v) (.put ⟨.errMaybe⟩) .acqCheck
  | refused (v : Tversion) (err : Err) : Returned L c (.acqPut v) (.put ⟨err⟩) .acqGet
  | checked (g : GetReply) (hv : g.value = L.clientID c) :
      Returned L c .acqCheck (.get g) .holding
  | failed (g : GetReply) : Returned L c .acqCheck (.get g) .acqGet
  | lost (g : GetReply) (h : g.err = .errNoKey ∨ g.value ≠ L.clientID c) :
      Returned L c .relGet (.get g) .outside
  | owned (g : GetReply) (he : g.err ≠ .errNoKey) (hv : g.value = L.clientID c) :
      Returned L c .relGet (.get g) (.relPut g.version)
  | released (v : Tversion) : Returned L c (.relPut v) (.put ⟨.ok⟩) .outside
  | again (v : Tversion) (err : Err) : Returned L c (.relPut v) (.put ⟨err⟩) .relGet

theorem returned (L : Locks ι) (c : ι) (pc : Pc) (out : Reply) :
    L.Returned c pc out (L.returns c pc out) := by
  cases pc with
  | outside => exact .stay _ _
  | holding => exact .stay _ _
  | acqGet =>
    cases out with
    | put p => exact .stay _ _
    | get g =>
      simp only [returns, acquireGot]
      split_ifs with he hv hv'
      · exact .absent g he
      · exact .already g he hv
      · exact .free g he hv'
      · exact .stay _ _
  | acqPut v =>
    cases out with
    | get g => exact .stay _ _
    | put p =>
      obtain ⟨err⟩ := p
      cases err with
      | ok => exact .acquired v
      | errMaybe => exact .unsure v
      | errVersion => exact .refused v _
      | errNoKey => exact .refused v _
  | acqCheck =>
    cases out with
    | put p => exact .stay _ _
    | get g =>
      simp only [returns, acquireChecked]
      split_ifs with hv
      · exact .checked g hv
      · exact .failed g
  | relGet =>
    cases out with
    | put p => exact .stay _ _
    | get g =>
      simp only [returns, releaseGot]
      split_ifs with he hv
      · exact .lost g (.inl he)
      · exact .lost g (.inr hv)
      · exact .owned g he (not_not.mp hv)
  | relPut v =>
    cases out with
    | get g => exact .stay _ _
    | put p =>
      obtain ⟨err⟩ := p
      cases err with
      | ok => exact .released v
      | errMaybe => exact .again v _
      | errVersion => exact .again v _
      | errNoKey => exact .again v _

def program (L : Locks ι) : Program ι Pc where
  calls := L.calls
  moves := fun _ => moves
  returns := L.returns

def system [DecidableEq ι] (L : Locks ι) : Runs.System (Clients ι Pc) (Action ι Pc) :=
  L.program.system .outside

end Locks
end Lock
