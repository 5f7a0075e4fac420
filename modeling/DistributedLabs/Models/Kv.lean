import DistributedLabs.KVSrv.Clerk
import Mathlib.Data.List.AList
import Mathlib.Data.List.Sort
import Mathlib.Data.String.Basic

/-! The model by which the tests check key/value histories, and the log entries that the
tests make of the calls of a clerk. -/
namespace Models
open KVSrv Linearizability

/-- `op` is 0 for a `Get` and 1 for a `Put`. -/
structure KvInput where
  op : UInt8
  key : String
  value : String := ""
  version : UInt64 := 0
  deriving DecidableEq, Repr

structure KvOutput where
  value : String := ""
  version : UInt64 := 0
  err : String
  deriving DecidableEq, Repr

structure KvState where
  value : String
  version : UInt64
  deriving DecidableEq, Repr

def init : KvState := ⟨"", 0⟩

/-- The answer of `Step` and its next state, which is `none` for the text `<invalid>`. -/
def step (st : KvState) (inp : KvInput) (out : KvOutput) : Bool × Option KvState :=
  if inp.op = 0 then (out.value = st.value, some st)
  else if inp.op = 1 then
    if st.version = inp.version then
      (out.err = "OK" ∨ out.err = "ErrMaybe", some ⟨inp.value, st.version + 1⟩)
    else (out.err = "ErrVersion" ∨ out.err = "ErrMaybe", some st)
  else (false, none)

/-- The state of one key. A step that `Step` answers with false has no next state. -/
def kvModel : Spec KvState KvInput KvOutput where
  init := init
  step st inp out := if (step st inp out).1 then (step st inp out).2 else none

/-- `porcupine.Operation` for this model. -/
structure Operation where
  clientId : ℤ
  input : KvInput
  call : ℤ
  output : KvOutput
  ret : ℤ
  deriving DecidableEq, Repr

/-- One round of the loop of `Partition` over the history. -/
def addOperation (m : AList fun _ : String => List Operation) (v : Operation) :
    AList fun _ : String => List Operation :=
  m.insert v.input.key ((m.lookup v.input.key).getD [] ++ [v])

def groups (history : List Operation) : AList fun _ : String => List Operation :=
  history.foldl addOperation ∅

def partition (history : List Operation) : List (List Operation) :=
  ((groups history).keys.insertionSort (· ≤ ·)).map fun k => ((groups history).lookup k).getD []

/-- The texts of the errors. -/
def errText : Err → String
  | .ok => "OK"
  | .errNoKey => "ErrNoKey"
  | .errVersion => "ErrVersion"
  | .errMaybe => "ErrMaybe"

/-- The input that `Get` and `Put` of the tests log. -/
def logInput : Request → KvInput
  | .get args => { op := 0, key := args.key }
  | .put args => { op := 1, key := args.key, value := args.value, version := args.version }

/-- The output that they log for what the clerk has returned. -/
def logOutput : Reply → KvOutput
  | .get reply => { value := reply.value, version := reply.version, err := errText reply.err }
  | .put reply => { err := errText reply.err }

/-- The server after the requests, one after the other. -/
def served (s : KVServer) (rs : List Request) : KVServer :=
  rs.foldl (fun s r => (s.handle r).1) s

/-- The log of the requests, each through a clerk whose first call succeeds. -/
def logged : KVServer → List Request → List (KvInput × KvOutput)
  | _, [] => []
  | s, r :: rs =>
      (logInput r, logOutput (clerkResult true (s.handle r).2)) :: logged (s.handle r).1 rs

/-- What the server has under a key; a key that is absent has the empty value and version 0. -/
def kvState (s : KVServer) (k : String) : KvState :=
  ⟨(s.get ⟨k⟩).value, (s.get ⟨k⟩).version⟩

/-- The request that an input stands for. -/
def request (inp : KvInput) : Request :=
  if inp.op = 0 then .get ⟨inp.key⟩ else .put ⟨inp.key, inp.value, inp.version⟩

/-- One of the requests is a `Put` with version 0, the only one that can create a key. -/
def Creates (rs : List Request) : Prop :=
  ∃ args : PutArgs, .put args ∈ rs ∧ args.version = 0

theorem served_snoc (s : KVServer) (rs : List Request) (r : Request) :
    served s (rs ++ [r]) = ((served s rs).handle r).1 := by
  simp [served]

theorem logged_snoc (s : KVServer) (rs : List Request) (r : Request) :
    logged s (rs ++ [r]) =
      logged s rs ++ [(logInput r, logOutput (clerkResult true ((served s rs).handle r).2))] := by
  induction rs generalizing s with
  | nil => rfl
  | cons q rs ih =>
    rw [List.cons_append, logged, ih, logged, List.cons_append]
    rfl

@[simp] theorem request_logInput (r : Request) : request (logInput r) = r := by
  cases r with
  | get args => rfl
  | put args => simp [request, logInput]

@[simp] theorem request_key (inp : KvInput) : (request inp).key = inp.key := by
  unfold request
  split <;> rfl

end Models
