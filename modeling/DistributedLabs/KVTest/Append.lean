import DistributedLabs.KVSrv.Programs
import Mathlib.Data.List.AList

/-! The append test of `kvtest`: clients that append to one JSON list by `Get` and `Put`, and
the check of the list they leave behind. -/
namespace KVTest
open KVSrv Runs

/-- One appended tuple: the client and its iteration. -/
structure Entry where
  id : ℕ
  n : ℕ
  deriving DecidableEq, Repr

/-- All that is assumed of `encoding/json` on lists of entries. -/
structure Json where
  marshal : List Entry → String
  unmarshal : String → Option (List Entry)
  roundTrip : ∀ es, unmarshal (marshal es) = some es

/-- A number as strokes with a full stop. -/
def strokes (k : ℕ) : List Char := List.replicate k '|' ++ ['.']

/-- The numbers of a text of which `k` strokes have been read. -/
def numbers : ℕ → List Char → List ℕ
  | _, [] => []
  | k, c :: cs => if c = '|' then numbers (k + 1) cs else k :: numbers 0 cs

theorem numbers_strokes (k j : ℕ) (cs : List Char) :
    numbers k (strokes j ++ cs) = (k + j) :: numbers 0 cs := by
  induction j generalizing k with
  | zero => rfl
  | succ j ih =>
    have hstep : numbers k (strokes (j + 1) ++ cs) = numbers (k + 1) (strokes j ++ cs) := rfl
    rw [hstep, ih]
    congr 1
    omega

def pairs : List ℕ → List Entry
  | i :: j :: ks => ⟨i, j⟩ :: pairs ks
  | _ => []

theorem pairs_numbers (es : List Entry) :
    pairs (numbers 0 (es.flatMap fun e => strokes e.id ++ strokes e.n)) = es := by
  induction es with
  | nil => rfl
  | cons e es ih =>
    rw [List.flatMap_cons, List.append_assoc, numbers_strokes, numbers_strokes, Nat.zero_add,
      Nat.zero_add, pairs, ih]

/-- An encoding that is as good as JSON for runs of the test. -/
def tally : Json where
  marshal es := String.ofList (es.flatMap fun e => strokes e.id ++ strokes e.n)
  unmarshal text := some (pairs (numbers 0 text.toList))
  roundTrip := by
    intro es
    rw [String.toList_ofList, pairs_numbers]

/-- The variables of `OneClientAppend`. `outcomes` is a history variable: what the last `Put`
of each finished iteration returned. No step reads it. -/
structure Loop where
  i : ℕ
  nok : ℕ
  nmay : ℕ
  outcomes : List Err
  deriving DecidableEq, Repr

namespace Loop

def start : Loop := ⟨0, 0, 0, []⟩

/-- The iteration ends with a `Put` that returned `OK`. -/
def ok (p : Loop) : Loop :=
  { p with i := p.i + 1, nok := p.nok + 1, outcomes := p.outcomes ++ [.ok] }

/-- The iteration ends with a `Put` that returned `ErrMaybe`. -/
def maybe (p : Loop) : Loop :=
  { p with i := p.i + 1, nmay := p.nmay + 1, outcomes := p.outcomes ++ [.errMaybe] }

end Loop

/-- Where a client of `OneClientAppend` is. -/
inductive Pc where
  /-- The `select` at the head of the loop. -/
  | select (p : Loop)
  /-- The `Get` of `GetJson`. -/
  | getJson (p : Loop)
  /-- The `Put` of `PutJson`, of this list with this version. -/
  | putJson (p : Loop) (es : List Entry) (ver : Tversion)
  | returned (p : Loop)
  /-- After a `Fatalf` or a run time panic. -/
  | stopped (p : Loop)
  deriving DecidableEq, Repr

def Pc.loop : Pc → Loop
  | .select p => p
  | .getJson p => p
  | .putJson p _ _ => p
  | .returned p => p
  | .stopped p => p

/-- The length that a slice may have: an `int`. -/
def maxLen : ℕ := 2 ^ 63

variable {n : ℕ}

/-- The clerk `none` is the test's own. The clients make the calls of `GetJson` and
`PutJson`. -/
def calls (J : Json) : Option (Fin n) → Pc → Request → Bool
  | some _, .getJson _, req => req = .get ⟨"k"⟩
  | some _, .putJson _ es ver, req => req = .put ⟨"k", J.marshal es, ver⟩
  | _, _, _ => false

/-- The `select`: a signal on `done`, or the default branch. -/
def moves : Option (Fin n) → Pc → Pc → Bool
  | some _, .select p, pc => pc = .getJson p ∨ pc = .returned p
  | _, _, _ => false

/-- A client after its `Get`: it appends its tuple to the list it has read. -/
def gotJson (J : Json) (me : ℕ) (p : Loop) (reply : GetReply) : Pc :=
  if reply.err = .ok then
    match J.unmarshal reply.value with
    | some es =>
        if es.length + 1 < maxLen then .putJson p (es ++ [⟨me, p.i⟩]) reply.version
        else .stopped p
    | none => .stopped p
  else .stopped p

/-- A client after its `Put`. -/
def putDone (p : Loop) : Err → Pc
  | .ok => .select p.ok
  | .errMaybe => .select p.maybe
  | _ => .getJson p

def returns (J : Json) : Option (Fin n) → Pc → Reply → Pc
  | some c, .getJson p, .get reply => gotJson J c p reply
  | some _, .putJson p _ _, .put reply => putDone p reply.err
  | _, pc, _ => pc

def oneClientAppend (J : Json) (n : ℕ) : Program (Option (Fin n)) Pc where
  calls := calls J
  moves := moves
  returns := returns J

/-- The request by which the test puts the empty list. -/
def emptyPut (J : Json) : Request := .put ⟨"k", J.marshal [], 0⟩

/-- A new server on which the test has put the empty list under `"k"`. -/
def startService (J : Json) (n : ℕ) : Service (Option (Fin n)) :=
  ((((Service.init _).invoke none (emptyPut J)).send none 0 (emptyPut J) true).exec 0
    ⟨none, 0, emptyPut J⟩).deliver none 0 (.put ⟨.ok⟩)

def appends (J : Json) (n : ℕ) :
    System (Clients (Option (Fin n)) Pc) (Action (Option (Fin n)) Pc) :=
  (oneClientAppend J n).systemFrom ⟨startService J n, fun _ => .select .start⟩

structure ClntRes where
  nok : ℕ
  nmaybe : ℕ
  deriving DecidableEq, Repr

def Loop.res (p : Loop) : ClntRes := ⟨p.nok, p.nmay⟩

/-- The maps of `CheckAppends`. A key that is missing reads as 0. -/
structure Maps where
  expect : AList fun _ : ℕ => ℕ
  skipped : AList fun _ : ℕ => ℕ

def get (m : AList fun _ : ℕ => ℕ) (c : ℕ) : ℕ := (m.lookup c).getD 0

/-- The first loop of `CheckAppends`. -/
def Maps.make (nclnt : ℕ) : Maps :=
  (List.range nclnt).foldl (fun m i => ⟨m.expect.insert i 0, m.skipped.insert i 0⟩) ⟨∅, ∅⟩

/-- One round of the loop over the entries; `none` is the call of `Fatalf`. -/
def Maps.entry (m : Maps) (e : Entry) : Option Maps :=
  if get m.expect e.id > e.n then none
  else if get m.expect e.id = e.n then
    some { m with expect := m.expect.insert e.id (get m.expect e.id + 1) }
  else
    some ⟨m.expect.insert e.id (e.n + 1),
      m.skipped.insert e.id (get m.skipped e.id + (e.n - get m.expect e.id))⟩

/-- The body of the last loop of `CheckAppends`; `rs[c]` fails beyond the results. -/
def Maps.client (m : Maps) (rs : List ClntRes) (c : ℕ) (k : ℕ) : Bool :=
  match rs[c]? with
  | some r => get m.skipped c ≤ r.nmaybe && k ≤ r.nok + r.nmaybe
  | none => false

/-- Whether `CheckAppends` ends without a call of `Fatalf`. -/
def checkAppends (es : List Entry) (nclnt : ℕ) (rs : List ClntRes) (ver : Tversion) : Bool :=
  match es.foldlM Maps.entry (Maps.make nclnt) with
  | none => false
  | some m =>
      es.length + 1 = ver.toNat && m.expect.entries.all fun x => m.client rs x.1 x.2

end KVTest
