import DistributedLabs.MR.Coordinator
import DistributedLabs.MR.Job
import DistributedLabs.MR.Names
import DistributedLabs.Runs.History

/-! Workers, the files they write, and a whole job: the coordinator with any number of workers
that may be arbitrarily slow or crash. -/
namespace MR

/-- A file is a sequence of encoded pairs or of lines of text. -/
inductive Record where
  | kv (kv : KeyValue)
  | line (text : String)
  deriving DecidableEq, Repr

/-- The working directory: names of files, which are numbered, and what the files hold. -/
structure Files where
  dir : FileName → Option ℕ
  data : ℕ → List Record
  next : ℕ

namespace Files

def empty : Files where
  dir := fun _ => none
  data := fun _ => []
  next := 0

/-- `os.CreateTemp`: a new empty file under a name made from its number. -/
def createTemp (fs : Files) (name : ℕ → FileName) : Files where
  dir := Function.update fs.dir (name fs.next) (some fs.next)
  data := Function.update fs.data fs.next []
  next := fs.next + 1

def append (fs : Files) (n : ℕ) (x : Record) : Files :=
  { fs with data := Function.update fs.data n (fs.data n ++ [x]) }

/-- `os.Rename`, which replaces a file of the new name and fails if there is none to rename. -/
def rename (fs : Files) (old new : FileName) : Option Files :=
  (fs.dir old).map fun n =>
    { fs with dir := Function.update (Function.update fs.dir new (some n)) old none }

end Files

/-- Where a worker is. -/
inductive Worker where
  /-- At the head of the loop of `Worker`. -/
  | idle
  /-- In the call `k` of `AllocateTask`. -/
  | asking (k : ℕ)
  | mapStart (task : Task)
  /-- At the head of the loop over the buckets. -/
  | mapCreate (task : Task) (buckets : List (List KeyValue)) (i : ℕ)
  /-- Encoding bucket `i` into the file `n`. -/
  | mapWrite (task : Task) (buckets : List (List KeyValue)) (i n : ℕ) (rest : List KeyValue)
  /-- At the head of the loop over the intermediate files. -/
  | reduceOpen (task : Task) (lenfiles i : ℕ) (intermediate : List KeyValue)
  /-- Decoding the file `n` at the position `pos`. -/
  | reduceRead (task : Task) (lenfiles i n pos : ℕ) (intermediate : List KeyValue)
  | reduceSort (task : Task) (intermediate : List KeyValue)
  /-- Writing the lines of the remaining pairs into the file `n`. -/
  | reduceWrite (task : Task) (n : ℕ) (rest : List KeyValue)
  | report (task : Task)
  /-- In the call `k` of `MarkTaskDone`. -/
  | reporting (k : ℕ)
  | exited
  /-- Stopped by `log.Fatalf` because the file could not be opened. -/
  | cannotOpen (name : FileName)
  | crashed
  deriving DecidableEq, Repr

/-- A job: the coordinator's arguments, the application and the input files. -/
structure Job extends Config where
  mapf : String → String → List KeyValue
  reducef : String → List String → String
  input : String → Option String

structure State (ι : Type*) where
  coord : Process
  fs : Files
  workers : ι → Worker

inductive Event (ι : Type*) where
  | coord (e : CoordEvent)
  | work (w : ι)
  /-- The sorting of the pairs in `doReduceTask` returns `l`. -/
  | sort (w : ι) (l : List KeyValue)
  | crash (w : ι)
  deriving DecidableEq, Repr

namespace State
variable {ι : Type*} [DecidableEq ι]

def init (J : Job) (ι : Type*) : State ι where
  coord := .init J.files
  fs := .empty
  workers := fun _ => .idle

def setWorker (s : State ι) (w : ι) (x : Worker) : State ι :=
  { s with workers := Function.update s.workers w x }

/-- Issue an RPC. -/
def call (s : State ι) (x : Call) : State ι :=
  { s with coord := { s.coord with calls := s.coord.calls ++ [x] } }

/-- What `Worker` does with the task it was given. -/
def start (task : Task) (lenfiles : ℕ) : Worker :=
  match task.taskType with
  | .map => .mapStart task
  | .reduce => .reduceOpen task lenfiles 0 []
  | .waiting => .idle
  | .done => .exited

/-- The next step of a worker. -/
def workStep (J : Job) (s : State ι) (w : ι) : Option (State ι) :=
  match s.workers w with
  | .idle => some ((s.call (.select s.coord.now)).setWorker w (.asking s.coord.calls.length))
  | .asking k =>
      match s.coord.calls[k]? with
      | some (.allocated task lenfiles) => some (s.setWorker w (start task lenfiles))
      | _ => none
  | .mapStart task =>
      match J.input task.filename with
      | some content =>
          some (s.setWorker w
            (.mapCreate task (hashKeyID task.reduceNum (J.mapf task.filename content)) 0))
      | none => some (s.setWorker w .crashed)
  | .mapCreate task buckets i =>
      if i < task.reduceNum then
        some ({ s with fs := s.fs.createTemp .mapTmp }.setWorker w
          (.mapWrite task buckets i s.fs.next (buckets.getD i [])))
      else some (s.setWorker w (.report task))
  | .mapWrite task buckets i n (kv :: rest) =>
      some ({ s with fs := s.fs.append n (.kv kv) }.setWorker w (.mapWrite task buckets i n rest))
  | .mapWrite task buckets i n [] =>
      match s.fs.rename (.mapTmp n) (.inter task.taskid i) with
      | some fs => some ({ s with fs := fs }.setWorker w (.mapCreate task buckets (i + 1)))
      | none => some (s.setWorker w .crashed)
  | .reduceOpen task lenfiles i intermediate =>
      if i < lenfiles then
        match s.fs.dir (.inter i task.taskid) with
        | some n => some (s.setWorker w (.reduceRead task lenfiles i n 0 intermediate))
        | none => some (s.setWorker w (.cannotOpen (.inter i task.taskid)))
      else some (s.setWorker w (.reduceSort task intermediate))
  | .reduceRead task lenfiles i n pos intermediate =>
      match (s.fs.data n)[pos]? with
      | some (.kv kv) =>
          some (s.setWorker w (.reduceRead task lenfiles i n (pos + 1) (intermediate ++ [kv])))
      | _ => some (s.setWorker w (.reduceOpen task lenfiles (i + 1) intermediate))
  | .reduceSort _ _ => none
  | .reduceWrite task n (kv :: rest) =>
      some ({ s with fs := s.fs.append n (.line (groupLine J.reducef kv rest).text) }.setWorker w
        (.reduceWrite task n (rest.dropWhile fun x => x.key = kv.key)))
  | .reduceWrite task n [] =>
      match s.fs.rename (.outTmp n) (.out task.taskid) with
      | some fs => some ({ s with fs := fs }.setWorker w (.report task))
      | none => some (s.setWorker w .crashed)
  | .report task =>
      some ((s.call (.mark task.taskid task.taskType)).setWorker w
        (.reporting s.coord.calls.length))
  | .reporting k =>
      match s.coord.calls[k]? with
      | some .marked => some (s.setWorker w .idle)
      | _ => none
  | .exited => none
  | .cannotOpen _ => none
  | .crashed => none

/-- `sort.Sort` returns any permutation that is sorted by key; then the file is created. -/
def sortStep (s : State ι) (w : ι) (l : List KeyValue) : Option (State ι) :=
  match s.workers w with
  | .reduceSort task intermediate =>
      if l.Perm intermediate ∧ Grouping.Sorted KeyValue.key l then
        some ({ s with fs := s.fs.createTemp .outTmp }.setWorker w (.reduceWrite task s.fs.next l))
      else none
  | _ => none

def step (J : Job) (s : State ι) : Event ι → Option (State ι)
  | .coord e => (s.coord.step J.toConfig e).map fun p => { s with coord := p }
  | .work w => s.workStep J w
  | .sort w l => s.sortStep w l
  | .crash w => some (s.setWorker w .crashed)

end State

def system (J : Job) (ι : Type*) [DecidableEq ι] : Runs.System (State ι) (Event ι) where
  init := .init J ι
  step := State.step J

end MR
