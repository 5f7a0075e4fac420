import Mathlib.Data.List.AList

/-! The coordinator process: `MakeCoordinator`, `monitor` and the RPC handlers as threads that
take `TaskLock`, `HeartbeatLock` and `PhaseLock` step by step and share `TaskChan`. Times are
in milliseconds. -/
namespace MR

/-- The constants `WaitingTask`, `MapPhase`, `ReducePhase` and `DoneTask`. -/
inductive TaskType where
  | waiting
  | map
  | reduce
  | done
  deriving DecidableEq, Repr

structure Task where
  taskid : ℕ
  filename : String
  taskType : TaskType
  reduceNum : ℕ
  deriving DecidableEq, Repr

def makeMapTask (s : String) (i nReduce : ℕ) : Task := ⟨i, s, .map, nReduce⟩

def makeReduceTask (i nReduce : ℕ) : Task := ⟨i, "", .reduce, nReduce⟩

/-- The tasks that tell workers to exit. -/
def makeExitTask (i nReduce : ℕ) : Task := ⟨i, "", .done, nReduce⟩

/-- `TaskChan` holds pointers, which may be nil. -/
structure Coordinator where
  taskMapState : AList fun _ : ℕ => TaskType
  taskAliveDetector : AList fun _ : ℕ => ℕ
  tasks : AList fun _ : ℕ => Task
  taskChan : List (Option Task)
  lenfiles : ℕ
  phase : TaskType

namespace Coordinator

def capacity (c : Coordinator) : ℕ := 2 * c.lenfiles

/-- Some task is registered with the state `t`; the phase loops wait until none is. -/
def anyIn (c : Coordinator) (t : TaskType) : Bool := c.taskMapState.entries.any fun e => e.2 = t

/-- The assignments that register a task. -/
def register (c : Coordinator) (task : Task) : Coordinator :=
  { c with
    taskMapState := c.taskMapState.insert task.taskid task.taskType
    tasks := c.tasks.insert task.taskid task }

/-- The deletions of `MarkTaskDone`. -/
def forget (c : Coordinator) (id : ℕ) : Coordinator :=
  { c with
    taskAliveDetector := c.taskAliveDetector.erase id
    tasks := c.tasks.erase id
    taskMapState := c.taskMapState.erase id }

def stamp (c : Coordinator) (id now : ℕ) : Coordinator :=
  { c with taskAliveDetector := c.taskAliveDetector.insert id now }

end Coordinator

/-- The threads that take locks. A call is an RPC handler. -/
inductive Thread where
  | main
  | monitor
  | call (k : ℕ)
  deriving DecidableEq, Repr

/-- Where `MakeCoordinator` is. -/
inductive Main where
  /-- The head of the loop over the files. -/
  | mapWrite (i : ℕ)
  | mapSend (i : ℕ) (task : Task)
  /-- Before `TaskLock.Lock()` in the loop that waits for the end of phase `t`. -/
  | checkLock (t : TaskType)
  | check (t : TaskType)
  /-- Before `PhaseLock.Lock()`, to enter phase `t`. -/
  | phaseLock (t : TaskType)
  | phaseSet (t : TaskType)
  /-- Before `TaskLock.Lock()`, to register the reduce tasks. -/
  | reduceLock
  | reduceWrite (i : ℕ)
  | reduceSend (i : ℕ) (task : Task)
  | exitSend (i : ℕ)
  | returned
  deriving DecidableEq, Repr

/-- Where `monitor` is; `rest` are the ids that the loop over `TaskAliveDetector` still has to
visit. -/
inductive Monitor where
  | off
  | waiting
  /-- Before `HeartbeatLock.Lock()`. -/
  | lock
  | scan (rest : List ℕ)
  /-- Before `TaskLock.Lock()`. -/
  | taskLock (id : ℕ) (rest : List ℕ)
  | check (id : ℕ) (rest : List ℕ)
  | send (id : ℕ) (rest : List ℕ)
  | touch (id : ℕ) (rest : List ℕ)
  deriving DecidableEq, Repr

/-- Where an RPC handler is: `AllocateTask` up to `allocated`, then `MarkTaskDone`. In the
latter `kind` is the type of the reported task, which only the worker knows: a history
variable. -/
inductive Call where
  /-- In the `select`, since the given time. -/
  | select (since : ℕ)
  /-- Before `HeartbeatLock.Lock()`. -/
  | received (task : Option Task)
  | stamping (task : Option Task)
  /-- Before `PhaseLock.Lock()`. -/
  | timedOut
  | readPhase
  | allocated (task : Task) (lenfiles : ℕ)
  /-- Before `TaskLock.Lock()`. -/
  | mark (id : ℕ) (kind : TaskType)
  /-- Before `HeartbeatLock.Lock()`. -/
  | markLocked (id : ℕ) (kind : TaskType)
  | markBoth (id : ℕ) (kind : TaskType)
  /-- After `TaskLock.Unlock()`. -/
  | markUnlock
  | marked
  deriving DecidableEq, Repr

structure Process where
  c : Coordinator
  taskLock : Option Thread
  heartbeatLock : Option Thread
  phaseLock : Option Thread
  main : Main
  monitor : Monitor
  calls : List Call
  now : ℕ
  /-- When the ticker of `monitor` fires next, and whether a tick is waiting in its channel. -/
  nextTick : ℕ
  tick : Bool
  panicked : Bool

def Process.init (files : List String) : Process where
  c := ⟨∅, ∅, ∅, [], files.length, .map⟩
  taskLock := none
  heartbeatLock := none
  phaseLock := none
  main := .mapWrite 0
  monitor := .off
  calls := []
  now := 0
  nextTick := 0
  tick := false
  panicked := false

/-- What the command line gives the coordinator. -/
structure Config where
  files : List String
  nReduce : ℕ
  nReduce_pos : 0 < nReduce

namespace Process

/-- Send on `TaskChan`: into the buffer if it has room, or to a call that waits in its
`select` while the buffer is empty. Otherwise the sender is blocked. -/
def send (p : Process) (task : Option Task) : Option ℕ → Option Process
  | none =>
      if p.c.taskChan.length < p.c.capacity then
        some { p with c := { p.c with taskChan := p.c.taskChan ++ [task] } }
      else none
  | some k =>
      match p.c.taskChan, p.calls[k]? with
      | [], some (.select _) => some { p with calls := p.calls.set k (.received task) }
      | _, _ => none

/-- The next step of `MakeCoordinator`. A send may go to the call `receiver`. -/
def mainStep (J : Config) (p : Process) (receiver : Option ℕ) : Option Process :=
  match p.main with
  | .mapWrite i =>
      match J.files[i]? with
      | some v =>
          let task := makeMapTask v i J.nReduce
          some { p with c := p.c.register task, main := .mapSend i task }
      | none =>
          some { p with monitor := .waiting, nextTick := p.now + 3000, main := .checkLock .map }
  | .mapSend i task =>
      (p.send (some task) receiver).map fun q => { q with main := .mapWrite (i + 1) }
  | .checkLock t =>
      if p.taskLock = none then some { p with taskLock := some .main, main := .check t } else none
  | .check t =>
      if p.c.anyIn t then some { p with taskLock := none, main := .checkLock t }
      else some { p with
        taskLock := none, main := .phaseLock (if t = .map then .reduce else .done) }
  | .phaseLock t =>
      if p.phaseLock = none then some { p with phaseLock := some .main, main := .phaseSet t }
      else none
  | .phaseSet t =>
      some { p with
        c := { p.c with phase := t }
        phaseLock := none
        main := if t = .reduce then .reduceLock else .exitSend 0 }
  | .reduceLock =>
      if p.taskLock = none then some { p with taskLock := some .main, main := .reduceWrite 0 }
      else none
  | .reduceWrite i =>
      if i < J.nReduce then
        let task := makeReduceTask i J.nReduce
        some { p with c := p.c.register task, main := .reduceSend i task }
      else some { p with taskLock := none, main := .checkLock .reduce }
  | .reduceSend i task =>
      (p.send (some task) receiver).map fun q => { q with main := .reduceWrite (i + 1) }
  | .exitSend i =>
      if i < J.nReduce then
        (p.send (some (makeExitTask i J.nReduce)) receiver).map fun q =>
          { q with main := .exitSend (i + 1) }
      else some { p with main := .returned }
  | .returned => none

/-- The next step of `monitor`. The loop over the map visits its keys in any `order`. -/
def monitorStep (p : Process) (order : List ℕ) (receiver : Option ℕ) : Option Process :=
  match p.monitor with
  | .off => none
  | .waiting => if p.tick then some { p with tick := false, monitor := .lock } else none
  | .lock =>
      if p.heartbeatLock = none ∧ order.Perm p.c.taskAliveDetector.keys then
        some { p with heartbeatLock := some .monitor, monitor := .scan order }
      else none
  | .scan [] => some { p with heartbeatLock := none, monitor := .waiting }
  | .scan (id :: rest) => some { p with monitor := .taskLock id rest }
  | .taskLock id rest =>
      if p.taskLock = none then
        some { p with taskLock := some .monitor, monitor := .check id rest }
      else none
  | .check id rest =>
      match p.c.taskAliveDetector.lookup id with
      | some lastHeartbeat =>
          if 10000 < p.now - lastHeartbeat then some { p with monitor := .send id rest }
          else some { p with taskLock := none, monitor := .scan rest }
      | none => some { p with taskLock := none, monitor := .scan rest }
  | .send id rest =>
      (p.send (p.c.tasks.lookup id) receiver).map fun q => { q with monitor := .touch id rest }
  | .touch id rest =>
      some { p with c := p.c.stamp id p.now, taskLock := none, monitor := .scan rest }

/-- The next step of the RPC handler `k`; in the `select` it receives from the buffer. -/
def callStep (p : Process) (k : ℕ) : Option Process :=
  match p.calls[k]? with
  | some (.select _) =>
      match p.c.taskChan with
      | task :: rest => some { p with
          c := { p.c with taskChan := rest }, calls := p.calls.set k (.received task) }
      | [] => none
  | some (.received task) =>
      if p.heartbeatLock = none then
        some { p with heartbeatLock := some (.call k), calls := p.calls.set k (.stamping task) }
      else none
  | some (.stamping (some task)) => some { p with
      c := p.c.stamp task.taskid p.now
      heartbeatLock := none
      calls := p.calls.set k (.allocated task p.c.lenfiles) }
  | some (.stamping none) => some { p with panicked := true }
  | some .timedOut =>
      if p.phaseLock = none then
        some { p with phaseLock := some (.call k), calls := p.calls.set k .readPhase }
      else none
  | some .readPhase => some { p with
      phaseLock := none
      calls := p.calls.set k
        (.allocated ⟨0, "", if p.c.phase = .done then .done else .waiting, 0⟩ 0) }
  | some (.mark id kind) =>
      if p.taskLock = none then
        some { p with taskLock := some (.call k), calls := p.calls.set k (.markLocked id kind) }
      else none
  | some (.markLocked id kind) =>
      if p.heartbeatLock = none then
        some { p with
          heartbeatLock := some (.call k), calls := p.calls.set k (.markBoth id kind) }
      else none
  | some (.markBoth id _) => some { p with
      c := p.c.forget id, taskLock := none, calls := p.calls.set k .markUnlock }
  | some .markUnlock => some { p with heartbeatLock := none, calls := p.calls.set k .marked }
  | some (.allocated _ _) => none
  | some .marked => none
  | none => none

/-- The 800 ms of the `select` of call `k` have passed. -/
def timeoutStep (p : Process) (k : ℕ) : Option Process :=
  match p.calls[k]? with
  | some (.select since) =>
      if since + 800 ≤ p.now then some { p with calls := p.calls.set k .timedOut } else none
  | _ => none

/-- The ticker fires every three seconds; its channel holds one tick. -/
def tickStep (p : Process) : Option Process :=
  if p.monitor ≠ .off ∧ p.nextTick ≤ p.now then
    some { p with tick := true, nextTick := p.nextTick + 3000 }
  else none

end Process

/-- The steps of the coordinator process. -/
inductive CoordEvent where
  | pass (d : ℕ)
  | tick
  | main (receiver : Option ℕ)
  | monitor (order : List ℕ) (receiver : Option ℕ)
  | call (k : ℕ)
  | timeout (k : ℕ)
  deriving DecidableEq, Repr

def Process.step (J : Config) (p : Process) (e : CoordEvent) : Option Process :=
  if p.panicked then none
  else match e with
    | .pass d => some { p with now := p.now + d }
    | .tick => p.tickStep
    | .main receiver => p.mainStep J receiver
    | .monitor order receiver => p.monitorStep order receiver
    | .call k => p.callStep k
    | .timeout k => p.timeoutStep k

end MR
