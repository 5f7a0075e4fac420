import DistributedLabs.Counting.Tally
import DistributedLabs.MR.Completeness
import DistributedLabs.MR.Reach

/-! How many tasks the coordinator has registered, sent, handed out and crossed off, as numbers
that its steps move from one place to another. -/
namespace MR
open Runs Counting
variable {J : Config} {p q : Process}

/-- Tasks that a worker executes and reports. -/
def Task.isWork (task : Task) : Bool := task.taskType = .map || task.taskType = .reduce

/-- The call has taken a task to execute from `TaskChan`. -/
def Call.works (x : Call) : Bool := x.task.any Task.isWork

/-- A call of `MarkTaskDone` that has deleted its task. -/
def Call.deleted : Call → Bool
  | .markUnlock => true
  | .marked => true
  | .mark _ _ => false
  | .markLocked _ _ => false
  | .markBoth _ _ => false
  | .select _ => false
  | .received _ => false
  | .stamping _ => false
  | .timedOut => false
  | .readPhase => false
  | .allocated _ _ => false

/-- A call of `MarkTaskDone`. -/
def Call.marks (x : Call) : Bool := x.reported.isSome || x.deleted

/-- How many exit tasks have been sent. -/
def Main.exits (n : ℕ) : Main → ℕ
  | .exitSend i => i
  | .returned => n
  | .mapWrite _ => 0
  | .mapSend _ _ => 0
  | .checkLock _ => 0
  | .check _ => 0
  | .phaseLock _ => 0
  | .phaseSet _ => 0
  | .reduceLock => 0
  | .reduceWrite _ => 0
  | .reduceSend _ _ => 0

/-- The ids below this bound may be registered. -/
def Main.bound (J : Config) (m : Main) : ℕ :=
  if m.inMap then m.written J.files.length else m.registered J.nReduce

/-- How many tasks belong to the phases that are over. -/
def Main.closed (J : Config) (m : Main) : ℕ :=
  if m.inMap then 0 else if m.finished then J.files.length + J.nReduce else J.files.length

/-- How many tasks have been registered. -/
def Main.made (J : Config) (m : Main) : ℕ := m.closed J + m.bound J

/-- The type of the tasks that are registered. -/
def Main.stage (m : Main) : TaskType := if m.inMap then .map else .reduce

/-- The loops of `MakeCoordinator` stay within their bounds. -/
def Main.InRange (J : Config) (m : Main) : Prop :=
  m.written J.files.length ≤ J.files.length ∧ m.registered J.nReduce ≤ J.nReduce ∧
    m.exits J.nReduce ≤ J.nReduce

theorem inRange_step (hi : p.main.InRange J) (h : Process.Step J p q) : q.main.InRange J := by
  cases h with
  | mapWrite i v hm hv =>
    have hlt : i < J.files.length := (List.getElem?_eq_some_iff.mp hv).1
    show i + 1 ≤ J.files.length ∧ 0 ≤ J.nReduce ∧ 0 ≤ J.nReduce
    omega
  | mapSend i task receiver u hm hs =>
    rw [hm] at hi
    exact hi
  | reduceWrite i hm hlt =>
    show J.files.length ≤ J.files.length ∧ i + 1 ≤ J.nReduce ∧ 0 ≤ J.nReduce
    omega
  | reduceSend i task receiver u hm hs =>
    rw [hm] at hi
    exact hi
  | exitSend i receiver u hm hlt hs =>
    show J.files.length ≤ J.files.length ∧ 0 ≤ J.nReduce ∧ i + 1 ≤ J.nReduce
    omega
  | checkLock t hm | checkAgain t hm =>
    rw [hm] at hi
    exact hi
  | phaseSet t hm =>
    by_cases ht : t = .reduce <;> simp [ht, Main.InRange, Main.written, Main.registered, Main.exits]
  | monitorSend id rest receiver u hm hs =>
    simp only [send_main hs]
    exact hi
  | mapEnd | checkEnd | phaseLock | reduceLock | reduceEnd | exitEnd =>
    simp [Main.InRange, Main.written, Main.registered, Main.exits]
  | _ => exact hi

/-- The registered tasks are of the current phase, with ids below the bound. -/
def Registered (J : Config) (p : Process) : Prop :=
  ∀ id t, p.c.taskMapState.lookup id = some t → t = p.main.stage ∧ id < p.main.bound J

theorem registered_register {task : Task} {m : Main} (hi : Registered J p)
    (hstage : p.main.stage = m.stage) (htype : task.taskType = m.stage)
    (hid : p.main.bound J ≤ task.taskid) (hm : m.bound J = task.taskid + 1) :
    Registered J { p with c := p.c.register task, main := m } := by
  intro id t ht
  by_cases heq : id = task.taskid
  · subst heq
    rw [lookup_register_self] at ht
    cases ht
    exact ⟨htype, by rw [hm]; omega⟩
  · rw [lookup_register_ne p.c heq] at ht
    obtain ⟨ht, hlt⟩ := hi id t ht
    exact ⟨ht.trans hstage, by rw [hm]; omega⟩

theorem registered_of_same (hi : Registered J p)
    (hmap : q.c.taskMapState = p.c.taskMapState) (hstage : q.main.stage = p.main.stage)
    (hbound : p.main.bound J ≤ q.main.bound J) : Registered J q := by
  intro id t ht
  rw [hmap] at ht
  obtain ⟨ht, hlt⟩ := hi id t ht
  exact ⟨ht.trans hstage.symm, hlt.trans_le hbound⟩

/-- When the check of a phase succeeds, no task is registered. -/
theorem lookup_of_check (hi : Registered J p) {t : TaskType} (hm : p.main = .check t)
    (ht : p.c.anyIn t = false) (id : ℕ) : p.c.taskMapState.lookup id = none := by
  cases hid : p.c.taskMapState.lookup id with
  | none => rfl
  | some t' =>
    obtain ⟨hstage, hlt⟩ := hi id t' hid
    rw [hm] at hstage hlt
    have hne := anyIn_eq_false ht id
    cases t with
    | map =>
      rw [hid, hstage] at hne
      exact absurd rfl hne
    | reduce =>
      rw [hid, hstage] at hne
      exact absurd rfl hne
    | waiting => exact absurd hlt (Nat.not_lt_zero id)
    | done => exact absurd hlt (Nat.not_lt_zero id)

theorem registered_step (hr : p.main.InRange J) (hi : Registered J p) (h : Process.Step J p q) :
    Registered J q := by
  cases h with
  | mapWrite i v hm hv =>
    have hbound : p.main.bound J = i := by rw [hm]; rfl
    exact registered_register hi (by rw [hm]; rfl) rfl hbound.le rfl
  | reduceWrite i hm hlt =>
    have hbound : p.main.bound J = i := by rw [hm]; rfl
    exact registered_register hi (by rw [hm]; rfl) rfl hbound.le rfl
  | mapEnd i hm hv =>
    rw [Main.InRange, hm] at hr
    exact registered_of_same hi rfl (by rw [hm]; rfl) (by rw [hm]; exact hr.1)
  | reduceEnd i hm hlt =>
    rw [Main.InRange, hm] at hr
    exact registered_of_same hi rfl (by rw [hm]; rfl) (by rw [hm]; exact hr.2.1)
  | mapSend i task receiver u hm hs | reduceSend i task receiver u hm hs
  | exitSend i receiver u hm hlt hs =>
    have hmap := send_taskMapState hs
    exact registered_of_same hi hmap (by rw [hm]; rfl) (by rw [hm]; exact le_rfl)
  | checkLock t hm | checkAgain t hm | reduceLock hm | exitEnd i hm =>
    exact registered_of_same hi rfl (by rw [hm]; rfl) (by rw [hm]; exact le_rfl)
  | checkEnd t hm ht =>
    intro id t' hid
    have hnone := lookup_of_check hi hm ht id
    rw [hnone] at hid
    cases hid
  | phaseLock t hm =>
    exact registered_of_same hi rfl (by rw [hm]; rfl) (by rw [hm]; exact le_rfl)
  | phaseSet t hm =>
    intro id t' hid
    obtain ⟨-, hlt⟩ := hi id t' hid
    rw [hm] at hlt
    exact absurd hlt (Nat.not_lt_zero id)
  | monitorSend id rest receiver u hm hs =>
    have hmap := send_taskMapState hs
    have hmain := send_main hs
    exact registered_of_same hi hmap (by rw [← hmain]) (by rw [← hmain])
  | markBoth k id kind hk =>
    intro j t ht
    by_cases hid : j = id
    · subst hid
      simp [Coordinator.forget] at ht
    · rw [lookup_forget_ne p.c hid] at ht
      exact hi j t ht
  | _ => exact hi

/-- At most as many tasks are registered as the bound allows. -/
theorem keys_length_le (hi : Registered J p) :
    p.c.taskMapState.keys.length ≤ p.main.bound J := by
  have hsub : p.c.taskMapState.keys ⊆ List.range (p.main.bound J) := by
    intro id hid
    obtain ⟨t, ht⟩ := Option.isSome_iff_exists.mp (AList.lookup_isSome.mpr hid)
    exact List.mem_range.mpr (hi id t ht).2
  have hle := (p.c.taskMapState.keys_nodup.subperm hsub).length_le
  rwa [List.length_range] at hle

/-- The monitor has put a task on `TaskChan` again in this step. -/
def Process.resent (p q : Process) : Bool :=
  match p.monitor, q.monitor with
  | .send _ _, .touch _ _ => true
  | _, _ => false

/-- Whether `MakeCoordinator` has a task in hand, as a number. -/
def Main.hand (m : Main) : ℕ := m.task.isSome.toNat

/-- What a step does to the numbers of tasks. -/
inductive Flow (J : Config) (p q : Process) : Prop
  | stay (hcalls : q.calls = p.calls) (hchan : q.c.taskChan = p.c.taskChan)
      (hmap : q.c.taskMapState = p.c.taskMapState) (hmade : q.main.made J = p.main.made J)
      (hexits : q.main.exits J.nReduce = p.main.exits J.nReduce)
      (hhand : q.main.hand = p.main.hand)
  | register (task : Task) (hcalls : q.calls = p.calls) (hchan : q.c.taskChan = p.c.taskChan)
      (hid : p.main.bound J = task.taskid)
      (hmap : q.c.taskMapState = p.c.taskMapState.insert task.taskid task.taskType)
      (hmade : q.main.made J = p.main.made J + 1)
      (hexits : q.main.exits J.nReduce = p.main.exits J.nReduce)
      (hhand : q.main.hand = p.main.hand + 1)
  | send (sent : Option Task) (receiver : Option ℕ) (u : Process)
      (hs : p.send sent receiver = some u) (hcalls : q.calls = u.calls)
      (hchan : q.c.taskChan = u.c.taskChan) (hmap : q.c.taskMapState = p.c.taskMapState)
      (hmade : q.main.made J = p.main.made J)
      (hpaid : p.main.exits J.nReduce + q.main.hand + 1 ≤
        q.main.exits J.nReduce + p.main.hand + (p.resent q).toNat)
  | receive (k since : ℕ) (task : Option Task) (hk : p.calls[k]? = some (.select since))
      (hcalls : q.calls = p.calls.set k (.received task))
      (hchan : p.c.taskChan = task :: q.c.taskChan)
      (hmap : q.c.taskMapState = p.c.taskMapState) (hmain : q.main = p.main)
  | advance (k : ℕ) (x y : Call) (hk : p.calls[k]? = some x)
      (hcalls : q.calls = p.calls.set k y) (hworks : y.works = x.works)
      (hmarks : y.marks = x.marks) (hdeleted : y.deleted = x.deleted)
      (hchan : q.c.taskChan = p.c.taskChan) (hmap : q.c.taskMapState = p.c.taskMapState)
      (hmain : q.main = p.main)
  | delete (k id : ℕ) (kind : TaskType) (hk : p.calls[k]? = some (.markBoth id kind))
      (hcalls : q.calls = p.calls.set k .markUnlock) (hchan : q.c.taskChan = p.c.taskChan)
      (hmap : q.c.taskMapState = p.c.taskMapState.erase id) (hmain : q.main = p.main)

theorem made_of_check (J : Config) (t : TaskType) :
    (Main.phaseLock (if t = .map then .reduce else .done)).made J = (Main.check t).made J := by
  cases t <;> simp [Main.made, Main.closed, Main.bound, Main.inMap, Main.finished, Main.registered,
    Main.written]

theorem made_of_phaseSet (J : Config) (t : TaskType) :
    (if t = .reduce then Main.reduceLock else Main.exitSend 0).made J =
      (Main.phaseSet t).made J := by
  by_cases ht : t = .reduce <;> simp [ht, Main.made, Main.closed, Main.bound, Main.inMap,
    Main.finished, Main.registered]

theorem Process.Step.flow (hr : p.main.InRange J) (h : Process.Step J p q) : Flow J p q := by
  cases h with
  | mapWrite i v hm hv =>
    refine .register (makeMapTask v i J.nReduce) rfl rfl ?_ rfl ?_ ?_ ?_ <;> rw [hm]
    · rfl
    · show 0 + (i + 1) = 0 + i + 1
      omega
    · rfl
    · rfl
  | reduceWrite i hm hlt =>
    refine .register (makeReduceTask i J.nReduce) rfl rfl ?_ rfl ?_ ?_ ?_ <;> rw [hm] <;> rfl
  | mapEnd i hm hv =>
    rw [Main.InRange, hm] at hr
    have hi : J.files.length = i := hr.1.antisymm' (List.getElem?_eq_none_iff.mp hv)
    refine .stay rfl rfl rfl ?_ ?_ ?_ <;> rw [hm]
    · show 0 + J.files.length = 0 + i
      rw [hi]
    · rfl
    · rfl
  | reduceEnd i hm hlt =>
    rw [Main.InRange, hm] at hr
    have hi : J.nReduce = i := hr.2.1.antisymm' (not_lt.mp hlt)
    refine .stay rfl rfl rfl ?_ ?_ ?_ <;> rw [hm]
    · show J.files.length + J.nReduce = J.files.length + i
      rw [hi]
    · rfl
    · rfl
  | mapSend i task receiver u hm hs | reduceSend i task receiver u hm hs =>
    have hmap := send_taskMapState hs
    refine .send (some task) receiver u hs rfl rfl hmap ?_ ?_
    · rw [hm]
      rfl
    · rw [hm]
      exact Nat.le_add_right 1 _
  | exitSend i receiver u hm hlt hs =>
    have hmap := send_taskMapState hs
    refine .send _ receiver u hs rfl rfl hmap ?_ ?_
    · rw [hm]
      rfl
    · rw [hm]
      exact Nat.le_add_right (i + 1) _
  | monitorSend id rest receiver u hm hs =>
    have hmap := send_taskMapState hs
    have hmain := send_main hs
    have hresent : p.resent { u with monitor := .touch id rest } = true := by
      simp [Process.resent, hm]
    refine .send _ receiver u hs rfl rfl hmap (by rw [← hmain]) ?_
    rw [hresent, ← hmain]
    exact le_rfl
  | checkLock t hm | checkAgain t hm | phaseLock t hm | reduceLock hm =>
    refine .stay rfl rfl rfl ?_ ?_ ?_ <;> rw [hm] <;> rfl
  | checkEnd t hm ht =>
    refine .stay rfl rfl rfl ?_ ?_ ?_ <;> rw [hm]
    · exact made_of_check J t
    · rfl
    · rfl
  | phaseSet t hm =>
    refine .stay rfl rfl rfl ?_ ?_ ?_ <;> rw [hm]
    · exact made_of_phaseSet J t
    · cases t <;> rfl
    · cases t <;> rfl
  | exitEnd i hm hlt =>
    rw [Main.InRange, hm] at hr
    have hi : J.nReduce = i := hr.2.2.antisymm' (not_lt.mp hlt)
    refine .stay rfl rfl rfl ?_ ?_ ?_ <;> rw [hm]
    · rfl
    · exact hi
    · rfl
  | receive k since task rest hk hc => exact .receive k since task hk rfl hc rfl rfl
  | markBoth k id kind hk => exact .delete k id kind hk rfl rfl rfl rfl
  | readPhase k hk =>
    refine .advance k _ _ hk rfl ?_ rfl rfl rfl rfl rfl
    by_cases hd : p.c.phase = .done <;> simp [hd, Call.works, Call.task, Task.isWork]
  | stampLock k task hk | stamp k task hk | readLock k hk | mark k id kind hk
  | markLocked k id kind hk | markUnlock k hk | timeout k since hk =>
    exact .advance k _ _ hk rfl rfl rfl rfl rfl rfl rfl
  | _ => exact .stay rfl rfl rfl rfl rfl rfl

/-- The tasks in the hand of `MakeCoordinator`, on `TaskChan`, and with the calls that have taken
one to execute. -/
def Process.load (p : Process) : ℕ :=
  p.main.hand + p.c.taskChan.length + p.calls.countP Call.works

theorem send_load {sent : Option Task} {receiver : Option ℕ} {u : Process}
    (hs : p.send sent receiver = some u) :
    u.c.taskChan.length + u.calls.countP Call.works ≤
      p.c.taskChan.length + p.calls.countP Call.works + 1 := by
  rcases send_cases hs with rfl | ⟨k, since, hk, rfl⟩
  · simp only [List.length_append, List.length_singleton]
    omega
  · have hset := countP_set (p := Call.works) (y := .received sent) hk
    have hle := Bool.toNat_le (Call.received sent).works
    simp only
    omega

/-- What is under way grows only with what is registered, the exit tasks and the monitor. -/
theorem load_step (h : Flow J p q) :
    q.load + p.main.made J + p.main.exits J.nReduce ≤
      p.load + q.main.made J + q.main.exits J.nReduce + (p.resent q).toNat := by
  unfold Process.load
  cases h with
  | stay hcalls hchan hmap hmade hexits hhand =>
    rw [hcalls, hchan, hmade, hexits, hhand]
    omega
  | register task hcalls hchan hid hmap hmade hexits hhand =>
    rw [hcalls, hchan, hmade, hexits, hhand]
    omega
  | send sent receiver u hs hcalls hchan hmap hmade hpaid =>
    have hload := send_load hs
    rw [hcalls, hchan, hmade]
    omega
  | receive k since task hk hcalls hchan hmap hmain =>
    have hset := countP_set (p := Call.works) (y := .received task) hk
    have hle := Bool.toNat_le (Call.received task).works
    rw [hcalls, hchan, hmain, List.length_cons]
    omega
  | advance k x y hk hcalls hworks hmarks hdeleted hchan hmap hmain =>
    have hset := countP_set (p := Call.works) (y := y) hk
    rw [hcalls, hchan, hmain]
    rw [hworks] at hset
    omega
  | delete k id kind hk hcalls hchan hmap hmain =>
    have hset := countP_set (p := Call.works) (y := .markUnlock) hk
    have hnone : (Call.markBoth id kind).works = Call.markUnlock.works := rfl
    rw [hcalls, hchan, hmain]
    rw [hnone] at hset
    omega

theorem send_deleted {sent : Option Task} {receiver : Option ℕ} {u : Process}
    (hs : p.send sent receiver = some u) :
    u.calls.countP Call.deleted = p.calls.countP Call.deleted := by
  rcases send_cases hs with rfl | ⟨k, since, hk, rfl⟩
  · rfl
  · exact countP_set (p := Call.deleted) (y := .received sent) hk

/-- A registered task stays registered until a call deletes it. -/
theorem made_step (hi : Registered J p) (h : Flow J p q)
    (hm : p.main.made J ≤ p.c.taskMapState.keys.length + p.calls.countP Call.deleted) :
    q.main.made J ≤ q.c.taskMapState.keys.length + q.calls.countP Call.deleted := by
  cases h with
  | stay hcalls hchan hmap hmade hexits hhand =>
    rw [hcalls, hmap, hmade]
    exact hm
  | register task hcalls hchan hid hmap hmade hexits hhand =>
    have hnew : task.taskid ∉ p.c.taskMapState.keys := by
      intro hmem
      obtain ⟨t, ht⟩ := Option.isSome_iff_exists.mp (AList.lookup_isSome.mpr hmem)
      have hlt := (hi task.taskid t ht).2
      omega
    rw [hcalls, hmap, hmade, AList.keys_insert, List.erase_of_not_mem hnew, List.length_cons]
    omega
  | send sent receiver u hs hcalls hchan hmap hmade hpaid =>
    rw [hcalls, send_deleted hs, hmap, hmade]
    exact hm
  | receive k since task hk hcalls hchan hmap hmain =>
    have hset := countP_set (p := Call.deleted) (y := .received task) hk
    have hsame : (Call.received task).deleted = (Call.select since).deleted := rfl
    rw [hsame] at hset
    rw [hcalls, hmap, hmain]
    omega
  | advance k x y hk hcalls hworks hmarks hdeleted hchan hmap hmain =>
    have hset := countP_set (p := Call.deleted) (y := y) hk
    rw [hdeleted] at hset
    rw [hcalls, hmap, hmain]
    omega
  | delete k id kind hk hcalls hchan hmap hmain =>
    have hset := countP_set (p := Call.deleted) (y := .markUnlock) hk
    have hone : (Call.markBoth id kind).deleted.toNat + 1 = Call.markUnlock.deleted.toNat := rfl
    have herase : p.c.taskMapState.keys.length - 1 ≤ (p.c.taskMapState.keys.erase id).length :=
      List.le_length_erase
    rw [hcalls, hmap, hmain, AList.keys_erase]
    omega

/-- The books of the coordinator after the monitor has sent `m` tasks. -/
structure FlowInv (J : Config) (m : ℕ) (p : Process) : Prop where
  lenfiles : p.c.lenfiles = J.files.length
  inRange : p.main.InRange J
  registered : Registered J p
  made : p.main.made J ≤ p.c.taskMapState.keys.length + p.calls.countP Call.deleted
  load : p.load ≤ p.main.made J + p.main.exits J.nReduce + m

theorem flowInv_init (J : Config) : FlowInv J 0 (.init J.files) where
  lenfiles := rfl
  inRange := by simp [Process.init, Main.InRange, Main.written, Main.registered, Main.exits]
  registered := by
    intro id t ht
    simp [Process.init] at ht
  made := Nat.zero_le _
  load := Nat.zero_le _

theorem flowInv_step {m : ℕ} (hi : FlowInv J m p) (h : Process.Step J p q) :
    FlowInv J (m + (p.resent q).toNat) q where
  lenfiles := h.lenfiles.trans hi.lenfiles
  inRange := inRange_step hi.inRange h
  registered := registered_step hi.inRange hi.registered h
  made := made_step hi.registered (h.flow hi.inRange) hi.made
  load := by
    have hstep := load_step (h.flow hi.inRange)
    have hload := hi.load
    omega

theorem flowInv_issue {m : ℕ} (hi : FlowInv J m p) {x : Call} (hx : x.Fresh) :
    FlowInv J m (p.issue x) where
  lenfiles := hi.lenfiles
  inRange := hi.inRange
  registered := hi.registered
  made := by
    have hmade := hi.made
    show p.main.made J ≤ p.c.taskMapState.keys.length + (p.calls ++ [x]).countP Call.deleted
    rw [List.countP_append]
    omega
  load := by
    have hnone : [x].countP Call.works = 0 := by
      cases hx <;> rfl
    have hload := hi.load
    unfold Process.load at *
    show p.main.hand + p.c.taskChan.length + (p.calls ++ [x]).countP Call.works ≤ _
    rw [List.countP_append, hnone]
    exact hload

theorem FlowInv.mono {m m' : ℕ} (hi : FlowInv J m p) (h : m ≤ m') : FlowInv J m' p where
  lenfiles := hi.lenfiles
  inRange := hi.inRange
  registered := hi.registered
  made := hi.made
  load := hi.load.trans (Nat.add_le_add_left h _)

/-- How many tasks the monitor has put on `TaskChan` again in a run. -/
def resends {ι : Type*} [DecidableEq ι] (J : Job) (es : List (Event ι)) : ℕ :=
  (system J ι).countSteps (fun s _ t => s.coord.resent t.coord) (.init J ι) es

theorem flowInv_of_run {ι : Type*} [DecidableEq ι] {J : Job} {es : List (Event ι)} {s : State ι}
    (h : (system J ι).Run es s) : FlowInv J.toConfig (resends J es) s.coord := by
  refine h.invariant' (I := fun es s => FlowInv J.toConfig (resends J es) s.coord) ?_ ?_
  · exact flowInv_init J.toConfig
  intro es s e t hr hi ht
  have hcount : resends J (es ++ [e]) = resends J es + (s.coord.resent t.coord).toNat :=
    System.countSteps_snoc _ hr ht
  rw [hcount]
  rcases State.step_cases ht with ⟨a, p, rfl, hp, rfl⟩ | ⟨w, hw⟩
  · exact flowInv_step hi (.of_step hp)
  · rcases hw.coord with heq | ⟨x, hx, heq⟩
    · rw [heq]
      exact hi.mono (Nat.le_add_right _ _)
    · rw [heq]
      exact (flowInv_issue hi hx).mono (Nat.le_add_right _ _)

/-- Every task of a phase that is over has been deleted by a report. -/
theorem closed_le_deleted {m : ℕ} (hi : FlowInv J m p) :
    p.main.closed J ≤ p.calls.countP Call.deleted := by
  have hmade := hi.made
  have hkeys := keys_length_le hi.registered
  unfold Main.made at hmade
  omega

end MR
