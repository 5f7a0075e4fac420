import DistributedLabs.MR.Steps
import DistributedLabs.Runs.Records

/-! What the steps of the coordinator do to its tasks, to the reports it has received and to
the registered states. -/
namespace MR
open Runs
variable {J : Config} {p q : Process}

/-- The task that a call has received or returns. -/
def Call.task : Call → Option Task
  | .received task => task
  | .stamping task => task
  | .allocated task _ => some task
  | .select _ => none
  | .timedOut => none
  | .readPhase => none
  | .mark _ _ => none
  | .markLocked _ _ => none
  | .markBoth _ _ => none
  | .markUnlock => none
  | .marked => none

/-- The report that a call still has to process. -/
def Call.reported : Call → Option (ℕ × TaskType)
  | .mark id kind => some (id, kind)
  | .markLocked id kind => some (id, kind)
  | .markBoth id kind => some (id, kind)
  | .received _ => none
  | .stamping _ => none
  | .allocated _ _ => none
  | .select _ => none
  | .timedOut => none
  | .readPhase => none
  | .markUnlock => none
  | .marked => none

/-- The task that `MakeCoordinator` is about to send. -/
def Main.task : Main → Option Task
  | .mapSend _ task => some task
  | .reduceSend _ task => some task
  | .mapWrite _ => none
  | .checkLock _ => none
  | .check _ => none
  | .phaseLock _ => none
  | .phaseSet _ => none
  | .reduceLock => none
  | .reduceWrite _ => none
  | .exitSend _ => none
  | .returned => none

/-- The coordinator holds a copy of the task somewhere. -/
def Process.Holds (p : Process) (task : Task) : Prop :=
  (∃ id, p.c.tasks.lookup id = some task) ∨ some task ∈ p.c.taskChan ∨
    (∃ x ∈ p.calls, x.task = some task) ∨ p.main.task = some task

/-- The tasks that a step may make. -/
inductive Made (J : Config) (p : Process) : Task → Prop
  | map (i : ℕ) (v : String) (hm : p.main = .mapWrite i) (hv : J.files[i]? = some v) :
      Made J p (makeMapTask v i J.nReduce)
  | reduce (i : ℕ) (hm : p.main = .reduceWrite i) (hi : i < J.nReduce) :
      Made J p (makeReduceTask i J.nReduce)
  | control (task : Task) (ht : task.taskType = .waiting ∨ task.taskType = .done) : Made J p task

/-- A task that is held after a step is where it was, or it has moved or has been made. -/
theorem holds_of {P : Task → Prop} {task : Task} (hq : q.Holds task)
    (hP : ∀ task, p.Holds task → P task)
    (htasks : ∀ id task, q.c.tasks.lookup id = some task →
      p.c.tasks.lookup id = some task ∨ P task)
    (hchan : ∀ task, some task ∈ q.c.taskChan → some task ∈ p.c.taskChan ∨ P task)
    (hcalls : ∀ x ∈ q.calls, x ∈ p.calls ∨ ∀ task, x.task = some task → P task)
    (hmain : ∀ task, q.main.task = some task → p.main.task = some task ∨ P task) : P task := by
  rcases hq with ⟨id, hid⟩ | hc | ⟨x, hx, hxt⟩ | hm
  · exact (htasks id task hid).elim (fun h => hP task (.inl ⟨id, h⟩)) fun h => h
  · exact (hchan task hc).elim (fun h => hP task (.inr (.inl h))) fun h => h
  · exact (hcalls x hx).elim (fun h => hP task (.inr (.inr (.inl ⟨x, h, hxt⟩)))) fun h => h task hxt
  · exact (hmain task hm).elim (fun h => hP task (.inr (.inr (.inr h)))) fun h => h

/-- A step that moves no task and leaves the main thread with none, or where it was. -/
theorem holds_of_same {P : Task → Prop} {task : Task} (hq : q.Holds task)
    (hP : ∀ task, p.Holds task → P task) (htasks : q.c.tasks = p.c.tasks)
    (hchan : q.c.taskChan = p.c.taskChan)
    (hcalls : q.calls = p.calls) (hmain : q.main.task = none ∨ q.main = p.main) : P task := by
  refine holds_of hq hP (fun id t h => .inl (htasks ▸ h)) (fun t h => .inl (hchan ▸ h))
    (fun x h => .inl (hcalls ▸ h)) ?_
  intro t ht
  rcases hmain with h | h
  · rw [h] at ht
    cases ht
  · exact .inl (h ▸ ht)

/-- A step of a call that keeps or drops its task. -/
theorem holds_of_call {P : Task → Prop} {task : Task} (hq : q.Holds task)
    (hP : ∀ task, p.Holds task → P task) {k : ℕ} {x : Call}
    (htasks : ∀ id task, q.c.tasks.lookup id = some task →
      p.c.tasks.lookup id = some task ∨ P task)
    (hchan : ∀ t ∈ q.c.taskChan, t ∈ p.c.taskChan)
    (hcalls : q.calls = p.calls.set k x) (hx : ∀ task, x.task = some task → P task)
    (hmain : q.main = p.main) : P task := by
  refine holds_of hq hP htasks (fun t h => .inl (hchan _ h)) ?_ (fun t h => .inl (hmain ▸ h))
  intro y hy
  rw [hcalls] at hy
  rcases List.mem_or_eq_of_mem_set hy with h | rfl
  · exact .inl h
  · exact .inr hx

/-- A send moves the sender's task only. -/
theorem holds_of_send {P : Task → Prop} {task : Task} {u : Process} {m : Main} {M : Monitor}
    (hq : Process.Holds { u with main := m, monitor := M } task)
    (hP : ∀ task, p.Holds task → P task) {sent : Option Task} {receiver : Option ℕ}
    (hs : p.send sent receiver = some u) (hsent : ∀ task, sent = some task → P task)
    (hm : m.task = none ∨ m = p.main) : P task := by
  have hmain : ∀ t, m.task = some t → p.main.task = some t ∨ P t := by
    intro t ht
    rcases hm with h | h
    · rw [h] at ht
      cases ht
    · exact .inl (h ▸ ht)
  rcases send_cases hs with rfl | ⟨k, since, -, rfl⟩
  · refine holds_of hq hP (fun _ _ h => .inl h) ?_ (fun _ h => .inl h) hmain
    intro t ht
    rw [List.mem_append, List.mem_singleton] at ht
    exact ht.imp_right fun h => hsent t h.symm
  · refine holds_of hq hP (fun _ _ h => .inl h) (fun _ h => .inl h) ?_ hmain
    intro x hx
    rcases List.mem_or_eq_of_mem_set hx with h | rfl
    · exact .inl h
    · exact .inr hsent

theorem lookup_register {c : Coordinator} {new task : Task} {id : ℕ}
    (h : (c.register new).tasks.lookup id = some task) :
    c.tasks.lookup id = some task ∨ task = new := by
  by_cases hid : id = new.taskid
  · subst hid
    exact .inr (by simpa [Coordinator.register] using h.symm)
  · exact .inl (by simpa [Coordinator.register, AList.lookup_insert_ne hid] using h)

theorem lookup_forget {c : Coordinator} {task : Task} {id id' : ℕ}
    (h : (c.forget id').tasks.lookup id = some task) : c.tasks.lookup id = some task := by
  by_cases hid : id = id'
  · subst hid
    simp [Coordinator.forget] at h
  · simpa [Coordinator.forget, AList.lookup_erase_ne hid] using h

/-- Every task that the coordinator holds after a step was held before or has been made. -/
theorem Process.Step.holds {P : Task → Prop} (h : Process.Step J p q)
    (hP : ∀ task, p.Holds task → P task) (hmade : ∀ task, Made J p task → P task) {task : Task}
    (hq : q.Holds task) : P task := by
  have hcall : ∀ {k : ℕ} {x : Call}, p.calls[k]? = some x → ∀ task, x.task = some task → P task :=
    fun hk t ht => hP t (.inr (.inr (.inl ⟨_, List.mem_of_getElem? hk, ht⟩)))
  cases h with
  | mapWrite i v hm hv =>
    have hnew := hmade _ (.map i v hm hv)
    refine holds_of hq hP ?_ (fun _ h => .inl h) (fun _ h => .inl h) ?_
    · exact fun id t ht => (lookup_register ht).imp_right (by rintro rfl; exact hnew)
    · exact fun t ht => .inr (Option.some.inj ht ▸ hnew)
  | reduceWrite i hm hi =>
    have hnew := hmade _ (.reduce i hm hi)
    refine holds_of hq hP ?_ (fun _ h => .inl h) (fun _ h => .inl h) ?_
    · exact fun id t ht => (lookup_register ht).imp_right (by rintro rfl; exact hnew)
    · exact fun t ht => .inr (Option.some.inj ht ▸ hnew)
  | mapSend i sent receiver u hm hs =>
    refine holds_of_send hq hP hs ?_ (.inl rfl)
    exact fun t ht => hP t (.inr (.inr (.inr (by rw [hm]; exact ht))))
  | reduceSend i sent receiver u hm hs =>
    refine holds_of_send hq hP hs ?_ (.inl rfl)
    exact fun t ht => hP t (.inr (.inr (.inr (by rw [hm]; exact ht))))
  | exitSend i receiver u hm hi hs =>
    refine holds_of_send hq hP hs ?_ (.inl rfl)
    exact fun t ht => hmade t (.control t (.inr (Option.some.inj ht ▸ rfl)))
  | monitorSend id rest receiver u hm hs =>
    have hmain : u.main = p.main := by
      rcases send_cases hs with rfl | ⟨_, _, -, rfl⟩ <;> rfl
    refine holds_of_send hq hP hs ?_ (.inr hmain)
    exact fun t ht => hP t (.inl ⟨id, ht⟩)
  | receive k since sent rest hk hc =>
    refine holds_of_call hq hP (fun _ _ h => .inl h) ?_ rfl ?_ rfl
    · exact fun t ht => hc ▸ List.mem_cons_of_mem _ ht
    · exact fun t ht => hP t (.inr (.inl (by rw [hc, show sent = some t from ht]; simp)))
  | stampLock k sent hk hl =>
    have hsent := hcall hk
    exact holds_of_call hq hP (fun _ _ h => .inl h) (fun _ h => h) rfl hsent rfl
  | stamp k sent hk =>
    have hsent := hcall hk
    exact holds_of_call hq hP (fun _ _ h => .inl h) (fun _ h => h) rfl hsent rfl
  | readPhase k hk =>
    refine holds_of_call hq hP (fun _ _ h => .inl h) (fun _ h => h) rfl ?_ rfl
    intro t ht
    obtain rfl := Option.some.inj ht
    refine hmade _ (.control _ ?_)
    by_cases hd : p.c.phase = .done <;> simp [hd]
  | markBoth k id kind hk =>
    refine holds_of_call hq hP (fun _ _ h => .inl (lookup_forget h)) (fun _ h => h) rfl ?_ rfl
    exact fun t ht => nomatch ht
  | readLock k hk | mark k id kind hk | markLocked k id kind hk | markUnlock k hk
  | timeout k since hk =>
    exact holds_of_call hq hP (fun _ _ h => .inl h) (fun _ h => h) rfl (fun t ht => nomatch ht) rfl
  | pass | tick | monitorTick | monitorLock | scanEnd | scanNext | monitorTaskLock | expired | alive
  | touch | panic => exact holds_of_same hq hP rfl rfl rfl (.inr rfl)
  | phaseSet t hm =>
    refine holds_of_same hq hP rfl rfl rfl (.inl ?_)
    by_cases ht : t = .reduce <;> simp [ht, Main.task]
  | mapEnd | checkLock | checkAgain | checkEnd | phaseLock | reduceLock | reduceEnd | exitEnd =>
    exact holds_of_same hq hP rfl rfl rfl (.inl rfl)

/-- A report that is waiting after a step was waiting before. -/
theorem Process.Step.reported (h : Process.Step J p q) {x : Call} {m : ℕ × TaskType}
    (hx : x ∈ q.calls) (hm : x.reported = some m) : ∃ y ∈ p.calls, y.reported = some m := by
  have hset : ∀ {k : ℕ} {y z : Call}, p.calls[k]? = some y → x ∈ p.calls.set k z →
      (z.reported = some m → y.reported = some m) → ∃ y ∈ p.calls, y.reported = some m := by
    intro k y z hk hx hyz
    rcases List.mem_or_eq_of_mem_set hx with h | rfl
    · exact ⟨x, h, hm⟩
    · exact ⟨y, List.mem_of_getElem? hk, hyz hm⟩
  have hsend : ∀ {sent : Option Task} {receiver : Option ℕ} {u : Process},
      p.send sent receiver = some u → x ∈ u.calls → ∃ y ∈ p.calls, y.reported = some m := by
    intro sent receiver u hs hx
    rcases send_cases hs with rfl | ⟨k, since, hk, rfl⟩
    · exact ⟨x, hx, hm⟩
    · exact hset hk hx fun h => nomatch h
  cases h with
  | mapSend i sent receiver u _ hs => exact hsend hs hx
  | reduceSend i sent receiver u _ hs => exact hsend hs hx
  | exitSend i receiver u _ _ hs => exact hsend hs hx
  | monitorSend id rest receiver u _ hs => exact hsend hs hx
  | mark k id kind hk => exact hset hk hx fun h => h
  | markLocked k id kind hk => exact hset hk hx fun h => h
  | receive k since sent rest hk | stampLock k sent hk | stamp k sent hk | readLock k hk
  | readPhase k hk | markBoth k id kind hk | markUnlock k hk | timeout k since hk =>
    exact hset hk hx fun h => nomatch h
  | pass | tick | mapWrite | mapEnd | checkLock | checkAgain | checkEnd | phaseLock | phaseSet
  | reduceLock | reduceWrite | reduceEnd | exitEnd | monitorTick | monitorLock | scanEnd | scanNext
  | monitorTaskLock | expired | alive | touch | panic => exact ⟨x, hx, hm⟩

theorem send_lenfiles {sent : Option Task} {receiver : Option ℕ} {u : Process}
    (hs : p.send sent receiver = some u) : u.c.lenfiles = p.c.lenfiles := by
  rcases send_cases hs with rfl | ⟨k, since, -, rfl⟩ <;> rfl

theorem Process.Step.lenfiles (h : Process.Step J p q) : q.c.lenfiles = p.c.lenfiles := by
  cases h with
  | mapSend i sent receiver u _ hs | reduceSend i sent receiver u _ hs
  | exitSend i receiver u _ _ hs | monitorSend id rest receiver u _ hs =>
    have hu := send_lenfiles hs
    exact hu
  | _ => rfl

/-- A task is handed out with the number of files, unless it only tells the worker to wait or
to exit. -/
theorem Process.Step.allocated (h : Process.Step J p q) {task : Task} {L : ℕ}
    (hx : .allocated task L ∈ q.calls) :
    .allocated task L ∈ p.calls ∨ L = p.c.lenfiles ∨
      task.taskType = .waiting ∨ task.taskType = .done := by
  have hset : ∀ {k : ℕ} {z : Call}, .allocated task L ∈ p.calls.set k z → .allocated task L ≠ z →
      .allocated task L ∈ p.calls := by
    intro k z hx hne
    exact (List.mem_or_eq_of_mem_set hx).resolve_right hne
  have hsend : ∀ {sent : Option Task} {receiver : Option ℕ} {u : Process},
      p.send sent receiver = some u → .allocated task L ∈ u.calls →
        .allocated task L ∈ p.calls := by
    intro sent receiver u hs hx
    rcases send_cases hs with rfl | ⟨k, since, hk, rfl⟩
    · exact hx
    · exact hset hx nofun
  cases h with
  | mapSend i sent receiver u _ hs => exact .inl (hsend hs hx)
  | reduceSend i sent receiver u _ hs => exact .inl (hsend hs hx)
  | exitSend i receiver u _ _ hs => exact .inl (hsend hs hx)
  | monitorSend id rest receiver u _ hs => exact .inl (hsend hs hx)
  | stamp k sent hk =>
    rcases List.mem_or_eq_of_mem_set hx with h | h
    · exact .inl h
    · cases h
      exact .inr (.inl rfl)
  | readPhase k hk =>
    rcases List.mem_or_eq_of_mem_set hx with h | h
    · exact .inl h
    · cases h
      refine .inr (.inr ?_)
      by_cases hd : p.c.phase = .done <;> simp [hd]
  | receive k since sent rest hk | stampLock k sent hk | readLock k hk | mark k id kind hk
  | markLocked k id kind hk | markBoth k id kind hk | markUnlock k hk | timeout k since hk =>
    exact .inl (hset hx nofun)
  | pass | tick | mapWrite | mapEnd | checkLock | checkAgain | checkEnd | phaseLock | phaseSet
  | reduceLock | reduceWrite | reduceEnd | exitEnd | monitorTick | monitorLock | scanEnd | scanNext
  | monitorTaskLock | expired | alive | touch | panic => exact .inl hx

end MR
