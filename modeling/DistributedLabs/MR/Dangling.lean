import DistributedLabs.MR.Completeness
import DistributedLabs.MR.Copies
import DistributedLabs.MR.Locks

/-! Liveness records without a task. `MarkTaskDone` deletes a task while another copy of it may
be on its way; the `AllocateTask` that receives this copy then records an id that `Tasks` does
not have, and `monitor` sends nil for it. -/
namespace MR
open Runs Locking
variable {J : Config} {p q : Process} {e : CoordEvent}

/-- Every watched id has a task, and nil is neither sent nor dereferenced. -/
structure NoDangling (p : Process) : Prop where
  alive : ∀ id ∈ p.c.taskAliveDetector, id ∈ p.c.tasks
  copies : none ∉ p.copies
  running : p.panicked = false

/-- `MarkTaskDone` is at its deletions for a task of which a copy is on its way. -/
def DeletesQueued (p : Process) : CoordEvent → Bool
  | .call k =>
      match p.calls[k]? with
      | some (.markBoth id _) => p.copies.any fun t => t.any fun task => task.taskid = id
      | _ => false
  | .pass _ => false
  | .tick => false
  | .main _ => false
  | .monitor _ _ => false
  | .timeout _ => false

/-- The ids that `monitor` still has to look at. -/
def Monitor.ids : Monitor → List ℕ
  | .scan rest => rest
  | .taskLock id rest => id :: rest
  | .check id rest => id :: rest
  | .send id rest => id :: rest
  | .touch id rest => id :: rest
  | .off => []
  | .waiting => []
  | .lock => []

/-- How the position of `MakeCoordinator` goes with `Phase`. -/
def Main.Fits (phase : TaskType) : Main → Prop
  | .checkLock t => (t = .map ∨ t = .reduce) ∧ phase ≠ .done
  | .check t => (t = .map ∨ t = .reduce) ∧ phase ≠ .done
  | .phaseLock t => (t = .reduce ∨ t = .done) ∧ phase ≠ .done
  | .phaseSet t => (t = .reduce ∨ t = .done) ∧ phase ≠ .done
  | .exitSend _ => phase = .done
  | .returned => phase = .done
  | .mapWrite _ => phase ≠ .done
  | .mapSend _ _ => phase ≠ .done
  | .reduceLock => phase ≠ .done
  | .reduceWrite _ => phase ≠ .done
  | .reduceSend _ _ => phase ≠ .done

theorem fits_step (hi : p.main.Fits p.c.phase) (h : Process.Step J p q) :
    q.main.Fits q.c.phase := by
  cases h with
  | mapWrite i v hm | mapEnd i hm | checkLock t hm | checkAgain t hm | phaseLock t hm
  | reduceLock hm | reduceWrite i hm | reduceEnd i hm | exitEnd i hm =>
    rw [hm] at hi
    first
      | exact hi
      | exact ⟨.inl rfl, hi⟩
      | exact ⟨.inr rfl, hi⟩
  | checkEnd t hm =>
    rw [hm] at hi
    by_cases ht : t = .map
    · simp only [ht, if_true]
      exact ⟨.inl rfl, hi.2⟩
    · simp only [ht, if_false]
      exact ⟨.inr rfl, hi.2⟩
  | phaseSet t hm =>
    rw [hm] at hi
    rcases hi.1 with rfl | rfl
    · exact fun h => nomatch h
    · rfl
  | mapSend i sent receiver u hm hs | reduceSend i sent receiver u hm hs
  | exitSend i receiver u hm hlt hs =>
    rw [hm] at hi
    have hu := send_phase hs
    rw [← hu] at hi
    exact hi
  | monitorSend id rest receiver u hm hs =>
    rw [← send_phase hs, ← send_main hs] at hi
    exact hi
  | _ => exact hi

/-- `Phase` never leaves `DoneTask`. -/
theorem phase_of_step (hi : p.main.Fits p.c.phase) (h : Process.Step J p q)
    (hp : p.c.phase = .done) : q.c.phase = .done := by
  cases h with
  | phaseSet t hm =>
    rw [hm] at hi
    exact absurd hp hi.2
  | mapSend i sent receiver u hm hs | reduceSend i sent receiver u hm hs
  | exitSend i receiver u hm hlt hs | monitorSend id rest receiver u hm hs =>
    have hu := (send_phase hs).trans hp
    exact hu
  | _ => exact hp

/-- What is true before `Phase` is `DoneTask`. -/
structure Watched (p : Process) : Prop where
  alive : ∀ id ∈ p.c.taskAliveDetector, id ∈ p.c.tasks
  copies : ∀ t ∈ p.copies, ∃ task, t = some task ∧ task.taskid ∈ p.c.tasks
  monitor : ∀ id ∈ p.monitor.ids, id ∈ p.c.taskAliveDetector
  running : p.panicked = false

structure DanglingInv (p : Process) : Prop where
  locks : LockInv p
  fits : p.main.Fits p.c.phase
  keyed : ∀ id task, p.c.tasks.lookup id = some task → task.taskid = id
  watched : p.c.phase ≠ .done → Watched p

/-- `monitor` looks at no id while `MarkTaskDone` deletes. -/
theorem ids_eq_nil (hi : LockInv p) {k id : ℕ} {kind : TaskType}
    (hk : p.calls[k]? = some (.markBoth id kind)) : p.monitor.ids = [] := by
  have hcall : p.locks.holds (.call k) .heartbeatLock = true := holds_call hk _
  have hfree : p.monitor.holds .heartbeatLock = false := by
    rw [← Bool.not_eq_true]
    intro hM
    have hmonitor : p.locks.holds .monitor .heartbeatLock = true := hM
    cases hi.consistent.unique hcall hmonitor
  cases hm : p.monitor with
  | off | waiting | lock => rfl
  | scan | taskLock | check | send | touch =>
    rw [hm] at hfree
    cases hfree

theorem keyed_step (hi : ∀ id task, p.c.tasks.lookup id = some task → task.taskid = id)
    (h : Process.Step J p q) (id : ℕ) (task : Task) (hq : q.c.tasks.lookup id = some task) :
    task.taskid = id := by
  cases h.maps with
  | same hstate htasks halive =>
    rw [htasks] at hq
    exact hi id task hq
  | register new hc hm =>
    rw [hc] at hq
    by_cases hid : id = new.taskid
    · subst hid
      simp only [Coordinator.register, AList.lookup_insert, Option.some.injEq] at hq
      rw [hq]
    · simp only [Coordinator.register, AList.lookup_insert_ne hid] at hq
      exact hi id task hq
  | stamp k new hk hc | touch id' rest hm hc =>
    rw [hc] at hq
    exact hi id task hq
  | forget k id' kind hk hcall hM hc =>
    rw [hc] at hq
    exact hi id task (lookup_forget hq)

theorem ids_step (h : Process.Step J p q) (hM : q.monitor ≠ p.monitor) :
    ∀ id ∈ q.monitor.ids, id ∈ p.monitor.ids ∨ id ∈ p.c.taskAliveDetector := by
  intro id hid
  cases h with
  | monitorLock order hm hl ho => exact .inr (AList.mem_keys.mpr (ho.mem_iff.mp hid))
  | scanNext id' rest hm | monitorTaskLock id' rest hm | expired id' rest last hm =>
    rw [hm]
    exact .inl hid
  | monitorSend id' rest receiver u hm hs =>
    rw [hm]
    exact .inl hid
  | alive id' rest hm | touch id' rest hm =>
    rw [hm]
    exact .inl (List.mem_cons_of_mem _ hid)
  | mapEnd | monitorTick | scanEnd => cases hid
  | mapSend i sent receiver u hm hs | reduceSend i sent receiver u hm hs
  | exitSend i receiver u hm hlt hs => exact absurd (send_holds hs).2.1 hM
  | _ => exact absurd rfl hM

theorem running_step (hi : Watched p) (h : Process.Step J p q) : q.panicked = false := by
  have hrun := hi.running
  cases h with
  | panic k hk =>
    obtain ⟨task, htask, -⟩ := hi.copies none (copies_of_call hk rfl)
    cases htask
  | mapSend i sent receiver u hm hs | reduceSend i sent receiver u hm hs
  | exitSend i receiver u hm hlt hs | monitorSend id rest receiver u hm hs =>
    rcases send_cases hs with rfl | ⟨k, since, -, rfl⟩ <;> exact hrun
  | _ => exact hrun

/-- The tasks of copies that were on their way are not deleted. -/
theorem tasks_of_copy (hw : Watched p) (hd : DeletesQueued p e = false) (h : p.step J e = some q)
    {t : Option Task} (ht : t ∈ p.copies) : ∃ task, t = some task ∧ task.taskid ∈ q.c.tasks := by
  obtain ⟨task, rfl, hmem⟩ := hw.copies t ht
  refine ⟨task, rfl, ?_⟩
  cases (Process.Step.of_step h).maps with
  | same hstate htasks halive => exact htasks ▸ hmem
  | register new hc hm => simp [hc, Coordinator.register, hmem]
  | stamp k new hk hc | touch id rest hm hc => simpa [hc, Coordinator.stamp] using hmem
  | forget k id kind hk hcall hM hc =>
    have he : e = .call k := by
      apply event_of_call h hk
      · intro since heq
        cases heq
      · intro heq
        rw [hcall] at heq
        cases heq
    subst he
    have hne : task.taskid ≠ id := by
      simp only [DeletesQueued, hk, List.any_eq_false] at hd
      simpa using hd _ ht
    simp [hc, Coordinator.forget, hmem, hne]

theorem alive_step (hw : Watched p) (h : Process.Step J p q) :
    ∀ id ∈ q.c.taskAliveDetector, id ∈ q.c.tasks := by
  intro id hid
  cases h.maps with
  | same hstate htasks halive =>
    rw [halive] at hid
    rw [htasks]
    exact hw.alive id hid
  | register new hc hm =>
    rw [hc] at hid ⊢
    have hmem := hw.alive id hid
    simp [Coordinator.register, hmem]
  | stamp k task hk hc =>
    rw [hc] at hid ⊢
    obtain ⟨task', heq, hmem⟩ := hw.copies _ (copies_of_call hk rfl)
    cases heq
    rcases (AList.mem_insert _).mp hid with rfl | hold
    · exact hmem
    · exact hw.alive id hold
  | touch id' rest hm hc =>
    rw [hc] at hid ⊢
    rcases (AList.mem_insert _).mp hid with rfl | hold
    · exact hw.alive id (hw.monitor id (by rw [hm]; exact List.mem_cons_self))
    · exact hw.alive id hold
  | forget k id' kind hk hcall hM hc =>
    rw [hc] at hid ⊢
    obtain ⟨hne, hold⟩ := AList.mem_erase.mp hid
    exact AList.mem_erase.mpr ⟨hne, hw.alive id hold⟩

theorem copies_step (hi : DanglingInv p) (hw : Watched p) (hd : DeletesQueued p e = false)
    (h : p.step J e = some q) (hq : q.c.phase ≠ .done) :
    ∀ t ∈ q.copies, ∃ task, t = some task ∧ task.taskid ∈ q.c.tasks := by
  intro t ht
  have hstep := Process.Step.of_step h
  cases hstep.copies ht with
  | old hold => exact tasks_of_copy hw hd h hold
  | registered task heq hlookup =>
    exact ⟨task, heq, AList.lookup_isSome.mp (by rw [hlookup]; rfl)⟩
  | queued id rest hm heq =>
    have hmem := hw.alive id (hw.monitor id (by rw [hm]; exact List.mem_cons_self))
    obtain ⟨task, hlookup⟩ := Option.isSome_iff_exists.mp (AList.lookup_isSome.mpr hmem)
    refine ⟨task, heq.trans hlookup, ?_⟩
    rw [hi.keyed id task hlookup]
    cases hstep.maps with
    | same hstate htasks halive => exact htasks ▸ hmem
    | register new hc hm => simp [hc, Coordinator.register, hmem]
    | stamp k new hk hc | touch id rest hm hc => simpa [hc, Coordinator.stamp] using hmem
    | forget k id' kind hk hcall hM hc =>
      have hnil := ids_eq_nil hi.locks hk
      rw [hm] at hnil
      cases hnil
  | exit i hm =>
    have hfits := hi.fits
    rw [hm] at hfits
    exact absurd (phase_of_step hi.fits hstep hfits) hq

theorem monitor_ids_step (hi : DanglingInv p) (hw : Watched p) (h : Process.Step J p q) :
    ∀ id ∈ q.monitor.ids, id ∈ q.c.taskAliveDetector := by
  intro id hid
  have hold : id ∈ p.monitor.ids ∨ id ∈ p.c.taskAliveDetector := by
    by_cases hM : q.monitor = p.monitor
    · exact .inl (hM ▸ hid)
    · exact ids_step h hM id hid
  have halive : id ∈ p.c.taskAliveDetector := hold.elim (hw.monitor id) fun h => h
  cases h.maps with
  | same hstate htasks hsame => exact hsame ▸ halive
  | register new hc hm => simpa [hc, Coordinator.register] using halive
  | stamp k new hk hc | touch id' rest hm hc => simp [hc, Coordinator.stamp, halive]
  | forget k id' kind hk hcall hM hc =>
    rw [hM, ids_eq_nil hi.locks hk] at hid
    cases hid

theorem danglingInv_step (hi : DanglingInv p) (hd : DeletesQueued p e = false)
    (h : p.step J e = some q) : DanglingInv q := by
  have hstep := Process.Step.of_step h
  refine ⟨lockInv_step hi.locks hstep, fits_step hi.fits hstep, keyed_step hi.keyed hstep, ?_⟩
  intro hq
  have hw := hi.watched fun hp => hq (phase_of_step hi.fits hstep hp)
  exact ⟨alive_step hw hstep, copies_step hi hw hd h hq, monitor_ids_step hi hw hstep,
    running_step hw hstep⟩

theorem danglingInv_init (files : List String) : DanglingInv (.init files) where
  locks := lockInv_init files
  fits := fun h => nomatch h
  keyed := by simp [Process.init]
  watched := fun _ => {
    alive := by simp [Process.init]
    copies := by simp [Process.init, Process.copies, Main.task]
    monitor := by simp [Process.init, Monitor.ids]
    running := rfl }

theorem danglingInv_issue (hi : DanglingInv p) {x : Call} (hx : x.Fresh) :
    DanglingInv (p.issue x) where
  locks := lockInv_issue hi.locks hx
  fits := hi.fits
  keyed := hi.keyed
  watched := by
    intro hp
    have hw := hi.watched hp
    exact ⟨hw.alive, by rw [copies_issue hx]; exact hw.copies, hw.monitor, hw.running⟩

/-- If no task is deleted while a copy of it is on its way, then before `Phase` is `DoneTask`
every watched id has its task and there is no nil. -/
theorem noDangling_of_along {ι : Type*} [DecidableEq ι] {J : Job} {es : List (Event ι)}
    {s : State ι} (h : (system J ι).Run es s)
    (hd : CoordAlong J es fun p e => DeletesQueued p e = false) (hp : s.coord.c.phase ≠ .done) :
    NoDangling s.coord := by
  have hi : DanglingInv s.coord := coord_invariant (danglingInv_init J.files)
    (fun _ _ _ hi hd hs => danglingInv_step hi hd hs) (fun _ _ hi hx => danglingInv_issue hi hx)
    h hd
  have hw := hi.watched hp
  refine ⟨hw.alive, ?_, hw.running⟩
  intro hnone
  obtain ⟨task, htask, -⟩ := hw.copies none hnone
  cases htask

theorem crashRun_noDangling : ∃ s, (system countJob Bool).Run crashRun s ∧
    0 ∈ s.coord.c.taskAliveDetector ∧ NoDangling s.coord := by
  obtain ⟨s, hrun, hp, halive⟩ := System.exists_run (system countJob Bool) crashRun
    (fun s => s.coord.c.phase ≠ .done ∧ 0 ∈ s.coord.c.taskAliveDetector) (by decide +kernel)
  refine ⟨s, hrun, halive, noDangling_of_along hrun ?_ hp⟩
  refine System.along_of_allSteps (fun s e => match e with
    | .coord a => !DeletesQueued s.coord a
    | _ => true) ?_ (by decide +kernel)
  rintro pre s e he a rfl
  simpa using he

/-- Counting the characters of two files. -/
def twoFilesJob : Job := { countJob with files := ["f", "g"] }

/-- A round of `monitor` that visits tasks 0 and 1 and ends after `n` more steps. -/
def monitorRoundTwo (n : ℕ) : List (Event Bool) :=
  [.coord (.pass 3000), .coord .tick, .coord (.monitor [] none), .coord (.monitor [0, 1] none)] ++
    List.replicate n (.coord (.monitor [] none))

/-- Both workers are slow and both tasks are queued again. The first worker reports task 0, and
the next task it gets is the stale copy of task 0. -/
def staleCopyRun : List (Event Bool) :=
  [mainSteps 5, getTaskSteps false 0, getTaskSteps true 1,
    monitorRoundTwo 7, monitorRoundTwo 7, monitorRoundTwo 7, monitorRoundTwo 11,
    workSteps false 7, reportSteps false 2, getTaskSteps false 3].flatten

/-- Twelve seconds later `monitor` sends nil for task 0, which the worker receives after the
stale copy of task 1. -/
def nilTaskRun : List (Event Bool) :=
  [staleCopyRun, monitorRoundTwo 7, monitorRoundTwo 7, monitorRoundTwo 7, monitorRoundTwo 11,
    workSteps false 7, reportSteps false 4, getTaskSteps false 5,
    workSteps false 7, reportSteps false 6,
    [.work false, .coord (.call 7), .coord (.call 7), .coord (.call 7)]].flatten

theorem staleCopyRun_dangles :
    (∃ s, (system twoFilesJob Bool).Run staleCopyRun s ∧ s.coord.c.phase = .map ∧
      0 ∈ s.coord.c.taskAliveDetector ∧ 0 ∉ s.coord.c.tasks) ∧
    ∃ s, (system twoFilesJob Bool).Run nilTaskRun s ∧ s.coord.c.phase = .map ∧
      s.coord.panicked = true :=
  ⟨System.exists_run (system twoFilesJob Bool) staleCopyRun
      (fun s => s.coord.c.phase = .map ∧ 0 ∈ s.coord.c.taskAliveDetector ∧ 0 ∉ s.coord.c.tasks)
      (by decide +kernel),
    System.exists_run (system twoFilesJob Bool) nilTaskRun
      (fun s => s.coord.c.phase = .map ∧ s.coord.panicked = true) (by decide +kernel)⟩

end MR
