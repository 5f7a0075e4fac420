import DistributedLabs.MR.Copies
import DistributedLabs.MR.Published

/-! No task is lost with a worker: as long as a task is registered, a copy of it is on its way
to a worker or `monitor` watches its id. -/
namespace MR
open Runs
variable {J : Config} {p q : Process}

/-- Every registered task is in `Tasks`, and it is on its way or its id is watched. -/
def Retained (p : Process) : Prop :=
  ∀ id t, p.c.taskMapState.lookup id = some t →
    ∃ task, p.c.tasks.lookup id = some task ∧ task.taskid = id ∧ task.taskType = t ∧
      (some task ∈ p.copies ∨ id ∈ p.c.taskAliveDetector)

/-- A registered task whose maps a step has left alone. -/
theorem retained_keep (hi : Retained p) (h : Process.Step J p q) {id : ℕ} {t : TaskType}
    (hp : p.c.taskMapState.lookup id = some t)
    (htasks : q.c.tasks.lookup id = p.c.tasks.lookup id)
    (halive : id ∈ p.c.taskAliveDetector → id ∈ q.c.taskAliveDetector) :
    ∃ task, q.c.tasks.lookup id = some task ∧ task.taskid = id ∧ task.taskType = t ∧
      (some task ∈ q.copies ∨ id ∈ q.c.taskAliveDetector) := by
  obtain ⟨task, hlookup, rfl, htype, hwhere⟩ := hi id t hp
  refine ⟨task, htasks.trans hlookup, rfl, htype, ?_⟩
  rcases hwhere with hcopy | hwatched
  · exact h.copies_kept hcopy
  · exact .inr (halive hwatched)

theorem retained_step (hi : Retained p) (h : Process.Step J p q) : Retained q := by
  intro id t hq
  cases h.maps with
  | same hstate htasks halive =>
    rw [hstate] at hq
    exact retained_keep hi h hq (by rw [htasks]) (fun ha => halive ▸ ha)
  | register task hc hm =>
    by_cases hid : id = task.taskid
    · subst hid
      rw [hc, lookup_register_self] at hq
      refine ⟨task, ?_, rfl, Option.some.inj hq, .inl (copies_of_main hm)⟩
      simp [hc, Coordinator.register]
    · rw [hc, lookup_register_ne p.c hid] at hq
      refine retained_keep hi h hq ?_ ?_
      · simp [hc, Coordinator.register, AList.lookup_insert_ne hid]
      · exact fun ha => by simpa [hc, Coordinator.register] using ha
  | stamp k task hk hc | touch id' rest hm hc =>
    rw [hc] at hq
    refine retained_keep hi h hq ?_ ?_
    · simp [hc, Coordinator.stamp]
    · exact fun ha => by simp [hc, Coordinator.stamp, ha]
  | forget k id' kind hk hcall hM hc =>
    by_cases hid : id = id'
    · subst hid
      simp [hc, Coordinator.forget] at hq
    · rw [hc, lookup_forget_ne p.c hid] at hq
      refine retained_keep hi h hq ?_ ?_
      · simp [hc, Coordinator.forget, AList.lookup_erase_ne hid]
      · exact fun ha => by simp [hc, Coordinator.forget, hid, ha]

/-- In every run of a job, whatever its workers do. -/
theorem retained_of_run {ι : Type*} [DecidableEq ι] {J : Job} {es : List (Event ι)} {s : State ι}
    (h : (system J ι).Run es s) : Retained s.coord := by
  refine coord_invariant' ?_ (fun _ _ hi hs => retained_step hi hs) ?_ h
  · intro id t hid
    simp [Process.init] at hid
  · intro p x hi hx id t hid
    rw [copies_issue hx]
    exact hi id t hid

/-- When `monitor` comes to a registered task whose worker was not heard of for ten seconds, it puts
the task back on `TaskChan`, if the buffer has room. -/
theorem Retained.requeued (hi : Retained p) (hrun : p.panicked = false) {id last : ℕ}
    {rest : List ℕ} {t : TaskType} (hM : p.monitor = .taskLock id rest) (hfree : p.taskLock = none)
    (hreg : p.c.taskMapState.lookup id = some t)
    (hlast : p.c.taskAliveDetector.lookup id = some last) (hold : 10000 < p.now - last)
    (hroom : p.c.taskChan.length < p.c.capacity) :
    ∃ q task, (List.replicate 3 (CoordEvent.monitor [] none)).foldlM (Process.step J) p = some q ∧
      task.taskid = id ∧ task.taskType = t ∧ q.c.taskChan = p.c.taskChan ++ [some task] := by
  obtain ⟨task, htask, hid, htype, -⟩ := hi id t hreg
  refine ⟨{ p with
    taskLock := some .monitor
    monitor := .touch id rest
    c := { p.c with taskChan := p.c.taskChan ++ [some task] } }, task, ?_, hid, htype, rfl⟩
  have hlock : p.step J (.monitor [] none) =
      some { p with taskLock := some .monitor, monitor := .check id rest } := by
    simp [Process.step, Process.monitorStep, hrun, hM, hfree]
  have hcheck : ({ p with taskLock := some .monitor, monitor := .check id rest } : Process).step J
      (.monitor [] none) = some { p with taskLock := some .monitor, monitor := .send id rest } := by
    simp [Process.step, Process.monitorStep, hrun, hlast, hold]
  have hsend : ({ p with taskLock := some .monitor, monitor := .send id rest } : Process).step J
      (.monitor [] none) = some { p with
        taskLock := some .monitor
        monitor := .touch id rest
        c := { p.c with taskChan := p.c.taskChan ++ [some task] } } := by
    simp [Process.step, Process.monitorStep, Process.send, hrun, htask, hroom]
  simp only [List.replicate, List.foldlM_cons, List.foldlM_nil, hlock, hcheck, hsend,
    Option.bind_eq_bind, Option.bind_some, Option.pure_def]

/-- The only worker crashes in the middle of its map task. -/
def lostWorkerRun : List (Event Bool) :=
  [mainSteps 3, getTaskSteps false 0, workSteps false 3, [.crash false]].flatten

theorem lostWorkerRun_retained : ∃ s, (system countJob Bool).Run lostWorkerRun s ∧
    s.workers false = .crashed ∧ s.coord.c.taskMapState.lookup 0 = some .map ∧
    Retained s.coord := by
  obtain ⟨s, hrun, hcrash, hstate⟩ := System.exists_run (system countJob Bool) lostWorkerRun
    (fun s => s.workers false = .crashed ∧ s.coord.c.taskMapState.lookup 0 = some .map)
    (by decide +kernel)
  exact ⟨s, hrun, hcrash, hstate, retained_of_run hrun⟩

end MR
