import DistributedLabs.MR.Completeness
import DistributedLabs.MR.Locks

/-! Waits among the threads of the coordinator. `MarkTaskDone` takes `TaskLock` and then
`HeartbeatLock`, `monitor` takes them in the other order; every other thread waits with no lock
in its hands. -/
namespace MR
open Runs Locking
variable {J : Config} {p q : Process} {e : CoordEvent}

/-- No cycle of waits for locks among the threads. A send that waits for room in `TaskChan` is not
counted. -/
def NoWaitCycle (p : Process) : Prop := ∀ a, ¬ Relation.TransGen (WaitsFor p.locks) a a

/-- `monitor` holds `HeartbeatLock` and will wait for `TaskLock`. -/
def Monitor.pending : Monitor → Bool
  | .scan (_ :: _) => true
  | .taskLock _ _ => true
  | _ => false

/-- A `MarkTaskDone` that has no lock. -/
def Call.beforeLocks : Call → Bool
  | .mark _ _ => true
  | _ => false

/-- A `MarkTaskDone` that holds `TaskLock` only. -/
def Call.betweenLocks : Call → Bool
  | .markLocked _ _ => true
  | _ => false

/-- `MarkTaskDone` takes its first lock while `monitor` has its first lock, or the other way
round. -/
def Crossing (p : Process) : CoordEvent → Bool
  | .call k => (p.calls[k]?).any Call.beforeLocks && p.monitor.pending
  | .monitor order _ => p.monitor = .lock && order ≠ [] && p.calls.any Call.betweenLocks
  | .pass _ => false
  | .tick => false
  | .main _ => false
  | .timeout _ => false

/-- The lock orders never meet. -/
structure Apart (p : Process) : Prop where
  locks : LockInv p
  apart : p.monitor.pending = true → p.calls.any Call.betweenLocks = false

/-- `MakeCoordinator` touches `monitor` when it starts it only. -/
theorem mainStep_monitor {receiver : Option ℕ} (h : p.mainStep J receiver = some q) :
    q.monitor = p.monitor ∨ p.main.starting = true := by
  unfold Process.mainStep at h
  split at h
  next i hm => exact .inr (by rw [hm]; rfl)
  next i task hm => exact .inr (by rw [hm]; rfl)
  next t hm =>
    simp only [Option.ite_none_right_eq_some, Option.some.injEq] at h
    exact .inl (h.2 ▸ rfl)
  next t hm => split at h <;> exact .inl (Option.some.inj h ▸ rfl)
  next t hm =>
    simp only [Option.ite_none_right_eq_some, Option.some.injEq] at h
    exact .inl (h.2 ▸ rfl)
  next t hm => exact .inl (Option.some.inj h ▸ rfl)
  next hm =>
    simp only [Option.ite_none_right_eq_some, Option.some.injEq] at h
    exact .inl (h.2 ▸ rfl)
  next i hm => split at h <;> exact .inl (Option.some.inj h ▸ rfl)
  next i task hm =>
    obtain ⟨u, hu, rfl⟩ := Option.map_eq_some_iff.mp h
    exact .inl (send_holds hu).2.1
  next i hm =>
    split at h
    · obtain ⟨u, hu, rfl⟩ := Option.map_eq_some_iff.mp h
      exact .inl (send_holds hu).2.1
    · exact .inl (Option.some.inj h ▸ rfl)
  next => cases h

/-- Only `monitor` leaves its position before `HeartbeatLock.Lock()`. -/
theorem event_of_monitorLock (hi : LockInv p) (h : p.step J e = some q) (hm : p.monitor = .lock)
    {order : List ℕ} (hq : q.monitor = .scan order) : ∃ receiver, e = .monitor order receiver := by
  have hne : q.monitor ≠ p.monitor := by simp [hm, hq]
  unfold Process.step at h
  split at h
  · cases h
  cases e with
  | pass d => exact absurd (Option.some.inj h ▸ rfl) hne
  | tick =>
    simp only [Process.tickStep, Option.ite_none_right_eq_some, Option.some.injEq] at h
    exact absurd (h.2 ▸ rfl) hne
  | main receiver =>
    rcases mainStep_monitor h with heq | hstart
    · exact absurd heq hne
    · cases hm.symm.trans (hi.monitor hstart)
  | monitor order' receiver =>
    simp only [Process.monitorStep, hm, Option.ite_none_right_eq_some, Option.some.injEq] at h
    obtain ⟨-, rfl⟩ := h
    cases hq
    exact ⟨receiver, rfl⟩
  | call k =>
    refine absurd ?_ hne
    simp only [Process.callStep] at h
    split at h <;> (try split at h) <;> cases h <;> rfl
  | timeout k =>
    refine absurd ?_ hne
    simp only [Process.timeoutStep] at h
    split at h
    next since hk =>
      simp only [Option.ite_none_right_eq_some, Option.some.injEq] at h
      exact h.2 ▸ rfl
    next => cases h

theorem holds_of_between {x : Call} (h : x.betweenLocks = true) :
    x.holds .taskLock = true ∧ x.holds .heartbeatLock = false := by
  cases x with
  | markLocked id kind => exact ⟨rfl, rfl⟩
  | _ => cases h

theorem between_set {calls : List Call} {k : ℕ} {y : Call}
    (h : calls.any Call.betweenLocks = false) (hy : y.betweenLocks = false) :
    (calls.set k y).any Call.betweenLocks = false := by
  rw [List.any_eq_false] at h ⊢
  intro x hx
  rcases List.mem_or_eq_of_mem_set hx with hold | rfl
  · exact h x hold
  · simp [hy]

theorem between_send {sent : Option Task} {receiver : Option ℕ} {u : Process}
    (hs : p.send sent receiver = some u) (h : p.calls.any Call.betweenLocks = false) :
    u.calls.any Call.betweenLocks = false := by
  rcases send_cases hs with rfl | ⟨k, since, -, rfl⟩
  · exact h
  · exact between_set h rfl

/-- No `MarkTaskDone` holds `TaskLock` while `monitor` does. -/
theorem between_of_monitor (hi : LockInv p) (hM : p.monitor.holds .taskLock = true) :
    p.calls.any Call.betweenLocks = false := by
  rw [List.any_eq_false]
  intro x hx hb
  obtain ⟨k, hk⟩ := List.mem_iff_getElem?.mp hx
  have hcall : p.locks.holds (.call k) .taskLock = true :=
    (holds_call hk _).trans (holds_of_between hb).1
  have hmonitor : p.locks.holds .monitor .taskLock = true := hM
  cases hi.consistent.unique hmonitor hcall

theorem apart_step (hi : Apart p) (hc : Crossing p e = false) (h : p.step J e = some q) :
    Apart q := by
  have hstep := Process.Step.of_step h
  refine ⟨lockInv_step hi.locks hstep, ?_⟩
  have hapart := hi.apart
  intro hq
  cases hstep with
  | mark k id kind hk hl =>
    have he := event_of_call h hk nofun (by simp [(List.getElem?_eq_some_iff.mp hk).1])
    subst he
    have hpend : p.monitor.pending = true := hq
    simp [Crossing, hk, Call.beforeLocks, hpend] at hc
  | monitorLock order hm hl ho =>
    obtain ⟨receiver, rfl⟩ := event_of_monitorLock hi.locks h hm rfl
    cases order with
    | nil => cases hq
    | cons id rest => simpa [Crossing, hm] using hc
  | scanNext id rest hm =>
    rw [hm] at hapart
    exact hapart rfl
  | alive id rest hm | touch id rest hm =>
    have hbetween := between_of_monitor hi.locks (by rw [hm]; rfl)
    exact hbetween
  | mapEnd | monitorTick | scanEnd | monitorTaskLock | expired | monitorSend => cases hq
  | mapSend i sent receiver u hm hs | reduceSend i sent receiver u hm hs
  | exitSend i receiver u hm hlt hs =>
    rw [(send_holds hs).2.1] at hq
    have hbetween := between_send hs (hapart hq)
    exact hbetween
  | receive | stampLock | stamp | readLock | readPhase | markLocked | markBoth | markUnlock
  | timeout => exact between_set (hapart hq) rfl
  | _ => exact hapart hq

/-- A thread that waits and for which others wait is `monitor` before `TaskLock` or a
`MarkTaskDone` before `HeartbeatLock`. -/
theorem waits_and_holds (hi : LockInv p) {a z : Thread} {l : Mutex} (ha : p.waits a = some l)
    (hz : WaitsFor p.locks z a) :
    (a = .monitor ∧ p.monitor.pending = true ∧ l = .taskLock) ∨
      ∃ k, a = .call k ∧ (p.calls[k]?).any Call.betweenLocks = true ∧ l = .heartbeatLock := by
  obtain ⟨l', -, hholder⟩ := hz
  have hheld : p.holds a l' = true := (hi.consistent l' a).mp hholder
  cases a with
  | main =>
    cases hm : p.main <;>
      simp [Process.holds, Process.waits, Main.holds, Main.waits, hm] at ha hheld
  | monitor =>
    cases hm : p.monitor <;>
      simp [Process.holds, Process.waits, Monitor.holds, Monitor.waits, hm] at ha hheld
    exact .inl ⟨rfl, rfl, ha.symm⟩
  | call k =>
    cases hk : p.calls[k]? with
    | none => simp [Process.waits, hk] at ha
    | some x =>
      cases x <;> simp [Process.holds, Process.waits, Call.holds, Call.waits, hk] at ha hheld
      exact .inr ⟨k, rfl, by simp [hk, Call.betweenLocks], ha.symm⟩

theorem noWaitCycle_of_apart (hi : Apart p) : NoWaitCycle p := by
  intro a hcycle
  obtain ⟨x, y, ⟨l, hx, hy⟩, hz, ⟨z, l', hy', hz'⟩⟩ := exists_of_cycle hcycle
  have hbusy : ∀ k : ℕ, (p.calls[k]?).any Call.betweenLocks = true →
      p.calls.any Call.betweenLocks = true := by
    intro k hk
    obtain ⟨c, hc, hb⟩ := (Option.any_eq_true _ _).mp hk
    exact List.any_eq_true.mpr ⟨c, List.mem_of_getElem? hc, hb⟩
  have hheld : p.locks.holds y l = true := (hi.locks.consistent l y).mp hy
  rcases waits_and_holds hi.locks hx hz.choose_spec with ⟨rfl, hpend, rfl⟩ | ⟨k, rfl, hk, rfl⟩
  · rcases waits_and_holds hi.locks hy' ⟨.taskLock, hx, hy⟩ with ⟨rfl, -, -⟩ | ⟨j, rfl, hj, -⟩
    · cases hm : p.monitor <;>
        simp [Process.locks, Process.holds, Monitor.holds, Monitor.pending, hm] at hheld hpend
    · simpa [hbusy j hj] using hi.apart hpend
  · rcases waits_and_holds hi.locks hy' ⟨.heartbeatLock, hx, hy⟩ with
      ⟨rfl, hpend, -⟩ | ⟨j, rfl, hj, -⟩
    · simpa [hbusy k hk] using hi.apart hpend
    · obtain ⟨c, hc, hb⟩ := (Option.any_eq_true _ _).mp hj
      have hcheld := (holds_call hc .heartbeatLock).symm.trans hheld
      rw [(holds_of_between hb).2] at hcheld
      cases hcheld

/-- In a run in which the two lock orders never cross there is no cycle of waits. -/
theorem noWaitCycle_of_along {ι : Type*} [DecidableEq ι] {J : Job} {es : List (Event ι)}
    {s : State ι} (h : (system J ι).Run es s)
    (hc : CoordAlong J es fun p e => Crossing p e = false) : NoWaitCycle s.coord := by
  refine noWaitCycle_of_apart (coord_invariant ?_ ?_ ?_ h hc)
  · exact ⟨lockInv_init J.files, fun hp => nomatch hp⟩
  · exact fun p a q hi hc hs => apart_step hi hc hs
  · intro p x hi hx
    refine ⟨lockInv_issue hi.locks hx, ?_⟩
    intro hp
    have hb : x.betweenLocks = false := by cases hx <;> rfl
    simp [Process.issue, hi.apart hp, hb]

theorem completedRun_noWaitCycle : ∃ s, (system countJob Bool).Run completedRun s ∧
    NoWaitCycle s.coord := by
  obtain ⟨s, hrun, -⟩ := System.exists_run (system countJob Bool) completedRun
    (fun s => s.coord.c.phase = .done) (by decide +kernel)
  refine ⟨s, hrun, noWaitCycle_of_along hrun ?_⟩
  refine System.along_of_allSteps (fun s e => match e with
    | .coord a => !Crossing s.coord a
    | _ => true) ?_ (by decide +kernel)
  rintro pre s e he a rfl
  simpa using he

/-- A worker has finished its map task. `monitor` wakes up, takes `HeartbeatLock` and is before
`TaskLock.Lock()` when the report of the worker takes `TaskLock`. -/
def crossedRun : List (Event Bool) :=
  [mainSteps 3, getTaskSteps false 0, workSteps false 7, monitorRound 1,
    [.work false, .coord (.call 1)]].flatten

theorem crossedRun_deadlock : ∃ s, (system countJob Bool).Run crossedRun s ∧
    s.coord.calls[1]? = some (.markLocked 0 .map) ∧ s.coord.monitor = .taskLock 0 [] ∧
    ¬ NoWaitCycle s.coord := by
  obtain ⟨s, hrun, hcall, hmonitor, htask, hheart⟩ :=
    System.exists_run (system countJob Bool) crossedRun
      (fun s => s.coord.calls[1]? = some (.markLocked 0 .map) ∧ s.coord.monitor = .taskLock 0 [] ∧
        s.coord.taskLock = some (.call 1) ∧ s.coord.heartbeatLock = some .monitor)
      (by decide +kernel)
  refine ⟨s, hrun, hcall, hmonitor, ?_⟩
  intro hno
  have hout : WaitsFor s.coord.locks .monitor (.call 1) :=
    ⟨.taskLock, by simp [Process.locks, Process.waits, hmonitor, Monitor.waits], htask⟩
  have hback : WaitsFor s.coord.locks (.call 1) .monitor :=
    ⟨.heartbeatLock, by simp [Process.locks, Process.waits, hcall, Call.waits], hheart⟩
  exact hno .monitor (.head hout (.single hback))

end MR
