import DistributedLabs.MR.Coordinator

/-! The steps of the coordinator process as a relation. -/
namespace MR
variable {J : Config} {p q : Process} {e : CoordEvent}

/-- The steps of the coordinator with what they require of the state. -/
inductive Process.Step (J : Config) (p : Process) : Process → Prop
  | pass (d : ℕ) : Step J p { p with now := p.now + d }
  | tick : Step J p { p with tick := true, nextTick := p.nextTick + 3000 }
  | mapWrite (i : ℕ) (v : String) (hm : p.main = .mapWrite i) (hv : J.files[i]? = some v) :
      Step J p { p with
        c := p.c.register (makeMapTask v i J.nReduce)
        main := .mapSend i (makeMapTask v i J.nReduce) }
  | mapEnd (i : ℕ) (hm : p.main = .mapWrite i) (hv : J.files[i]? = none) :
      Step J p { p with
        monitor := .waiting, nextTick := p.now + 3000, main := .checkLock .map }
  | mapSend (i : ℕ) (task : Task) (receiver : Option ℕ) (q : Process)
      (hm : p.main = .mapSend i task) (hs : p.send (some task) receiver = some q) :
      Step J p { q with main := .mapWrite (i + 1) }
  | checkLock (t : TaskType) (hm : p.main = .checkLock t) (hl : p.taskLock = none) :
      Step J p { p with taskLock := some .main, main := .check t }
  | checkAgain (t : TaskType) (hm : p.main = .check t) (ht : p.c.anyIn t = true) :
      Step J p { p with taskLock := none, main := .checkLock t }
  | checkEnd (t : TaskType) (hm : p.main = .check t) (ht : p.c.anyIn t = false) :
      Step J p { p with
        taskLock := none, main := .phaseLock (if t = .map then .reduce else .done) }
  | phaseLock (t : TaskType) (hm : p.main = .phaseLock t) (hl : p.phaseLock = none) :
      Step J p { p with phaseLock := some .main, main := .phaseSet t }
  | phaseSet (t : TaskType) (hm : p.main = .phaseSet t) :
      Step J p { p with
        c := { p.c with phase := t }
        phaseLock := none
        main := if t = .reduce then .reduceLock else .exitSend 0 }
  | reduceLock (hm : p.main = .reduceLock) (hl : p.taskLock = none) :
      Step J p { p with taskLock := some .main, main := .reduceWrite 0 }
  | reduceWrite (i : ℕ) (hm : p.main = .reduceWrite i) (hi : i < J.nReduce) :
      Step J p { p with
        c := p.c.register (makeReduceTask i J.nReduce)
        main := .reduceSend i (makeReduceTask i J.nReduce) }
  | reduceEnd (i : ℕ) (hm : p.main = .reduceWrite i) (hi : ¬ i < J.nReduce) :
      Step J p { p with taskLock := none, main := .checkLock .reduce }
  | reduceSend (i : ℕ) (task : Task) (receiver : Option ℕ) (q : Process)
      (hm : p.main = .reduceSend i task) (hs : p.send (some task) receiver = some q) :
      Step J p { q with main := .reduceWrite (i + 1) }
  | exitSend (i : ℕ) (receiver : Option ℕ) (q : Process) (hm : p.main = .exitSend i)
      (hi : i < J.nReduce) (hs : p.send (some (makeExitTask i J.nReduce)) receiver = some q) :
      Step J p { q with main := .exitSend (i + 1) }
  | exitEnd (i : ℕ) (hm : p.main = .exitSend i) (hi : ¬ i < J.nReduce) :
      Step J p { p with main := .returned }
  | monitorTick (hm : p.monitor = .waiting) (ht : p.tick = true) :
      Step J p { p with tick := false, monitor := .lock }
  | monitorLock (order : List ℕ) (hm : p.monitor = .lock) (hl : p.heartbeatLock = none)
      (ho : order.Perm p.c.taskAliveDetector.keys) :
      Step J p { p with heartbeatLock := some .monitor, monitor := .scan order }
  | scanEnd (hm : p.monitor = .scan []) :
      Step J p { p with heartbeatLock := none, monitor := .waiting }
  | scanNext (id : ℕ) (rest : List ℕ) (hm : p.monitor = .scan (id :: rest)) :
      Step J p { p with monitor := .taskLock id rest }
  | monitorTaskLock (id : ℕ) (rest : List ℕ) (hm : p.monitor = .taskLock id rest)
      (hl : p.taskLock = none) :
      Step J p { p with taskLock := some .monitor, monitor := .check id rest }
  | expired (id : ℕ) (rest : List ℕ) (last : ℕ) (hm : p.monitor = .check id rest)
      (ha : p.c.taskAliveDetector.lookup id = some last) (hlt : 10000 < p.now - last) :
      Step J p { p with monitor := .send id rest }
  | alive (id : ℕ) (rest : List ℕ) (hm : p.monitor = .check id rest) :
      Step J p { p with taskLock := none, monitor := .scan rest }
  | monitorSend (id : ℕ) (rest : List ℕ) (receiver : Option ℕ) (q : Process)
      (hm : p.monitor = .send id rest) (hs : p.send (p.c.tasks.lookup id) receiver = some q) :
      Step J p { q with monitor := .touch id rest }
  | touch (id : ℕ) (rest : List ℕ) (hm : p.monitor = .touch id rest) :
      Step J p { p with c := p.c.stamp id p.now, taskLock := none, monitor := .scan rest }
  | receive (k since : ℕ) (task : Option Task) (rest : List (Option Task))
      (hk : p.calls[k]? = some (.select since)) (hc : p.c.taskChan = task :: rest) :
      Step J p { p with
        c := { p.c with taskChan := rest }, calls := p.calls.set k (.received task) }
  | stampLock (k : ℕ) (task : Option Task) (hk : p.calls[k]? = some (.received task))
      (hl : p.heartbeatLock = none) :
      Step J p { p with
        heartbeatLock := some (.call k), calls := p.calls.set k (.stamping task) }
  | stamp (k : ℕ) (task : Task) (hk : p.calls[k]? = some (.stamping (some task))) :
      Step J p { p with
        c := p.c.stamp task.taskid p.now
        heartbeatLock := none
        calls := p.calls.set k (.allocated task p.c.lenfiles) }
  | panic (k : ℕ) (hk : p.calls[k]? = some (.stamping none)) :
      Step J p { p with panicked := true }
  | readLock (k : ℕ) (hk : p.calls[k]? = some .timedOut) (hl : p.phaseLock = none) :
      Step J p { p with phaseLock := some (.call k), calls := p.calls.set k .readPhase }
  | readPhase (k : ℕ) (hk : p.calls[k]? = some .readPhase) :
      Step J p { p with
        phaseLock := none
        calls := p.calls.set k
          (.allocated ⟨0, "", if p.c.phase = .done then .done else .waiting, 0⟩ 0) }
  | mark (k id : ℕ) (kind : TaskType) (hk : p.calls[k]? = some (.mark id kind))
      (hl : p.taskLock = none) :
      Step J p { p with
        taskLock := some (.call k), calls := p.calls.set k (.markLocked id kind) }
  | markLocked (k id : ℕ) (kind : TaskType) (hk : p.calls[k]? = some (.markLocked id kind))
      (hl : p.heartbeatLock = none) :
      Step J p { p with
        heartbeatLock := some (.call k), calls := p.calls.set k (.markBoth id kind) }
  | markBoth (k id : ℕ) (kind : TaskType) (hk : p.calls[k]? = some (.markBoth id kind)) :
      Step J p { p with
        c := p.c.forget id, taskLock := none, calls := p.calls.set k .markUnlock }
  | markUnlock (k : ℕ) (hk : p.calls[k]? = some .markUnlock) :
      Step J p { p with heartbeatLock := none, calls := p.calls.set k .marked }
  | timeout (k since : ℕ) (hk : p.calls[k]? = some (.select since)) (ht : since + 800 ≤ p.now) :
      Step J p { p with calls := p.calls.set k .timedOut }

theorem Process.Step.of_mainStep {receiver : Option ℕ} (h : p.mainStep J receiver = some q) :
    Process.Step J p q := by
  cases hm : p.main with
  | mapWrite i =>
    simp only [Process.mainStep, hm] at h
    split at h
    next v hv => exact Option.some.inj h ▸ .mapWrite i v hm hv
    next hv => exact Option.some.inj h ▸ .mapEnd i hm hv
  | mapSend i task =>
    simp only [Process.mainStep, hm] at h
    obtain ⟨u, hu, rfl⟩ := Option.map_eq_some_iff.mp h
    exact .mapSend i task receiver u hm hu
  | checkLock t =>
    simp only [Process.mainStep, hm, Option.ite_none_right_eq_some, Option.some.injEq] at h
    exact h.2 ▸ .checkLock t hm h.1
  | check t =>
    simp only [Process.mainStep, hm] at h
    split at h
    next ht => exact Option.some.inj h ▸ .checkAgain t hm ht
    next ht => exact Option.some.inj h ▸ .checkEnd t hm (by simpa using ht)
  | phaseLock t =>
    simp only [Process.mainStep, hm, Option.ite_none_right_eq_some, Option.some.injEq] at h
    exact h.2 ▸ .phaseLock t hm h.1
  | phaseSet t =>
    simp only [Process.mainStep, hm, Option.some.injEq] at h
    exact h ▸ .phaseSet t hm
  | reduceLock =>
    simp only [Process.mainStep, hm, Option.ite_none_right_eq_some, Option.some.injEq] at h
    exact h.2 ▸ .reduceLock hm h.1
  | reduceWrite i =>
    simp only [Process.mainStep, hm] at h
    split at h
    next hi => exact Option.some.inj h ▸ .reduceWrite i hm hi
    next hi => exact Option.some.inj h ▸ .reduceEnd i hm hi
  | reduceSend i task =>
    simp only [Process.mainStep, hm] at h
    obtain ⟨u, hu, rfl⟩ := Option.map_eq_some_iff.mp h
    exact .reduceSend i task receiver u hm hu
  | exitSend i =>
    simp only [Process.mainStep, hm] at h
    split at h
    next hi =>
      obtain ⟨u, hu, rfl⟩ := Option.map_eq_some_iff.mp h
      exact .exitSend i receiver u hm hi hu
    next hi => exact Option.some.inj h ▸ .exitEnd i hm hi
  | returned => simp [Process.mainStep, hm] at h

theorem Process.Step.of_monitorStep {order : List ℕ} {receiver : Option ℕ}
    (h : p.monitorStep order receiver = some q) : Process.Step J p q := by
  cases hm : p.monitor with
  | off => simp [Process.monitorStep, hm] at h
  | waiting =>
    simp only [Process.monitorStep, hm, Option.ite_none_right_eq_some, Option.some.injEq] at h
    exact h.2 ▸ .monitorTick hm h.1
  | lock =>
    simp only [Process.monitorStep, hm, Option.ite_none_right_eq_some, Option.some.injEq] at h
    exact h.2 ▸ .monitorLock order hm h.1.1 h.1.2
  | scan rest =>
    cases rest with
    | nil =>
      simp only [Process.monitorStep, hm, Option.some.injEq] at h
      exact h ▸ .scanEnd hm
    | cons id rest =>
      simp only [Process.monitorStep, hm, Option.some.injEq] at h
      exact h ▸ .scanNext id rest hm
  | taskLock id rest =>
    simp only [Process.monitorStep, hm, Option.ite_none_right_eq_some, Option.some.injEq] at h
    exact h.2 ▸ .monitorTaskLock id rest hm h.1
  | check id rest =>
    simp only [Process.monitorStep, hm] at h
    split at h
    next last ha =>
      split at h
      next hlt => exact Option.some.inj h ▸ .expired id rest last hm ha hlt
      next => exact Option.some.inj h ▸ .alive id rest hm
    next => exact Option.some.inj h ▸ .alive id rest hm
  | send id rest =>
    simp only [Process.monitorStep, hm] at h
    obtain ⟨u, hu, rfl⟩ := Option.map_eq_some_iff.mp h
    exact .monitorSend id rest receiver u hm hu
  | touch id rest =>
    simp only [Process.monitorStep, hm, Option.some.injEq] at h
    exact h ▸ .touch id rest hm

theorem Process.Step.of_callStep {k : ℕ} (h : p.callStep k = some q) : Process.Step J p q := by
  simp only [Process.callStep] at h
  split at h
  next since hk =>
    split at h
    next task rest hc => exact Option.some.inj h ▸ .receive k since task rest hk hc
    next => cases h
  next task hk =>
    simp only [Option.ite_none_right_eq_some, Option.some.injEq] at h
    exact h.2 ▸ .stampLock k task hk h.1
  next task hk => exact Option.some.inj h ▸ .stamp k task hk
  next hk => exact Option.some.inj h ▸ .panic k hk
  next hk =>
    simp only [Option.ite_none_right_eq_some, Option.some.injEq] at h
    exact h.2 ▸ .readLock k hk h.1
  next hk => exact Option.some.inj h ▸ .readPhase k hk
  next id kind hk =>
    simp only [Option.ite_none_right_eq_some, Option.some.injEq] at h
    exact h.2 ▸ .mark k id kind hk h.1
  next id kind hk =>
    simp only [Option.ite_none_right_eq_some, Option.some.injEq] at h
    exact h.2 ▸ .markLocked k id kind hk h.1
  next id kind hk => exact Option.some.inj h ▸ .markBoth k id kind hk
  next hk => exact Option.some.inj h ▸ .markUnlock k hk
  next => cases h
  next => cases h
  next => cases h

theorem Process.Step.of_step (h : p.step J e = some q) : Process.Step J p q := by
  unfold Process.step at h
  split at h
  next => cases h
  next =>
    cases e with
    | pass d => exact Option.some.inj h ▸ .pass d
    | tick =>
      simp only [Process.tickStep, Option.ite_none_right_eq_some, Option.some.injEq] at h
      exact h.2 ▸ .tick
    | main receiver => exact .of_mainStep h
    | monitor order receiver => exact .of_monitorStep h
    | call k => exact .of_callStep h
    | timeout k =>
      simp only [Process.timeoutStep] at h
      split at h
      next since hk =>
        simp only [Option.ite_none_right_eq_some, Option.some.injEq] at h
        exact h.2 ▸ .timeout k since hk h.1
      next => cases h

/-- The two ways in which a send takes place. -/
theorem send_cases {task : Option Task} {receiver : Option ℕ} (h : p.send task receiver = some q) :
    q = { p with c := { p.c with taskChan := p.c.taskChan ++ [task] } } ∨
    ∃ k since, p.calls[k]? = some (.select since) ∧
      q = { p with calls := p.calls.set k (.received task) } := by
  cases receiver with
  | none =>
    simp only [Process.send, Option.ite_none_right_eq_some, Option.some.injEq] at h
    exact .inl h.2.symm
  | some k =>
    simp only [Process.send] at h
    split at h
    next since _ hk => exact .inr ⟨k, since, hk, (Option.some.inj h).symm⟩
    next => cases h

end MR
