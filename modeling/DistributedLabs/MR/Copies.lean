import DistributedLabs.MR.Reach

/-! Copies of tasks on their way: in `TaskChan`, in the hands of an `AllocateTask` that has not
recorded them yet, or about to be sent by `MakeCoordinator`. -/
namespace MR
variable {J : Config} {p q : Process}

/-- What an `AllocateTask` has received and not yet recorded, which may be nil. -/
def Call.inHand : Call → Option (Option Task)
  | .received task => some task
  | .stamping task => some task
  | .select _ => none
  | .timedOut => none
  | .readPhase => none
  | .allocated _ _ => none
  | .mark _ _ => none
  | .markLocked _ _ => none
  | .markBoth _ _ => none
  | .markUnlock => none
  | .marked => none

/-- The copies of tasks on their way. -/
def Process.copies (p : Process) : List (Option Task) :=
  p.c.taskChan ++ p.calls.filterMap Call.inHand ++ (p.main.task.map some).toList

theorem mem_copies {t : Option Task} :
    t ∈ p.copies ↔ t ∈ p.c.taskChan ∨ (∃ x ∈ p.calls, x.inHand = some t) ∨
      ∃ task, p.main.task = some task ∧ t = some task := by
  have hmain : t ∈ (p.main.task.map some).toList ↔
      ∃ task, p.main.task = some task ∧ t = some task := by
    cases p.main.task <;> simp
  rw [Process.copies, List.mem_append, List.mem_append, List.mem_filterMap, hmain, or_assoc]

theorem copies_of_chan {t : Option Task} (h : t ∈ p.c.taskChan) : t ∈ p.copies :=
  mem_copies.mpr (.inl h)

theorem copies_of_call {t : Option Task} {k : ℕ} {x : Call} (hk : p.calls[k]? = some x)
    (hx : x.inHand = some t) : t ∈ p.copies :=
  mem_copies.mpr (.inr (.inl ⟨x, List.mem_of_getElem? hk, hx⟩))

theorem copies_of_main {task : Task} (h : p.main.task = some task) : some task ∈ p.copies :=
  mem_copies.mpr (.inr (.inr ⟨task, h, rfl⟩))

theorem copies_issue {x : Call} (hx : x.Fresh) : (p.issue x).copies = p.copies := by
  have hnone : x.inHand = none := by cases hx <;> rfl
  simp [Process.copies, Process.issue, hnone]

/-- New copies come from the sender of a task only. -/
theorem copies_send {sent : Option Task} {receiver : Option ℕ} {u : Process} {m : Main}
    {M : Monitor}
    (hs : p.send sent receiver = some u) (hm : m.task = none ∨ m = p.main) {t : Option Task}
    (ht : t ∈ Process.copies { u with main := m, monitor := M }) : t ∈ p.copies ∨ t = sent := by
  have hmain : (∃ task, m.task = some task ∧ t = some task) → t ∈ p.copies := by
    rintro ⟨task, hmt, rfl⟩
    rcases hm with hm | rfl
    · rw [hm] at hmt
      cases hmt
    · exact copies_of_main hmt
  rcases send_cases hs with rfl | ⟨k, since, hk, rfl⟩
  · rcases mem_copies.mp ht with hc | hc | hc
    · rcases List.mem_append.mp hc with hc | hc
      · exact .inl (copies_of_chan hc)
      · exact .inr (List.mem_singleton.mp hc)
    · exact .inl (mem_copies.mpr (.inr (.inl hc)))
    · exact .inl (hmain hc)
  · rcases mem_copies.mp ht with hc | ⟨x, hx, hxt⟩ | hc
    · exact .inl (copies_of_chan hc)
    · rcases List.mem_or_eq_of_mem_set hx with hx | rfl
      · exact .inl (mem_copies.mpr (.inr (.inl ⟨x, hx, hxt⟩)))
      · exact .inr (Option.some.inj hxt).symm
    · exact .inl (hmain hc)

/-- A step of a call that receives what is in the channel, or keeps or drops what it has. -/
theorem copies_set {t : Option Task} (ht : t ∈ q.copies) {k : ℕ} {x y : Call}
    (hk : p.calls[k]? = some x) (hq : q.calls = p.calls.set k y)
    (hchan : ∀ t ∈ q.c.taskChan, t ∈ p.c.taskChan) (hm : q.main = p.main)
    (hy : ∀ t, y.inHand = some t → x.inHand = some t ∨ t ∈ p.c.taskChan) : t ∈ p.copies := by
  rcases mem_copies.mp ht with hc | ⟨z, hz, hzt⟩ | ⟨task, hmt, rfl⟩
  · exact copies_of_chan (hchan t hc)
  · rw [hq] at hz
    rcases List.mem_or_eq_of_mem_set hz with hz | rfl
    · exact mem_copies.mpr (.inr (.inl ⟨z, hz, hzt⟩))
    · rcases hy t hzt with hx | hx
      · exact copies_of_call hk hx
      · exact copies_of_chan hx
  · exact copies_of_main (hm ▸ hmt)

/-- Where the copies after a step come from. -/
inductive CopyFrom (J : Config) (p q : Process) (t : Option Task) : Prop
  | old (h : t ∈ p.copies)
  | registered (task : Task) (ht : t = some task)
      (hlookup : q.c.tasks.lookup task.taskid = some task)
  | queued (id : ℕ) (rest : List ℕ) (hm : p.monitor = .send id rest) (ht : t = p.c.tasks.lookup id)
  | exit (i : ℕ) (hm : p.main = .exitSend i)

theorem copies_same {t : Option Task} (ht : t ∈ q.copies) (hchan : q.c.taskChan = p.c.taskChan)
    (hcalls : q.calls = p.calls) (hm : q.main.task = none ∨ q.main = p.main) : t ∈ p.copies := by
  rcases mem_copies.mp ht with hc | hc | ⟨task, hmt, rfl⟩
  · exact copies_of_chan (hchan ▸ hc)
  · exact mem_copies.mpr (.inr (.inl (hcalls ▸ hc)))
  · rcases hm with hm | hm
    · rw [hm] at hmt
      cases hmt
    · exact copies_of_main (hm ▸ hmt)

theorem copies_register {task : Task} {m : Main} (hm : m.task = some task) {t : Option Task}
    (ht : t ∈ Process.copies { p with c := p.c.register task, main := m }) :
    t ∈ p.copies ∨ t = some task := by
  rcases mem_copies.mp ht with hc | hc | ⟨task', hmt, rfl⟩
  · exact .inl (copies_of_chan hc)
  · exact .inl (mem_copies.mpr (.inr (.inl hc)))
  · rw [hm] at hmt
    exact .inr hmt.symm

theorem Process.Step.copies (h : Process.Step J p q) {t : Option Task} (ht : t ∈ q.copies) :
    CopyFrom J p q t := by
  cases h with
  | mapWrite i v hm hv =>
    rcases copies_register rfl ht with hold | hnew
    · exact .old hold
    · exact .registered _ hnew (by simp [Coordinator.register])
  | reduceWrite i hm hi =>
    rcases copies_register rfl ht with hold | hnew
    · exact .old hold
    · exact .registered _ hnew (by simp [Coordinator.register])
  | mapSend i sent receiver u hm hs | reduceSend i sent receiver u hm hs =>
    rcases copies_send hs (.inl rfl) ht with hold | rfl
    · exact .old hold
    · exact .old (copies_of_main (by rw [hm]; rfl))
  | exitSend i receiver u hm hi hs => exact .exit i hm
  | monitorSend id rest receiver u hm hs =>
    rcases copies_send hs (.inr (send_main hs)) ht with hold | hnew
    · exact .old hold
    · exact .queued id rest hm hnew
  | receive k since sent rest hk hc =>
    refine .old (copies_set ht hk rfl ?_ rfl ?_)
    · exact fun t ht => hc ▸ List.mem_cons_of_mem _ ht
    · intro t ht
      cases ht
      exact .inr (hc ▸ List.mem_cons_self)
  | stampLock k sent hk =>
    refine .old (copies_set ht hk rfl (fun _ h => h) rfl ?_)
    exact fun t ht => .inl ht
  | stamp k sent hk | readLock k hk | readPhase k hk | mark k id kind hk | markLocked k id kind hk
  | markBoth k id kind hk | markUnlock k hk | timeout k since hk =>
    refine .old (copies_set ht hk rfl (fun _ h => h) rfl ?_)
    intro t ht
    cases ht
  | phaseSet t hm =>
    refine .old (copies_same ht rfl rfl (.inl ?_))
    by_cases htr : t = .reduce <;> simp [htr, Main.task]
  | mapEnd | checkLock | checkAgain | checkEnd | phaseLock | reduceLock | reduceEnd | exitEnd =>
    exact .old (copies_same ht rfl rfl (.inl rfl))
  | pass | tick | monitorTick | monitorLock | scanEnd | scanNext | monitorTaskLock | expired | alive
  | touch | panic => exact .old (copies_same ht rfl rfl (.inr rfl))

theorem copies_keep {t : Option Task} (ht : t ∈ p.copies)
    (hchan : t ∈ p.c.taskChan → t ∈ q.copies)
    (hcalls : ∀ x ∈ p.calls, x.inHand = some t → t ∈ q.copies)
    (hmain : ∀ task, p.main.task = some task → t = some task → t ∈ q.copies) : t ∈ q.copies := by
  rcases mem_copies.mp ht with hc | ⟨x, hx, hxt⟩ | ⟨task, hm, heq⟩
  · exact hchan hc
  · exact hcalls x hx hxt
  · exact hmain task hm heq

/-- A call that had nothing in its hands, or keeps it. -/
theorem copies_keep_set {t : Option Task} (ht : t ∈ p.copies) {k : ℕ} {x y : Call}
    (hk : p.calls[k]? = some x) (hq : q.calls = p.calls.set k y)
    (hxy : x.inHand = some t → y.inHand = some t)
    (hchan : t ∈ p.c.taskChan → t ∈ q.c.taskChan ∨ y.inHand = some t)
    (hm : q.main = p.main) : t ∈ q.copies := by
  have hlt := (List.getElem?_eq_some_iff.mp hk).1
  have hy : y.inHand = some t → t ∈ q.copies := by
    intro hy
    refine copies_of_call (k := k) ?_ hy
    rw [hq, List.getElem?_set_self hlt]
  refine copies_keep ht ?_ ?_ ?_
  · intro hc
    exact (hchan hc).elim copies_of_chan hy
  · intro z hz hzt
    obtain ⟨j, hj⟩ := List.mem_iff_getElem?.mp hz
    by_cases hjk : k = j
    · subst hjk
      rw [hk] at hj
      cases hj
      exact hy (hxy hzt)
    · refine copies_of_call (k := j) ?_ hzt
      rw [hq, List.getElem?_set_ne hjk]
      exact hj
  · rintro task hmt rfl
    exact copies_of_main (hm ▸ hmt)

theorem copies_keep_same {t : Option Task} (ht : t ∈ p.copies)
    (hchan : q.c.taskChan = p.c.taskChan) (hcalls : q.calls = p.calls)
    (hm : p.main.task = none ∨ q.main = p.main) : t ∈ q.copies := by
  refine copies_keep ht ?_ ?_ ?_
  · exact fun hc => copies_of_chan (hchan ▸ hc)
  · exact fun x hx hxt => mem_copies.mpr (.inr (.inl ⟨x, hcalls ▸ hx, hxt⟩))
  · rintro task hmt rfl
    rcases hm with hm | hm
    · rw [hm] at hmt
      cases hmt
    · exact copies_of_main (hm ▸ hmt)

/-- What is sent is on its way afterwards, and so is all that was before. -/
theorem copies_keep_send {sent : Option Task} {receiver : Option ℕ} {u : Process} {m : Main}
    {M : Monitor} (hs : p.send sent receiver = some u)
    (hm : (∀ task, p.main.task = some task → sent = some task) ∨ m = p.main) {t : Option Task}
    (ht : t ∈ p.copies ∨ t = sent) : t ∈ Process.copies { u with main := m, monitor := M } := by
  have hsent : sent ∈ Process.copies { u with main := m, monitor := M } := by
    rcases send_cases hs with rfl | ⟨k, since, hk, rfl⟩
    · exact copies_of_chan (List.mem_append_right _ (List.mem_singleton_self _))
    · refine copies_of_call (k := k) (x := .received sent) ?_ rfl
      exact List.getElem?_set_self (List.getElem?_eq_some_iff.mp hk).1
  rcases ht with ht | rfl
  · refine copies_keep ht ?_ ?_ ?_
    · intro hc
      rcases send_cases hs with rfl | ⟨k, since, -, rfl⟩
      · exact copies_of_chan (List.mem_append_left _ hc)
      · exact copies_of_chan hc
    · intro x hx hxt
      rcases send_cases hs with rfl | ⟨k, since, hk, rfl⟩
      · exact mem_copies.mpr (.inr (.inl ⟨x, hx, hxt⟩))
      · obtain ⟨j, hj⟩ := List.mem_iff_getElem?.mp hx
        have hjk : k ≠ j := by
          rintro rfl
          rw [hk] at hj
          cases hj
          cases hxt
        refine copies_of_call (k := j) ?_ hxt
        rw [List.getElem?_set_ne hjk]
        exact hj
    · rintro task hmt rfl
      rcases hm with hm | rfl
      · rw [← hm task hmt]
        exact hsent
      · exact copies_of_main hmt
  · exact hsent

/-- A copy stays on its way until `AllocateTask` records its id. -/
theorem Process.Step.copies_kept (h : Process.Step J p q) {task : Task}
    (ht : some task ∈ p.copies) : some task ∈ q.copies ∨ task.taskid ∈ q.c.taskAliveDetector := by
  cases h with
  | mapSend i sent receiver u hm hs | reduceSend i sent receiver u hm hs =>
    refine .inl (copies_keep_send hs (.inl ?_) (.inl ht))
    intro task hmt
    rw [hm] at hmt
    exact hmt
  | exitSend i receiver u hm hi hs =>
    refine .inl (copies_keep_send hs (.inl ?_) (.inl ht))
    intro task hmt
    rw [hm] at hmt
    cases hmt
  | monitorSend id rest receiver u hm hs =>
    exact .inl (copies_keep_send hs (.inr (send_main hs)) (.inl ht))
  | receive k since sent rest hk hc =>
    refine .inl (copies_keep_set ht hk rfl (fun h => nomatch h) ?_ rfl)
    intro hmem
    rw [hc] at hmem
    rcases List.mem_cons.mp hmem with rfl | hrest
    · exact .inr rfl
    · exact .inl hrest
  | stampLock k sent hk => exact .inl (copies_keep_set ht hk rfl (fun h => h) .inl rfl)
  | stamp k sent hk =>
    by_cases hsent : sent = task
    · subst hsent
      exact .inr (by simp [Coordinator.stamp])
    · refine .inl (copies_keep_set ht hk rfl ?_ .inl rfl)
      intro h
      cases h
      exact absurd rfl hsent
  | readLock k hk | readPhase k hk | mark k id kind hk | markLocked k id kind hk
  | markBoth k id kind hk | markUnlock k hk | timeout k since hk =>
    exact .inl (copies_keep_set ht hk rfl (fun h => nomatch h) .inl rfl)
  | mapWrite i v hm | mapEnd i hm | checkLock t hm | checkAgain t hm | checkEnd t hm
  | phaseLock t hm | phaseSet t hm | reduceLock hm | reduceWrite i hm | reduceEnd i hm
  | exitEnd i hm =>
    exact .inl (copies_keep_same ht rfl rfl (.inl (by rw [hm]; rfl)))
  | pass | tick | monitorTick | monitorLock | scanEnd | scanNext | monitorTaskLock | expired | alive
  | touch | panic => exact .inl (copies_keep_same ht rfl rfl (.inr rfl))

/-- What a step does to the three maps. -/
inductive MapStep (p q : Process) : Prop
  | same (hstate : q.c.taskMapState = p.c.taskMapState) (htasks : q.c.tasks = p.c.tasks)
      (halive : q.c.taskAliveDetector = p.c.taskAliveDetector)
  | register (task : Task) (hc : q.c = p.c.register task) (hm : q.main.task = some task)
  | stamp (k : ℕ) (task : Task) (hk : p.calls[k]? = some (.stamping (some task)))
      (hc : q.c = p.c.stamp task.taskid p.now)
  | touch (id : ℕ) (rest : List ℕ) (hm : p.monitor = .touch id rest)
      (hc : q.c = p.c.stamp id p.now)
  | forget (k id : ℕ) (kind : TaskType) (hk : p.calls[k]? = some (.markBoth id kind))
      (hcall : q.calls[k]? = some .markUnlock) (hM : q.monitor = p.monitor)
      (hc : q.c = p.c.forget id)

theorem Process.Step.maps (h : Process.Step J p q) : MapStep p q := by
  cases h with
  | mapWrite i v hm hv => exact .register _ rfl rfl
  | reduceWrite i hm hi => exact .register _ rfl rfl
  | stamp k task hk => exact .stamp k task hk rfl
  | touch id rest hm => exact .touch id rest hm rfl
  | markBoth k id kind hk =>
    exact .forget k id kind hk (List.getElem?_set_self (List.getElem?_eq_some_iff.mp hk).1) rfl rfl
  | mapSend i sent receiver u hm hs | reduceSend i sent receiver u hm hs
  | exitSend i receiver u hm hlt hs | monitorSend id rest receiver u hm hs =>
    rcases send_cases hs with rfl | ⟨k, since, -, rfl⟩ <;> exact .same rfl rfl rfl
  | _ => exact .same rfl rfl rfl

end MR
