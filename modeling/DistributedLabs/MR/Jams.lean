import DistributedLabs.MR.Flow
import DistributedLabs.Runs.Owners

/-! Who has the tasks that were handed out, and the states in which `MakeCoordinator` cannot get
rid of a task: while it registers the reduce tasks, and while it sends the exit tasks. -/
namespace MR
open Runs Counting
variable {ι : Type*} [DecidableEq ι] {J : Job} {s t : State ι} {w : ι} {es : List (Event ι)}

/-- The call that a worker waits for. -/
def Worker.call : Worker → Option ℕ
  | .asking k => some k
  | .reporting k => some k
  | .idle => none
  | .mapStart _ => none
  | .mapCreate _ _ _ => none
  | .mapWrite _ _ _ _ _ => none
  | .reduceOpen _ _ _ _ => none
  | .reduceRead _ _ _ _ _ _ => none
  | .reduceSort _ _ => none
  | .reduceWrite _ _ _ => none
  | .report _ => none
  | .exited => none
  | .cannotOpen _ => none
  | .crashed => none

/-- The worker executes a task or is about to report it. -/
def Worker.executes : Worker → Bool
  | .mapStart _ => true
  | .mapCreate _ _ _ => true
  | .mapWrite _ _ _ _ _ => true
  | .reduceOpen _ _ _ _ => true
  | .reduceRead _ _ _ _ _ _ => true
  | .reduceSort _ _ => true
  | .reduceWrite _ _ _ => true
  | .report _ => true
  | .idle => false
  | .asking _ => false
  | .reporting _ => false
  | .exited => false
  | .cannotOpen _ => false
  | .crashed => false

/-- A task to execute is with the worker or in the call that it waits for. -/
def State.holding (s : State ι) (w : ι) : Bool :=
  match s.workers w with
  | .asking k => (s.coord.calls[k]?).any Call.works
  | x => x.executes

/-- Workers wait for different calls. -/
def OwnCalls (s : State ι) : Prop := Owners (fun w => (s.workers w).call) s.coord.calls.length

theorem call_start (task : Task) (lenfiles : ℕ) : (State.start task lenfiles).call = none := by
  unfold State.start
  cases task.taskType <;> rfl

/-- After its step a worker waits for no call or for a new one. -/
theorem State.Work.call (h : State.Work J s w t) :
    (t.workers w).call = none ∨ ((t.workers w).call = some s.coord.calls.length ∧
      t.coord.calls.length = s.coord.calls.length + 1) := by
  cases h with
  | ask hw | report task hw =>
    refine .inr ⟨by rw [setWorker_workers_self]; rfl, ?_⟩
    exact List.length_append
  | given k task lenfiles hw hk =>
    rw [setWorker_workers_self]
    exact .inl (call_start task lenfiles)
  | _ =>
    rw [setWorker_workers_self]
    exact .inl rfl

theorem State.Work.calls_prefix (h : State.Work J s w t) : s.coord.calls <+: t.coord.calls := by
  rcases h.coord with heq | ⟨x, -, heq⟩
  · rw [heq]
  · rw [heq]
    exact List.prefix_append _ _

theorem ownCalls_work (hi : OwnCalls s) (h : State.Work J s w t) : OwnCalls t := by
  refine Owners.change (i := w) hi h.calls_prefix.length_le ?_ ?_
  · intro v hv
    rw [h.touches.others _ hv]
  · intro k hk
    rcases h.call with hnone | ⟨hlast, hlen⟩
    · rw [hnone] at hk
      cases hk
    · rw [hlast] at hk
      cases hk
      exact .inr ⟨le_rfl, by omega⟩

/-- What a step of the coordinator does to the calls: at most one of them moves on, which neither
loses its task nor becomes a call of the other kind. -/
theorem Flow.calls {J : Config} {p q : Process} (h : Flow J p q) :
    q.calls = p.calls ∨ ∃ k x y, p.calls[k]? = some x ∧ q.calls = p.calls.set k y ∧
      y.marks = x.marks ∧ (x.works = true → y.works = true) := by
  cases h with
  | stay hcalls | register task hcalls => exact .inl hcalls
  | send sent receiver u hs hcalls =>
    rw [hcalls]
    rcases send_cases hs with rfl | ⟨k, since, hk, rfl⟩
    · exact .inl rfl
    · exact .inr ⟨k, _, _, hk, rfl, rfl, nofun⟩
  | receive k since task hk hcalls => exact .inr ⟨k, _, _, hk, hcalls, rfl, nofun⟩
  | advance k x y hk hcalls hworks hmarks =>
    exact .inr ⟨k, x, y, hk, hcalls, hmarks, fun hx => hworks.trans hx⟩
  | delete k id kind hk hcalls => exact .inr ⟨k, _, _, hk, hcalls, rfl, nofun⟩

omit [DecidableEq ι] in
theorem ownCalls_coord {q : Process} (hi : OwnCalls s) (h : Flow J.toConfig s.coord q) :
    OwnCalls { s with coord := q } := by
  have hlen : q.calls.length = s.coord.calls.length := by
    rcases h.calls with heq | ⟨k, x, y, -, heq, -⟩
    · rw [heq]
    · rw [heq, List.length_set]
  unfold OwnCalls
  rw [hlen]
  exact hi

omit [DecidableEq ι] in
theorem holding_asking {k : ℕ} (hw : s.workers w = .asking k) :
    s.holding w = (s.coord.calls[k]?).any Call.works := by
  simp only [State.holding, hw]

omit [DecidableEq ι] in
/-- What a worker holds depends on the call it waits for only. -/
theorem holding_coord {q : Process}
    (h : ∀ k, s.workers w = .asking k → q.calls[k]? = s.coord.calls[k]?) :
    State.holding { s with coord := q } w = s.holding w := by
  unfold State.holding
  cases hw : s.workers w with
  | asking k => simp only [h k hw]
  | _ => rfl

/-- The worker holds the task that it starts. -/
theorem holding_start (task : Task) (lenfiles : ℕ) :
    (s.setWorker w (State.start task lenfiles)).holding w = task.isWork := by
  rw [State.holding, setWorker_workers_self]
  unfold State.start Task.isWork
  cases task.taskType <;> rfl

/-- The step of a worker keeps the sum of what it holds and what it has reported. -/
theorem State.Work.holding (h : State.Work J s w t) :
    t.coord.calls.countP Call.marks + (t.holding w).toNat ≤
      s.coord.calls.countP Call.marks + (s.holding w).toNat := by
  cases h with
  | ask hw =>
    have hnone : State.holding ((s.call (.select s.coord.now)).setWorker w
        (.asking s.coord.calls.length)) w = false := by
      rw [holding_asking (setWorker_workers_self _ _ _)]
      show ((s.coord.calls ++ [Call.select s.coord.now])[s.coord.calls.length]?).any Call.works =
        false
      rw [List.getElem?_concat_length]
      rfl
    rw [hnone]
    show (s.coord.calls ++ [Call.select s.coord.now]).countP Call.marks + 0 ≤ _
    rw [List.countP_append]
    exact Nat.le_add_right _ _
  | given k task lenfiles hw hk =>
    have hbefore : s.holding w = task.isWork := by
      rw [holding_asking hw, hk]
      rfl
    rw [holding_start, hbefore]
    exact le_rfl
  | report task hw =>
    have hbefore : s.holding w = true := by simp only [State.holding, hw, Worker.executes]
    have hafter : State.holding ((s.call (.mark task.taskid task.taskType)).setWorker w
        (.reporting s.coord.calls.length)) w = false := by
      rw [State.holding, setWorker_workers_self]
      rfl
    rw [hbefore, hafter]
    show (s.coord.calls ++ [Call.mark task.taskid task.taskType]).countP Call.marks + 0 ≤ _
    rw [List.countP_append]
    exact le_rfl
  | cannotOpen | reported | stop =>
    rw [State.holding, setWorker_workers_self]
    exact Nat.le_add_right _ _
  | mapStart task content hw | mapCreate task buckets i hw | mapEnd task buckets i hw
  | mapAppend task buckets i n kv rest hw | mapRename task buckets i n fs hw
  | reduceOpen task lenfiles i n acc hw | reduceEnd task lenfiles i acc hw
  | reduceRead task lenfiles i n pos acc kv hw | reduceClose task lenfiles i n pos acc hw
  | sort task acc l hw | reduceAppend task n kv rest hw | reduceRename task n fs hw =>
    have hbefore : s.holding w = true := by simp only [State.holding, hw, Worker.executes]
    rw [hbefore]
    exact Nat.add_le_add_left (Bool.toNat_le _) _

/-- A step of another worker does not matter. -/
theorem holding_others (hi : OwnCalls s) (h : State.Work J s w t) {v : ι} (hv : v ≠ w) :
    t.holding v = s.holding v := by
  unfold State.holding
  rw [h.touches.others _ hv]
  cases hw : s.workers v with
  | asking k =>
    have hlt : k < s.coord.calls.length := hi.lt v k (by rw [hw]; rfl)
    obtain ⟨l, hl⟩ := h.calls_prefix
    simp only
    rw [← hl, List.getElem?_append_left hlt]
  | _ => rfl

section Balance
variable [Fintype ι]

/-- Every call of `MarkTaskDone` and every worker with a task accounts for a call of its own that
has handed out a task. -/
def Balanced (s : State ι) : Prop :=
  s.coord.calls.countP Call.marks + tally s.holding ≤ s.coord.calls.countP Call.works

/-- The one worker that waits for the call gets the task that the call gets. -/
theorem tally_set {q : Process} (hi : OwnCalls s) {k : ℕ} {x y : Call}
    (hk : s.coord.calls[k]? = some x) (hq : q.calls = s.coord.calls.set k y)
    (hxy : x.works = true → y.works = true) :
    tally (State.holding { s with coord := q }) + x.works.toNat ≤
      tally s.holding + y.works.toNat := by
  have hother : ∀ w, s.workers w ≠ .asking k →
      State.holding { s with coord := q } w = s.holding w := by
    intro w hw
    refine holding_coord fun j hj => ?_
    have hne : k ≠ j := fun heq => hw (heq ▸ hj)
    rw [hq, List.getElem?_set_ne hne]
  have hle : x.works.toNat ≤ y.works.toNat := by
    cases hx : x.works with
    | false => exact Nat.zero_le _
    | true => rw [hxy hx]
  by_cases howner : ∃ w, s.workers w = .asking k
  · obtain ⟨w, hw⟩ := howner
    have hcall : ∀ {v}, s.workers v = .asking k → (s.workers v).call = some k := by
      intro v hv
      rw [hv]
      rfl
    have hchange := tally_change (i := w) fun v hv =>
      hother v fun hvk => hv (hi.unique v w k (hcall hvk) (hcall hw))
    have hbefore : s.holding w = x.works := by
      rw [holding_asking hw, hk]
      rfl
    have hafter : State.holding { s with coord := q } w = y.works := by
      have hlt : k < s.coord.calls.length := (List.getElem?_eq_some_iff.mp hk).1
      have hy : q.calls[k]? = some y := by rw [hq, List.getElem?_set_self hlt]
      simp only [State.holding, hw, hy, Option.any_some]
    rw [hbefore, hafter] at hchange
    exact hchange.le
  · have hsame := tally_congr fun w => hother w fun hw => howner ⟨w, hw⟩
    rw [hsame]
    exact Nat.add_le_add_left hle _

theorem balanced_coord {q : Process} (hi : OwnCalls s) (hb : Balanced s)
    (h : Flow J.toConfig s.coord q) : Balanced { s with coord := q } := by
  unfold Balanced at *
  rcases h.calls with heq | ⟨k, x, y, hk, heq, hmarks, hworks⟩
  · have hsame : tally (State.holding { s with coord := q }) = tally s.holding :=
      tally_congr fun w => holding_coord fun k _ => by rw [heq]
    simp only [heq, hsame]
    exact hb
  · have htally := tally_set hi hk heq hworks
    have hcountM := countP_set (p := Call.marks) (y := y) hk
    have hcountW := countP_set (p := Call.works) (y := y) hk
    rw [hmarks] at hcountM
    simp only [heq]
    omega

theorem balanced_work (hi : OwnCalls s) (hb : Balanced s) (h : State.Work J s w t) :
    Balanced t := by
  have hchange : tally t.holding + (s.holding w).toNat = tally s.holding + (t.holding w).toNat :=
    tally_change fun v hv => holding_others hi h hv
  have hown := h.holding
  have hworks : t.coord.calls.countP Call.works = s.coord.calls.countP Call.works := by
    rcases h.coord with heq | ⟨x, hx, heq⟩
    · rw [heq]
    · have hnone : [x].countP Call.works = 0 := by
        cases hx <;> rfl
      rw [heq]
      show (s.coord.calls ++ [x]).countP Call.works = _
      rw [List.countP_append, hnone]
      rfl
  unfold Balanced at *
  omega

omit [DecidableEq ι] in
theorem balanced_init (J : Job) : Balanced (.init J ι) := by
  have hnone : tally (State.holding (.init J ι)) = tally fun _ : ι => false :=
    tally_congr fun _ => rfl
  unfold Balanced
  rw [hnone]
  simp [tally, State.init, Process.init]

theorem balanced_of_run (h : (system J ι).Run es s) : OwnCalls s ∧ Balanced s := by
  refine h.invariant' (I := fun _ s => OwnCalls s ∧ Balanced s) ?_ ?_
  · exact ⟨⟨nofun, nofun⟩, balanced_init J⟩
  intro es s e t hr hi ht
  rcases State.step_cases ht with ⟨a, p, rfl, hp, rfl⟩ | ⟨w, hw⟩
  · have hflow := Process.Step.flow (flowInv_of_run hr).inRange (.of_step hp)
    exact ⟨ownCalls_coord hi.1 hflow, balanced_coord hi.1 hi.2 hflow⟩
  · exact ⟨ownCalls_work hi.1 hw, balanced_work hi.1 hi.2 hw⟩

/-- `MakeCoordinator` holds `TaskLock` and cannot send a reduce task because `TaskChan` is full,
and every worker is in `MarkTaskDone` and waits for `TaskLock`. -/
def ReduceJam (s : State ι) : Prop :=
  (∃ i task, s.coord.main = .reduceSend i task) ∧
    s.coord.c.capacity ≤ s.coord.c.taskChan.length ∧ s.coord.taskLock = some .main ∧
    ∀ w, ∃ k id kind, s.workers w = .reporting k ∧ s.coord.calls[k]? = some (.mark id kind)

/-- `MakeCoordinator` cannot send an exit task because `TaskChan` is full, and every worker has
exited. -/
def ExitJam (J : Config) (s : State ι) : Prop :=
  (∃ i < J.nReduce, s.coord.main = .exitSend i) ∧
    s.coord.c.capacity ≤ s.coord.c.taskChan.length ∧ ∀ w, s.workers w = .exited

/-- Reports that wait for their locks have deleted nothing yet. -/
theorem deleted_add_reported_le (l : List Call) :
    l.countP Call.deleted + l.countP (fun x => x.reported.isSome) ≤ l.countP Call.marks := by
  apply countP_add_le
  intro x
  cases x <;> exact le_rfl

omit [DecidableEq ι] in
theorem card_le_reported (hi : OwnCalls s)
    (h : ∀ w, ∃ k id kind, s.workers w = .reporting k ∧ s.coord.calls[k]? = some (.mark id kind)) :
    Fintype.card ι ≤ s.coord.calls.countP fun x => x.reported.isSome := by
  choose f id kind hf using h
  have hcall : ∀ w, (s.workers w).call = some (f w) := by
    intro w
    rw [(hf w).1]
    rfl
  apply card_le_countP (f := f)
  · intro v w hvw
    have hv := hcall v
    rw [hvw] at hv
    exact hi.unique v w (f w) hv (hcall w)
  · intro w
    rw [(hf w).2]
    rfl

/-- With at most `2F + W` reduce tasks, counting the tasks that the monitor has sent again,
`MakeCoordinator` and the workers do not block each other. By then `F` reports have deleted the
map tasks; what these reports and the waiting workers account for is not on `TaskChan`. -/
theorem reduceJam_unreachable (h : (system J ι).Run es s)
    (hfew : J.nReduce + resends J es ≤ 2 * J.files.length + Fintype.card ι) : ¬ ReduceJam s := by
  rintro ⟨⟨i, task, hm⟩, hfull, -, hwait⟩
  have hi := flowInv_of_run h
  obtain ⟨hown, hb⟩ := balanced_of_run h
  have hmaps : J.files.length ≤ s.coord.calls.countP Call.deleted := by
    have hclosed := closed_le_deleted hi
    rwa [hm] at hclosed
  have hreports := deleted_add_reported_le s.coord.calls
  have hwaiting := card_le_reported hown hwait
  have hload : 1 + s.coord.c.taskChan.length + s.coord.calls.countP Call.works ≤
      J.files.length + (i + 1) + 0 + resends J es := by
    have hload := hi.load
    unfold Process.load at hload
    rwa [hm] at hload
  have hlt : i + 1 ≤ J.nReduce := by
    have hrange := hi.inRange
    rw [hm] at hrange
    exact hrange.2.1
  have hcap : s.coord.c.capacity = 2 * J.files.length := by
    rw [Coordinator.capacity, hi.lenfiles]
  unfold Balanced at hb
  omega

/-- One empty input file and `n + 1` reduce tasks. -/
def emptyJob (n : ℕ) : Job where
  files := ["f"]
  nReduce := n + 1
  nReduce_pos := n.succ_pos
  mapf := charPairs
  reducef := countValues
  input := fun _ => some ""

/-- The map task is done, and two reduce tasks fill `TaskChan`. -/
def fullRun (n : ℕ) : List (Event Bool) :=
  [mainSteps 3, getTaskSteps false 0, workSteps false (2 * (n + 1) + 2), reportSteps false 1,
    mainSteps 10].flatten

/-- A worker that has got a reduce task executes it up to its report. -/
def reduceSteps (w : Bool) : List (Event Bool) := workSteps w 3 ++ [.sort w []] ++ workSteps w 1

theorem fullRun_not_jammed : ∃ s, (system (emptyJob 3) Bool).Run (fullRun 3) s ∧
    s.coord.main = .reduceSend 2 (makeReduceTask 2 4) ∧
    s.coord.c.capacity ≤ s.coord.c.taskChan.length ∧ ¬ ReduceJam s := by
  obtain ⟨s, hrun, hmain, hfull⟩ := System.exists_run (system (emptyJob 3) Bool) (fullRun 3)
    (fun s => s.coord.main = .reduceSend 2 (makeReduceTask 2 4) ∧
      s.coord.c.capacity ≤ s.coord.c.taskChan.length) (by decide +kernel)
  exact ⟨s, hrun, hmain, hfull, reduceJam_unreachable hrun (by decide +kernel)⟩

/-- Each of the two workers takes a reduce task, `MakeCoordinator` fills `TaskChan` again, and both
workers report. -/
def reduceJamRun : List (Event Bool) :=
  [fullRun 4, getTaskSteps false 2, mainSteps 2, getTaskSteps true 3, mainSteps 2,
    reduceSteps false, workSteps false 1, reduceSteps true, workSteps true 1].flatten

theorem reduceJamRun_jammed : ∃ s, (system (emptyJob 4) Bool).Run reduceJamRun s ∧ ReduceJam s := by
  obtain ⟨s, hrun, hmain, hfull, hlock, hfirst, hcall, hsecond, hcall'⟩ :=
    System.exists_run (system (emptyJob 4) Bool) reduceJamRun
      (fun s => s.coord.main = .reduceSend 4 (makeReduceTask 4 5) ∧
        s.coord.c.capacity ≤ s.coord.c.taskChan.length ∧ s.coord.taskLock = some .main ∧
        s.workers false = .reporting 4 ∧ s.coord.calls[4]? = some (.mark 0 .reduce) ∧
        s.workers true = .reporting 5 ∧ s.coord.calls[5]? = some (.mark 1 .reduce))
      (by decide +kernel)
  refine ⟨s, hrun, ⟨4, _, hmain⟩, hfull, hlock, ?_⟩
  intro w
  cases w with
  | false => exact ⟨4, 0, .reduce, hfirst, hcall⟩
  | true => exact ⟨5, 1, .reduce, hsecond, hcall'⟩

/-- With at most `2F` reduce tasks, counting the tasks that the monitor has sent again, the exit
tasks fit into `TaskChan`: when they are sent, a report has deleted every task. -/
theorem exitJam_unreachable (h : (system J ι).Run es s)
    (hfew : J.nReduce + resends J es ≤ 2 * J.files.length) : ¬ ExitJam J.toConfig s := by
  rintro ⟨⟨i, hlt, hm⟩, hfull, -⟩
  have hi := flowInv_of_run h
  obtain ⟨-, hb⟩ := balanced_of_run h
  have hdone : J.files.length + J.nReduce ≤ s.coord.calls.countP Call.deleted := by
    have hclosed := closed_le_deleted hi
    rwa [hm] at hclosed
  have hreports := deleted_add_reported_le s.coord.calls
  have hload : 0 + s.coord.c.taskChan.length + s.coord.calls.countP Call.works ≤
      J.files.length + J.nReduce + 0 + i + resends J es := by
    have hload := hi.load
    unfold Process.load at hload
    rwa [hm] at hload
  have hcap : s.coord.c.capacity = 2 * J.files.length := by
    rw [Coordinator.capacity, hi.lenfiles]
  unfold Balanced at hb
  omega

/-- A job that ends after the monitor has queued a task again. -/
theorem completedRun_not_jammed : ∃ s, (system countJob Bool).Run completedRun s ∧
    s.coord.c.phase = .done ∧ s.coord.main = .exitSend 0 ∧ resends countJob completedRun = 1 ∧
    ¬ ExitJam countJob.toConfig s := by
  obtain ⟨s, hrun, hphase, hmain⟩ := System.exists_run (system countJob Bool) completedRun
    (fun s => s.coord.c.phase = .done ∧ s.coord.main = .exitSend 0) (by decide +kernel)
  have hresends : resends countJob completedRun = 1 := by decide +kernel
  exact ⟨s, hrun, hphase, hmain, hresends, exitJam_unreachable hrun (by decide +kernel)⟩

/-- The first worker does all tasks. Both workers then wait until their calls time out, the phase
changes, and both are told to exit by the timeout branch of `AllocateTask`. Nobody is left to
receive exit tasks. -/
def exitJamRun : List (Event Bool) :=
  [fullRun 2, getTaskSteps false 2, mainSteps 2, reduceSteps false, reportSteps false 3,
    getTaskSteps false 4, reduceSteps false, reportSteps false 5,
    getTaskSteps false 6, reduceSteps false, reportSteps false 7,
    [.work false, .work true, .coord (.pass 800), .coord (.timeout 8), .coord (.timeout 9)],
    mainSteps 4,
    [.coord (.call 8), .coord (.call 8), .work false, .coord (.call 9), .coord (.call 9),
      .work true],
    mainSteps 2].flatten

theorem exitJamRun_jammed : ∃ s, (system (emptyJob 2) Bool).Run exitJamRun s ∧
    s.coord.c.phase = .done ∧ ExitJam (emptyJob 2).toConfig s := by
  obtain ⟨s, hrun, hphase, hmain, hfull, hfirst, hsecond⟩ :=
    System.exists_run (system (emptyJob 2) Bool) exitJamRun
      (fun s => s.coord.c.phase = .done ∧ s.coord.main = .exitSend 2 ∧
        s.coord.c.capacity ≤ s.coord.c.taskChan.length ∧
        s.workers false = .exited ∧ s.workers true = .exited) (by decide +kernel)
  refine ⟨s, hrun, hphase, ⟨2, by decide, hmain⟩, hfull, ?_⟩
  intro w
  cases w with
  | false => exact hfirst
  | true => exact hsecond

end Balance

end MR
