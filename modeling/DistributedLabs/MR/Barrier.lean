import DistributedLabs.MR.Tasks
import DistributedLabs.MR.Worker

/-! The barrier between the phases: when `MakeCoordinator` leaves the map phase, every
intermediate file exists. -/
namespace MR
open Runs
variable {J : Job} {fs fs' : Files} {p q : Process}

/-- All intermediate files of map task `i` are in place. -/
def MapDone (J : Job) (fs : Files) (i : ℕ) : Prop :=
  ∀ r < J.nReduce, (fs.dir (.inter i r)).isSome

def AllMapped (J : Job) (fs : Files) : Prop := ∀ i < J.files.length, MapDone J fs i

/-- Tasks that can be given out: map tasks of the files, and once all files are mapped also
reduce tasks. -/
inductive Genuine (J : Job) (fs : Files) : Task → Prop
  | map (i : ℕ) (v : String) (hv : J.files[i]? = some v) : Genuine J fs (makeMapTask v i J.nReduce)
  | reduce (r : ℕ) (hr : r < J.nReduce) (hall : AllMapped J fs) :
      Genuine J fs (makeReduceTask r J.nReduce)
  | control (task : Task) (ht : task.taskType = .waiting ∨ task.taskType = .done) :
      Genuine J fs task

/-- Reports that are true. -/
inductive Reported (J : Job) (fs : Files) : ℕ × TaskType → Prop
  | map (i : ℕ) (hi : MapDone J fs i) : Reported J fs (i, .map)
  | reduce (r : ℕ) (hall : AllMapped J fs) (hr : (fs.dir (.out r)).isSome) :
      Reported J fs (r, .reduce)

/-- No published file has been removed. -/
structure Keeps (fs fs' : Files) : Prop where
  inter : ∀ i r, (fs.dir (.inter i r)).isSome → (fs'.dir (.inter i r)).isSome
  out : ∀ r, (fs.dir (.out r)).isSome → (fs'.dir (.out r)).isSome

theorem MapDone.mono (hk : Keeps fs fs') {i : ℕ} (h : MapDone J fs i) : MapDone J fs' i :=
  fun r hr => hk.inter i r (h r hr)

theorem AllMapped.mono (hk : Keeps fs fs') (h : AllMapped J fs) : AllMapped J fs' :=
  fun i hi => (h i hi).mono hk

theorem Genuine.mono (hk : Keeps fs fs') {task : Task} (h : Genuine J fs task) :
    Genuine J fs' task := by
  cases h with
  | map i v hv => exact .map i v hv
  | reduce r hr hall => exact .reduce r hr (hall.mono hk)
  | control _ ht => exact .control task ht

theorem Reported.mono (hk : Keeps fs fs') {m : ℕ × TaskType} (h : Reported J fs m) :
    Reported J fs' m := by
  cases h with
  | map i hi => exact .map i (hi.mono hk)
  | reduce r hall hr => exact .reduce r (hall.mono hk) (hk.out r hr)

/-- How many files `MakeCoordinator` has registered, counting all once the loop is over. -/
def Main.written (F : ℕ) : Main → ℕ
  | .mapWrite i => i
  | .mapSend i _ => i + 1
  | .checkLock _ => F
  | .check _ => F
  | .phaseLock _ => F
  | .phaseSet _ => F
  | .reduceLock => F
  | .reduceWrite _ => F
  | .reduceSend _ _ => F
  | .exitSend _ => F
  | .returned => F

/-- `MakeCoordinator` has not left the map phase. -/
def Main.inMap : Main → Bool
  | .mapWrite _ => true
  | .mapSend _ _ => true
  | .checkLock t => t = .map
  | .check t => t = .map
  | .phaseLock _ => false
  | .phaseSet _ => false
  | .reduceLock => false
  | .reduceWrite _ => false
  | .reduceSend _ _ => false
  | .exitSend _ => false
  | .returned => false

/-- What the coordinator's state says about the files. -/
structure CoordInv (J : Job) (fs : Files) (p : Process) : Prop where
  lenfiles : p.c.lenfiles = J.files.length
  genuine : ∀ task, p.Holds task → Genuine J fs task
  reports : ∀ x ∈ p.calls, ∀ m, x.reported = some m → Reported J fs m
  allocated : ∀ task L, .allocated task L ∈ p.calls → task.taskType = .reduce →
    L = J.files.length
  states : ∀ i < p.main.written J.files.length, i < J.files.length →
    p.c.taskMapState.lookup i = some .map ∨ MapDone J fs i
  barrier : p.main.inMap = false → AllMapped J fs

theorem CoordInv.mono (hk : Keeps fs fs') (h : CoordInv J fs p) : CoordInv J fs' p where
  lenfiles := h.lenfiles
  genuine := fun task ht => (h.genuine task ht).mono hk
  reports := fun x hx m hm => (h.reports x hx m hm).mono hk
  allocated := h.allocated
  states := fun i hi hF => (h.states i hi hF).imp_right (.mono hk)
  barrier := fun hm => (h.barrier hm).mono hk

theorem anyIn_eq_false {c : Coordinator} {t : TaskType} (h : c.anyIn t = false) (id : ℕ) :
    c.taskMapState.lookup id ≠ some t := by
  intro hid
  have hmem := AList.mem_lookup_iff.mp hid
  simp only [Coordinator.anyIn, List.any_eq_false] at h
  exact h _ hmem (by simp)

theorem send_taskMapState {sent : Option Task} {receiver : Option ℕ} {u : Process}
    (hs : p.send sent receiver = some u) : u.c.taskMapState = p.c.taskMapState := by
  rcases send_cases hs with rfl | ⟨k, since, -, rfl⟩ <;> rfl

theorem send_main {sent : Option Task} {receiver : Option ℕ} {u : Process}
    (hs : p.send sent receiver = some u) : u.main = p.main := by
  rcases send_cases hs with rfl | ⟨k, since, -, rfl⟩ <;> rfl

theorem made_genuine (hi : CoordInv J fs p) {task : Task} (h : Made J.toConfig p task) :
    Genuine J fs task := by
  cases h with
  | map i v hm hv => exact .map i v hv
  | reduce r hm hr => exact .reduce r hr (hi.barrier (by rw [hm]; rfl))
  | control _ ht => exact .control task ht

theorem lookup_register_self (c : Coordinator) (task : Task) :
    (c.register task).taskMapState.lookup task.taskid = some task.taskType := by
  simp [Coordinator.register]

theorem lookup_register_ne (c : Coordinator) {task : Task} {i : ℕ} (h : i ≠ task.taskid) :
    (c.register task).taskMapState.lookup i = c.taskMapState.lookup i := by
  simp [Coordinator.register, AList.lookup_insert_ne h]

theorem lookup_forget_ne (c : Coordinator) {i id : ℕ} (h : i ≠ id) :
    (c.forget id).taskMapState.lookup i = c.taskMapState.lookup i := by
  simp [Coordinator.forget, AList.lookup_erase_ne h]

theorem mapDone_of_report (hi : CoordInv J fs p) {k id : ℕ} {kind : TaskType}
    (hk : p.calls[k]? = some (.markBoth id kind)) (hid : id < J.files.length) :
    MapDone J fs id := by
  cases hi.reports _ (List.mem_of_getElem? hk) _ rfl with
  | map _ h => exact h
  | reduce _ hall _ => exact hall id hid

/-- Registered map tasks stay registered until they have been done. -/
theorem states_step (hi : CoordInv J fs p) (h : Process.Step J.toConfig p q) :
    ∀ i < q.main.written J.files.length, i < J.files.length →
      q.c.taskMapState.lookup i = some .map ∨ MapDone J fs i := by
  have hstates := hi.states
  have hbarrier := hi.barrier
  intro j hj hF
  cases h with
  | mapWrite i v hm hv =>
    rw [hm] at hstates
    by_cases hji : j = i
    · subst hji
      exact .inl (lookup_register_self p.c _)
    · have hlt : j < i := by
        have : j < i + 1 := hj
        omega
      rw [lookup_register_ne p.c hji]
      exact hstates j hlt hF
  | mapEnd i hm hv =>
    rw [hm] at hstates
    exact hstates j (hF.trans_le (List.getElem?_eq_none_iff.mp hv)) hF
  | mapSend i sent receiver u hm hs | reduceSend i sent receiver u hm hs
  | exitSend i receiver u hm hi hs =>
    rw [hm] at hstates
    simp only [send_taskMapState hs]
    exact hstates j hj hF
  | monitorSend id rest receiver u hm hs =>
    simp only [send_taskMapState hs, send_main hs] at hj ⊢
    exact hstates j hj hF
  | reduceWrite i hm hr =>
    rw [hm] at hbarrier
    exact .inr (hbarrier rfl j hF)
  | markBoth k id kind hk =>
    by_cases hid : j = id
    · subst hid
      exact .inr (mapDone_of_report hi hk hF)
    · rw [lookup_forget_ne p.c hid]
      exact hstates j hj hF
  | checkLock t hm | checkAgain t hm | checkEnd t hm | phaseLock t hm | phaseSet t hm
  | reduceLock hm | reduceEnd i hm | exitEnd i hm =>
    rw [hm] at hstates
    exact hstates j hF hF
  | _ => exact hstates j hj hF

theorem barrier_step (hi : CoordInv J fs p) (h : Process.Step J.toConfig p q)
    (hq : q.main.inMap = false) : AllMapped J fs := by
  have hbarrier := hi.barrier
  cases h with
  | checkEnd t hm ht =>
    by_cases hmap : t = .map
    · subst hmap
      intro i hF
      have hstate := hi.states i (by rw [hm]; exact hF) hF
      exact hstate.resolve_left (anyIn_eq_false ht i)
    · rw [hm] at hbarrier
      exact hbarrier (by simpa [Main.inMap] using hmap)
  | checkLock t hm | checkAgain t hm =>
    rw [hm] at hbarrier
    exact hbarrier hq
  | monitorSend id rest receiver u hm hs =>
    simp only [send_main hs] at hq
    exact hbarrier hq
  | mapWrite | mapEnd | mapSend => cases hq
  | phaseLock t hm | phaseSet t hm | reduceLock hm | reduceWrite i hm | reduceEnd i hm
  | reduceSend i sent receiver u hm hs | exitSend i receiver u hm hr hs | exitEnd i hm =>
    rw [hm] at hbarrier
    exact hbarrier rfl
  | _ => exact hbarrier hq

theorem coordInv_step (hi : CoordInv J fs p) (h : Process.Step J.toConfig p q) :
    CoordInv J fs q where
  lenfiles := h.lenfiles.trans hi.lenfiles
  genuine := fun _ hq => h.holds hi.genuine (fun _ hm => made_genuine hi hm) hq
  reports := by
    intro x hx m hm
    obtain ⟨y, hy, hym⟩ := h.reported hx hm
    exact hi.reports y hy m hym
  allocated := by
    intro task L hx ht
    rcases h.allocated hx with hold | hL | hw | hd
    · exact hi.allocated task L hold ht
    · rw [hL, hi.lenfiles]
    · rw [ht] at hw
      cases hw
    · rw [ht] at hd
      cases hd
  states := states_step hi h
  barrier := barrier_step hi h

theorem coordInv_init (J : Job) : CoordInv J .empty (.init J.files) where
  lenfiles := rfl
  genuine := by
    rintro task (⟨id, hid⟩ | hc | ⟨x, hx, -⟩ | hm)
    · simp [Process.init] at hid
    · simp [Process.init] at hc
    · simp [Process.init] at hx
    · simp [Process.init, Main.task] at hm
  reports := by simp [Process.init]
  allocated := by simp [Process.init]
  states := by simp [Process.init, Main.written]
  barrier := by simp [Process.init, Main.inMap]

end MR
