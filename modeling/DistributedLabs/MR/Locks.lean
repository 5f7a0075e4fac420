import DistributedLabs.Locking.WaitGraph
import DistributedLabs.MR.Reach

/-! The locks of the coordinator: which thread holds which lock at each position, and which
lock it is about to take. -/
namespace MR
open Runs Locking

/-- The global locks. -/
inductive Mutex where
  | taskLock
  | heartbeatLock
  | phaseLock
  deriving DecidableEq, Repr

def Process.holder (p : Process) : Mutex → Option Thread
  | .taskLock => p.taskLock
  | .heartbeatLock => p.heartbeatLock
  | .phaseLock => p.phaseLock

/-- The locks that `MakeCoordinator` holds. -/
def Main.holds : Main → Mutex → Bool
  | .check _, l => l = .taskLock
  | .reduceWrite _, l => l = .taskLock
  | .reduceSend _ _, l => l = .taskLock
  | .phaseSet _, l => l = .phaseLock
  | .mapWrite _, _ => false
  | .mapSend _ _, _ => false
  | .checkLock _, _ => false
  | .phaseLock _, _ => false
  | .reduceLock, _ => false
  | .exitSend _, _ => false
  | .returned, _ => false

def Main.waits : Main → Option Mutex
  | .checkLock _ => some .taskLock
  | .reduceLock => some .taskLock
  | .phaseLock _ => some .phaseLock
  | .check _ => none
  | .reduceWrite _ => none
  | .reduceSend _ _ => none
  | .phaseSet _ => none
  | .mapWrite _ => none
  | .mapSend _ _ => none
  | .exitSend _ => none
  | .returned => none

/-- The locks that `monitor` holds. -/
def Monitor.holds : Monitor → Mutex → Bool
  | .scan _, l => l = .heartbeatLock
  | .taskLock _ _, l => l = .heartbeatLock
  | .check _ _, l => l = .heartbeatLock || l = .taskLock
  | .send _ _, l => l = .heartbeatLock || l = .taskLock
  | .touch _ _, l => l = .heartbeatLock || l = .taskLock
  | .off, _ => false
  | .waiting, _ => false
  | .lock, _ => false

def Monitor.waits : Monitor → Option Mutex
  | .lock => some .heartbeatLock
  | .taskLock _ _ => some .taskLock
  | .off => none
  | .waiting => none
  | .scan _ => none
  | .check _ _ => none
  | .send _ _ => none
  | .touch _ _ => none

/-- The locks that an RPC handler holds. -/
def Call.holds : Call → Mutex → Bool
  | .stamping _, l => l = .heartbeatLock
  | .readPhase, l => l = .phaseLock
  | .markLocked _ _, l => l = .taskLock
  | .markBoth _ _, l => l = .taskLock || l = .heartbeatLock
  | .markUnlock, l => l = .heartbeatLock
  | .select _, _ => false
  | .received _, _ => false
  | .timedOut, _ => false
  | .allocated _ _, _ => false
  | .mark _ _, _ => false
  | .marked, _ => false

def Call.waits : Call → Option Mutex
  | .received _ => some .heartbeatLock
  | .timedOut => some .phaseLock
  | .mark _ _ => some .taskLock
  | .markLocked _ _ => some .heartbeatLock
  | .select _ => none
  | .stamping _ => none
  | .readPhase => none
  | .allocated _ _ => none
  | .markBoth _ _ => none
  | .markUnlock => none
  | .marked => none

def Process.holds (p : Process) : Thread → Mutex → Bool
  | .main, l => p.main.holds l
  | .monitor, l => p.monitor.holds l
  | .call k, l => (p.calls[k]?).any fun x => x.holds l

def Process.waits (p : Process) : Thread → Option Mutex
  | .main => p.main.waits
  | .monitor => p.monitor.waits
  | .call k => (p.calls[k]?).bind Call.waits

def Process.locks (p : Process) : View Thread Mutex := ⟨p.holder, p.holds, p.waits⟩

variable {J : Config} {p q : Process}

/-- Moving one call on changes what this call holds. -/
theorem holds_set {k : ℕ} {x y : Call} (hk : p.calls[k]? = some x) (hq : q.calls = p.calls.set k y)
    (hm : q.main = p.main) (hM : q.monitor = p.monitor) :
    (∀ l, q.holds (.call k) l = y.holds l) ∧ ∀ a, a ≠ .call k → ∀ l, q.holds a l = p.holds a l := by
  have hlt := (List.getElem?_eq_some_iff.mp hk).1
  constructor
  · intro l
    simp [Process.holds, hq, hlt]
  · intro a ha l
    cases a with
    | main => simp [Process.holds, hm]
    | monitor => simp [Process.holds, hM]
    | call j =>
      have hjk : k ≠ j := by
        rintro rfl
        exact ha rfl
      simp [Process.holds, hq, List.getElem?_set_ne hjk]

theorem holds_call {k : ℕ} {x : Call} (hk : p.calls[k]? = some x) (l : Mutex) :
    p.holds (.call k) l = x.holds l := by
  simp [Process.holds, hk]

/-- A call that moves on and holds what it held. -/
theorem holds_same_of_set {k : ℕ} {x y : Call} (hk : p.calls[k]? = some x)
    (hq : q.calls = p.calls.set k y) (hxy : ∀ l, y.holds l = x.holds l) (j : ℕ) (l : Mutex) :
    q.holds (.call j) l = p.holds (.call j) l := by
  have hlt := (List.getElem?_eq_some_iff.mp hk).1
  by_cases hj : k = j
  · subst hj
    rw [holds_call hk]
    simp [Process.holds, hq, hlt, hxy]
  · simp [Process.holds, hq, List.getElem?_set_ne hj]

/-- A send changes no lock and hands over to a call that holds none. -/
theorem send_holds {sent : Option Task} {receiver : Option ℕ} {u : Process}
    (hs : p.send sent receiver = some u) :
    u.holder = p.holder ∧ u.monitor = p.monitor ∧
      ∀ k l, u.holds (.call k) l = p.holds (.call k) l := by
  rcases send_cases hs with rfl | ⟨k, since, hk, rfl⟩
  · exact ⟨rfl, rfl, fun _ _ => rfl⟩
  · exact ⟨rfl, rfl, holds_same_of_set hk rfl fun _ => rfl⟩

theorem others_main (hM : q.monitor = p.monitor) (hcalls : q.calls = p.calls) :
    ∀ a, a ≠ .main → ∀ l, q.holds a l = p.holds a l := by
  intro a ha l
  cases a with
  | main => exact absurd rfl ha
  | monitor => simp [Process.holds, hM]
  | call k => simp [Process.holds, hcalls]

theorem others_monitor (hm : q.main = p.main) (hcalls : q.calls = p.calls) :
    ∀ a, a ≠ .monitor → ∀ l, q.holds a l = p.holds a l := by
  intro a ha l
  cases a with
  | main => simp [Process.holds, hm]
  | monitor => exact absurd rfl ha
  | call k => simp [Process.holds, hcalls]

/-- Steps that take or release no lock. -/
theorem consistent_keep (hc : Consistent p.locks) (hholder : q.holder = p.holder)
    (hm : ∀ l, q.main.holds l = p.main.holds l) (hM : ∀ l, q.monitor.holds l = p.monitor.holds l)
    (hcalls : ∀ k l, q.holds (.call k) l = p.holds (.call k) l) : Consistent q.locks := by
  refine hc.keep (fun l => congrFun hholder l) ?_
  intro a l
  cases a with
  | main => exact hm l
  | monitor => exact hM l
  | call k => exact hcalls k l

section Acquire
variable {l : Mutex} (hc : Consistent p.locks) (hfree : p.holder l = none)
include hc hfree

theorem consistent_acquire_main {m : Main} (hm : p.main = m)
    (hholder : ∀ l', q.holder l' = if l' = l then some .main else p.holder l')
    (hself : ∀ l', q.main.holds l' = (m.holds l' || decide (l' = l)))
    (hM : q.monitor = p.monitor) (hcalls : q.calls = p.calls) : Consistent q.locks := by
  subst hm
  exact hc.acquire (a := .main) l hfree hholder hself (others_main hM hcalls)

theorem consistent_acquire_monitor {M : Monitor} (hM : p.monitor = M)
    (hholder : ∀ l', q.holder l' = if l' = l then some .monitor else p.holder l')
    (hself : ∀ l', q.monitor.holds l' = (M.holds l' || decide (l' = l)))
    (hm : q.main = p.main) (hcalls : q.calls = p.calls) : Consistent q.locks := by
  subst hM
  exact hc.acquire (a := .monitor) l hfree hholder hself (others_monitor hm hcalls)

theorem consistent_acquire_call {k : ℕ} {x y : Call} (hk : p.calls[k]? = some x)
    (hholder : ∀ l', q.holder l' = if l' = l then some (.call k) else p.holder l')
    (hself : ∀ l', y.holds l' = (x.holds l' || decide (l' = l)))
    (hm : q.main = p.main) (hM : q.monitor = p.monitor) (hq : q.calls = p.calls.set k y) :
    Consistent q.locks := by
  obtain ⟨hnew, hothers⟩ := holds_set hk hq hm hM
  refine hc.acquire l hfree hholder ?_ hothers
  intro l'
  exact (hnew l').trans ((hself l').trans (by rw [← holds_call hk l']; rfl))

end Acquire

section Release
variable {l : Mutex} (hc : Consistent p.locks)
include hc

theorem consistent_release_main {m : Main} (hm : p.main = m) (hheld : m.holds l = true)
    (hholder : ∀ l', q.holder l' = if l' = l then none else p.holder l')
    (hself : ∀ l', q.main.holds l' = (m.holds l' && !decide (l' = l)))
    (hM : q.monitor = p.monitor) (hcalls : q.calls = p.calls) : Consistent q.locks := by
  subst hm
  exact hc.release (a := .main) l hheld hholder hself (others_main hM hcalls)

theorem consistent_release_monitor {M : Monitor} (hM : p.monitor = M) (hheld : M.holds l = true)
    (hholder : ∀ l', q.holder l' = if l' = l then none else p.holder l')
    (hself : ∀ l', q.monitor.holds l' = (M.holds l' && !decide (l' = l)))
    (hm : q.main = p.main) (hcalls : q.calls = p.calls) : Consistent q.locks := by
  subst hM
  exact hc.release (a := .monitor) l hheld hholder hself (others_monitor hm hcalls)

theorem consistent_release_call {k : ℕ} {x y : Call} (hk : p.calls[k]? = some x)
    (hheld : x.holds l = true)
    (hholder : ∀ l', q.holder l' = if l' = l then none else p.holder l')
    (hself : ∀ l', y.holds l' = (x.holds l' && !decide (l' = l)))
    (hm : q.main = p.main) (hM : q.monitor = p.monitor) (hq : q.calls = p.calls.set k y) :
    Consistent q.locks := by
  obtain ⟨hnew, hothers⟩ := holds_set hk hq hm hM
  refine hc.release (a := .call k) l ((holds_call hk l).trans hheld) hholder ?_ hothers
  intro l'
  exact (hnew l').trans ((hself l').trans (by rw [← holds_call hk l']; rfl))

end Release

/-- `MakeCoordinator` is still in the loop over the files. -/
def Main.starting : Main → Bool
  | .mapWrite _ => true
  | .mapSend _ _ => true
  | .checkLock _ => false
  | .check _ => false
  | .phaseLock _ => false
  | .phaseSet _ => false
  | .reduceLock => false
  | .reduceWrite _ => false
  | .reduceSend _ _ => false
  | .exitSend _ => false
  | .returned => false

/-- Locks and positions agree, and `monitor` runs only when the map tasks have been queued. -/
structure LockInv (p : Process) : Prop where
  consistent : Consistent p.locks
  monitor : p.main.starting = true → p.monitor = .off

theorem consistent_step (hi : LockInv p) (h : Process.Step J p q) : Consistent q.locks := by
  have hc := hi.consistent
  cases h with
  | checkLock t hm hl | reduceLock hm hl =>
    exact consistent_acquire_main hc (l := .taskLock) hl hm (by rintro (_ | _ | _) <;> rfl)
      (by rintro (_ | _ | _) <;> rfl) rfl rfl
  | phaseLock t hm hl =>
    exact consistent_acquire_main hc (l := .phaseLock) hl hm (by rintro (_ | _ | _) <;> rfl)
      (by rintro (_ | _ | _) <;> rfl) rfl rfl
  | checkAgain t hm | checkEnd t hm | reduceEnd i hm =>
    exact consistent_release_main hc (l := .taskLock) hm rfl (by rintro (_ | _ | _) <;> rfl)
      (by rintro (_ | _ | _) <;> rfl) rfl rfl
  | phaseSet t hm =>
    refine consistent_release_main hc (l := .phaseLock) hm rfl (by rintro (_ | _ | _) <;> rfl)
      ?_ rfl rfl
    intro l
    by_cases ht : t = .reduce <;> cases l <;> simp [ht, Main.holds]
  | monitorLock order hm hl =>
    exact consistent_acquire_monitor hc (l := .heartbeatLock) hl hm
      (by rintro (_ | _ | _) <;> rfl) (by rintro (_ | _ | _) <;> rfl) rfl rfl
  | monitorTaskLock id rest hm hl =>
    exact consistent_acquire_monitor hc (l := .taskLock) hl hm
      (by rintro (_ | _ | _) <;> rfl) (by rintro (_ | _ | _) <;> rfl) rfl rfl
  | scanEnd hm =>
    exact consistent_release_monitor hc (l := .heartbeatLock) hm rfl
      (by rintro (_ | _ | _) <;> rfl) (by rintro (_ | _ | _) <;> rfl) rfl rfl
  | alive id rest hm | touch id rest hm =>
    exact consistent_release_monitor hc (l := .taskLock) hm rfl
      (by rintro (_ | _ | _) <;> rfl) (by rintro (_ | _ | _) <;> rfl) rfl rfl
  | stampLock k task hk hl | markLocked k id kind hk hl =>
    exact consistent_acquire_call hc (l := .heartbeatLock) hl hk
      (by rintro (_ | _ | _) <;> rfl) (by rintro (_ | _ | _) <;> rfl) rfl rfl rfl
  | readLock k hk hl =>
    exact consistent_acquire_call hc (l := .phaseLock) hl hk
      (by rintro (_ | _ | _) <;> rfl) (by rintro (_ | _ | _) <;> rfl) rfl rfl rfl
  | mark k id kind hk hl =>
    exact consistent_acquire_call hc (l := .taskLock) hl hk
      (by rintro (_ | _ | _) <;> rfl) (by rintro (_ | _ | _) <;> rfl) rfl rfl rfl
  | stamp k task hk | markUnlock k hk =>
    exact consistent_release_call hc (l := .heartbeatLock) hk rfl
      (by rintro (_ | _ | _) <;> rfl) (by rintro (_ | _ | _) <;> rfl) rfl rfl rfl
  | readPhase k hk =>
    exact consistent_release_call hc (l := .phaseLock) hk rfl
      (by rintro (_ | _ | _) <;> rfl) (by rintro (_ | _ | _) <;> rfl) rfl rfl rfl
  | markBoth k id kind hk =>
    exact consistent_release_call hc (l := .taskLock) hk rfl
      (by rintro (_ | _ | _) <;> rfl) (by rintro (_ | _ | _) <;> rfl) rfl rfl rfl
  | mapEnd i hm =>
    have hoff := hi.monitor (by rw [hm]; rfl)
    exact consistent_keep hc rfl (fun l => by rw [hm]; rfl) (fun l => by rw [hoff]; rfl)
      fun _ _ => rfl
  | mapWrite i v hm | reduceWrite i hm | exitEnd i hm =>
    exact consistent_keep hc rfl (fun l => by rw [hm]; rfl) (fun _ => rfl) fun _ _ => rfl
  | mapSend i sent receiver u hm hs | reduceSend i sent receiver u hm hs
  | exitSend i receiver u hm hlt hs =>
    obtain ⟨hholder, hmonitor, hcalls⟩ := send_holds hs
    exact consistent_keep hc hholder (fun l => by rw [hm]; rfl) (fun l => by rw [hmonitor])
      hcalls
  | monitorTick hm | scanNext id rest hm | expired id rest last hm =>
    exact consistent_keep hc rfl (fun _ => rfl) (fun l => by rw [hm]; rfl) fun _ _ => rfl
  | monitorSend id rest receiver u hm hs =>
    obtain ⟨hholder, -, hcalls⟩ := send_holds hs
    exact consistent_keep hc hholder (fun l => by rw [send_main hs]) (fun l => by rw [hm]; rfl)
      hcalls
  | receive k since task rest hk | timeout k since hk =>
    refine consistent_keep hc rfl (fun _ => rfl) (fun _ => rfl) ?_
    exact holds_same_of_set hk rfl (fun _ => rfl)
  | pass | tick | panic => exact hc

theorem monitor_step (hi : LockInv p) (h : Process.Step J p q) (hq : q.main.starting = true) :
    q.monitor = .off := by
  have hmonitor := hi.monitor
  cases h with
  | mapWrite i v hm =>
    rw [hm] at hmonitor
    exact hmonitor rfl
  | mapSend i sent receiver u hm hs =>
    rw [hm] at hmonitor
    exact (send_holds hs).2.1.trans (hmonitor rfl)
  | monitorSend id rest receiver u hm hs =>
    rw [hm] at hmonitor
    rw [send_main hs] at hq
    cases hmonitor hq
  | monitorTick hm | monitorLock order hm | scanEnd hm | scanNext id rest hm
  | monitorTaskLock id rest hm | expired id rest last hm | alive id rest hm | touch id rest hm =>
    rw [hm] at hmonitor
    cases hmonitor hq
  | mapEnd | checkLock | checkAgain | checkEnd | phaseLock | reduceLock | reduceWrite
  | reduceEnd | reduceSend | exitSend | exitEnd => cases hq
  | phaseSet t hm => by_cases ht : t = .reduce <;> simp [ht, Main.starting] at hq
  | _ => exact hmonitor hq

theorem lockInv_step (hi : LockInv p) (h : Process.Step J p q) : LockInv q :=
  ⟨consistent_step hi h, monitor_step hi h⟩

theorem lockInv_init (files : List String) : LockInv (.init files) where
  consistent := by
    intro l a
    cases l <;> cases a <;> simp [Process.locks, Process.holder, Process.holds, Process.init,
      Main.holds, Monitor.holds]
  monitor := fun _ => rfl

theorem lockInv_issue (hi : LockInv p) {x : Call} (hx : x.Fresh) : LockInv (p.issue x) where
  consistent := by
    refine consistent_keep hi.consistent rfl (fun _ => rfl) (fun _ => rfl) ?_
    intro k l
    by_cases hk : k < p.calls.length
    · simp [Process.holds, Process.issue, List.getElem?_append_left hk]
    · have hnone : p.calls[k]? = none := by simpa using hk
      simp only [Process.holds, Process.issue, List.getElem?_append, hk, ↓reduceIte, hnone]
      cases hx <;> cases hkl : k - p.calls.length <;> simp [Call.holds]
  monitor := hi.monitor

theorem lockInv_of_run {ι : Type*} [DecidableEq ι] {J : Job} {es : List (Event ι)} {s : State ι}
    (h : (system J ι).Run es s) : LockInv s.coord :=
  coord_invariant' (lockInv_init J.files) (fun _ _ hi hs => lockInv_step hi hs)
    (fun _ _ hi hx => lockInv_issue hi hx) h

end MR
