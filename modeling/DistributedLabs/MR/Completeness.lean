import DistributedLabs.MR.Published

/-! Completeness of a job: `Phase` is `DoneTask` only when every output exists, as long as no
late report of a map task removes the registration of a reduce task with the same id. -/
namespace MR
open Runs
variable {ι : Type*} [DecidableEq ι] {J : Job} {fs fs' : Files} {p q : Process} {s t : State ι}

/-- `MarkTaskDone` is about to delete the entry of a reduce task for a report of a map task. -/
def LateReport (p : Process) : Prop :=
  ∃ id ∈ p.c.taskMapState.keys,
    p.c.taskMapState.lookup id = some .reduce ∧ Call.markBoth id .map ∈ p.calls

instance : DecidablePred LateReport := fun p =>
  inferInstanceAs (Decidable (∃ id ∈ p.c.taskMapState.keys,
    p.c.taskMapState.lookup id = some .reduce ∧ Call.markBoth id .map ∈ p.calls))

/-- How many of the `n` reduce tasks are registered and not yet known to be done. -/
def Main.registered (n : ℕ) : Main → ℕ
  | .checkLock t => if t = .reduce then n else 0
  | .check t => if t = .reduce then n else 0
  | .reduceWrite i => i
  | .reduceSend i _ => i + 1
  | .mapWrite _ => 0
  | .mapSend _ _ => 0
  | .phaseLock _ => 0
  | .phaseSet _ => 0
  | .reduceLock => 0
  | .exitSend _ => 0
  | .returned => 0

/-- `MakeCoordinator` has seen the end of the reduce phase. -/
def Main.finished : Main → Bool
  | .checkLock t => t = .waiting || t = .done
  | .check t => t = .waiting || t = .done
  | .phaseLock t => t ≠ .reduce
  | .phaseSet t => t ≠ .reduce
  | .exitSend _ => true
  | .returned => true
  | .mapWrite _ => false
  | .mapSend _ _ => false
  | .reduceLock => false
  | .reduceWrite _ => false
  | .reduceSend _ _ => false

/-- Every output has been renamed into place. -/
def AllReduced (J : Job) (fs : Files) : Prop := ∀ r < J.nReduce, (fs.dir (.out r)).isSome

structure ReduceInv (J : Job) (fs : Files) (p : Process) : Prop where
  entries : ∀ r < p.main.registered J.nReduce,
    p.c.taskMapState.lookup r = some .reduce ∨ (fs.dir (.out r)).isSome
  finished : p.main.finished = true → AllReduced J fs
  phase : p.c.phase = .done → p.main.finished = true

theorem ReduceInv.mono (hk : Keeps fs fs') (h : ReduceInv J fs p) : ReduceInv J fs' p where
  entries := fun r hr => (h.entries r hr).imp_right (hk.out r)
  finished := fun hm r hr => hk.out r (h.finished hm r hr)
  phase := h.phase

theorem send_phase {sent : Option Task} {receiver : Option ℕ} {u : Process}
    (hs : p.send sent receiver = some u) : u.c.phase = p.c.phase := by
  rcases send_cases hs with rfl | ⟨k, since, -, rfl⟩ <;> rfl

/-- A report that is not late and deletes the entry of a reduce task is about that task. -/
theorem reduced_of_report (hc : CoordInv J fs p) (hlate : ¬ LateReport p) {k id : ℕ}
    {kind : TaskType} (hk : p.calls[k]? = some (.markBoth id kind))
    (hid : p.c.taskMapState.lookup id = some .reduce) : (fs.dir (.out id)).isSome := by
  have hmem := List.mem_of_getElem? hk
  cases hc.reports _ hmem _ rfl with
  | map _ h =>
    have hkey : id ∈ p.c.taskMapState := AList.lookup_isSome.mp (by rw [hid]; rfl)
    exact absurd ⟨id, AList.mem_keys.mp hkey, hid, hmem⟩ hlate
  | reduce _ _ h => exact h

theorem entries_step (hc : CoordInv J fs p) (hi : ReduceInv J fs p) (hlate : ¬ LateReport p)
    (h : Process.Step J.toConfig p q) :
    ∀ r < q.main.registered J.nReduce,
      q.c.taskMapState.lookup r = some .reduce ∨ (fs.dir (.out r)).isSome := by
  have hentries := hi.entries
  intro r hr
  cases h with
  | reduceWrite i hm hlt =>
    rw [hm] at hentries
    by_cases hri : r = i
    · subst hri
      exact .inl (lookup_register_self p.c _)
    · have hri' : r < i := by
        have : r < i + 1 := hr
        omega
      rw [lookup_register_ne p.c hri]
      exact hentries r hri'
  | reduceEnd i hm hlt =>
    rw [hm] at hentries
    exact hentries r (hr.trans_le (not_lt.mp hlt))
  | reduceSend i sent receiver u hm hs =>
    rw [hm] at hentries
    simp only [send_taskMapState hs]
    exact hentries r hr
  | monitorSend id rest receiver u hm hs =>
    simp only [send_taskMapState hs, send_main hs] at hr ⊢
    exact hentries r hr
  | checkLock t hm | checkAgain t hm =>
    rw [hm] at hentries
    exact hentries r hr
  | markBoth k id kind hk =>
    by_cases hid : r = id
    · subst hid
      rcases hentries r hr with hreg | hout
      · exact .inr (reduced_of_report hc hlate hk hreg)
      · exact .inr hout
    · rw [lookup_forget_ne p.c hid]
      exact hentries r hr
  | phaseSet t hm =>
    simp only at hr
    split at hr <;> exact absurd hr (Nat.not_lt_zero r)
  | mapWrite | mapEnd | mapSend | checkEnd | phaseLock | reduceLock | exitSend | exitEnd =>
    exact absurd hr (Nat.not_lt_zero r)
  | _ => exact hentries r hr

theorem finished_step (hi : ReduceInv J fs p) (h : Process.Step J.toConfig p q)
    (hq : q.main.finished = true) : AllReduced J fs := by
  have hfinished := hi.finished
  cases h with
  | checkEnd t hm ht =>
    have hentries := hi.entries
    rw [hm] at hentries hfinished
    cases t with
    | map => cases hq
    | reduce =>
      intro r hr
      exact (hentries r hr).resolve_left (anyIn_eq_false ht r)
    | waiting | done => exact hfinished rfl
  | phaseSet t hm =>
    rw [hm] at hfinished
    by_cases ht : t = .reduce
    · simp only [ht, if_true] at hq
      cases hq
    · exact hfinished (by simpa [Main.finished] using ht)
  | checkLock t hm | checkAgain t hm | phaseLock t hm =>
    rw [hm] at hfinished
    exact hfinished hq
  | exitSend i receiver u hm | exitEnd i hm =>
    rw [hm] at hfinished
    exact hfinished rfl
  | monitorSend id rest receiver u hm hs =>
    simp only [send_main hs] at hq
    exact hfinished hq
  | mapWrite | mapEnd | mapSend | reduceLock | reduceWrite | reduceEnd | reduceSend => cases hq
  | _ => exact hfinished hq

theorem phase_step (hi : ReduceInv J fs p) (h : Process.Step J.toConfig p q)
    (hq : q.c.phase = .done) : q.main.finished = true := by
  have hphase := hi.phase
  cases h with
  | phaseSet t hm =>
    have ht : t = .done := hq
    subst ht
    rfl
  | checkEnd t hm ht =>
    rw [hm] at hphase
    cases t with
    | waiting | done => rfl
    | map | reduce => cases hphase hq
  | mapSend i sent receiver u hm hs | reduceSend i sent receiver u hm hs =>
    rw [hm] at hphase
    simp only [send_phase hs] at hq
    cases hphase hq
  | exitSend | exitEnd => rfl
  | monitorSend id rest receiver u hm hs =>
    simp only [send_phase hs, send_main hs] at hq ⊢
    exact hphase hq
  | mapWrite i v hm | mapEnd i hm | reduceLock hm | reduceWrite i hm | reduceEnd i hm =>
    rw [hm] at hphase
    cases hphase hq
  | checkLock t hm | checkAgain t hm | phaseLock t hm =>
    rw [hm] at hphase
    exact hphase hq
  | _ => exact hphase hq

theorem reduceInv_step (hc : CoordInv J fs p) (hi : ReduceInv J fs p) (hlate : ¬ LateReport p)
    (h : Process.Step J.toConfig p q) : ReduceInv J fs q where
  entries := entries_step hc hi hlate h
  finished := finished_step hi h
  phase := phase_step hi h

theorem State.Work.main {w : ι} (h : State.Work J s w t) : t.coord.main = s.coord.main := by
  cases h <;> rfl

theorem State.Work.c {w : ι} (h : State.Work J s w t) : t.coord.c = s.coord.c := by
  cases h <;> rfl

theorem reduceInv_of_run {es : List (Event ι)} (h : (system J ι).Run es s)
    (hlate : (system J ι).Along es fun _ s _ => ¬ LateReport s.coord) :
    ReduceInv J s.fs s.coord := by
  refine h.invariant (I := fun _ s => ReduceInv J s.fs s.coord) ?_ ?_ hlate
  · exact {
      entries := fun r hr => absurd hr (Nat.not_lt_zero r)
      finished := by intro hm; cases hm
      phase := by intro hp; cases hp }
  · intro es s e t hr hi hl hstep
    rcases State.step_cases hstep with ⟨a, p, -, hp, rfl⟩ | ⟨w, hw⟩
    · exact reduceInv_step (inv_of_run hr).coord hi hl (.of_step hp)
    · have hmono := hi.mono hw.touches.keeps
      exact {
        entries := by rw [hw.main, hw.c]; exact hmono.entries
        finished := by rw [hw.main]; exact hmono.finished
        phase := by rw [hw.main, hw.c]; exact hmono.phase }

/-- In a run without late reports `Phase` is `DoneTask` only when all outputs exist. -/
theorem allReduced_of_done {es : List (Event ι)} (h : (system J ι).Run es s)
    (hlate : (system J ι).Along es fun _ s _ => ¬ LateReport s.coord)
    (hdone : s.coord.c.phase = .done) : AllReduced J s.fs := by
  have hi := reduceInv_of_run h hlate
  exact hi.finished (hi.phase hdone)

/-- The run with the crash, continued to the end of the job. -/
def completedRun : List (Event Bool) := crashRun ++ reportSteps true 4 ++ mainSteps 4

theorem completedRun_allReduced : ∃ s, (system countJob Bool).Run completedRun s ∧
    s.coord.c.phase = .done ∧ AllReduced countJob s.fs := by
  obtain ⟨s, hrun, hdone⟩ := System.exists_run (system countJob Bool) completedRun
    (fun s => s.coord.c.phase = .done) (by decide +kernel)
  have hlate : (system countJob Bool).Along completedRun fun _ s _ => ¬ LateReport s.coord :=
    System.along_of_allSteps (fun s _ => ¬ LateReport s.coord) (by simp) (by decide +kernel)
  exact ⟨s, hrun, hdone, allReduced_of_done hrun hlate hdone⟩

/-- The first worker is slow with the map task, which is queued again after twelve seconds and
done by the second worker. The report of the first worker arrives when reduce task 0 is
registered and still in `TaskChan`. -/
def lateReportRun : List (Event Bool) :=
  [mainSteps 3, getTaskSteps false 0,
    monitorRound 4, monitorRound 4, monitorRound 4, monitorRound 6,
    getTaskSteps true 1, workSteps true 7, reportSteps true 2, mainSteps 8,
    workSteps false 7, reportSteps false 3, mainSteps 4].flatten

theorem lateReportRun_incomplete : ∃ s, (system countJob Bool).Run lateReportRun s ∧
    s.coord.c.phase = .done ∧ ¬ AllReduced countJob s.fs := by
  obtain ⟨s, hrun, hdone, hout⟩ := System.exists_run (system countJob Bool) lateReportRun
    (fun s => s.coord.c.phase = .done ∧ s.fs.dir (.out 0) = none) (by decide +kernel)
  refine ⟨s, hrun, hdone, ?_⟩
  intro hall
  have hsome := hall 0 Nat.one_pos
  rw [hout] at hsome
  cases hsome

end MR
