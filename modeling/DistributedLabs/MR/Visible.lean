import DistributedLabs.MR.Published

/-! The files that `mr-out*` names: published outputs, and the temporary files of reduce tasks
that are still being written or were left behind by a crash. -/
namespace MR
open Runs
variable {ι : Type*} [DecidableEq ι] {J : Job} {s t : State ι} {w : ι} {es : List (Event ι)}

/-- The name starts with `mr-out`. -/
def FileName.MrOut (f : FileName) : Prop := "mr-out".toList <+: f.text.toList

theorem mrOut_iff (f : FileName) : f.MrOut ↔ (∃ r, f = .out r) ∨ ∃ n, f = .outTmp n := by
  have hout : f.MrOut ↔ ['o', 'u', 't'] <+: f.suffix := by
    unfold FileName.MrOut
    rw [FileName.toList_text]
    exact List.prefix_cons_inj 'm' |>.trans (List.prefix_cons_inj 'r') |>.trans
      (List.prefix_cons_inj '-')
  rw [hout]
  cases f with
  | inter i r =>
    have hne : ¬ ['o', 'u', 't'] <+: FileName.suffix (.inter i r) := by
      rintro ⟨l, hl⟩
      exact toDigits_append_ne _ _ (by decide) hl.symm
    simp [hne]
  | out r => simp [FileName.suffix]
  | mapTmp n => simp [FileName.suffix]
  | outTmp n => simp [FileName.suffix]

/-- The temporary output that a worker is writing. -/
def Worker.outTmp : Worker → Option ℕ
  | .reduceWrite _ n _ => some n
  | _ => none

/-- A worker has crashed while it wrote the temporary output `n`. -/
def CrashedAt (J : Job) (es : List (Event ι)) (n : ℕ) : Prop :=
  (system J ι).Did es fun s _ t => ∃ w, (s.workers w).outTmp = some n ∧ t.workers w = .crashed

theorem rename_old {fs fs' : Files} {old new : FileName} (hfs : fs.rename old new = some fs') :
    fs'.dir old = none := by
  obtain ⟨m, -, rfl⟩ := Option.map_eq_some_iff.mp hfs
  simp

/-- How a name can come into the directory in a step of a worker. -/
inductive Named (s t : State ι) (w : ι) : FileName → Prop
  | mapTmp (n : ℕ) : Named s t w (.mapTmp n)
  | inter (i r : ℕ) : Named s t w (.inter i r)
  | outTmp (n : ℕ) (hw : (t.workers w).outTmp = some n) : Named s t w (.outTmp n)
  | out (task : Task) (n : ℕ) (hw : s.workers w = .reduceWrite task n []) :
      Named s t w (.out task.taskid)

theorem State.Work.named (h : State.Work J s w t) {f : FileName} {m : ℕ}
    (hf : t.fs.dir f = some m) : s.fs.dir f = some m ∨ Named s t w f := by
  cases h with
  | sort task acc l hw =>
    rcases createTemp_dir hf with ⟨rfl, -⟩ | hold
    · exact .inr (.outTmp _ (by rw [setWorker_workers_self]; rfl))
    · exact .inl hold
  | mapCreate task buckets i hw =>
    rcases createTemp_dir hf with ⟨rfl, -⟩ | hold
    · exact .inr (.mapTmp _)
    · exact .inl hold
  | mapRename task buckets i k fs hw hfs =>
    rcases rename_dir hfs hf with ⟨rfl, -⟩ | hold
    · exact .inr (.inter _ _)
    · exact .inl hold
  | reduceRename task k fs hw hfs =>
    rcases rename_dir hfs hf with ⟨rfl, -⟩ | hold
    · exact .inr (.out task k hw)
    · exact .inl hold
  | _ => exact .inl hf

/-- The writer of a temporary output goes on, crashes, or has renamed it. -/
theorem State.Work.outTmp (h : State.Work J s w t) {n : ℕ}
    (howner : (s.workers w).outTmp = some n) :
    (t.workers w).outTmp = some n ∨ t.workers w = .crashed ∨ t.fs.dir (.outTmp n) = none := by
  cases h with
  | reduceAppend task k kv rest hw =>
    rw [hw] at howner
    rw [setWorker_workers_self]
    exact .inl howner
  | reduceRename task k fs hw hfs =>
    rw [hw] at howner
    cases howner
    exact .inr (.inr (rename_old hfs))
  | stop => exact .inr (.inl (setWorker_workers_self s w _))
  | ask hw | given _ _ _ hw | mapStart _ _ hw | mapCreate _ _ _ hw | mapEnd _ _ _ hw
  | mapAppend _ _ _ _ _ _ hw | mapRename _ _ _ _ _ hw | reduceOpen _ _ _ _ _ hw
  | cannotOpen _ _ _ _ hw | reduceEnd _ _ _ _ hw | reduceRead _ _ _ _ _ _ _ hw
  | reduceClose _ _ _ _ _ _ hw | sort _ _ _ hw | report _ hw | reported _ hw =>
    rw [hw] at howner
    cases howner

/-- Every temporary output has a writer, or its writer has crashed. -/
def OutTmpOwned (J : Job) (es : List (Event ι)) (s : State ι) : Prop :=
  ∀ n m, s.fs.dir (.outTmp n) = some m →
    (∃ w, (s.workers w).outTmp = some n) ∨ CrashedAt J es n

theorem outTmpOwned_step {e : Event ι} (hr : (system J ι).Run es s) (hi : OutTmpOwned J es s)
    (hs : (system J ι).step s e = some t) : OutTmpOwned J (es ++ [e]) t := by
  intro n m hn
  have hpast : CrashedAt J es n → CrashedAt J (es ++ [e]) n :=
    fun hc => System.did_mono hc (List.prefix_append _ _)
  rcases State.step_cases hs with ⟨a, p, -, -, rfl⟩ | ⟨w, hw⟩
  · exact (hi n m hn).imp_right hpast
  · rcases hw.named hn with hold | hnew
    · rcases hi n m hold with ⟨w', hw'⟩ | hc
      · by_cases hww : w' = w
        · subst hww
          rcases hw.outTmp hw' with hstill | hcrash | hgone
          · exact Or.inl ⟨w', hstill⟩
          · exact Or.inr ((System.did_snoc hr hs).mpr (Or.inr ⟨w', hw', hcrash⟩))
          · rw [hgone] at hn
            cases hn
        · rw [← hw.touches.others w' hww] at hw'
          exact Or.inl ⟨w', hw'⟩
      · exact Or.inr (hpast hc)
    · cases hnew with
      | outTmp _ hnew => exact Or.inl ⟨w, hnew⟩

theorem outTmpOwned (h : (system J ι).Run es s) : OutTmpOwned J es s := by
  refine h.invariant' (I := fun es s => OutTmpOwned J es s) ?_ ?_
  · intro n m hn
    cases hn
  · intro es s e t hr hi hs
    exact outTmpOwned_step hr hi hs

/-- Outputs are published for the reduce tasks of the job only. -/
theorem out_lt_nReduce (h : (system J ι).Run es s) {r n : ℕ} (hn : s.fs.dir (.out r) = some n) :
    r < J.nReduce := by
  refine h.invariant' (I := fun _ s => ∀ r n, s.fs.dir (.out r) = some n → r < J.nReduce) ?_ ?_
    r n hn
  · intro r n hn
    cases hn
  · intro es s e t hr hi hs r n hn
    rcases State.step_cases hs with ⟨a, p, -, -, rfl⟩ | ⟨w, hw⟩
    · exact hi r n hn
    · rcases hw.named hn with hold | hnew
      · exact hi r n hold
      · cases hnew with
        | out task k hw =>
          have hworker := (inv_of_run hr).workers w
          rw [hw] at hworker
          obtain ⟨⟨-, r, hlt, rfl⟩, -⟩ := hworker
          exact hlt

/-- While no reduce task is being written and none was cut off by a crash, every file that
`mr-out*` names is the complete output of a reduce task, and no two are of the same task. -/
theorem visible_outputs_complete {J : Job} {es : List (Event ι)} {s : State ι}
    (h : (system J ι).Run es s) (hwriting : ∀ w, (s.workers w).outTmp = none)
    (hcrashed : ∀ n, ¬ CrashedAt J es n) :
    ∃ task : FileName → ℕ,
      (∀ f n, f.MrOut → s.fs.dir f = some n →
        task f < J.nReduce ∧ RightOutput J (task f) (s.fs.data n)) ∧
      ∀ f g n m, f.MrOut → g.MrOut → s.fs.dir f = some n → s.fs.dir g = some m →
        task f = task g → f = g := by
  have hout : ∀ f n, f.MrOut → s.fs.dir f = some n → ∃ r, f = .out r := by
    intro f n hf hn
    rcases (mrOut_iff f).mp hf with hr | ⟨k, rfl⟩
    · exact hr
    · rcases outTmpOwned h k n hn with ⟨w, hw⟩ | hc
      · rw [hwriting w] at hw
        cases hw
      · exact absurd hc (hcrashed k)
  refine ⟨fun f => match f with | .out r => r | _ => 0, ?_, ?_⟩
  · intro f n hf hn
    obtain ⟨r, rfl⟩ := hout f n hf hn
    exact ⟨out_lt_nReduce h hn, ((inv_of_run h).files.named _ n hn).2⟩
  · intro f g n m hf hg hn hm heq
    obtain ⟨r, rfl⟩ := hout f n hf hn
    obtain ⟨r', rfl⟩ := hout g m hg hm
    rw [show r = r' from heq]

theorem crashRun_visible_complete : ∃ s, (system countJob Bool).Run crashRun s ∧
    (s.fs.dir (.out 0)).isSome ∧ ∀ f n, f.MrOut → s.fs.dir f = some n →
      ∃ r < countJob.nReduce, RightOutput countJob r (s.fs.data n) := by
  obtain ⟨s, hrun, hwriting, hout⟩ := System.exists_run (system countJob Bool) crashRun
    (fun s => (∀ w, (s.workers w).outTmp = none) ∧ (s.fs.dir (.out 0)).isSome)
    (by decide +kernel)
  have hcrashed : ∀ n, ¬ CrashedAt countJob crashRun n := by
    intro n
    refine System.not_did_of_along (System.along_of_allSteps (fun s e =>
      ((system countJob Bool).step s e).all fun t =>
        decide (∀ w, (s.workers w).outTmp = none ∨ t.workers w ≠ .crashed)) ?_ (by decide +kernel))
    rintro pre s e hall t hs ⟨w, hw, hcrash⟩
    rw [hs, Option.all_some, decide_eq_true_eq] at hall
    rcases hall w with hnone | hne
    · rw [hnone] at hw
      cases hw
    · exact hne hcrash
  obtain ⟨task, hcomplete, -⟩ := visible_outputs_complete hrun hwriting hcrashed
  exact ⟨s, hrun, hout, fun f n hf hn => ⟨task f, hcomplete f n hf hn⟩⟩

/-- A worker crashes after the first of the two lines of its output. -/
def partialRun : List (Event Bool) :=
  [mainSteps 3, getTaskSteps true 0, workSteps true 7, reportSteps true 1, mainSteps 8,
    getTaskSteps true 2, workSteps true 6,
    [.sort true [⟨"a", "1"⟩, ⟨"a", "1"⟩, ⟨"b", "1"⟩]], workSteps true 1, [.crash true]].flatten

theorem countJob_output_length {d : List Record} (h : RightOutput countJob 0 d) : 2 ≤ d.length := by
  obtain ⟨lines, hlines, rfl⟩ := h.reduces permInvariant_countValues Nat.one_pos
  have ha : "a" ∈ lines.map Line.key := hlines.mem_keys.mpr ⟨⟨"a", "1"⟩, by decide +kernel, rfl⟩
  have hb : "b" ∈ lines.map Line.key := hlines.mem_keys.mpr ⟨⟨"b", "1"⟩, by decide +kernel, rfl⟩
  have hpair : [("a" : String), "b"].Subperm (lines.map Line.key) := by
    refine List.subperm_of_subset (by decide) ?_
    intro k hk
    simp only [List.mem_cons, List.not_mem_nil, or_false] at hk
    rcases hk with rfl | rfl
    · exact ha
    · exact hb
  simpa [lineRecords] using hpair.length_le

/-- The unfinished output is left in the directory under a name that `mr-out*` matches. -/
theorem partialRun_visible : ∃ s, (system countJob Bool).Run partialRun s ∧
    ∃ f n, f.MrOut ∧ s.fs.dir f = some n ∧ s.fs.data n ≠ [] ∧
      ∀ r < countJob.nReduce, ¬ RightOutput countJob r (s.fs.data n) := by
  obtain ⟨s, hrun, hdir, hdata⟩ := System.exists_run (system countJob Bool) partialRun
    (fun s => s.fs.dir (.outTmp 1) = some 1 ∧ (s.fs.data 1).length = 1) (by decide +kernel)
  refine ⟨s, hrun, .outTmp 1, 1, (mrOut_iff _).mpr (Or.inr ⟨1, rfl⟩), hdir, ?_, ?_⟩
  · intro hnil
    rw [hnil] at hdata
    cases hdata
  · intro r hr hright
    have hr0 : r = 0 := Nat.lt_one_iff.mp hr
    subst hr0
    have hlen := countJob_output_length hright
    omega

end MR
