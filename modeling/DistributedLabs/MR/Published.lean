import DistributedLabs.MR.Outputs
import DistributedLabs.MR.Sequential

/-! Every step of a job keeps the invariants of files, workers and coordinator, so published
outputs are right in every run. -/
namespace MR
open Runs Grouping
variable {ι : Type*} [DecidableEq ι] {J : Job} {s t : State ι} {w : ι}

theorem createTemp_dir {fs : Files} {name : ℕ → FileName} {f : FileName} {n : ℕ}
    (h : (fs.createTemp name).dir f = some n) :
    (f = name fs.next ∧ n = fs.next) ∨ fs.dir f = some n := by
  by_cases hf : f = name fs.next
  · left
    simp only [Files.createTemp, hf, Function.update_self, Option.some.injEq] at h
    exact ⟨hf, h.symm⟩
  · right
    simpa only [Files.createTemp, Function.update_of_ne hf] using h

theorem rename_dir {fs fs' : Files} {old new f : FileName} {n : ℕ}
    (hfs : fs.rename old new = some fs') (h : fs'.dir f = some n) :
    (f = new ∧ fs.dir old = some n) ∨ fs.dir f = some n := by
  obtain ⟨m, hm, rfl⟩ := Option.map_eq_some_iff.mp hfs
  by_cases hold : f = old
  · subst hold
    simp at h
  · simp only [Function.update_of_ne hold] at h
    by_cases hnew : f = new
    · left
      simp only [hnew, Function.update_self] at h
      exact ⟨hnew, hm.trans h⟩
    · right
      simpa only [Function.update_of_ne hnew] using h

theorem rename_data {fs fs' : Files} {old new : FileName} (hfs : fs.rename old new = some fs') :
    fs'.data = fs.data := by
  obtain ⟨m, -, rfl⟩ := Option.map_eq_some_iff.mp hfs
  rfl

theorem rename_isSome {fs fs' : Files} {old new : FileName}
    (hfs : fs.rename old new = some fs') (hne : new ≠ old) : (fs'.dir new).isSome := by
  obtain ⟨m, -, rfl⟩ := Option.map_eq_some_iff.mp hfs
  simp [Function.update_of_ne hne]

theorem State.Work.touches (h : State.Work J s w t) : Touches s t w := by
  cases h with
  | mapCreate | sort => exact touches_createTemp _ rfl
  | mapAppend task buckets i n kv rest hw => exact touches_append _ (by rw [hw]; rfl) rfl
  | reduceAppend task n kv rest hw => exact touches_append _ (by rw [hw]; rfl) rfl
  | mapRename task buckets i n fs hw hfs =>
    exact touches_rename hfs (by intro i r h; cases h) (by intro r h; cases h) rfl
  | reduceRename task n fs hw hfs =>
    exact touches_rename hfs (by intro i r h; cases h) (by intro r h; cases h) rfl
  | given k task lenfiles =>
    refine touches_same rfl rfl ?_
    unfold State.start
    split <;> rfl
  | _ => exact touches_same rfl rfl rfl

/-- Only complete files are published. -/
theorem filesInv_work (hf : FilesInv J s) (hi : WorkerInv J s (s.workers w))
    (h : State.Work J s w t) : FilesInv J t := by
  have ht := h.touches
  cases h with
  | mapCreate task buckets i hw | sort task acc l hw =>
    refine hf.of_touches ht ?_
    intro f n hn
    rcases createTemp_dir hn with ⟨rfl, rfl⟩ | hold
    · exact .inr rfl
    · exact .inl hold
  | mapRename task buckets i n fs hw hfs =>
    refine hf.of_touches ht ?_
    intro f m hm
    rcases rename_dir hfs hm with ⟨rfl, hold⟩ | hold
    · have hmn : m = n := hf.named _ m hold
      subst hmn
      have hfrozen := ht.released hf (by rw [hw]; rfl) (by rw [setWorker_workers_self]; rfl)
      rw [hw] at hi
      refine .inr ⟨hfrozen, ?_⟩
      simpa [rename_data hfs] using hi.2
    · exact .inl hold
  | reduceRename task n fs hw hfs =>
    refine hf.of_touches ht ?_
    intro f m hm
    rcases rename_dir hfs hm with ⟨rfl, hold⟩ | hold
    · have hmn : m = n := hf.named _ m hold
      subst hmn
      have hfrozen := ht.released hf (by rw [hw]; rfl) (by rw [setWorker_workers_self]; rfl)
      rw [hw] at hi
      obtain ⟨-, l, hs, hp, hdata⟩ := hi
      refine .inr ⟨hfrozen, l, hs, hp, ?_⟩
      have hnil : lineRecords (reduceLines J.reducef []) = [] := rfl
      rw [hnil, List.append_nil] at hdata
      rw [← hdata]
      exact congrFun (rename_data hfs) m
    · exact .inl hold
  | _ => exact hf.of_touches ht fun _ _ hn => .inl hn

theorem buckets_length (J : Job) : J.buckets.length = J.files.length := by
  simp [Job.buckets, Job.inputs]

theorem buckets_getD {i : ℕ} {v content : String} (hv : J.files[i]? = some v)
    (hin : J.input v = some content) :
    J.buckets.getD i [] = hashKeyID J.nReduce (J.mapf v content) := by
  simp [Job.buckets, Job.inputs, List.getD_eq_getElem?_getD, hv, hin, doMapTask]

/-- Reading bucket `r` of one more map task. -/
theorem collect_take_succ {i : ℕ} (hi : i < J.files.length) (r : ℕ) :
    collect (J.buckets.take (i + 1)) r = collect (J.buckets.take i) r ++ J.bucket i r := by
  have hlt : i < J.buckets.length := by
    rw [buckets_length]
    exact hi
  rw [List.take_succ_eq_append_getElem hlt, collect, List.flatMap_append]
  simp [collect, Job.bucket, List.getD_eq_getElem?_getD, hlt]

theorem collect_take_of_le {i : ℕ} (hi : ¬ i < J.files.length) (r : ℕ) :
    collect (J.buckets.take i) r = collect J.buckets r := by
  rw [List.take_of_length_le]
  rw [buckets_length]
  omega

/-- Reading a file of encoded pairs at a position. -/
theorem read_record {l : List KeyValue} {d : List Record} (hd : d = l.map .kv) {pos : ℕ}
    {kv : KeyValue} (h : d[pos]? = some (.kv kv)) : l.take (pos + 1) = l.take pos ++ [kv] := by
  subst hd
  rw [List.getElem?_map, Option.map_eq_some_iff] at h
  obtain ⟨kv', hkv, heq⟩ := h
  cases heq
  rw [List.take_add_one, hkv]
  rfl

theorem read_end {l : List KeyValue} {d : List Record} (hd : d = l.map .kv) {pos : ℕ}
    (h : ∀ kv, d[pos]? ≠ some (.kv kv)) : l.take pos = l := by
  subst hd
  refine List.take_of_length_le ?_
  by_contra hlt
  rw [not_le] at hlt
  exact h l[pos] (by simp [hlt])

omit [DecidableEq ι] in
/-- What a worker does with a genuine task. -/
theorem workerInv_start {task : Task} {lenfiles : ℕ} (hg : Genuine J s.fs task)
    (hL : task.taskType = .reduce → lenfiles = J.files.length) :
    WorkerInv J s (State.start task lenfiles) := by
  cases hg with
  | map i v hv => exact ⟨i, v, hv, rfl⟩
  | reduce r hr hall => exact ⟨⟨hall, r, hr, rfl⟩, hL rfl, rfl⟩
  | control _ ht => rcases ht with ht | ht <;> simp [State.start, ht, WorkerInv]

/-- A worker that takes a step finds what it needs. -/
theorem workerInv_self (hc : CoordInv J s.fs s.coord) (hf : FilesInv J s)
    (hi : WorkerInv J s (s.workers w)) (h : State.Work J s w t) :
    WorkerInv J t (t.workers w) := by
  have ht := h.touches
  cases h with
  | given k task lenfiles hw hk =>
    have hmem := List.mem_of_getElem? hk
    rw [setWorker_workers_self]
    exact (workerInv_start (hc.genuine task (.inr (.inr (.inl ⟨_, hmem, rfl⟩))))
      (hc.allocated task lenfiles hmem)).mono ht (fun _ _ => rfl)
  | mapStart task content hw hin =>
    rw [hw] at hi
    rw [setWorker_workers_self]
    obtain ⟨i, v, hv, rfl⟩ := hi
    exact ⟨⟨i, v, hv, rfl⟩, (buckets_getD hv hin).symm, fun r hr => absurd hr (Nat.not_lt_zero r)⟩
  | mapCreate task buckets i hw hlt =>
    rw [hw] at hi
    rw [setWorker_workers_self]
    obtain ⟨htask, rfl, hdone⟩ := hi
    refine ⟨⟨htask, rfl, fun r hr => ht.keeps.inter _ r (hdone r hr)⟩, ?_⟩
    simp [Files.createTemp, Job.bucket]
  | mapEnd task buckets i hw hlt =>
    rw [hw] at hi
    rw [setWorker_workers_self]
    obtain ⟨⟨j, v, hv, rfl⟩, -, hdone⟩ := hi
    exact .map j fun r hr => hdone r (hr.trans_le (not_lt.mp hlt))
  | mapAppend task buckets i n kv rest hw =>
    rw [hw] at hi
    rw [setWorker_workers_self]
    refine ⟨hi.1, ?_⟩
    rw [← hi.2]
    simp [Files.append]
  | mapRename task buckets i n fs hw hfs =>
    rw [hw] at hi
    rw [setWorker_workers_self]
    obtain ⟨⟨htask, hb, hdone⟩, -⟩ := hi
    refine ⟨htask, hb, ?_⟩
    intro r hr
    rcases Nat.lt_succ_iff_lt_or_eq.mp hr with hlt | rfl
    · exact ht.keeps.inter _ r (hdone r hlt)
    · exact rename_isSome hfs (by intro h; cases h)
  | reduceOpen task lenfiles i n acc hw hlt hn =>
    rw [hw] at hi
    rw [setWorker_workers_self]
    obtain ⟨htask, rfl, rfl⟩ := hi
    obtain ⟨hfrozen, hdata⟩ := hf.named _ n hn
    refine ⟨⟨htask, rfl, hlt⟩, ht.frozen hfrozen, hdata, ?_⟩
    rw [List.take_zero, List.append_nil]
  | cannotOpen task lenfiles i acc hw hlt hn =>
    rw [hw] at hi
    obtain ⟨⟨hall, r, hr, rfl⟩, rfl, -⟩ := hi
    have hsome := hall i hlt r hr
    rw [show s.fs.dir (.inter i r) = none from hn] at hsome
    cases hsome
  | reduceEnd task lenfiles i acc hw hlt =>
    rw [hw] at hi
    rw [setWorker_workers_self]
    obtain ⟨htask, rfl, rfl⟩ := hi
    exact ⟨htask, collect_take_of_le hlt _⟩
  | reduceRead task lenfiles i n pos acc kv hw hkv =>
    rw [hw] at hi
    rw [setWorker_workers_self]
    obtain ⟨htask, hfrozen, hdata, rfl⟩ := hi
    refine ⟨htask, ht.frozen hfrozen, hdata, ?_⟩
    rw [List.append_assoc, read_record hdata hkv]
  | reduceClose task lenfiles i n pos acc hw hkv =>
    rw [hw] at hi
    rw [setWorker_workers_self]
    obtain ⟨⟨htask, hL, hlt⟩, -, hdata, rfl⟩ := hi
    refine ⟨htask, hL, ?_⟩
    rw [read_end hdata hkv, collect_take_succ hlt]
  | sort task acc l hw hp hs =>
    rw [hw] at hi
    rw [setWorker_workers_self]
    obtain ⟨htask, rfl⟩ := hi
    refine ⟨⟨htask.1.mono ht.keeps, htask.2⟩, l, hs, hp, ?_⟩
    simp [Files.createTemp]
  | reduceAppend task n kv rest hw =>
    rw [hw] at hi
    rw [setWorker_workers_self]
    obtain ⟨htask, l, hs, hp, hdata⟩ := hi
    refine ⟨htask, l, hs, hp, ?_⟩
    rw [← hdata, reduceLines_cons]
    simp [Files.append, lineRecords]
  | reduceRename task n fs hw hfs =>
    rw [hw] at hi
    rw [setWorker_workers_self]
    obtain ⟨⟨hall, r, hr, rfl⟩, -⟩ := hi
    exact .reduce r (hall.mono ht.keeps) (rename_isSome hfs (by intro h; cases h))
  | ask | report | reported | stop =>
    rw [setWorker_workers_self]
    trivial

theorem CoordInv.call {fs : Files} {p : Process} (hc : CoordInv J fs p) {x : Call}
    (htask : x.task = none) (hx : ∀ m, x.reported = some m → Reported J fs m) :
    CoordInv J fs { p with calls := p.calls ++ [x] } where
  lenfiles := hc.lenfiles
  genuine := by
    rintro task (hold | hold | ⟨y, hy, hyt⟩ | hold)
    · exact hc.genuine task (.inl hold)
    · exact hc.genuine task (.inr (.inl hold))
    · rcases List.mem_append.mp hy with hy | hy
      · exact hc.genuine task (.inr (.inr (.inl ⟨y, hy, hyt⟩)))
      · rw [List.mem_singleton.mp hy, htask] at hyt
        cases hyt
    · exact hc.genuine task (.inr (.inr (.inr hold)))
  reports := by
    intro y hy m hm
    rcases List.mem_append.mp hy with hy | hy
    · exact hc.reports y hy m hm
    · rw [List.mem_singleton.mp hy] at hm
      exact hx m hm
  allocated := by
    intro task L hy
    rcases List.mem_append.mp hy with hy | hy
    · exact hc.allocated task L hy
    · rw [← List.mem_singleton.mp hy] at htask
      cases htask
  states := hc.states
  barrier := hc.barrier

theorem coordInv_work (hc : CoordInv J s.fs s.coord) (hi : WorkerInv J s (s.workers w))
    (h : State.Work J s w t) : CoordInv J t.fs t.coord := by
  have ht := h.touches
  cases h with
  | ask hw => exact hc.call rfl (by intro m hm; cases hm)
  | report task hw =>
    rw [hw] at hi
    refine hc.call rfl ?_
    intro m hm
    cases hm
    exact hi
  | _ => exact hc.mono ht.keeps

/-- What is true in every state of a job. -/
structure Inv (J : Job) (s : State ι) : Prop where
  coord : CoordInv J s.fs s.coord
  files : FilesInv J s
  workers : ∀ w, WorkerInv J s (s.workers w)

omit [DecidableEq ι] in
theorem inv_init (J : Job) : Inv J (State.init J ι) where
  coord := coordInv_init J
  files := {
    named := by intro f n hn; cases hn
    owned := by intro w n hn; cases hn
    owner := by intro w w' n hn; cases hn }
  workers := fun _ => trivial

omit [DecidableEq ι] in
theorem workerInv_coord {x : Worker} {p : Process} (h : WorkerInv J s x) :
    WorkerInv J { s with coord := p } x := by
  cases x <;> exact h

theorem inv_work (hi : Inv J s) (h : State.Work J s w t) : Inv J t where
  coord := coordInv_work hi.coord (hi.workers w) h
  files := filesInv_work hi.files (hi.workers w) h
  workers := by
    intro w'
    by_cases hww : w' = w
    · rw [hww]
      exact workerInv_self hi.coord hi.files (hi.workers w) h
    · rw [h.touches.others w' hww]
      refine (hi.workers w').mono h.touches ?_
      intro n hn
      refine h.touches.data n (hi.files.owned w' n hn) ?_
      intro hw
      exact hww (hi.files.owner w' w n hn hw)

theorem inv_step {e : Event ι} (hi : Inv J s) (h : s.step J e = some t) : Inv J t := by
  rcases State.step_cases h with ⟨a, p, -, hp, rfl⟩ | ⟨w, hw⟩
  · exact {
      coord := coordInv_step hi.coord (.of_step hp)
      files := {
        named := by
          intro f n hn
          have hname := hi.files.named f n hn
          cases f <;> exact hname
        owned := hi.files.owned
        owner := hi.files.owner }
      workers := fun w => workerInv_coord (hi.workers w) }
  · exact inv_work hi hw

theorem inv_of_run {es : List (Event ι)} (h : (system J ι).Run es s) : Inv J s :=
  h.invariant' (I := fun _ s => Inv J s) (inv_init J) fun _ _ _ _ _ hi hstep => inv_step hi hstep

/-- The lines of a right output are those of the pairs that hash to the reduce task. -/
theorem RightOutput.reduces (hred : PermInvariant J.reducef) {r : ℕ} (hr : r < J.nReduce)
    {d : List Record} (h : RightOutput J r d) :
    ∃ lines, Reduces J.reducef
      ((emitted J.mapf J.inputs).filter fun kv => ihash kv.key % J.nReduce = r) lines ∧
      d = lineRecords lines := by
  obtain ⟨l, hs, hp, rfl⟩ := h
  rw [Job.buckets, collect_doMapTask hr] at hp
  exact ⟨_, (reduces_of_sorted hs).of_perm hred hp, rfl⟩

/-- However workers are slow, crash or repeat tasks: no intermediate file is missing when it is
read, and an output file has one line for each key of its reduce task. -/
theorem published_outputs_right (hred : PermInvariant J.reducef) {es : List (Event ι)}
    (h : (system J ι).Run es s) :
    (∀ w name, s.workers w ≠ .cannotOpen name) ∧
    ∀ r < J.nReduce, ∀ n, s.fs.dir (.out r) = some n → ∃ lines,
      Reduces J.reducef
        ((emitted J.mapf J.inputs).filter fun kv => ihash kv.key % J.nReduce = r) lines ∧
      s.fs.data n = lines.map fun x => .line (x.key ++ " " ++ x.output ++ "\n") := by
  have hi := inv_of_run h
  constructor
  · intro w name hw
    have hworker := hi.workers w
    rw [hw] at hworker
    exact hworker
  · intro r hr n hn
    exact (hi.files.named _ n hn).2.reduces hred hr

/-- Counting the characters of one file, with one reduce task. -/
def countJob : Job where
  files := ["f"]
  nReduce := 1
  nReduce_pos := Nat.one_pos
  mapf := charPairs
  reducef := countValues
  input := fun _ => some "aba"

def mainSteps (n : ℕ) : List (Event Bool) := List.replicate n (.coord (.main none))

def workSteps (w : Bool) (n : ℕ) : List (Event Bool) := List.replicate n (.work w)

/-- A round of `monitor` that visits task 0 and ends after `n` more steps. -/
def monitorRound (n : ℕ) : List (Event Bool) :=
  [.coord (.pass 3000), .coord .tick, .coord (.monitor [] none), .coord (.monitor [0] none)] ++
    List.replicate n (.coord (.monitor [] none))

/-- The worker gets a task through the call `k`. -/
def getTaskSteps (w : Bool) (k : ℕ) : List (Event Bool) :=
  [.work w, .coord (.call k), .coord (.call k), .coord (.call k), .work w]

/-- The worker reports through the call `k`. -/
def reportSteps (w : Bool) (k : ℕ) : List (Event Bool) :=
  [.work w, .coord (.call k), .coord (.call k), .coord (.call k), .coord (.call k), .work w]

/-- The first worker crashes while it writes its file; after twelve seconds its task is queued
again and the second worker does it, and then the reduce task. -/
def crashRun : List (Event Bool) :=
  [mainSteps 3, getTaskSteps false 0, workSteps false 3, [.crash false],
    monitorRound 4, monitorRound 4, monitorRound 4, monitorRound 6,
    getTaskSteps true 1, workSteps true 7, reportSteps true 2, mainSteps 8,
    getTaskSteps true 3, workSteps true 6, [.sort true [⟨"a", "1"⟩, ⟨"a", "1"⟩, ⟨"b", "1"⟩]],
    workSteps true 3].flatten

theorem crashRun_output_right : ∃ s, (system countJob Bool).Run crashRun s ∧
    s.workers false = .crashed ∧ ∃ n lines, s.fs.dir (.out 0) = some n ∧
      s.fs.data n = [.line "a 2\n", .line "b 1\n"] ∧
      Reduces countJob.reducef ((emitted countJob.mapf countJob.inputs).filter
        fun kv => ihash kv.key % countJob.nReduce = 0) lines ∧
      s.fs.data n = lines.map fun x => .line (x.key ++ " " ++ x.output ++ "\n") := by
  obtain ⟨s, hrun, hcrash, hout, htext⟩ := System.exists_run (system countJob Bool) crashRun
    (fun s => s.workers false = .crashed ∧ s.fs.dir (.out 0) = some 2 ∧
      s.fs.data 2 = [.line "a 2\n", .line "b 1\n"]) (by decide +kernel)
  obtain ⟨lines, hlines, hdata⟩ :=
    (published_outputs_right permInvariant_countValues hrun).2 0 Nat.one_pos 2 hout
  exact ⟨s, hrun, hcrash, 2, lines, hout, htext, hlines, hdata⟩

end MR
