import DistributedLabs.MR.Barrier
import DistributedLabs.MR.Work
import DistributedLabs.Runs.Owners

/-! Published files are complete and right. A file is written by one worker under a temporary
name; once it is renamed nobody owns it and it does not change any more. -/
namespace MR
open Runs Grouping
variable {ι : Type*} {J : Job} {s t : State ι} {w : ι}

/-- The input files with their contents. -/
def Job.inputs (J : Job) : List (String × String) :=
  J.files.map fun v => (v, (J.input v).getD "")

/-- The buckets of all map tasks. -/
def Job.buckets (J : Job) : List (List (List KeyValue)) :=
  J.inputs.map (doMapTask J.mapf J.nReduce)

/-- What the file `mr-i-r` is to hold. -/
def Job.bucket (J : Job) (i r : ℕ) : List KeyValue := (J.buckets.getD i []).getD r []

/-- The records of lines of output. -/
def lineRecords (l : List Line) : List Record := l.map fun x => .line x.text

/-- The records are those of a reduce task that has read all its files. -/
def RightOutput (J : Job) (r : ℕ) (d : List Record) : Prop :=
  ∃ l, Sorted KeyValue.key l ∧ l.Perm (collect J.buckets r) ∧
    d = lineRecords (reduceLines J.reducef l)

/-- The file that a worker is writing. -/
def Worker.owns : Worker → Option ℕ
  | .mapWrite _ _ _ n _ => some n
  | .reduceWrite _ n _ => some n
  | .idle => none
  | .asking _ => none
  | .mapStart _ => none
  | .mapCreate _ _ _ => none
  | .reduceOpen _ _ _ _ => none
  | .reduceRead _ _ _ _ _ _ => none
  | .reduceSort _ _ => none
  | .report _ => none
  | .reporting _ => none
  | .exited => none
  | .cannotOpen _ => none
  | .crashed => none

/-- A file that exists and that nobody writes any more. -/
def State.Frozen (s : State ι) (n : ℕ) : Prop :=
  n < s.fs.next ∧ ∀ w, (s.workers w).owns ≠ some n

def MapTask (J : Job) (task : Task) : Prop :=
  ∃ i v, J.files[i]? = some v ∧ task = makeMapTask v i J.nReduce

def ReduceTask (J : Job) (fs : Files) (task : Task) : Prop :=
  AllMapped J fs ∧ ∃ r < J.nReduce, task = makeReduceTask r J.nReduce

/-- What is true of a worker in each of its states. -/
def WorkerInv (J : Job) (s : State ι) : Worker → Prop
  | .mapStart task => MapTask J task
  | .mapCreate task buckets i => MapTask J task ∧ buckets = J.buckets.getD task.taskid [] ∧
      ∀ r < i, (s.fs.dir (.inter task.taskid r)).isSome
  | .mapWrite task buckets i n rest => (MapTask J task ∧ buckets = J.buckets.getD task.taskid [] ∧
      ∀ r < i, (s.fs.dir (.inter task.taskid r)).isSome) ∧
      s.fs.data n ++ rest.map .kv = (J.bucket task.taskid i).map .kv
  | .reduceOpen task lenfiles i acc => ReduceTask J s.fs task ∧ lenfiles = J.files.length ∧
      acc = collect (J.buckets.take i) task.taskid
  | .reduceRead task lenfiles i n pos acc => (ReduceTask J s.fs task ∧
      lenfiles = J.files.length ∧ i < J.files.length) ∧ s.Frozen n ∧
      s.fs.data n = (J.bucket i task.taskid).map .kv ∧
      acc = collect (J.buckets.take i) task.taskid ++ (J.bucket i task.taskid).take pos
  | .reduceSort task acc => ReduceTask J s.fs task ∧ acc = collect J.buckets task.taskid
  | .reduceWrite task n rest => ReduceTask J s.fs task ∧
      ∃ l, Sorted KeyValue.key l ∧ l.Perm (collect J.buckets task.taskid) ∧
        s.fs.data n ++ lineRecords (reduceLines J.reducef rest) =
          lineRecords (reduceLines J.reducef l)
  | .report task => Reported J s.fs (task.taskid, task.taskType)
  | .cannotOpen _ => False
  | .idle => True
  | .asking _ => True
  | .reporting _ => True
  | .exited => True
  | .crashed => True

/-- What is true of the file `n` under a name. -/
def NameInv (J : Job) (s : State ι) : FileName → ℕ → Prop
  | .inter i r, n => s.Frozen n ∧ s.fs.data n = (J.bucket i r).map .kv
  | .out r, n => s.Frozen n ∧ RightOutput J r (s.fs.data n)
  | .mapTmp m, n => n = m
  | .outTmp m, n => n = m

structure FilesInv (J : Job) (s : State ι) : Prop where
  named : ∀ f n, s.fs.dir f = some n → NameInv J s f n
  owned : ∀ w n, (s.workers w).owns = some n → n < s.fs.next
  owner : ∀ w w' n, (s.workers w).owns = some n → (s.workers w').owns = some n → w = w'

/-- What a step of the worker `w` may do to files: it writes to the file it owns, and it may
create one and own it. -/
structure Touches (s t : State ι) (w : ι) : Prop where
  others : ∀ w', w' ≠ w → t.workers w' = s.workers w'
  next_le : s.fs.next ≤ t.fs.next
  owns : ∀ n, (t.workers w).owns = some n →
    (s.workers w).owns = some n ∨ (s.fs.next ≤ n ∧ n < t.fs.next)
  data : ∀ n < s.fs.next, (s.workers w).owns ≠ some n → t.fs.data n = s.fs.data n
  keeps : Keeps s.fs t.fs

theorem Touches.frozen (h : Touches s t w) {n : ℕ} (hn : s.Frozen n) : t.Frozen n := by
  refine ⟨hn.1.trans_le h.next_le, ?_⟩
  intro w' hw'
  by_cases hww : w' = w
  · subst hww
    rcases h.owns n hw' with hold | ⟨hle, -⟩
    · exact hn.2 w' hold
    · exact absurd hn.1 (not_lt_of_ge hle)
  · rw [h.others w' hww] at hw'
    exact hn.2 w' hw'

theorem Touches.frozen_data (h : Touches s t w) {n : ℕ} (hn : s.Frozen n) :
    t.fs.data n = s.fs.data n :=
  h.data n hn.1 (hn.2 w)

theorem Touches.owners (h : Touches s t w) (hf : FilesInv J s) :
    Owners (fun w => (t.workers w).owns) t.fs.next := by
  have hbefore : Owners (fun w => (s.workers w).owns) s.fs.next := ⟨hf.owned, hf.owner⟩
  refine hbefore.change h.next_le ?_ h.owns
  intro v hv
  rw [h.others v hv]

/-- A file whose owner has let go of it. -/
theorem Touches.released (h : Touches s t w) (hf : FilesInv J s) {n : ℕ}
    (hs : (s.workers w).owns = some n) (ht : (t.workers w).owns = none) : t.Frozen n := by
  refine ⟨(hf.owned w n hs).trans_le h.next_le, ?_⟩
  intro w' hw'
  by_cases hww : w' = w
  · rw [hww, ht] at hw'
    cases hw'
  · rw [h.others w' hww] at hw'
    exact hww (hf.owner w' w n hw' hs)

/-- The other workers do not notice. -/
theorem WorkerInv.mono (h : Touches s t w) {x : Worker} (hi : WorkerInv J s x)
    (hx : ∀ n, x.owns = some n → t.fs.data n = s.fs.data n) : WorkerInv J t x := by
  have hk := h.keeps
  cases x with
  | mapCreate task buckets i => exact ⟨hi.1, hi.2.1, fun r hr => hk.inter _ r (hi.2.2 r hr)⟩
  | mapWrite task buckets i n rest =>
    obtain ⟨⟨htask, hb, hdone⟩, hdata⟩ := hi
    refine ⟨⟨htask, hb, fun r hr => hk.inter _ r (hdone r hr)⟩, ?_⟩
    rw [hx n rfl]
    exact hdata
  | reduceOpen task lenfiles i acc => exact ⟨⟨hi.1.1.mono hk, hi.1.2⟩, hi.2⟩
  | reduceRead task lenfiles i n pos acc =>
    obtain ⟨⟨htask, hL⟩, hn, hdata, hacc⟩ := hi
    refine ⟨⟨⟨htask.1.mono hk, htask.2⟩, hL⟩, h.frozen hn, ?_, hacc⟩
    rw [h.frozen_data hn]
    exact hdata
  | reduceSort task acc => exact ⟨⟨hi.1.1.mono hk, hi.1.2⟩, hi.2⟩
  | reduceWrite task n rest =>
    obtain ⟨htask, l, hs, hp, hdata⟩ := hi
    refine ⟨⟨htask.1.mono hk, htask.2⟩, l, hs, hp, ?_⟩
    rw [hx n rfl]
    exact hdata
  | report task => exact Reported.mono hk hi
  | mapStart | cannotOpen | idle | asking | reporting | exited | crashed => exact hi

theorem NameInv.mono (h : Touches s t w) {f : FileName} {n : ℕ} (hi : NameInv J s f n) :
    NameInv J t f n := by
  cases f with
  | inter i r => exact ⟨h.frozen hi.1, (h.frozen_data hi.1).trans hi.2⟩
  | out r => exact ⟨h.frozen hi.1, (h.frozen_data hi.1).symm ▸ hi.2⟩
  | mapTmp m | outTmp m => exact hi

/-- The files stay right if what is new under a name is right. -/
theorem FilesInv.of_touches (h : Touches s t w) (hf : FilesInv J s)
    (hnew : ∀ f n, t.fs.dir f = some n → s.fs.dir f = some n ∨ NameInv J t f n) :
    FilesInv J t where
  named := by
    intro f n hn
    rcases hnew f n hn with hold | hnew
    · exact (hf.named f n hold).mono h
    · exact hnew
  owned := (h.owners hf).lt
  owner := (h.owners hf).unique

section Steps
variable [DecidableEq ι] {x : Worker}

theorem touches_same {u : State ι} (hfs : u.fs = s.fs) (hw : u.workers = s.workers)
    (hx : x.owns = none) : Touches s (u.setWorker w x) w where
  others := by
    intro w' hww
    rw [setWorker_workers_ne _ _ hww, hw]
  next_le := by rw [setWorker_fs, hfs]
  owns := by simp [hx]
  data := by simp [hfs]
  keeps := by
    rw [setWorker_fs, hfs]
    exact ⟨fun _ _ h => h, fun _ h => h⟩

theorem touches_createTemp (name : ℕ → FileName) (hx : x.owns = some s.fs.next) :
    Touches s ({ s with fs := s.fs.createTemp name }.setWorker w x) w where
  others := fun w' hww => setWorker_workers_ne _ _ hww
  next_le := Nat.le_succ _
  owns := by
    intro n hn
    rw [setWorker_workers_self, hx, Option.some.injEq] at hn
    subst hn
    exact .inr ⟨le_rfl, Nat.lt_succ_self _⟩
  data := fun n hn _ => Function.update_of_ne hn.ne _ _
  keeps := by
    have hsome : ∀ f, (s.fs.dir f).isSome → ((s.fs.createTemp name).dir f).isSome := by
      intro f hf
      by_cases hff : f = name s.fs.next
      · simp [Files.createTemp, hff]
      · simpa [Files.createTemp, Function.update_of_ne hff] using hf
    exact ⟨fun i r => hsome _, fun r => hsome _⟩

theorem touches_append {n : ℕ} (a : Record) (hw : (s.workers w).owns = some n)
    (hx : x.owns = some n) : Touches s ({ s with fs := s.fs.append n a }.setWorker w x) w where
  others := fun w' hww => setWorker_workers_ne _ _ hww
  next_le := le_rfl
  owns := by
    intro m hm
    rw [setWorker_workers_self, hx] at hm
    exact .inl (hw.trans hm)
  data := by
    intro m _ hm
    refine Function.update_of_ne ?_ _ _
    rintro rfl
    exact hm hw
  keeps := ⟨fun _ _ h => h, fun _ h => h⟩

theorem touches_rename {old new : FileName} {fs : Files}
    (hfs : s.fs.rename old new = some fs) (hinter : ∀ i r, .inter i r ≠ old)
    (hout : ∀ r, .out r ≠ old) (hx : x.owns = none) :
    Touches s ({ s with fs := fs }.setWorker w x) w := by
  obtain ⟨n, -, rfl⟩ := Option.map_eq_some_iff.mp hfs
  have hsome : ∀ f, f ≠ old → (s.fs.dir f).isSome →
      (Function.update (Function.update s.fs.dir new (some n)) old none f).isSome := by
    intro f hf hs
    rw [Function.update_of_ne hf]
    by_cases hfn : f = new
    · simp [hfn]
    · rwa [Function.update_of_ne hfn]
  exact {
    others := fun w' hww => setWorker_workers_ne _ _ hww
    next_le := le_rfl
    owns := by simp [hx]
    data := fun _ _ _ => rfl
    keeps := ⟨fun i r => hsome _ (hinter i r), fun r => hsome _ (hout r)⟩ }

end Steps

end MR
