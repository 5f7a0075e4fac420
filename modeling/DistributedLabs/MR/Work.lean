import DistributedLabs.MR.Worker

/-! The steps of a worker as a relation. -/
namespace MR
variable {ι : Type*} [DecidableEq ι] {J : Job} {s t : State ι} {w : ι} {e : Event ι}

@[simp] theorem setWorker_workers_self (s : State ι) (w : ι) (x : Worker) :
    (s.setWorker w x).workers w = x := by
  simp [State.setWorker]

theorem setWorker_workers_ne (s : State ι) (x : Worker) {w' : ι} (h : w' ≠ w) :
    (s.setWorker w x).workers w' = s.workers w' := by
  simp [State.setWorker, h]

@[simp] theorem setWorker_fs (s : State ι) (w : ι) (x : Worker) :
    (s.setWorker w x).fs = s.fs := rfl

/-- The steps of a worker with what they require of the state. -/
inductive State.Work (J : Job) (s : State ι) (w : ι) : State ι → Prop
  | ask (hw : s.workers w = .idle) :
      Work J s w ((s.call (.select s.coord.now)).setWorker w (.asking s.coord.calls.length))
  | given (k : ℕ) (task : Task) (lenfiles : ℕ) (hw : s.workers w = .asking k)
      (hk : s.coord.calls[k]? = some (.allocated task lenfiles)) :
      Work J s w (s.setWorker w (State.start task lenfiles))
  | mapStart (task : Task) (content : String) (hw : s.workers w = .mapStart task)
      (hin : J.input task.filename = some content) :
      Work J s w (s.setWorker w
        (.mapCreate task (hashKeyID task.reduceNum (J.mapf task.filename content)) 0))
  | mapCreate (task : Task) (buckets : List (List KeyValue)) (i : ℕ)
      (hw : s.workers w = .mapCreate task buckets i) (hi : i < task.reduceNum) :
      Work J s w ({ s with fs := s.fs.createTemp .mapTmp }.setWorker w
        (.mapWrite task buckets i s.fs.next (buckets.getD i [])))
  | mapEnd (task : Task) (buckets : List (List KeyValue)) (i : ℕ)
      (hw : s.workers w = .mapCreate task buckets i) (hi : ¬ i < task.reduceNum) :
      Work J s w (s.setWorker w (.report task))
  | mapAppend (task : Task) (buckets : List (List KeyValue)) (i n : ℕ) (kv : KeyValue)
      (rest : List KeyValue) (hw : s.workers w = .mapWrite task buckets i n (kv :: rest)) :
      Work J s w ({ s with fs := s.fs.append n (.kv kv) }.setWorker w
        (.mapWrite task buckets i n rest))
  | mapRename (task : Task) (buckets : List (List KeyValue)) (i n : ℕ) (fs : Files)
      (hw : s.workers w = .mapWrite task buckets i n [])
      (hfs : s.fs.rename (.mapTmp n) (.inter task.taskid i) = some fs) :
      Work J s w ({ s with fs := fs }.setWorker w (.mapCreate task buckets (i + 1)))
  | reduceOpen (task : Task) (lenfiles i n : ℕ) (acc : List KeyValue)
      (hw : s.workers w = .reduceOpen task lenfiles i acc) (hi : i < lenfiles)
      (hn : s.fs.dir (.inter i task.taskid) = some n) :
      Work J s w (s.setWorker w (.reduceRead task lenfiles i n 0 acc))
  | cannotOpen (task : Task) (lenfiles i : ℕ) (acc : List KeyValue)
      (hw : s.workers w = .reduceOpen task lenfiles i acc) (hi : i < lenfiles)
      (hn : s.fs.dir (.inter i task.taskid) = none) :
      Work J s w (s.setWorker w (.cannotOpen (.inter i task.taskid)))
  | reduceEnd (task : Task) (lenfiles i : ℕ) (acc : List KeyValue)
      (hw : s.workers w = .reduceOpen task lenfiles i acc) (hi : ¬ i < lenfiles) :
      Work J s w (s.setWorker w (.reduceSort task acc))
  | reduceRead (task : Task) (lenfiles i n pos : ℕ) (acc : List KeyValue) (kv : KeyValue)
      (hw : s.workers w = .reduceRead task lenfiles i n pos acc)
      (hkv : (s.fs.data n)[pos]? = some (.kv kv)) :
      Work J s w (s.setWorker w (.reduceRead task lenfiles i n (pos + 1) (acc ++ [kv])))
  | reduceClose (task : Task) (lenfiles i n pos : ℕ) (acc : List KeyValue)
      (hw : s.workers w = .reduceRead task lenfiles i n pos acc)
      (hkv : ∀ kv, (s.fs.data n)[pos]? ≠ some (.kv kv)) :
      Work J s w (s.setWorker w (.reduceOpen task lenfiles (i + 1) acc))
  | sort (task : Task) (acc l : List KeyValue) (hw : s.workers w = .reduceSort task acc)
      (hp : l.Perm acc) (hs : Grouping.Sorted KeyValue.key l) :
      Work J s w ({ s with fs := s.fs.createTemp .outTmp }.setWorker w
        (.reduceWrite task s.fs.next l))
  | reduceAppend (task : Task) (n : ℕ) (kv : KeyValue) (rest : List KeyValue)
      (hw : s.workers w = .reduceWrite task n (kv :: rest)) :
      Work J s w ({ s with
          fs := s.fs.append n (.line (groupLine J.reducef kv rest).text) }.setWorker w
        (.reduceWrite task n (rest.dropWhile fun x => x.key = kv.key)))
  | reduceRename (task : Task) (n : ℕ) (fs : Files) (hw : s.workers w = .reduceWrite task n [])
      (hfs : s.fs.rename (.outTmp n) (.out task.taskid) = some fs) :
      Work J s w ({ s with fs := fs }.setWorker w (.report task))
  | report (task : Task) (hw : s.workers w = .report task) :
      Work J s w ((s.call (.mark task.taskid task.taskType)).setWorker w
        (.reporting s.coord.calls.length))
  | reported (k : ℕ) (hw : s.workers w = .reporting k) (hk : s.coord.calls[k]? = some .marked) :
      Work J s w (s.setWorker w .idle)
  | stop : Work J s w (s.setWorker w .crashed)

theorem State.Work.of_workStep (h : s.workStep J w = some t) : State.Work J s w t := by
  cases hw : s.workers w with
  | idle =>
    simp only [State.workStep, hw, Option.some.injEq] at h
    exact h ▸ .ask hw
  | asking k =>
    simp only [State.workStep, hw] at h
    split at h
    next task lenfiles hk => exact Option.some.inj h ▸ .given k task lenfiles hw hk
    next => cases h
  | mapStart task =>
    simp only [State.workStep, hw] at h
    split at h
    next content hin => exact Option.some.inj h ▸ .mapStart task content hw hin
    next => exact Option.some.inj h ▸ .stop
  | mapCreate task buckets i =>
    simp only [State.workStep, hw] at h
    split at h
    next hi => exact Option.some.inj h ▸ .mapCreate task buckets i hw hi
    next hi => exact Option.some.inj h ▸ .mapEnd task buckets i hw hi
  | mapWrite task buckets i n rest =>
    cases rest with
    | cons kv rest =>
      simp only [State.workStep, hw, Option.some.injEq] at h
      exact h ▸ .mapAppend task buckets i n kv rest hw
    | nil =>
      simp only [State.workStep, hw] at h
      split at h
      next fs hfs => exact Option.some.inj h ▸ .mapRename task buckets i n fs hw hfs
      next => exact Option.some.inj h ▸ .stop
  | reduceOpen task lenfiles i acc =>
    simp only [State.workStep, hw] at h
    split at h
    next hi =>
      split at h
      next n hn => exact Option.some.inj h ▸ .reduceOpen task lenfiles i n acc hw hi hn
      next hn => exact Option.some.inj h ▸ .cannotOpen task lenfiles i acc hw hi hn
    next hi => exact Option.some.inj h ▸ .reduceEnd task lenfiles i acc hw hi
  | reduceRead task lenfiles i n pos acc =>
    simp only [State.workStep, hw] at h
    split at h
    next kv hkv => exact Option.some.inj h ▸ .reduceRead task lenfiles i n pos acc kv hw hkv
    next hkv => exact Option.some.inj h ▸ .reduceClose task lenfiles i n pos acc hw hkv
  | reduceSort task acc => simp [State.workStep, hw] at h
  | reduceWrite task n rest =>
    cases rest with
    | cons kv rest =>
      simp only [State.workStep, hw, Option.some.injEq] at h
      exact h ▸ .reduceAppend task n kv rest hw
    | nil =>
      simp only [State.workStep, hw] at h
      split at h
      next fs hfs => exact Option.some.inj h ▸ .reduceRename task n fs hw hfs
      next => exact Option.some.inj h ▸ .stop
  | report task =>
    simp only [State.workStep, hw, Option.some.injEq] at h
    exact h ▸ .report task hw
  | reporting k =>
    simp only [State.workStep, hw] at h
    split at h
    next hk => exact Option.some.inj h ▸ .reported k hw hk
    next => cases h
  | exited => simp [State.workStep, hw] at h
  | cannotOpen name => simp [State.workStep, hw] at h
  | crashed => simp [State.workStep, hw] at h

/-- A step of a job is a step of the coordinator or of one worker. -/
theorem State.step_cases (h : s.step J e = some t) :
    (∃ a p, e = .coord a ∧ s.coord.step J.toConfig a = some p ∧ t = { s with coord := p }) ∨
    ∃ w, State.Work J s w t := by
  cases e with
  | coord a =>
    obtain ⟨p, hp, rfl⟩ := Option.map_eq_some_iff.mp h
    exact .inl ⟨a, p, rfl, hp, rfl⟩
  | work w => exact .inr ⟨w, .of_workStep h⟩
  | sort w l =>
    refine .inr ⟨w, ?_⟩
    simp only [State.step, State.sortStep] at h
    split at h
    next task acc hw =>
      simp only [Option.ite_none_right_eq_some, Option.some.injEq] at h
      exact h.2 ▸ .sort task acc l hw h.1.1 h.1.2
    next => cases h
  | crash w => exact .inr ⟨w, Option.some.inj h ▸ .stop⟩

end MR
