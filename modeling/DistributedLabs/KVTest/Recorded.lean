import DistributedLabs.KVTest.OpLog

/-! What the log of a test says about the history of the service: each entry is that of one
operation, and its clock reads enclose the operation. -/
namespace KVTest
open KVSrv Models Runs
variable {ι : Type*}

/-- The operation `i` was called after the clock read `start`. -/
def Began (s : Tested ι) (i : ℕ) (req : Request) (start : ℤ) : Prop :=
  ∃ (o : KVSrv.Operation) (x : ℤ), s.kv.ops[i]? = some o ∧ o.input = req ∧
    s.times[o.call]? = some x ∧ start ≤ x

/-- The operation `i` returned before the clock read `stop`. -/
def Ended (s : Tested ι) (i : ℕ) (out : Reply) (stop : ℤ) : Prop :=
  ∃ (o : KVSrv.Operation) (τ : ℕ) (y : ℤ), s.kv.ops[i]? = some o ∧ o.ret = some (τ, out) ∧
    s.times[τ]? = some y ∧ y ≤ stop

/-- What is true of a client in each of its phases. -/
def InPhase (s : Tested ι) (c : ι) : Phase → Prop
  | .idle => True
  | .started start _ => start ≤ s.clock
  | .calling start req i =>
      (∃ b, (s.kv.clerks c).current = some (i, req, b)) ∧ Began s i req start
  | .returned start req out i => Began s i req start ∧ Ended s i out s.clock
  | .stopped start stop req out i => Began s i req start ∧ Ended s i out stop

/-- The entry of the operation `i`. -/
def IsEntry (s : Tested ι) (i : ℕ) (a : Models.Operation) : Prop :=
  ∃ req out, a.input = logInput req ∧ a.output = logOutput out ∧
    Began s i req a.call ∧ Ended s i out a.ret

/-- Each of the first `n` operations is logged or in the hands of one client. -/
structure Assigned (op : ι → Option ℕ) (logged : List ℕ) (n : ℕ) : Prop where
  once : logged.Nodup
  lt : ∀ i ∈ logged, i < n
  op_lt : ∀ c i, op c = some i → i < n
  owner : ∀ c d i, op c = some i → op d = some i → c = d
  fresh : ∀ c i, op c = some i → i ∉ logged
  all : ∀ i < n, i ∈ logged ∨ ∃ c, op c = some i

/-- The clock was read at each step of the service, and it has not gone back. -/
structure Timed (s : Tested ι) : Prop where
  length : s.times.length = s.kv.now
  sorted : s.times.Pairwise (· ≤ ·)
  le : ∀ x ∈ s.times, x ≤ s.clock

/-- The log and the clients fit the history of the service. -/
structure Recorded (s : Tested ι) : Prop where
  timed : Timed s
  phase : ∀ c, InPhase s c (s.phase c)
  entry : ∀ x ∈ s.entries, IsEntry s x.1 x.2
  assigned : Assigned (fun c => (s.phase c).op) (s.entries.map Prod.fst) s.kv.ops.length

theorem recorded_init : Recorded (Tested.init ι) where
  timed := ⟨rfl, List.Pairwise.nil, by simp [Tested.init]⟩
  phase := fun _ => trivial
  entry := by simp [Tested.init]
  assigned := by constructor <;> simp [Tested.init, Service.init, Phase.op]

variable {s t : Tested ι}

/-- What a step leaves true of the operations: they stay as they are, and the clock goes on. -/
structure Later (s t : Tested ι) : Prop where
  clock : s.clock ≤ t.clock
  times : s.times <+: t.times
  ops : ∀ (i : ℕ) (o : KVSrv.Operation), s.kv.ops[i]? = some o →
    ∃ o' : KVSrv.Operation, t.kv.ops[i]? = some o' ∧ o'.input = o.input ∧ o'.call = o.call ∧
      (o.ret.isSome → o'.ret = o.ret)

theorem getElem?_of_prefix {α : Type*} {l m : List α} (h : l <+: m) {i : ℕ} {x : α}
    (hi : l[i]? = some x) : m[i]? = some x := by
  obtain ⟨rest, rfl⟩ := h
  exact List.getElem?_append_left (List.getElem?_eq_some_iff.mp hi).1 ▸ hi

theorem Later.began (h : Later s t) {i : ℕ} {req : Request} {start : ℤ}
    (hb : Began s i req start) : Began t i req start := by
  obtain ⟨o, x, ho, hin, hx, hle⟩ := hb
  obtain ⟨o', ho', hin', hcall, -⟩ := h.ops i o ho
  refine ⟨o', x, ho', hin'.trans hin, ?_, hle⟩
  rw [hcall]
  exact getElem?_of_prefix h.times hx

theorem Later.ended (h : Later s t) {i : ℕ} {out : Reply} {stop stop' : ℤ}
    (he : Ended s i out stop) (hle : stop ≤ stop') : Ended t i out stop' := by
  obtain ⟨o, τ, y, ho, hret, hy, hyle⟩ := he
  obtain ⟨o', ho', -, -, hret'⟩ := h.ops i o ho
  refine ⟨o', τ, y, ho', ?_, getElem?_of_prefix h.times hy, hyle.trans hle⟩
  rw [hret' (by rw [hret]; rfl), hret]

theorem later_same (hclock : s.clock ≤ t.clock) (htimes : t.times = s.times) (hkv : t.kv = s.kv) :
    Later s t where
  clock := hclock
  times := by rw [htimes]
  ops := by
    intro i o ho
    exact ⟨o, by rw [hkv]; exact ho, rfl, rfl, fun _ => rfl⟩

theorem Later.entry (h : Later s t) {i : ℕ} {a : Models.Operation} (ha : IsEntry s i a) :
    IsEntry t i a := by
  obtain ⟨req, out, hin, hout, hb, he⟩ := ha
  exact ⟨req, out, hin, hout, h.began hb, h.ended he le_rfl⟩

/-- A client that does not move stays in its phase. -/
theorem Later.phase (h : Later s t) {c : ι} {p : Phase}
    (hclerk : ∀ i req b, (s.kv.clerks c).current = some (i, req, b) →
      ∃ b', (t.kv.clerks c).current = some (i, req, b')) (hp : InPhase s c p) : InPhase t c p := by
  cases p with
  | idle => trivial
  | started start req => exact le_trans hp h.clock
  | calling start req i =>
    obtain ⟨⟨b, hb⟩, hbegan⟩ := hp
    exact ⟨hclerk i req b hb, h.began hbegan⟩
  | returned start req out i => exact ⟨h.began hp.1, h.ended hp.2 h.clock⟩
  | stopped start stop req out i => exact ⟨h.began hp.1, h.ended hp.2 le_rfl⟩

theorem Timed.same (h : Timed s) (hclock : s.clock ≤ t.clock) (htimes : t.times = s.times)
    (hkv : t.kv = s.kv) : Timed t where
  length := by rw [htimes, hkv, h.length]
  sorted := by
    rw [htimes]
    exact h.sorted
  le := by
    rw [htimes]
    exact fun x hx => (h.le x hx).trans hclock

theorem Timed.now (h : Timed s) (kv : Service ι) :
    (s.serve kv).times[s.kv.now]? = some s.clock := by
  rw [← h.length]
  exact List.getElem?_concat_length

variable [DecidableEq ι]

section Assigned
variable {op : ι → Option ℕ} {logged : List ℕ} {n : ℕ} {c : ι}

theorem Assigned.call (h : Assigned op logged n) (hc : op c = none) :
    Assigned (Function.update op c (some n)) logged (n + 1) where
  once := h.once
  lt := fun i hi => (h.lt i hi).trans (Nat.lt_succ_self n)
  op_lt := by
    intro d i hd
    by_cases hdc : d = c
    · rw [hdc, Function.update_self, Option.some.injEq] at hd
      omega
    · rw [Function.update_of_ne hdc] at hd
      exact (h.op_lt d i hd).trans (Nat.lt_succ_self n)
  owner := by
    intro d d' i hd hd'
    have hold : ∀ x, x ≠ c → Function.update op c (some n) x = some i → i < n := by
      intro x hx hi
      rw [Function.update_of_ne hx] at hi
      exact h.op_lt x i hi
    have hnew : ∀ x, x = c → Function.update op c (some n) x = some i → i = n := by
      intro x hx hi
      rw [hx, Function.update_self, Option.some.injEq] at hi
      exact hi.symm
    by_cases hdc : d = c
    · by_cases hdc' : d' = c
      · rw [hdc, hdc']
      · have hlt := hold d' hdc' hd'
        have heq := hnew d hdc hd
        omega
    · by_cases hdc' : d' = c
      · have hlt := hold d hdc hd
        have heq := hnew d' hdc' hd'
        omega
      · rw [Function.update_of_ne hdc] at hd
        rw [Function.update_of_ne hdc'] at hd'
        exact h.owner d d' i hd hd'
  fresh := by
    intro d i hd hmem
    by_cases hdc : d = c
    · rw [hdc, Function.update_self, Option.some.injEq] at hd
      have hlt := h.lt i hmem
      omega
    · rw [Function.update_of_ne hdc] at hd
      exact h.fresh d i hd hmem
  all := by
    intro i hi
    rcases Nat.lt_succ_iff_lt_or_eq.mp hi with hlt | rfl
    · rcases h.all i hlt with hmem | ⟨d, hd⟩
      · exact .inl hmem
      · have hdc : d ≠ c := by
          rintro rfl
          rw [hc] at hd
          cases hd
        exact .inr ⟨d, by rwa [Function.update_of_ne hdc]⟩
    · exact .inr ⟨c, Function.update_self ..⟩

theorem Assigned.append (h : Assigned op logged n) {i : ℕ} (hc : op c = some i) :
    Assigned (Function.update op c none) (logged ++ [i]) n := by
  have hkeep : ∀ d j, Function.update op c none d = some j → d ≠ c ∧ op d = some j := by
    intro d j hd
    have hdc : d ≠ c := by
      rintro rfl
      rw [Function.update_self] at hd
      cases hd
    rw [Function.update_of_ne hdc] at hd
    exact ⟨hdc, hd⟩
  constructor
  · rw [List.nodup_append]
    refine ⟨h.once, List.nodup_singleton i, ?_⟩
    intro j hj k hk hjk
    rw [List.mem_singleton.mp hk] at hjk
    exact h.fresh c i hc (hjk ▸ hj)
  · rw [List.forall_mem_append, List.forall_mem_singleton]
    exact ⟨h.lt, h.op_lt c i hc⟩
  · exact fun d j hd => h.op_lt d j (hkeep d j hd).2
  · exact fun d d' j hd hd' => h.owner d d' j (hkeep d j hd).2 (hkeep d' j hd').2
  · intro d j hd hmem
    obtain ⟨hdc, hd⟩ := hkeep d j hd
    rcases List.mem_append.mp hmem with hmem | hmem
    · exact h.fresh d j hd hmem
    · rw [List.mem_singleton.mp hmem] at hd
      exact hdc (h.owner d c i hd hc)
  · intro j hj
    rw [List.mem_append, List.mem_singleton]
    rcases h.all j hj with hmem | ⟨d, hd⟩
    · exact .inl (.inl hmem)
    · by_cases hdc : d = c
      · rw [hdc, hc, Option.some.injEq] at hd
        exact .inl (.inr hd.symm)
      · exact .inr ⟨d, by rwa [Function.update_of_ne hdc]⟩

end Assigned

/-- A step of the service lets no operation return that has returned. -/
theorem later_serve (hc : ClerkFacts s.kv) {e : KVSrv.Event ι} {kv : Service ι}
    (h : Service.Step s.kv e kv) (hclock : t.clock = s.clock)
    (htimes : t.times = s.times ++ [s.clock]) (hkv : t.kv = kv) : Later s t where
  clock := hclock.ge
  times := by
    rw [htimes]
    exact List.prefix_append _ _
  ops := by
    intro i o ho
    obtain ⟨o', ho', hin, hcall, hret | ⟨c, req, b, k, -, hw⟩⟩ := h.ops_mono ho
    · exact ⟨o', by rw [hkv]; exact ho', hin, hcall, fun _ => hret⟩
    · obtain ⟨o₁, ho₁, -, hnone⟩ := hc.current c i req b (by rw [hw]; rfl)
      obtain rfl := Option.some.inj (ho₁.symm.trans ho)
      refine ⟨o', by rw [hkv]; exact ho', hin, hcall, ?_⟩
      rw [hnone]
      intro hsome
      cases hsome

theorem Timed.serve (h : Timed s) {e : KVSrv.Event ι} {kv : Service ι}
    (hs : Service.Step s.kv e kv) : Timed (s.serve kv) where
  length := by
    have hnow := hs.now
    simp only [Tested.serve, List.length_append, h.length, List.length_singleton, hnow]
  sorted := by
    simp only [Tested.serve, List.pairwise_append, List.pairwise_singleton, List.mem_singleton]
    refine ⟨h.sorted, trivial, ?_⟩
    rintro x hx y rfl
    exact h.le x hx
  le := by
    simp only [Tested.serve, List.forall_mem_append, List.forall_mem_singleton]
    exact ⟨h.le, le_rfl⟩

theorem inPhase_update {f : ι → Phase} {c : ι} {p : Phase} (hp : InPhase t c p)
    (hother : ∀ d ≠ c, InPhase t d (f d)) (d : ι) : InPhase t d (Function.update f c p d) := by
  by_cases hdc : d = c
  · subst hdc
    rwa [Function.update_self]
  · rw [Function.update_of_ne hdc]
    exact hother d hdc

theorem op_update (f : ι → Phase) (c : ι) (p : Phase) :
    (fun d => (Function.update f c p d).op) = Function.update (fun d => (f d).op) c p.op := by
  funext d
  by_cases hdc : d = c
  · subst hdc
    rw [Function.update_self, Function.update_self]
  · rw [Function.update_of_ne hdc, Function.update_of_ne hdc]

/-- A client that moves on with the operation it has. -/
theorem op_update_same (f : ι → Phase) (c : ι) (p : Phase) (h : p.op = (f c).op) :
    (fun d => (Function.update f c p d).op) = fun d => (f d).op := by
  rw [op_update, h, Function.update_eq_self c fun d => (f d).op]

/-- The clerks of the other clients stay in their operations. -/
theorem current_of_ne {e : KVSrv.Event ι} {kv : Service ι} (h : Service.Step s.kv e kv) {d : ι}
    (he : e ≠ .deliver d) (i : ℕ) (req : Request) (b : Bool)
    (hd : (s.kv.clerks d).current = some (i, req, b)) :
    ∃ b', (kv.clerks d).current = some (i, req, b') := h.current_mono he hd

theorem length_ops {e : KVSrv.Event ι} {kv : Service ι} (h : Service.Step s.kv e kv)
    (he : ∀ c req, e ≠ .invoke c req) : kv.ops.length = s.kv.ops.length := by
  cases h with
  | invoke c req => exact absurd rfl (he c req)
  | deliver => simp
  | send | exec | fail => rfl

variable {cli : ι → ℤ} {e : TestEvent ι} {es : List (TestEvent ι)}

theorem recorded_call (hc : ClerkFacts s.kv) (hr : Recorded s) {c : ι} {start : ℤ} {req : Request}
    {kv : Service ι} (hp : s.phase c = .started start req)
    (hkv : Service.Step s.kv (.invoke c req) kv) :
    Recorded ((s.serve kv).setPhase c (.calling start req s.kv.ops.length)) := by
  have hlater : Later s ((s.serve kv).setPhase c (.calling start req s.kv.ops.length)) :=
    later_serve hc hkv rfl rfl rfl
  have htimed := (hr.timed.serve hkv).same
    (t := (s.serve kv).setPhase c (.calling start req s.kv.ops.length)) le_rfl rfl rfl
  have hnow := hr.timed.now kv
  have hstart : start ≤ s.clock := by
    have hin := hr.phase c
    rw [hp] at hin
    exact hin
  cases hkv with
  | invoke _ _ hidle =>
    have hops : (s.kv.ops ++ [(⟨req, s.kv.now, none⟩ : KVSrv.Operation)])[s.kv.ops.length]? =
        some ⟨req, s.kv.now, none⟩ := List.getElem?_concat_length
    refine ⟨htimed, inPhase_update ⟨⟨true, ?_⟩, ⟨_, _, hops, rfl, hnow, hstart⟩⟩ ?_, ?_, ?_⟩
    · show ((Function.update s.kv.clerks c (.ready s.kv.ops.length req true)) c).current = _
      rw [Function.update_self]
      rfl
    · intro d hdc
      refine hlater.phase ?_ (hr.phase d)
      exact current_of_ne (.invoke c req hidle) (by simp)
    · exact fun x hx => hlater.entry (hr.entry x hx)
    · have hnone : (s.phase c).op = none := by rw [hp]; rfl
      have hacc := hr.assigned.call hnone
      show Assigned (fun d => (Function.update s.phase c _ d).op) _ (s.kv.ops ++ [_]).length
      rw [op_update, List.length_append]
      exact hacc

theorem recorded_deliver (hc : ClerkFacts s.kv) (hr : Recorded s) {c : ι} {start : ℤ}
    {req : Request} {i : ℕ} {out : Reply} {kv : Service ι} (hp : s.phase c = .calling start req i)
    (hout : s.kv.result? c = some out) (hkv : Service.Step s.kv (.deliver c) kv) :
    Recorded ((s.serve kv).setPhase c (.returned start req out i)) := by
  have hlater : Later s ((s.serve kv).setPhase c (.returned start req out i)) :=
    later_serve hc hkv rfl rfl rfl
  have htimed := (hr.timed.serve hkv).same
    (t := (s.serve kv).setPhase c (.returned start req out i)) le_rfl rfl rfl
  have hnow := hr.timed.now kv
  have hlen := length_ops hkv (by simp)
  obtain ⟨⟨b, hcur⟩, hbegan⟩ : InPhase s c (.calling start req i) := by
    rw [← hp]
    exact hr.phase c
  refine ⟨htimed, inPhase_update ⟨hlater.began hbegan, ?_⟩ ?_, ?_, ?_⟩
  · obtain ⟨o, ho, -, -⟩ := hc.current c i req b hcur
    cases hkv with
    | deliver _ i' req' b' k reply hw hreply =>
      rw [hw] at hcur
      cases hcur
      rw [Service.result?, hw] at hout
      simp only [hreply, Option.map_some, Option.some.injEq] at hout
      subst hout
      refine ⟨{ o with ret := some (s.kv.now, clerkResult b reply) }, s.kv.now, s.clock, ?_, rfl,
        hnow, le_rfl⟩
      show (s.kv.ops.modify i _)[i]? = _
      rw [List.getElem?_modify, ho]
      simp
  · intro d hdc
    refine hlater.phase ?_ (hr.phase d)
    exact current_of_ne hkv (by simpa using Ne.symm hdc)
  · exact fun x hx => hlater.entry (hr.entry x hx)
  · have hsame : (Phase.returned start req out i).op = (s.phase c).op := by rw [hp]; rfl
    show Assigned (fun d => (Function.update s.phase c _ d).op) _ kv.ops.length
    rw [op_update_same _ _ _ hsame, hlen]
    exact hr.assigned

/-- The event does not set the clock back. -/
def Tested.forward (s : Tested ι) : TestEvent ι → Bool
  | .clock now => s.clock ≤ now
  | _ => true

theorem recorded_step (hc : ClerkFacts s.kv) (hr : Recorded s) (hfwd : s.forward e = true)
    (h : Tested.Step cli s e t) : Recorded t := by
  have hstay : ∀ {u : Tested ι}, s.clock ≤ u.clock → u.times = s.times → u.kv = s.kv → ∀ d,
      InPhase u d (s.phase d) := by
    intro u hclock htimes hkv d
    refine (later_same hclock htimes hkv).phase ?_ (hr.phase d)
    intro i req b hb
    exact ⟨b, by rw [hkv]; exact hb⟩
  cases h with
  | clock now =>
    have hclock : s.clock ≤ now := of_decide_eq_true hfwd
    have hlater : Later s { s with clock := now } := later_same hclock rfl rfl
    exact ⟨hr.timed.same hclock rfl rfl, hstay hclock rfl rfl,
      fun x hx => hlater.entry (hr.entry x hx), hr.assigned⟩
  | start c req hp =>
    refine ⟨hr.timed.same le_rfl rfl rfl, inPhase_update le_rfl fun d _ => hstay le_rfl rfl rfl d,
      fun x hx => (later_same le_rfl rfl rfl).entry (hr.entry x hx), ?_⟩
    show Assigned (fun d => (Function.update s.phase c _ d).op) _ s.kv.ops.length
    rw [op_update_same _ _ _ (by rw [hp]; rfl)]
    exact hr.assigned
  | call c start req kv hp hkv => exact recorded_call hc hr hp hkv
  | net e kv hinvoke hdeliver hkv =>
    have hlater : Later s (s.serve kv) := later_serve hc hkv rfl rfl rfl
    refine ⟨hr.timed.serve hkv, ?_, fun x hx => hlater.entry (hr.entry x hx), ?_⟩
    · intro d
      exact hlater.phase (current_of_ne hkv (hdeliver d)) (hr.phase d)
    · show Assigned (fun d => (s.phase d).op) _ kv.ops.length
      rw [length_ops hkv hinvoke]
      exact hr.assigned
  | deliver c start req i out kv hp hout hkv => exact recorded_deliver hc hr hp hout hkv
  | stop c start req out i hp =>
    have hin : InPhase s c (.returned start req out i) := by
      rw [← hp]
      exact hr.phase c
    have hlater : Later s (s.setPhase c (.stopped start s.clock req out i)) :=
      later_same le_rfl rfl rfl
    refine ⟨hr.timed.same le_rfl rfl rfl, inPhase_update ⟨hlater.began hin.1,
      hlater.ended hin.2 le_rfl⟩ fun d _ => hstay le_rfl rfl rfl d,
      fun x hx => hlater.entry (hr.entry x hx), ?_⟩
    show Assigned (fun d => (Function.update s.phase c _ d).op) _ s.kv.ops.length
    rw [op_update_same _ _ _ (by rw [hp]; rfl)]
    exact hr.assigned
  | append c start stop req out i hp =>
    have hin : InPhase s c (.stopped start stop req out i) := by
      rw [← hp]
      exact hr.phase c
    refine ⟨hr.timed.same le_rfl rfl rfl, inPhase_update trivial fun d _ => hstay le_rfl rfl rfl d,
      ?_, ?_⟩
    · show ∀ x ∈ s.entries ++ [_], _
      rw [List.forall_mem_append, List.forall_mem_singleton]
      constructor
      · intro x hx
        exact (later_same le_rfl rfl rfl).entry (hr.entry x hx)
      · exact ⟨req, out, rfl, rfl, (later_same le_rfl rfl rfl).began hin.1,
          (later_same le_rfl rfl rfl).ended hin.2 le_rfl⟩
    · have hop : (s.phase c).op = some i := by rw [hp]; rfl
      show Assigned (fun d => (Function.update s.phase c _ d).op) ((s.entries ++ [_]).map Prod.fst)
        s.kv.ops.length
      rw [op_update, List.map_append]
      exact hr.assigned.append hop

end KVTest
