import DistributedLabs.KVSrv.Attempts

/-! The service is linearizable when no handler runs after its call has returned: an applied
`Put` takes effect at the handler run that applied it, any other operation at the run whose
reply it returned. -/
namespace KVSrv
open Runs Linearizability

/-- The sequential map from keys to values with versions. -/
abbrev Store := String → Option (String × ℕ)

/-- The effect of one operation on the map, if it may answer `out` there. A `Put` that
answers `ErrMaybe` has the effect of a success or of a version mismatch. -/
def storeStep (m : Store) (req : Request) (out : Reply) : Option Store :=
  match req, out with
  | .get args, .get reply =>
      match m args.key with
      | some (value, n) =>
          if reply.value = value ∧ reply.version.toNat = n ∧ reply.err = .ok then some m else none
      | none => if reply = { value := "", version := 0, err := .errNoKey } then some m else none
  | .put args, .put reply =>
      match m args.key with
      | some (_, n) =>
          if args.version.toNat = n then
            if reply.err = .ok ∨ reply.err = .errMaybe then
              some (Function.update m args.key (some (args.value, n + 1)))
            else none
          else if reply.err = .errVersion ∨ reply.err = .errMaybe then some m else none
      | none =>
          if args.version = 0 then
            if reply.err = .ok ∨ reply.err = .errMaybe then
              some (Function.update m args.key (some (args.value, 1)))
            else none
          else if reply.err = .errNoKey then some m else none
  | _, _ => none

def store : Spec Store Request Reply where
  init := fun _ => none
  step := storeStep

/-- The map that a server represents. -/
def KVServer.store (s : KVServer) : Store :=
  fun x => (s.kv x).map fun value => (value, ((s.versionMap x).getD 0).toNat)

theorem KVServer.install_store (s : KVServer) (args : PutArgs) :
    (s.install args).store =
      Function.update s.store args.key (some (args.value, (args.version + 1).toNat)) := by
  funext x
  by_cases hx : x = args.key
  · subst hx
    simp [KVServer.store]
  · simp [KVServer.store, install_kv_of_ne s args hx, install_versionMap_of_ne s args hx, hx]

/-- The outputs that an operation may have when it takes effect at a handler run with the
given reply. -/
inductive Explains : Reply → Reply → Prop
  | get (reply : GetReply) : Explains (.get reply) (.get (clerkGet reply))
  | same (reply : PutReply) : Explains (.put reply) (.put reply)
  | applied : Explains (.put ⟨.ok⟩) (.put ⟨.errMaybe⟩)
  | mismatch : Explains (.put ⟨.errVersion⟩) (.put ⟨.errMaybe⟩)

theorem explains_clerkResult (b : Bool) (reply : Reply) :
    Explains reply (clerkResult b reply) := by
  cases reply with
  | get reply => exact .get reply
  | put reply =>
    obtain ⟨err⟩ := reply
    cases err with
    | errVersion =>
      cases b with
      | true => exact .same _
      | false => exact .mismatch
    | ok | errNoKey | errMaybe => exact .same _

theorem storeStep_get (s : KVServer) (args : GetArgs) :
    storeStep s.store (.get args) (.get (clerkGet (s.get args))) = some s.store := by
  cases hkv : s.kv args.key with
  | none => simp [storeStep, KVServer.store, KVServer.get, clerkGet, hkv]
  | some value => simp [storeStep, KVServer.store, KVServer.get, clerkGet, hkv]

theorem storeStep_put {s : KVServer} {n : ℕ} (args : PutArgs) (out : Reply)
    (hc : Counts s args.key n) (hn : (s.put args).2.err = .ok → n + 1 < 2 ^ 64)
    (hout : Explains (.put (s.put args).2) out) :
    storeStep s.store (.put args) out = some (s.put args).1.store := by
  have hstore : s.store args.key = (s.kv args.key).map fun value => (value, n) := by
    rw [KVServer.store, hc.toNat_eq]
  rcases s.put_cases args with ⟨hm, h⟩ | ⟨hm, hver, h⟩ | ⟨hm, hver, h⟩
  · have hnat : args.version.toNat = n := by rw [hm, hc.toNat_eq]
    rw [h] at hn hout ⊢
    rw [KVServer.install_store, toNat_add_one hnat (hn rfl)]
    cases hkv : s.kv args.key with
    | none =>
      have hn0 : n = 0 := by simpa [hkv] using hc.kv_iff
      have hv0 : args.version = 0 := by
        rw [← UInt64.toNat_inj, hnat, hn0]
        rfl
      cases hout <;> simp [storeStep, hstore, hkv, hv0, hn0]
    | some value => cases hout <;> simp [storeStep, hstore, hkv, hnat]
  · have hn0 : n = 0 := by simpa [hver] using hc.version_iff
    have hkv : s.kv args.key = none := by simpa [hn0] using hc.kv_iff
    have hv0 : args.version ≠ 0 := by simpa [KVServer.Matches, hver] using hm
    rw [h] at hout ⊢
    cases hout
    simp [storeStep, hstore, hkv, hv0]
  · have hpos : 0 < n := hc.version_iff.mp hver
    obtain ⟨value, hkv⟩ := Option.isSome_iff_exists.mp (hc.kv_iff.mpr hpos)
    have hnat : args.version.toNat ≠ n := by
      rw [← hc.toNat_eq, Ne, UInt64.toNat_inj]
      exact hm
    rw [h] at hout ⊢
    cases hout <;> simp [storeStep, hstore, hkv, hnat]

/-- A handler run and the sequential map agree. -/
theorem storeStep_handle {log : List Exec} {s : KVServer} (h : Replays log s) (r : Exec)
    (hr : r.reply = (s.handle r.req).2) (hb : ∀ x, version (log ++ [r]) x < 2 ^ 64) {out : Reply}
    (hout : Explains r.reply out) :
    storeStep s.store r.req out = some (s.handle r.req).1.store := by
  have hcounts : ∀ x, Counts s x (version log x) :=
    fun x => h.counts x ((version_le_append log [r] x).trans_lt (hb x))
  rw [hr] at hout
  cases hreq : r.req with
  | get args =>
    rw [hreq] at hout
    cases hout
    exact storeStep_get s args
  | put args =>
    rw [hreq] at hout hr
    refine storeStep_put args out (hcounts args.key) ?_ hout
    intro hok
    have happ : r.appliedTo args.key = true :=
      (Exec.appliedTo_iff _ _).mpr ⟨args, hreq, rfl, by rw [hr, ← hok]; rfl⟩
    exact version_snoc_of_applied happ ▸ hb args.key

/-- Leaving out runs that applied nothing, the log is a run of the sequential map. -/
theorem Replays.legal {log : List Exec} {s : KVServer} (h : Replays log s)
    (keep : Exec → Bool) (out : Exec → Reply) (hb : ∀ x, version log x < 2 ^ 64)
    (hkeep : ∀ r ∈ log, r.Applied → keep r = true)
    (hout : ∀ r ∈ log, keep r = true → Explains r.reply (out r)) :
    store.run store.init ((log.filter keep).map fun r => (r.req, out r)) = some s.store := by
  induction h with
  | nil => rfl
  | @snoc log s r h hr ih =>
    rw [List.forall_mem_append, List.forall_mem_singleton] at hkeep hout
    have hprev := ih (fun x => (version_le_append log [r] x).trans_lt (hb x)) hkeep.1 hout.1
    rw [List.filter_append, List.map_append, Spec.run_append, hprev]
    by_cases hk : keep r = true
    · have hstep := storeStep_handle h r hr hb (hout.2 hk)
      simp [hk, Spec.run, store, hstep]
    · have hna : ∀ x, ¬ r.appliedTo x = true := fun x hx => hk (hkeep.2 ⟨x, hx⟩)
      have hsame : (s.handle r.req).1.store = s.store := by
        funext x
        rcases handle_key s r x hr with ⟨_, -, -, happ, -⟩ | ⟨-, hkv, hver⟩
        · exact absurd happ (hna x)
        · simp only [KVServer.store, hkv, hver]
      simp [hk, Spec.run, hsame]

section OnTime
variable {ι : Type*} {s t : Service ι} {e : Event ι} {es : List (Event ι)}

/-- No handler runs for a call that has returned. -/
def Service.onTime (s : Service ι) : Event ι → Bool
  | .exec k => (s.attempts[k]?).all fun a =>
      match s.clerks a.clerk with
      | .waiting _ _ _ j => j = k
      | _ => false
  | _ => true

theorem waiting_of_onTime {k : ℕ} {a : Attempt ι} (h : s.onTime (.exec k) = true)
    (hk : s.attempts[k]? = some a) : ∃ i req b, s.clerks a.clerk = .waiting i req b k := by
  simp only [Service.onTime, hk, Option.all_some] at h
  split at h
  next i req b j hc =>
    obtain rfl : j = k := by simpa using h
    exact ⟨i, req, b, hc⟩
  next => simp at h

/-- What the log says about returned operations when handlers run on time. -/
structure OnTimeFacts (s : Service ι) : Prop where
  before_ret : ∀ r ∈ s.log, ∀ (o : Operation) τ out, s.ops[r.op]? = some o →
    o.ret = some (τ, out) → r.time < τ
  noKey_waiting : ∀ c i req b k, s.clerks c = .waiting i req b k →
    s.reply? k = some (.put ⟨.errNoKey⟩) → ∀ r ∈ s.log, r.op = i → ¬ r.Applied
  noKey_returned : ∀ (i : ℕ) (o : Operation) τ, s.ops[i]? = some o →
    o.ret = some (τ, .put ⟨.errNoKey⟩) → ∀ r ∈ s.log, r.op = i → ¬ r.Applied

theorem onTimeFacts_init : OnTimeFacts (Service.init ι) := by
  constructor <;> simp [Service.init]

/-- A handler that runs on time runs for an operation in progress, at its current attempt. -/
theorem exec_current (hc : ClerkFacts s) {k : ℕ} {a : Attempt ι}
    (ht : s.onTime (.exec k) = true) (hk : s.attempts[k]? = some a) :
    ∃ req b, s.clerks a.clerk = .waiting a.op req b k := by
  obtain ⟨i, req, b, hw⟩ := waiting_of_onTime ht hk
  have ha : a = ⟨a.clerk, i, req⟩ := Option.some.inj (hk.symm.trans (hc.waiting _ i req b k hw))
  obtain rfl : a.op = i := congrArg Attempt.op ha
  exact ⟨req, b, hw⟩

theorem not_returned_of_exec (hc : ClerkFacts s) {k : ℕ} {a : Attempt ι}
    (ht : s.onTime (.exec k) = true) (hk : s.attempts[k]? = some a) {o : Operation}
    (ho : s.ops[a.op]? = some o) : o.ret = none := by
  obtain ⟨req, b, hw⟩ := exec_current hc ht hk
  obtain ⟨o', ho', -, hnone⟩ := hc.current a.clerk a.op req b (by simp [hw])
  obtain rfl : o' = o := Option.some.inj (ho'.symm.trans ho)
  exact hnone

/-- When the handler answers `ErrNoKey`, no attempt of the operation has been applied. -/
theorem not_applied_of_errNoKey (hc : ClerkFacts s) (hl : LogFacts s) {k : ℕ} {a : Attempt ι}
    (hk : s.attempts[k]? = some a) (hr : (s.server.handle a.req).2 = .put ⟨.errNoKey⟩)
    {r : Exec} (hmem : r ∈ s.log) (hop : r.op = a.op) : ¬ r.Applied := by
  rintro ⟨x, hx⟩
  obtain ⟨args, hreq, rfl, -⟩ := (Exec.appliedTo_iff x r).mp hx
  obtain ⟨a', ha', hop', hreq'⟩ := hl.logged r hmem
  obtain ⟨o, ho, hin⟩ := hc.attempt a (List.mem_of_getElem? hk)
  obtain ⟨o', ho', hin'⟩ := hc.attempt a' (List.mem_of_getElem? ha')
  obtain rfl : o' = o := by
    rw [hop', hop] at ho'
    exact Option.some.inj (ho'.symm.trans ho)
  have hargs : a.req = .put args := by rw [← hin, hin', hreq', hreq]
  rw [hargs] at hr
  have hnone : s.server.versionMap args.key = none := by
    rcases s.server.put_cases args with ⟨-, h⟩ | ⟨-, hver, h⟩ | ⟨-, -, h⟩
    · simp [KVServer.handle, h] at hr
    · exact hver
    · simp [KVServer.handle, h] at hr
  exact version_eq_zero.mp ((hl.replays.versionMap_eq_none _).mp hnone) r hmem hx

theorem onTimeFacts_exec (hc : ClerkFacts s) (hl : LogFacts s) (hf : OnTimeFacts s) {k : ℕ}
    {a : Attempt ι} (ht : s.onTime (.exec k) = true) (hk : s.attempts[k]? = some a)
    (hr : s.reply? k = none) : OnTimeFacts (s.exec k a) where
  before_ret := by
    rw [Service.exec_log, List.forall_mem_append, List.forall_mem_singleton]
    refine ⟨hf.before_ret, ?_⟩
    intro o τ out ho hret
    rw [not_returned_of_exec hc ht hk ho] at hret
    cases hret
  noKey_waiting := by
    intro d i req' b' k' hd hr' r hmem hop
    rw [Service.exec_log, List.mem_append, List.mem_singleton] at hmem
    rw [Service.exec_clerks] at hd
    have hatt := hc.waiting d i req' b' k' hd
    rcases reply?_exec hr' with hold | ⟨rfl, hnoKey⟩
    · rcases hmem with hmem | rfl
      · exact hf.noKey_waiting d i req' b' k' hd hold r hmem hop
      · obtain ⟨req, b, hw⟩ := exec_current hc ht hk
        obtain rfl : a.op = i := hop
        obtain rfl := hc.owner d a.clerk a.op req' req b' b (by rw [hd]; rfl) (by rw [hw]; rfl)
        rw [hw] at hd
        cases hd
        rw [hr] at hold
        cases hold
    · obtain rfl := Option.some.inj (hatt.symm.trans hk)
      rcases hmem with hmem | rfl
      · exact not_applied_of_errNoKey hc hl hk hnoKey.symm hmem hop
      · rintro ⟨x, hx⟩
        obtain ⟨_, -, -, hok⟩ := (Exec.appliedTo_iff x _).mp hx
        rw [← hnoKey] at hok
        cases hok
  noKey_returned := by
    intro i o τ ho hret
    rw [Service.exec_log, List.forall_mem_append, List.forall_mem_singleton]
    refine ⟨hf.noKey_returned i o τ ho hret, ?_⟩
    rintro rfl
    rw [not_returned_of_exec hc ht hk ho] at hret
    cases hret

variable [DecidableEq ι]

theorem onTimeFacts_step (hc : ClerkFacts s) (hl : LogFacts s) (hf : OnTimeFacts s)
    (ht : s.onTime e = true) (h : Service.Step s e t) : OnTimeFacts t := by
  rcases h.log with ⟨hlog, -⟩ | ⟨k, a, rfl, -⟩
  · have hreply : ∀ k, t.reply? k = s.reply? k := by
      intro k
      rw [Service.reply?, hlog, Service.reply?]
    constructor
    · rw [hlog]
      intro r hmem o τ out ho hret
      rcases h.ops ho with
        ⟨_, -, -, -, hnone⟩ | ⟨o', ho', -, -, hret' | ⟨_, _, _, _, _, -, -, -, hnow⟩⟩
      · rw [hnone] at hret
        cases hret
      · exact hf.before_ret r hmem o' τ out ho' (hret' ▸ hret)
      · rw [hnow] at hret
        cases hret
        exact hl.time_lt r hmem
    · rw [hlog]
      intro d i req b k hd hr
      rw [hreply] at hr
      rcases h.waiting hd with hd' | ⟨-, -, rfl⟩
      · exact hf.noKey_waiting d i req b k hd' hr
      · rw [reply?_length hl] at hr
        cases hr
    · rw [hlog]
      intro i o τ ho hret
      rcases h.ops ho with ⟨_, -, -, -, hnone⟩ |
        ⟨o', ho', -, -, hret' | ⟨d, req, b, k, reply', -, hd, hk, hnow⟩⟩
      · rw [hnone] at hret
        cases hret
      · exact hf.noKey_returned i o' τ ho' (hret' ▸ hret)
      · rw [hnow] at hret
        have hreply := clerkResult_eq_errNoKey (congrArg Prod.snd (Option.some.inj hret))
        exact hf.noKey_waiting d i req b k hd (hreply ▸ hk)
  · cases h with
    | exec _ a hk hr => exact onTimeFacts_exec hc hl hf ht hk hr

theorem onTimeFacts (h : (system ι).Run es s)
    (ht : (system ι).Along es fun _ s e => s.onTime e = true) : OnTimeFacts s := by
  refine h.invariant (I := fun _ s => OnTimeFacts s) onTimeFacts_init ?_ ht
  intro es s e t hr hf ht hs
  obtain ⟨hc, hl, -⟩ := bookkeeping hr
  exact onTimeFacts_step hc hl hf ht (Service.step_iff.mp hs)

end OnTime

section Points
variable {ι : Type*} {s : Service ι}

/-- A returned `Put` with an applied attempt returned `OK` or `ErrMaybe`. -/
theorem explains_of_applied (hc : ClerkFacts s) (hl : LogFacts s) (ho : OpFacts s)
    (hf : OnTimeFacts s) {τ : ℕ} {o : Operation} {out : Reply} {r : Exec} (hr : r ∈ s.log)
    (happ : r.Applied) (hi : s.ops[r.op]? = some o) (hret : o.ret = some (τ, out)) :
    Explains r.reply out := by
  obtain ⟨x, hx⟩ := happ
  obtain ⟨args, hreq, -, hok⟩ := (Exec.appliedTo_iff x r).mp hx
  obtain ⟨q, hq, hqi, b, rfl, hfirst⟩ := exists_answer hl ho hi hret
  obtain ⟨server, hserver⟩ := hl.replays.exists_handle hq
  rw [req_eq_of_op hc hl hq hr hqi, hreq] at hserver
  rw [hok]
  rcases server.put_cases args with ⟨-, h⟩ | ⟨-, -, h⟩ | ⟨-, -, h⟩
  · have hreply : q.reply = .put ⟨.ok⟩ := by rw [hserver, KVServer.handle, h]
    rw [hreply]
    exact .same _
  · have hreply : q.reply = .put ⟨.errNoKey⟩ := by rw [hserver, KVServer.handle, h]
    rw [hreply] at hret
    exact absurd ⟨x, hx⟩ (hf.noKey_returned r.op o τ hi hret r hr rfl)
  · have hreply : q.reply = .put ⟨.errVersion⟩ := by rw [hserver, KVServer.handle, h]
    cases b with
    | true =>
      rw [hfirst rfl r hr rfl, hreply] at hok
      cases hok
    | false =>
      rw [hreply]
      exact .applied

/-- The output at which an operation takes effect: what it returned, or the reply of the run
while it is pending. -/
def Service.output (s : Service ι) (r : Exec) : Reply :=
  match (s.ops[r.op]?).bind Linearizability.Operation.ret with
  | some x => x.2
  | none => r.reply

theorem Service.output_of_ret {r : Exec} {o : Operation} {x : ℕ × Reply}
    (ho : s.ops[r.op]? = some o) (hret : o.ret = some x) : s.output r = x.2 := by
  simp [Service.output, ho, hret]

def Service.Returned (s : Service ι) (i : ℕ) : Prop :=
  ∃ (o : Operation) (x : ℕ × Reply), s.ops[i]? = some o ∧ o.ret = some x

/-- The attempt `answer i` has the reply that the operation `i` returned. -/
def Answered (s : Service ι) (answer : ℕ → ℕ) : Prop :=
  ∀ (i : ℕ) (o : Operation) (x : ℕ × Reply), s.ops[i]? = some o → o.ret = some x →
    ∃ r ∈ s.log, r.attempt = answer i ∧ r.op = i ∧ ∃ b, x.2 = clerkResult b r.reply

theorem exists_answered (hl : LogFacts s) (ho : OpFacts s) : ∃ answer, Answered s answer := by
  have hans : ∀ i, ∃ k, ∀ (o : Operation) (x : ℕ × Reply), s.ops[i]? = some o → o.ret = some x →
      ∃ r ∈ s.log, r.attempt = k ∧ r.op = i ∧ ∃ b, x.2 = clerkResult b r.reply := by
    intro i
    by_cases h : s.Returned i
    · obtain ⟨o, ⟨τ, out⟩, hi, hret⟩ := h
      obtain ⟨r, hr, hri, b, hout, -⟩ := exists_answer hl ho hi hret
      refine ⟨r.attempt, ?_⟩
      intro o' x hi' hret'
      obtain rfl : o = o' := Option.some.inj (hi.symm.trans hi')
      obtain rfl : (τ, out) = x := Option.some.inj (hret.symm.trans hret')
      exact ⟨r, hr, rfl, hri, b, hout⟩
    · exact ⟨0, fun o x hi hret => absurd ⟨o, x, hi, hret⟩ h⟩
  choose answer hans using hans
  exact ⟨answer, hans⟩

/-- The runs at which operations take effect. -/
def Chosen (s : Service ι) (answer : ℕ → ℕ) (r : Exec) : Prop :=
  r.Applied ∨ (s.Returned r.op ∧ r.attempt = answer r.op ∧
    ∀ q ∈ s.log, q.op = r.op → ¬ q.Applied)

variable {answer : ℕ → ℕ} {r q : Exec}

theorem chosen_unique (hc : ClerkFacts s) (hl : LogFacts s) (hb : ∀ x, version s.log x < 2 ^ 64)
    (hr : r ∈ s.log) (hq : q ∈ s.log) (hcr : Chosen s answer r) (hcq : Chosen s answer q)
    (hop : r.op = q.op) : r = q := by
  rcases hcr with hra | ⟨-, hra, hnone⟩
  · rcases hcq with hqa | ⟨-, -, hnone⟩
    · exact applied_once hc hl hb hr hq hop hra hqa
    · exact absurd hra (hnone r hr hop)
  · rcases hcq with hqa | ⟨-, hqa, -⟩
    · exact absurd hqa (hnone q hq hop.symm)
    · exact hl.eq_of_attempt hr hq (by rw [hra, hqa, hop])

theorem explains_of_chosen (hc : ClerkFacts s) (hl : LogFacts s) (ho : OpFacts s)
    (hf : OnTimeFacts s) (hans : Answered s answer) (hr : r ∈ s.log)
    (hcr : Chosen s answer r) : Explains r.reply (s.output r) := by
  obtain ⟨o, hi, -⟩ := logged_op hc hl hr
  cases hret : o.ret with
  | none =>
    rcases hcr with ⟨x, hx⟩ | ⟨⟨o', x, hi', hret'⟩, -⟩
    · obtain ⟨args, -, -, hok⟩ := (Exec.appliedTo_iff x r).mp hx
      have hout : s.output r = r.reply := by simp [Service.output, hi, hret]
      rw [hout, hok]
      exact .same _
    · obtain rfl : o = o' := Option.some.inj (hi.symm.trans hi')
      simp [hret] at hret'
  | some x =>
    rw [Service.output_of_ret hi hret]
    rcases hcr with happ | ⟨-, hatt, -⟩
    · exact explains_of_applied hc hl ho hf hr happ hi hret
    · obtain ⟨q, hq, hqk, -, b, hout⟩ := hans r.op o x hi hret
      obtain rfl := hl.eq_of_attempt hr hq (hatt.trans hqk.symm)
      rw [hout]
      exact explains_clerkResult b r.reply

theorem exists_chosen (hans : Answered s answer) {i : ℕ} {o : Operation} {x : ℕ × Reply}
    (hi : s.ops[i]? = some o) (hret : o.ret = some x) :
    ∃ r ∈ s.log, Chosen s answer r ∧ r.op = i := by
  by_cases happ : ∃ q ∈ s.log, q.op = i ∧ q.Applied
  · obtain ⟨q, hq, hqi, hqa⟩ := happ
    exact ⟨q, hq, .inl hqa, hqi⟩
  · obtain ⟨r, hr, hk, rfl, -⟩ := hans i o x hi hret
    exact ⟨r, hr, .inr ⟨⟨o, x, hi, hret⟩, hk, fun q hq hqi hqa => happ ⟨q, hq, hqi, hqa⟩⟩, rfl⟩

theorem ioSequence_chosen (hc : ClerkFacts s) (hl : LogFacts s) {l : List Exec}
    (hsub : ∀ r ∈ l, r ∈ s.log) (out : Exec → Reply) :
    ioSequence s.ops (l.map fun r => (r.op, out r)) = l.map fun r => (r.req, out r) := by
  induction l with
  | nil => rfl
  | cons r l ih =>
    obtain ⟨o, ho, hin⟩ := logged_op hc hl (hsub r List.mem_cons_self)
    have htail := ih fun q hq => hsub q (List.mem_cons_of_mem r hq)
    simp only [ioSequence] at htail
    simp [ioSequence, ho, hin, htail]

end Points

/-- In every run in which no handler runs after its call has returned and every key has fewer
than 2^64 successful `Put`s, the history of the clerks' operations is linearizable. -/
theorem service_linearizable {ι : Type*} [DecidableEq ι] {s : Service ι} {es : List (Event ι)}
    (hrun : (system ι).Run es s) (ht : (system ι).Along es fun _ s e => s.onTime e = true)
    (hb : ∀ x, version s.log x < 2 ^ 64) : Linearizable store s.ops := by
  classical
  obtain ⟨hc, hl, ho⟩ := bookkeeping hrun
  have hf := onTimeFacts hrun ht
  obtain ⟨answer, hans⟩ := exists_answered hl ho
  let chosen := s.log.filter fun r => decide (Chosen s answer r)
  have hmem : ∀ r, r ∈ chosen ↔ r ∈ s.log ∧ Chosen s answer r := fun r => by
    simp [chosen, List.mem_filter]
  have hlegal : store.run store.init (chosen.map fun r => (r.req, s.output r)) =
      some s.server.store :=
    hl.replays.legal _ s.output hb (fun r _ happ => by simp [Chosen, happ])
      fun r hr hcr => explains_of_chosen hc hl ho hf hans hr (by simpa using hcr)
  refine linearizable_of_points store s.ops (chosen.map fun r => ⟨r.op, r.time, s.output r⟩)
    ?_ ?_ ?_ ?_ ?_
  · rw [List.pairwise_map]
    exact (hl.times.filter _).imp fun h => h.le
  · rw [List.map_map]
    refine (hl.once.of_map.filter _).map_on ?_
    intro r hr q hq hop
    obtain ⟨hr, hcr⟩ := (hmem r).mp hr
    obtain ⟨hq, hcq⟩ := (hmem q).mp hq
    exact chosen_unique hc hl hb hr hq hcr hcq hop
  · intro p hp
    obtain ⟨r, hr, rfl⟩ := List.mem_map.mp hp
    obtain ⟨hr, -⟩ := (hmem r).mp hr
    obtain ⟨o, hi, -⟩ := logged_op hc hl hr
    refine ⟨o, hi, ho.call_le r hr o hi, ?_⟩
    intro x hret
    exact ⟨(hf.before_ret r hr o x.1 x.2 hi hret).le, (Service.output_of_ret hi hret).symm⟩
  · intro i o hi hret
    obtain ⟨x, hret⟩ := Option.isSome_iff_exists.mp hret
    obtain ⟨r, hr, hcr, hri⟩ := exists_chosen hans hi hret
    exact ⟨_, List.mem_map_of_mem ((hmem r).mpr ⟨hr, hcr⟩), hri⟩
  · rw [List.map_map, Function.comp_def]
    rw [ioSequence_chosen hc hl (fun r hr => ((hmem r).mp hr).1), hlegal]
    rfl

/-- The reply of a first `Put` is lost, another clerk reads its value, and the retry is
answered `ErrVersion`. -/
def lossyRun : List (Event Bool) :=
  [.invoke false (.put ⟨"x", "a", 0⟩), .send false, .exec 0, .fail false,
    .invoke true (.get ⟨"x"⟩), .send true, .exec 1, .deliver true,
    .send false, .exec 2, .deliver false]

theorem lossyRun_linearizable : ∃ s, (system Bool).Run lossyRun s ∧
    s.ops.map (fun o => o.ret.map Prod.snd) =
      [some (.put ⟨.errMaybe⟩), some (.get ⟨"a", 1, .ok⟩)] ∧
    Linearizable store s.ops := by
  refine ⟨_, System.run_exec_get (system Bool) lossyRun (by decide), by decide,
    service_linearizable (System.run_exec_get (system Bool) lossyRun (by decide)) ?_ ?_⟩
  · exact System.along_of_allSteps Service.onTime (fun _ _ _ h => h) (by decide)
  · intro x
    refine List.countP_le_length.trans_lt ?_
    decide

end KVSrv
