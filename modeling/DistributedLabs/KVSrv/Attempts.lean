import DistributedLabs.KVSrv.Clerk

/-! Bookkeeping of a run: whose operation an attempt belongs to, which handler runs are in
the log, and which reply an operation returned. All of it holds for handlers that run at any
moment after their call. -/
namespace KVSrv
open Runs
variable {ι : Type*} {s t : Service ι} {e : Event ι} {es : List (Event ι)}

/-- Clerks, attempts and operations fit together. -/
structure ClerkFacts (s : Service ι) : Prop where
  current : ∀ c i req b, (s.clerks c).current = some (i, req, b) →
    ∃ o, s.ops[i]? = some o ∧ o.input = req ∧ o.ret = none
  owner : ∀ c d i req req' b b', (s.clerks c).current = some (i, req, b) →
    (s.clerks d).current = some (i, req', b') → c = d
  attempt : ∀ a ∈ s.attempts, ∃ o, s.ops[a.op]? = some o ∧ o.input = a.req
  attempt_owner : ∀ a ∈ s.attempts, ∀ c req b,
    (s.clerks c).current = some (a.op, req, b) → c = a.clerk
  waiting : ∀ c i req b k, s.clerks c = .waiting i req b k → s.attempts[k]? = some ⟨c, i, req⟩
  ready_first : ∀ c i req, s.clerks c = .ready i req true → ∀ a ∈ s.attempts, a.op ≠ i
  waiting_first : ∀ c i req k, s.clerks c = .waiting i req true k →
    ∀ j a, s.attempts[j]? = some a → a.op = i → j = k

theorem clerkFacts_init : ClerkFacts (Service.init ι) := by
  constructor <;> simp [Service.init]

theorem current_lt (hf : ClerkFacts s) {c : ι} {i : ℕ} {req : Request} {b : Bool}
    (hc : (s.clerks c).current = some (i, req, b)) : i < s.ops.length := by
  obtain ⟨o, ho, -⟩ := hf.current c i req b hc
  exact (List.getElem?_eq_some_iff.mp ho).1

theorem attempt_lt (hf : ClerkFacts s) {a : Attempt ι} (ha : a ∈ s.attempts) :
    a.op < s.ops.length := by
  obtain ⟨o, ho, -⟩ := hf.attempt a ha
  exact (List.getElem?_eq_some_iff.mp ho).1

/-- The log replays to the server's state, and each of its runs is of a different attempt. -/
structure LogFacts (s : Service ι) : Prop where
  replays : Replays s.log s.server
  logged : ∀ r ∈ s.log, ∃ a, s.attempts[r.attempt]? = some a ∧ a.op = r.op ∧ a.req = r.req
  once : (s.log.map Exec.attempt).Nodup
  times : s.log.Pairwise fun r q => r.time < q.time
  time_lt : ∀ r ∈ s.log, r.time < s.now

theorem logFacts_init : LogFacts (Service.init ι) where
  replays := .nil
  logged := by simp [Service.init]
  once := by simp [Service.init]
  times := by simp [Service.init]
  time_lt := by simp [Service.init]

/-- An operation returned what the clerk makes of the reply of one of its attempts. If that
was the first attempt, there is no other. -/
structure OpFacts (s : Service ι) : Prop where
  returned : ∀ (i : ℕ) (o : Operation) τ out, s.ops[i]? = some o → o.ret = some (τ, out) →
    ∃ k a reply b, s.attempts[k]? = some a ∧ a.op = i ∧ s.reply? k = some reply ∧
      out = clerkResult b reply ∧
      (b = true → ∀ j a', s.attempts[j]? = some a' → a'.op = i → j = k)
  call_lt : ∀ (i : ℕ) (o : Operation), s.ops[i]? = some o → o.call < s.now
  call_le : ∀ r ∈ s.log, ∀ o : Operation, s.ops[r.op]? = some o → o.call ≤ r.time

theorem opFacts_init : OpFacts (Service.init ι) := by
  constructor <;> simp [Service.init]

theorem reply?_eq_none {k : ℕ} : s.reply? k = none ↔ ∀ r ∈ s.log, r.attempt ≠ k := by
  simp [Service.reply?]

theorem exists_of_reply? {k : ℕ} {reply : Reply} (h : s.reply? k = some reply) :
    ∃ r ∈ s.log, r.attempt = k ∧ r.reply = reply := by
  obtain ⟨r, hr, rfl⟩ := Option.map_eq_some_iff.mp h
  exact ⟨r, List.mem_of_find?_eq_some hr, by simpa using List.find?_some hr, rfl⟩

/-- An attempt that has just been issued has no reply yet. -/
theorem reply?_length (hl : LogFacts s) : s.reply? s.attempts.length = none := by
  rw [reply?_eq_none]
  intro r hr
  obtain ⟨a, ha, -⟩ := hl.logged r hr
  exact (List.getElem?_eq_some_iff.mp ha).1.ne

theorem reply?_exec {k j : ℕ} {a : Attempt ι} {reply : Reply}
    (h : (s.exec k a).reply? j = some reply) :
    s.reply? j = some reply ∨ (j = k ∧ reply = (s.server.handle a.req).2) := by
  obtain ⟨r, hr, rfl⟩ := Option.map_eq_some_iff.mp h
  rw [Service.exec_log, List.find?_append, Option.or_eq_some_iff] at hr
  rcases hr with hr | ⟨-, hr⟩
  · exact .inl (Option.map_eq_some_iff.mpr ⟨r, hr, rfl⟩)
  · obtain rfl := List.mem_singleton.mp (List.mem_of_find?_eq_some hr)
    have hkj : k = j := by simpa using List.find?_some hr
    exact .inr ⟨hkj.symm, rfl⟩

/-- What running the handler of an attempt does to one key: either the attempt is a `Put` to
it with the version stored before, and it succeeds, or the key is left alone. -/
theorem exec_key (s : Service ι) (k : ℕ) (a : Attempt ι) (x : String) :
    (∃ args, a.req = .put args ∧ args.key = x ∧ (s.server.handle a.req).2 = .put ⟨.ok⟩ ∧
      args.version = (s.server.versionMap x).getD 0 ∧
      version (s.exec k a).log x = version s.log x + 1 ∧
      (s.exec k a).server.kv x = some args.value) ∨
    ((∀ args, a.req = .put args → args.key = x → (s.server.handle a.req).2 ≠ .put ⟨.ok⟩) ∧
      version (s.exec k a).log x = version s.log x ∧
      (s.exec k a).server.kv x = s.server.kv x) := by
  let r : Exec := ⟨k, a.op, s.now, a.req, (s.server.handle a.req).2⟩
  rcases handle_key s.server r x rfl with ⟨args, hreq, hkey, happ, hv, hkv, -⟩ | ⟨happ, hkv, -⟩
  · obtain ⟨-, -, -, hok⟩ := (Exec.appliedTo_iff x r).mp happ
    exact .inl ⟨args, hreq, hkey, hok, hv, version_snoc_of_applied happ, hkv⟩
  · refine .inr ⟨?_, version_snoc_of_not_applied happ, hkv⟩
    intro args hreq hkey hok
    exact happ ((Exec.appliedTo_iff x r).mpr ⟨args, hreq, hkey, hok⟩)

theorem LogFacts.eq_of_attempt (hf : LogFacts s) {r q : Exec} (hr : r ∈ s.log) (hq : q ∈ s.log)
    (h : r.attempt = q.attempt) : r = q :=
  List.inj_on_of_nodup_map hf.once hr hq h

theorem logged_op (hc : ClerkFacts s) (hl : LogFacts s) {r : Exec} (hr : r ∈ s.log) :
    ∃ o, s.ops[r.op]? = some o ∧ o.input = r.req := by
  obtain ⟨a, ha, hop, hreq⟩ := hl.logged r hr
  obtain ⟨o, ho, hin⟩ := hc.attempt a (List.mem_of_getElem? ha)
  exact ⟨o, hop ▸ ho, hin.trans hreq⟩

theorem req_eq_of_op (hc : ClerkFacts s) (hl : LogFacts s) {r q : Exec} (hr : r ∈ s.log)
    (hq : q ∈ s.log) (h : r.op = q.op) : r.req = q.req := by
  obtain ⟨o, ho, hin⟩ := logged_op hc hl hr
  obtain ⟨o', ho', hin'⟩ := logged_op hc hl hq
  obtain rfl : o = o' := Option.some.inj (ho.symm.trans (h ▸ ho'))
  exact hin.symm.trans hin'

/-- The handler run behind the reply a clerk waits for. -/
theorem waiting_run (hf : ClerkFacts s) (hl : LogFacts s) {c : ι} {i k : ℕ} {req : Request}
    {b : Bool} {reply : Reply} (hw : s.clerks c = .waiting i req b k)
    (hr : s.reply? k = some reply) :
    ∃ r ∈ s.log, r.attempt = k ∧ r.op = i ∧ r.req = req ∧ r.reply = reply := by
  obtain ⟨r, hmem, rfl, hreply⟩ := exists_of_reply? hr
  obtain ⟨a, ha, hop, hreq⟩ := hl.logged r hmem
  obtain rfl := Option.some.inj ((hf.waiting c i req b _ hw).symm.trans ha)
  exact ⟨r, hmem, rfl, hop.symm, hreq.symm, hreply⟩

/-- The attempts of one operation are applied at most once between them. -/
theorem applied_once (hc : ClerkFacts s) (hl : LogFacts s) (hb : ∀ x, version s.log x < 2 ^ 64)
    {r q : Exec} (hr : r ∈ s.log) (hq : q ∈ s.log) (hop : r.op = q.op) (hra : r.Applied)
    (hqa : q.Applied) : r = q := by
  obtain ⟨x, hx⟩ := hra
  obtain ⟨y, hy⟩ := hqa
  have hreq := req_eq_of_op hc hl hr hq hop
  obtain ⟨args, hargs, rfl, -⟩ := (Exec.appliedTo_iff x r).mp hx
  obtain ⟨args', hargs', rfl, -⟩ := (Exec.appliedTo_iff y q).mp hy
  obtain rfl : args = args' := by simpa [hargs, hargs'] using hreq
  exact hl.replays.applied_unique (hb _) hr hq hx hy hreq

/-- A returned operation has a handler run whose reply it returned; if that was its first
attempt, the operation has no other run. -/
theorem exists_answer (hl : LogFacts s) (ho : OpFacts s) {i τ : ℕ} {o : Operation} {out : Reply}
    (hi : s.ops[i]? = some o) (hret : o.ret = some (τ, out)) :
    ∃ r ∈ s.log, r.op = i ∧ ∃ b, out = clerkResult b r.reply ∧
      (b = true → ∀ q ∈ s.log, q.op = i → q = r) := by
  obtain ⟨k, a, reply, b, hk, hop, hreply, hout, hfirst⟩ := ho.returned i o τ out hi hret
  obtain ⟨r, hr, rfl, rfl⟩ := exists_of_reply? hreply
  obtain ⟨a', ha', hop', -⟩ := hl.logged r hr
  obtain rfl : a' = a := Option.some.inj (ha'.symm.trans hk)
  refine ⟨r, hr, hop'.symm.trans hop, b, hout, ?_⟩
  intro hb q hq hqi
  obtain ⟨a'', ha'', hop'', -⟩ := hl.logged q hq
  exact hl.eq_of_attempt hq hr (hfirst hb _ a'' ha'' (hop''.trans hqi))

variable [DecidableEq ι]

/-- What a step does to the clerk `d`. -/
inductive ClerkStep (s : Service ι) (d : ι) : Event ι → Clerk → Prop
  | keep (e : Event ι) (he : e ≠ .deliver d) : ClerkStep s d e (s.clerks d)
  | invoke (req : Request) (hd : s.clerks d = .idle) :
      ClerkStep s d (.invoke d req) (.ready s.ops.length req true)
  | send (i : ℕ) (req : Request) (b : Bool) (hd : s.clerks d = .ready i req b) :
      ClerkStep s d (.send d) (.waiting i req b s.attempts.length)
  | deliver : ClerkStep s d (.deliver d) .idle
  | fail (i : ℕ) (req : Request) (b : Bool) (k : ℕ) (hd : s.clerks d = .waiting i req b k) :
      ClerkStep s d (.fail d) (.ready i req false)

theorem Service.Step.clerk (h : Service.Step s e t) (d : ι) : ClerkStep s d e (t.clerks d) := by
  cases h with
  | invoke c req hc =>
    by_cases hdc : d = c
    · subst hdc
      rw [invoke_clerks, Function.update_self]
      exact .invoke req hc
    · rw [invoke_clerks, Function.update_of_ne hdc]
      exact .keep _ (by simp)
  | send c i req b hc =>
    by_cases hdc : d = c
    · subst hdc
      rw [send_clerks, Function.update_self]
      exact .send i req b hc
    · rw [send_clerks, Function.update_of_ne hdc]
      exact .keep _ (by simp)
  | exec k a hk hr => exact .keep _ (by simp)
  | deliver c i req b k reply hc hr =>
    by_cases hdc : d = c
    · subst hdc
      rw [deliver_clerks, Function.update_self]
      exact .deliver
    · rw [deliver_clerks, Function.update_of_ne hdc]
      exact .keep _ (by simpa using Ne.symm hdc)
  | fail c i req b k hc =>
    by_cases hdc : d = c
    · subst hdc
      rw [fail_clerks, Function.update_self]
      exact .fail i req b k hc
    · rw [fail_clerks, Function.update_of_ne hdc]
      exact .keep _ (by simp)

section clerk
variable {d : ι} {i k : ℕ} {req : Request} {b : Bool}

/-- A clerk's operation is the one of the step before, or it has just been called. -/
theorem Service.Step.current (h : Service.Step s e t)
    (hd : (t.clerks d).current = some (i, req, b)) :
    (e = .invoke d req ∧ i = s.ops.length) ∨
    (e ≠ .deliver d ∧ ∃ b', (s.clerks d).current = some (i, req, b')) := by
  have hstep := h.clerk d
  generalize t.clerks d = x at hstep hd
  cases hstep with
  | keep _ he => exact .inr ⟨he, b, hd⟩
  | invoke req' hc =>
    cases hd
    exact .inl ⟨rfl, rfl⟩
  | send i' req' b' hc => exact .inr ⟨by simp, b, by rw [hc]; exact hd⟩
  | deliver => cases hd
  | fail i' req' b' k' hc =>
    cases hd
    exact .inr ⟨by simp, b', by rw [hc]; rfl⟩

/-- A clerk is in its operation until the reply is delivered. -/
theorem Service.Step.current_mono (h : Service.Step s e t) (he : e ≠ .deliver d)
    (hd : (s.clerks d).current = some (i, req, b)) :
    ∃ b', (t.clerks d).current = some (i, req, b') := by
  have hstep := h.clerk d
  generalize t.clerks d = x at hstep
  cases hstep with
  | keep => exact ⟨b, hd⟩
  | invoke req' hc => simp [hc] at hd
  | send i' req' b' hc => exact ⟨b, by rw [← hd, hc]; rfl⟩
  | deliver => exact absurd rfl he
  | fail i' req' b' k' hc =>
    rw [hc] at hd
    cases hd
    exact ⟨false, rfl⟩

/-- A clerk that waits for a call waited for it before, or has just issued it. -/
theorem Service.Step.waiting (h : Service.Step s e t) (hd : t.clerks d = .waiting i req b k) :
    s.clerks d = .waiting i req b k ∨
    (e = .send d ∧ s.clerks d = .ready i req b ∧ k = s.attempts.length) := by
  have hstep := h.clerk d
  generalize t.clerks d = x at hstep hd
  cases hstep with
  | keep => exact .inl hd
  | send i' req' b' hc =>
    cases hd
    exact .inr ⟨rfl, hc, rfl⟩
  | invoke | deliver | fail => cases hd

/-- A clerk that has made no attempt yet was there before, or has just been called. -/
theorem Service.Step.ready (h : Service.Step s e t) (hd : t.clerks d = .ready i req true) :
    s.clerks d = .ready i req true ∨ (e = .invoke d req ∧ i = s.ops.length) := by
  have hstep := h.clerk d
  generalize t.clerks d = x at hstep hd
  cases hstep with
  | keep => exact .inl hd
  | invoke req' hc =>
    cases hd
    exact .inr ⟨rfl, rfl⟩
  | send | deliver | fail => cases hd

end clerk

/-- An attempt is one of the step before, or it has just been issued. -/
theorem Service.Step.attempts (h : Service.Step s e t) :
    t.attempts = s.attempts ∨
    ∃ c i req b, e = .send c ∧ s.clerks c = .ready i req b ∧
      t.clerks c = .waiting i req b s.attempts.length ∧
      t.attempts = s.attempts ++ [⟨c, i, req⟩] := by
  cases h with
  | send c i req b hc => exact .inr ⟨c, i, req, b, rfl, hc, by simp, rfl⟩
  | invoke | exec | deliver | fail => exact .inl rfl

theorem Service.Step.send_attempts {c : ι} {i : ℕ} {req : Request} {b : Bool}
    (h : Service.Step s (.send c) t) (hc : s.clerks c = .ready i req b) :
    t.attempts = s.attempts ++ [⟨c, i, req⟩] := by
  cases h with
  | send _ i' req' b' hc' =>
    rw [hc] at hc'
    cases hc'
    rfl

theorem Service.Step.attempts_mono (h : Service.Step s e t) {k : ℕ} {a : Attempt ι}
    (hk : s.attempts[k]? = some a) : t.attempts[k]? = some a := by
  rcases h.attempts with heq | ⟨c, i, req, b, -, -, -, heq⟩
  · rw [heq, hk]
  · rw [heq]
    exact getElem?_snoc.mpr (.inl hk)

theorem Service.Step.attempt_cases (h : Service.Step s e t) {j : ℕ} {a : Attempt ι}
    (hj : t.attempts[j]? = some a) :
    s.attempts[j]? = some a ∨ ∃ b, s.clerks a.clerk = .ready a.op a.req b := by
  rcases h.attempts with heq | ⟨c, i, req, b, -, hready, -, heq⟩
  · exact .inl (heq ▸ hj)
  · rw [heq] at hj
    rcases getElem?_snoc.mp hj with hj | ⟨-, rfl⟩
    · exact .inl hj
    · exact .inr ⟨b, hready⟩

/-- While a clerk waits, no attempt of its operation is issued. -/
theorem Service.Step.attempt_of_waiting (h : Service.Step s e t) (hc : ClerkFacts s) {d : ι}
    {i j k : ℕ} {req : Request} {b : Bool} {a : Attempt ι} (hd : s.clerks d = .waiting i req b k)
    (hj : t.attempts[j]? = some a) (hop : a.op = i) : s.attempts[j]? = some a := by
  rcases h.attempt_cases hj with hj | ⟨b', hready⟩
  · exact hj
  · subst hop
    have hown := hc.owner d a.clerk a.op req a.req b b' (by simp [hd]) (by simp [hready])
    rw [hown, hready] at hd
    cases hd

/-- After an operation has returned, no attempt of it is issued. -/
theorem Service.Step.attempt_of_returned (h : Service.Step s e t) (hc : ClerkFacts s) {i j : ℕ}
    {o : Operation} {r : ℕ × Reply} {a : Attempt ι} (hi : s.ops[i]? = some o)
    (hret : o.ret = some r)
    (hj : t.attempts[j]? = some a) (hop : a.op = i) : s.attempts[j]? = some a := by
  rcases h.attempt_cases hj with hj | ⟨b, hready⟩
  · exact hj
  · subst hop
    obtain ⟨o', ho', -, hnone⟩ := hc.current a.clerk a.op a.req b (by simp [hready])
    obtain rfl : o' = o := Option.some.inj (ho'.symm.trans hi)
    rw [hnone] at hret
    cases hret

/-- A handler run is one of the step before, or it has just been made. -/
theorem Service.Step.log (h : Service.Step s e t) :
    (t.log = s.log ∧ t.server = s.server) ∨
    ∃ k a, e = .exec k ∧ s.attempts[k]? = some a ∧ s.reply? k = none ∧
      t.log = s.log ++ [⟨k, a.op, s.now, a.req, (s.server.handle a.req).2⟩] ∧
      t.server = (s.server.handle a.req).1 := by
  cases h with
  | exec k a hk hr => exact .inr ⟨k, a, rfl, hk, hr, rfl, rfl⟩
  | invoke | send | deliver | fail => exact .inl ⟨rfl, rfl⟩

theorem Service.Step.log_subset (h : Service.Step s e t) : s.log ⊆ t.log := by
  rcases h.log with ⟨heq, -⟩ | ⟨k, a, -, -, -, heq, -⟩
  · rw [heq]
    exact List.Subset.refl _
  · rw [heq]
    exact List.subset_append_left _ _

theorem Service.Step.now (h : Service.Step s e t) : t.now = s.now + 1 := by
  cases h <;> rfl

/-- An operation is one of the step before, unless it has just been called; only a delivered
reply makes it return. -/
theorem Service.Step.ops (h : Service.Step s e t) {i : ℕ} {o : Operation}
    (hi : t.ops[i]? = some o) :
    (∃ c, e = .invoke c o.input ∧ i = s.ops.length ∧ o.call = s.now ∧ o.ret = none) ∨
    ∃ o', s.ops[i]? = some o' ∧ o.input = o'.input ∧ o.call = o'.call ∧
      (o.ret = o'.ret ∨ ∃ c req b k reply, e = .deliver c ∧ s.clerks c = .waiting i req b k ∧
        s.reply? k = some reply ∧ o.ret = some (s.now, clerkResult b reply)) := by
  cases h with
  | invoke c req hc =>
    rw [invoke_ops] at hi
    rcases getElem?_snoc.mp hi with hi | ⟨rfl, rfl⟩
    · exact .inr ⟨o, hi, rfl, rfl, .inl rfl⟩
    · exact .inl ⟨c, rfl, rfl, rfl, rfl⟩
  | deliver c i' req b k reply hc hr =>
    rw [deliver_ops, List.getElem?_modify] at hi
    obtain ⟨o', ho', hmod⟩ := Option.map_eq_some_iff.mp hi
    refine .inr ⟨o', ho', ?_⟩
    split_ifs at hmod with hii
    · subst hii hmod
      exact ⟨rfl, rfl, .inr ⟨c, req, b, k, reply, rfl, hc, hr, rfl⟩⟩
    · subst hmod
      exact ⟨rfl, rfl, .inl rfl⟩
  | send | exec | fail => exact .inr ⟨o, hi, rfl, rfl, .inl rfl⟩

/-- Operations stay, with their input and the time of their call. -/
theorem Service.Step.ops_mono (h : Service.Step s e t) {i : ℕ} {o : Operation}
    (hi : s.ops[i]? = some o) :
    ∃ o', t.ops[i]? = some o' ∧ o'.input = o.input ∧ o'.call = o.call ∧
      (o'.ret = o.ret ∨ ∃ c req b k, e = .deliver c ∧ s.clerks c = .waiting i req b k) := by
  cases h with
  | invoke c req hc =>
    refine ⟨o, ?_, rfl, rfl, .inl rfl⟩
    exact getElem?_snoc.mpr (.inl hi)
  | deliver c i' req b k reply hc hr =>
    rw [deliver_ops, List.getElem?_modify, hi]
    by_cases hii : i' = i
    · subst hii
      exact ⟨_, rfl, by simp, by simp, .inr ⟨c, req, b, k, rfl, hc⟩⟩
    · exact ⟨o, by simp [hii], rfl, rfl, .inl rfl⟩
  | send | exec | fail => exact ⟨o, hi, rfl, rfl, .inl rfl⟩

theorem clerkFacts_step (hf : ClerkFacts s) (h : Service.Step s e t) : ClerkFacts t where
  current := by
    intro d i req b hd
    rcases h.current hd with ⟨rfl, rfl⟩ | ⟨hne, b', hd'⟩
    · cases h with
      | invoke c req hc => exact ⟨_, getElem?_snoc.mpr (.inr ⟨rfl, rfl⟩), rfl, rfl⟩
    · obtain ⟨o, ho, hin, hret⟩ := hf.current d i req b' hd'
      obtain ⟨o', ho', hin', -, hret'⟩ := h.ops_mono ho
      refine ⟨o', ho', hin'.trans hin, ?_⟩
      rcases hret' with hret' | ⟨c, req', b'', k, rfl, hc⟩
      · rw [hret', hret]
      · have hcd := hf.owner c d i req' req b'' b' (by simp [hc]) hd'
        exact absurd (by rw [hcd]) hne
  owner := by
    intro c d i req req' b b' hc hd
    rcases h.current hc with ⟨hec, hic⟩ | ⟨-, b₁, hc'⟩
    · rcases h.current hd with ⟨hed, -⟩ | ⟨-, b₂, hd'⟩
      · exact (Event.invoke.inj (hec.symm.trans hed)).1
      · exact absurd (current_lt hf hd') (by omega)
    · rcases h.current hd with ⟨-, hid⟩ | ⟨-, b₂, hd'⟩
      · exact absurd (current_lt hf hc') (by omega)
      · exact hf.owner c d i req req' b₁ b₂ hc' hd'
  attempt := by
    intro a ha
    have hold : ∀ a ∈ s.attempts, ∃ o, t.ops[a.op]? = some o ∧ o.input = a.req := by
      intro a ha
      obtain ⟨o, ho, hin⟩ := hf.attempt a ha
      obtain ⟨o', ho', hin', -, -⟩ := h.ops_mono ho
      exact ⟨o', ho', hin'.trans hin⟩
    rcases h.attempts with heq | ⟨c, i, req, b, -, hc, -, heq⟩
    · exact hold a (heq ▸ ha)
    · rw [heq, List.mem_append, List.mem_singleton] at ha
      rcases ha with ha | rfl
      · exact hold a ha
      · obtain ⟨o, ho, hin, -⟩ := hf.current c i req b (by simp [hc])
        obtain ⟨o', ho', hin', -, -⟩ := h.ops_mono ho
        exact ⟨o', ho', hin'.trans hin⟩
  attempt_owner := by
    intro a ha d req b hd
    rcases h.attempts with heq | ⟨c, i, req', b', rfl, hc, -, heq⟩
    · rw [heq] at ha
      rcases h.current hd with ⟨-, hid⟩ | ⟨-, b', hd'⟩
      · exact absurd (attempt_lt hf ha) (by omega)
      · exact hf.attempt_owner a ha d req b' hd'
    · rcases h.current hd with ⟨he, -⟩ | ⟨-, b'', hd'⟩
      · cases he
      rw [heq, List.mem_append, List.mem_singleton] at ha
      rcases ha with ha | rfl
      · exact hf.attempt_owner a ha d req b'' hd'
      · exact hf.owner d c i req req' b'' b' hd' (by simp [hc])
  waiting := by
    intro d i req b k hd
    rcases h.waiting hd with hd' | ⟨rfl, hc, rfl⟩
    · exact h.attempts_mono (hf.waiting d i req b k hd')
    · rw [h.send_attempts hc]
      exact List.getElem?_concat_length
  ready_first := by
    intro d i req hd a ha
    rcases h.attempts with heq | ⟨c, i', req', b', rfl, hc, hc', heq⟩
    · rw [heq] at ha
      rcases h.ready hd with hd' | ⟨-, rfl⟩
      · exact hf.ready_first d i req hd' a ha
      · exact (attempt_lt hf ha).ne
    · rcases h.ready hd with hd' | ⟨he, -⟩
      · rw [heq, List.mem_append, List.mem_singleton] at ha
        rcases ha with ha | rfl
        · exact hf.ready_first d i req hd' a ha
        · rintro rfl
          obtain rfl := hf.owner d c i' req req' true b' (by simp [hd']) (by simp [hc])
          rw [hc'] at hd
          cases hd
      · cases he
  waiting_first := by
    intro d i req k hd j a hj hop
    rcases h.waiting hd with hd' | ⟨rfl, hc, rfl⟩
    · have hold := h.attempt_of_waiting hf hd' hj hop
      exact hf.waiting_first d i req k hd' j a hold hop
    · rw [h.send_attempts hc] at hj
      rcases getElem?_snoc.mp hj with hj | ⟨hj, -⟩
      · exact absurd hop (hf.ready_first d i req hc a (List.mem_of_getElem? hj))
      · exact hj

theorem Service.Step.reply?_mono (h : Service.Step s e t) {k : ℕ} {reply : Reply}
    (hk : s.reply? k = some reply) : t.reply? k = some reply := by
  obtain ⟨r, hr, rfl⟩ := Option.map_eq_some_iff.mp hk
  rcases h.log with ⟨hlog, -⟩ | ⟨j, a, -, -, -, hlog, -⟩ <;> simp [Service.reply?, hlog, hr]

theorem logFacts_step (hf : LogFacts s) (h : Service.Step s e t) : LogFacts t := by
  have hold : ∀ r ∈ s.log, ∃ a, t.attempts[r.attempt]? = some a ∧ a.op = r.op ∧ a.req = r.req := by
    intro r hr
    obtain ⟨a, ha, hop⟩ := hf.logged r hr
    exact ⟨a, h.attempts_mono ha, hop⟩
  have hlt : ∀ r ∈ s.log, r.time < t.now := fun r hr => by
    rw [h.now]
    exact (hf.time_lt r hr).trans (Nat.lt_succ_self _)
  rcases h.log with ⟨hlog, hserver⟩ | ⟨k, a, -, hk, hreply, hlog, hserver⟩
  · exact ⟨hserver ▸ hlog ▸ hf.replays, hlog ▸ hold, hlog ▸ hf.once, hlog ▸ hf.times, hlog ▸ hlt⟩
  · refine ⟨?_, ?_, ?_, ?_, ?_⟩
    · rw [hlog, hserver]
      exact hf.replays.snoc ⟨k, a.op, s.now, a.req, _⟩ rfl
    · rw [hlog, List.forall_mem_append, List.forall_mem_singleton]
      exact ⟨hold, a, h.attempts_mono hk, rfl, rfl⟩
    · rw [hlog, List.map_append, List.nodup_append]
      refine ⟨hf.once, by simp, ?_⟩
      intro j hj j' hj'
      obtain ⟨r, hr, rfl⟩ := List.mem_map.mp hj
      obtain rfl : j' = k := by simpa using hj'
      exact reply?_eq_none.mp hreply r hr
    · rw [hlog, List.pairwise_append]
      refine ⟨hf.times, by simp, ?_⟩
      intro r hr q hq
      obtain rfl := List.mem_singleton.mp hq
      exact hf.time_lt r hr
    · rw [hlog, List.forall_mem_append, List.forall_mem_singleton]
      exact ⟨hlt, by rw [h.now]; exact Nat.lt_succ_self _⟩

theorem opFacts_step (hc : ClerkFacts s) (hl : LogFacts s) (hf : OpFacts s)
    (h : Service.Step s e t) : OpFacts t where
  returned := by
    intro i o τ out hi hret
    rcases h.ops hi with ⟨c, -, -, -, hnone⟩ | ⟨o', ho', -, -, hret' | hdel⟩
    · rw [hnone] at hret
      cases hret
    · obtain ⟨k, a, reply, b, hk, hop, hr, hout, hfirst⟩ :=
        hf.returned i o' τ out ho' (hret' ▸ hret)
      refine ⟨k, a, reply, b, h.attempts_mono hk, hop, h.reply?_mono hr, hout, ?_⟩
      intro hb j a' hj hop'
      exact hfirst hb j a' (h.attempt_of_returned hc ho' (hret' ▸ hret) hj hop') hop'
    · obtain ⟨c, req, b, k, reply, rfl, hwait, hr, hnow⟩ := hdel
      obtain ⟨rfl, rfl⟩ : s.now = τ ∧ clerkResult b reply = out := by
        simpa [hnow] using hret
      have hk := hc.waiting c i req b k hwait
      refine ⟨k, _, reply, b, h.attempts_mono hk, rfl, h.reply?_mono hr, rfl, ?_⟩
      rintro rfl j a' hj hop
      exact hc.waiting_first c i req k hwait j a' (h.attempt_of_waiting hc hwait hj hop) hop
  call_lt := by
    intro i o hi
    rw [h.now]
    rcases h.ops hi with ⟨c, -, -, hcall, -⟩ | ⟨o', ho', -, hcall, -⟩
    · omega
    · have := hf.call_lt i o' ho'
      omega
  call_le := by
    have hold : ∀ r ∈ s.log, ∀ o : Operation, t.ops[r.op]? = some o → o.call ≤ r.time := by
      intro r hr o ho
      rcases h.ops ho with ⟨c, -, hi, -, -⟩ | ⟨o', ho', -, hcall, -⟩
      · obtain ⟨a, ha, hop, -⟩ := hl.logged r hr
        have := attempt_lt hc (List.mem_of_getElem? ha)
        omega
      · rw [hcall]
        exact hf.call_le r hr o' ho'
    rcases h.log with ⟨hlog, -⟩ | ⟨k, a, rfl, hk, -, hlog, -⟩
    · rwa [hlog]
    · rw [hlog, List.forall_mem_append, List.forall_mem_singleton]
      refine ⟨hold, ?_⟩
      intro o ho
      rcases h.ops ho with ⟨c, he, -⟩ | ⟨o', ho', -, hcall, -⟩
      · cases he
      · rw [hcall]
        exact (hf.call_lt _ o' ho').le

/-- The bookkeeping holds in every run. -/
theorem bookkeeping (h : (system ι).Run es s) : ClerkFacts s ∧ LogFacts s ∧ OpFacts s :=
  h.invariant' (I := fun _ s => ClerkFacts s ∧ LogFacts s ∧ OpFacts s)
    ⟨clerkFacts_init, logFacts_init, opFacts_init⟩
    fun _ _ _ _ _ ⟨hc, hl, ho⟩ hs =>
      have hs := Service.step_iff.mp hs
      ⟨clerkFacts_step hc hs, logFacts_step hl hs, opFacts_step hc hl ho hs⟩

end KVSrv
