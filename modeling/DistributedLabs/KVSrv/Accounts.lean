import DistributedLabs.Counting.Tally
import DistributedLabs.KVSrv.Outcomes

/-! The version of a key against the results of the operations: which `Put` a `Get` has read, and
how many of the `Put`s the server has counted. -/
namespace KVSrv
open Counting
variable {log : List Exec} {srv : KVServer} {x : String}

/-- What the server stores was written by a successful `Put`, with the version before. -/
theorem Replays.written (h : Replays log srv) {v : String} (hv : srv.kv x = some v) :
    ∃ q ∈ log, ∃ args, q.req = .put args ∧ q.appliedTo x = true ∧ args.value = v ∧
      srv.versionMap x = some (args.version + 1) := by
  induction h with
  | nil => simp [makeKVServer] at hv
  | @snoc log srv r h hr ih =>
    rcases handle_key srv r x hr with ⟨args, hreq, -, happ, -, hkv, hver⟩ | ⟨-, hkv, hver⟩
    · refine ⟨r, List.mem_append_right _ (List.mem_singleton_self r), args, hreq, happ, ?_, hver⟩
      rw [hkv] at hv
      exact Option.some.inj hv
    · rw [hkv] at hv
      obtain ⟨q, hq, args, hreq, happ, hval, hold⟩ := ih hv
      exact ⟨q, List.mem_append_left _ hq, args, hreq, happ, hval, hver.trans hold⟩

/-- A `Get` finds nothing, or what a successful `Put` has written. -/
theorem Replays.read (h : Replays log srv) {r : Exec} (hr : r ∈ log) (hreq : r.req = .get ⟨x⟩) :
    ∃ g, r.reply = .get g ∧ (g = { err := .errNoKey } ∨ (g.err = .ok ∧
      ∃ q ∈ log, ∃ args, q.req = .put args ∧ q.appliedTo x = true ∧ g.value = args.value ∧
        g.version = args.version + 1)) := by
  induction h with
  | nil => simp at hr
  | @snoc log srv p h hp ih =>
    rw [List.mem_append, List.mem_singleton] at hr
    rcases hr with hr | rfl
    · obtain ⟨g, hg, hnone | ⟨hok, q, hq, hwrite⟩⟩ := ih hr
      · exact ⟨g, hg, .inl hnone⟩
      · exact ⟨g, hg, .inr ⟨hok, q, List.mem_append_left _ hq, hwrite⟩⟩
    · refine ⟨srv.get ⟨x⟩, by rw [hp, hreq, KVServer.handle], ?_⟩
      cases hval : srv.kv x with
      | none => exact .inl (by simp [KVServer.get, hval])
      | some v =>
        obtain ⟨q, hq, args, hput, happ, hv, hver⟩ := h.written hval
        refine .inr ⟨by simp [KVServer.get, hval], q, List.mem_append_left _ hq, args, hput,
          happ, ?_⟩
        simp [KVServer.get, hval, hver, hv]

/-- Two successful `Put`s to a key that are conditional on one version are one run. -/
theorem Replays.eq_of_version (h : Replays log srv) (hb : version log x < 2 ^ 64) {r q : Exec}
    (hr : r ∈ log) (hq : q ∈ log) (hrx : r.appliedTo x = true) (hqx : q.appliedTo x = true)
    {args args' : PutArgs} (hreq : r.req = .put args) (hreq' : q.req = .put args')
    (hv : args.version = args'.version) : r = q := by
  obtain ⟨i, hi⟩ := List.mem_iff_getElem?.mp hr
  obtain ⟨j, hj⟩ := List.mem_iff_getElem?.mp hq
  have hvi := h.applied_version hb hi hrx hreq
  have hvj := h.applied_version hb hj hqx hreq'
  rw [hv] at hvi
  rcases lt_trichotomy i j with hlt | rfl | hgt
  · have hless := version_take_lt hi hrx hlt
    omega
  · exact Option.some.inj (hi.symm.trans hj)
  · have hless := version_take_lt hj hqx hgt
    omega

variable {ι : Type*} {s t : Service ι} {e : Event ι}

/-- The operation is a `Put` to the key. -/
def putsTo (x : String) (o : Operation) : Bool :=
  match o.input with
  | .put args => args.key = x
  | .get _ => false

theorem putsTo_iff {o : Operation} :
    putsTo x o = true ↔ ∃ args, o.input = .put args ∧ args.key = x := by
  unfold putsTo
  cases o.input with
  | get args => simp
  | put args => simp

/-- The operation has returned this result. -/
def gave (out : Reply) (o : Operation) : Bool := o.ret.map Prod.snd = some out

theorem gave_iff {o : Operation} {out : Reply} :
    gave out o = true ↔ ∃ τ, o.ret = some (τ, out) := by
  unfold gave
  cases o.ret with
  | none => simp
  | some ret => simp [Prod.ext_iff]

/-- The version of a key is at most the number of `Put`s to it that were not refused. -/
theorem version_le_countP (hc : ClerkFacts s) (hl : LogFacts s) (ho : OpFacts s)
    (hb : version s.log x < 2 ^ 64) :
    version s.log x ≤ s.ops.countP fun o => putsTo x o && !gave (.put ⟨.errVersion⟩) o := by
  apply countP_le_of_charge fun k => ((s.log[k]?).map Exec.op).getD 0
  · intro k r hk happ
    obtain ⟨o, hi, hin⟩ := logged_op hc hl (List.mem_of_getElem? hk)
    obtain ⟨args, hreq, hkey, -⟩ := (Exec.appliedTo_iff x r).mp happ
    refine ⟨o, by simpa [hk] using hi, ?_⟩
    rw [Bool.and_eq_true, Bool.not_eq_true', ← Bool.not_eq_true, gave_iff]
    refine ⟨putsTo_iff.mpr ⟨args, hin.trans hreq, hkey⟩, ?_⟩
    rintro ⟨τ, hret⟩
    exact not_applied_of_errVersion hl ho hi hret r (List.mem_of_getElem? hk) rfl ⟨x, happ⟩
  · intro j k r q hj hr hk hq hop
    have hsame : r.op = q.op := by simpa [hj, hk] using hop
    have hjr := List.mem_of_getElem? hj
    have hkq := List.mem_of_getElem? hk
    have heq := hl.replays.applied_unique hb hjr hkq hr hq (req_eq_of_op hc hl hjr hkq hsame)
    have hnodup : s.log.Nodup := hl.once.of_map
    subst heq
    exact (List.getElem?_inj (List.getElem?_eq_some_iff.mp hj).1 hnodup).mp (hj.trans hk.symm)

/-- Every `Put` to the key that returned `OK` is counted in its version. -/
theorem countP_ok_le_version (hc : ClerkFacts s) (hl : LogFacts s) (ho : OpFacts s) :
    (s.ops.countP fun o => putsTo x o && gave (.put ⟨.ok⟩) o) ≤ version s.log x := by
  have happlied : ∀ i o, s.ops[i]? = some o → (putsTo x o && gave (.put ⟨.ok⟩) o) = true →
      ∃ r ∈ s.log, (r.op = i && r.appliedTo x) = true := by
    intro i o hi h
    rw [Bool.and_eq_true, gave_iff, putsTo_iff] at h
    obtain ⟨⟨args, hin, hkey⟩, τ, hret⟩ := h
    obtain ⟨r, hr, hop, b, hout, -⟩ := exists_answer hl ho hi hret
    obtain ⟨o', hi', hin'⟩ := logged_op hc hl hr
    obtain rfl : o' = o := Option.some.inj (hi'.symm.trans (hop ▸ hi))
    have happ := (Exec.appliedTo_iff x r).mpr
      ⟨args, hin'.symm.trans hin, hkey, clerkResult_eq_ok hout.symm⟩
    exact ⟨r, hr, by simp [hop, happ]⟩
  apply countP_le_of_charge fun i => s.log.findIdx fun r => r.op = i && r.appliedTo x
  · intro i o hi h
    have hlt := List.findIdx_lt_length_of_exists (happlied i o hi h)
    have hfound := List.findIdx_getElem (w := hlt)
    rw [Bool.and_eq_true] at hfound
    exact ⟨_, List.getElem?_eq_getElem hlt, hfound.2⟩
  · intro i j o o' hi h hj h' hij
    have hlt := List.findIdx_lt_length_of_exists (happlied i o hi h)
    have hlt' := List.findIdx_lt_length_of_exists (happlied j o' hj h')
    have hfound := List.findIdx_getElem (w := hlt)
    have hfound' := List.findIdx_getElem (w := hlt')
    simp only [hij, Bool.and_eq_true, decide_eq_true_eq] at hfound hfound'
    exact hfound.1.symm.trans hfound'.1

variable [DecidableEq ι]

/-- A call that has not returned is one that its clerk is in. -/
def Open (s : Service ι) : Prop :=
  ∀ (i : ℕ) (o : Operation), s.ops[i]? = some o → o.ret = none →
    ∃ c req b, (s.clerks c).current = some (i, req, b)

theorem open_step (ho : Open s) (h : Service.Step s e t) : Open t := by
  intro i o hi hret
  rcases h.ops hi with ⟨c, rfl, rfl, -, -⟩ | ⟨o', hi', -, -, hsame | hnew⟩
  · cases h with
    | invoke c _ hc => exact ⟨c, o.input, true, by simp⟩
  · obtain ⟨c, req, b, hcur⟩ := ho i o' hi' (hsame ▸ hret)
    by_cases he : e = .deliver c
    · subst he
      cases h with
      | deliver c i' req' b' k reply hc hr =>
        rw [hc] at hcur
        cases hcur
        rw [Service.deliver_ops, List.getElem?_modify_eq, hi'] at hi
        cases hi
        cases hret
    · obtain ⟨b', hcur'⟩ := h.current_mono he hcur
      exact ⟨c, req, b', hcur'⟩
  · obtain ⟨c, req, b, k, reply, -, -, -, hret'⟩ := hnew
    rw [hret] at hret'
    cases hret'

/-- The return of a call is the first one, so it adds one to the count of its result. -/
theorem countP_gave_deliver (hf : ClerkFacts s) {c : ι} {i k : ℕ} {req : Request} {b : Bool}
    (hw : s.clerks c = .waiting i req b k) (res out : Reply) :
    (s.deliver c i res).ops.countP (gave out) =
      s.ops.countP (gave out) + if res = out then 1 else 0 := by
  obtain ⟨o, hi, -, hret⟩ := hf.current c i req b (by rw [hw]; rfl)
  have hset := countP_set (p := gave out) (y := { o with ret := some (s.now, res) }) hi
  have hold : gave out o = false := by simp [gave, hret]
  have hmodify : (s.deliver c i res).ops = s.ops.set i { o with ret := some (s.now, res) } := by
    rw [Service.deliver_ops, List.modify_eq_set_getElem?, hi]
    rfl
  rw [hold] at hset
  rw [hmodify]
  by_cases hout : res = out
  · rw [if_pos hout]
    simpa [gave, hout] using hset
  · rw [if_neg hout]
    simpa [gave, hout] using hset

theorem countP_gave_invoke (c : ι) (req : Request) (out : Reply) :
    (s.invoke c req).ops.countP (gave out) = s.ops.countP (gave out) := by
  rw [Service.invoke_ops, List.countP_append]
  simp [gave]

/-- Every call is at its first attempt. -/
def FirstTry (s : Service ι) : Prop :=
  ∀ c i req b, (s.clerks c).current = some (i, req, b) → b = true

theorem firstTry_step (hF : FirstTry s) (he : ∀ c, e ≠ .fail c) (h : Service.Step s e t) :
    FirstTry t := by
  intro d i req b hd
  have hstep := h.clerk d
  generalize t.clerks d = x at hstep hd
  cases hstep with
  | keep => exact hF d i req b hd
  | invoke req' hc =>
    cases hd
    rfl
  | send i' req' b' hc =>
    cases hd
    exact hF d i req b (by rw [hc]; rfl)
  | deliver => cases hd
  | fail => exact absurd rfl (he d)

/-- A network that loses nothing makes no `Put` return `ErrMaybe`. -/
theorem no_maybe_step (hf : ClerkFacts s) (hl : LogFacts s) (hF : FirstTry s)
    (h0 : s.ops.countP (gave (.put ⟨.errMaybe⟩)) = 0) (h : Service.Step s e t) :
    t.ops.countP (gave (.put ⟨.errMaybe⟩)) = 0 := by
  cases h with
  | invoke c req hc => rw [countP_gave_invoke, h0]
  | send c i req b hc => exact h0
  | exec k a hk hr => exact h0
  | deliver c i req b k reply hc hr =>
    rw [countP_gave_deliver hf hc, h0, if_neg]
    obtain ⟨r, hmem, -, -, hreq, rfl⟩ := waiting_run hf hl hc hr
    obtain ⟨u, hu⟩ := hl.replays.exists_handle hmem
    rw [hF c i req b (by rw [hc]; rfl), hu, hreq]
    cases req with
    | get args => simp [KVServer.handle, clerkResult]
    | put args =>
      rcases u.put_cases args with ⟨-, h⟩ | ⟨-, -, h⟩ | ⟨-, -, h⟩ <;>
        simp [KVServer.handle, h, clerkResult, clerkPut]
  | fail c i req b k hc => exact h0

end KVSrv
