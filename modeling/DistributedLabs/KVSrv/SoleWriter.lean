import DistributedLabs.KVSrv.Attempts

/-! A `Put` with the current version while no other `Put` to its key is executed: whichever of
its attempts are lost, and whichever replies, exactly one of them is applied. -/
namespace KVSrv
open Runs

/-- The server holds exactly this value at this version. -/
def KVServer.Holds (s : KVServer) (x value : String) (n : ℕ) : Prop :=
  s.kv x = some value ∧ (s.versionMap x).map UInt64.toNat = some n

variable {ι : Type*} {s t u : Service ι} {e : Event ι} {es pre : List (Event ι)} {args : PutArgs}

/-- A handler run that is no `Put` to the key leaves its entries alone. -/
theorem handle_of_other_key (s : KVServer) (req : Request) (x : String)
    (h : ∀ a, req = .put a → a.key ≠ x) :
    (s.handle req).1.kv x = s.kv x ∧ (s.handle req).1.versionMap x = s.versionMap x := by
  rcases handle_key s ⟨0, 0, 0, req, (s.handle req).2⟩ x rfl with ⟨a, hreq, hkey, -⟩ | ⟨-, hkeep⟩
  · exact absurd hkey (h a hreq)
  · exact hkeep

/-- A `Put` that has been applied does not match the version it has left. -/
theorem put_again (s : KVServer) (hver : s.versionMap args.key = some (args.version + 1)) :
    s.put args = (s, ⟨.errVersion⟩) := by
  have hne : args.version ≠ args.version + 1 := by
    intro h
    have hnat := congrArg UInt64.toNat h
    have hlt := args.version.toNat_lt
    rw [UInt64.toNat_add, UInt64.toNat_one] at hnat
    omega
  simp [KVServer.put, hver, hne]

/-- Every `Put` to the key that was executed since time `τ` belongs to the operation `i`. -/
def SoleSince (τ i : ℕ) (x : String) (s : Service ι) : Prop :=
  ∀ r ∈ s.log, τ ≤ r.time → ∀ a, r.req = .put a → a.key = x → r.op = i

/-- The course of operation `i`, a `Put`, while it is the sole writer: none of its attempts has
been executed and the key is as it was, or the first execution has been applied. -/
inductive Course (i : ℕ) (args : PutArgs) (s : Service ι) : Prop
  | before (hnone : ∀ r ∈ s.log, r.op ≠ i)
      (hver : (s.server.versionMap args.key).getD 0 = args.version)
  | after (hkv : s.server.kv args.key = some args.value)
      (hver : s.server.versionMap args.key = some (args.version + 1))
      (hok : ∃ r ∈ s.log, r.op = i ∧ r.req = .put args ∧ r.reply = .put ⟨.ok⟩)
      (hreply : ∀ r ∈ s.log, r.op = i → r.reply = .put ⟨.ok⟩ ∨ r.reply = .put ⟨.errVersion⟩)

/-- Running the handler of one of the operation's own attempts. -/
theorem course_exec_own {i k : ℕ} {a : Attempt ι} (hop : a.op = i) (hreq : a.req = .put args)
    (h : Course i args s) : Course i args (s.exec k a) := by
  cases h with
  | before hnone hver =>
    have hput : s.server.put args = (s.server.install args, ⟨.ok⟩) := by
      rcases s.server.put_cases args with ⟨-, h⟩ | ⟨hm, -⟩ | ⟨hm, -⟩
      · exact h
      · exact absurd hver.symm hm
      · exact absurd hver.symm hm
    refine .after ?_ ?_ ⟨_, List.mem_append_right _ (List.mem_singleton_self _), hop, hreq, ?_⟩ ?_
    · simp [Service.exec, hreq, KVServer.handle, hput]
    · simp [Service.exec, hreq, KVServer.handle, hput]
    · simp [hreq, KVServer.handle, hput]
    · rw [Service.exec_log, List.forall_mem_append, List.forall_mem_singleton]
      refine ⟨fun r hr hri => absurd hri (hnone r hr), fun _ => .inl ?_⟩
      simp [hreq, KVServer.handle, hput]
  | after hkv hver hok hreply =>
    have hput := put_again s.server hver
    have hserver : (s.exec k a).server = s.server := by
      simp [Service.exec, hreq, KVServer.handle, hput]
    obtain ⟨r, hr, hown⟩ := hok
    refine .after (by rw [hserver, hkv]) (by rw [hserver, hver])
      ⟨r, List.mem_append_left _ hr, hown⟩ ?_
    rw [Service.exec_log, List.forall_mem_append, List.forall_mem_singleton]
    refine ⟨hreply, fun _ => .inr ?_⟩
    simp [hreq, KVServer.handle, hput]

/-- Running a handler of another operation, which leaves the key alone. -/
theorem course_exec_kept {i k : ℕ} {a : Attempt ι} (hop : a.op ≠ i)
    (hkv' : (s.exec k a).server.kv args.key = s.server.kv args.key)
    (hver' : (s.exec k a).server.versionMap args.key = s.server.versionMap args.key)
    (h : Course i args s) : Course i args (s.exec k a) := by
  have hlog : ∀ {P : Exec → Prop}, (∀ r ∈ s.log, r.op = i → P r) →
      ∀ r ∈ (s.exec k a).log, r.op = i → P r := by
    intro P hP
    rw [Service.exec_log, List.forall_mem_append, List.forall_mem_singleton]
    exact ⟨hP, fun h => absurd h hop⟩
  cases h with
  | before hnone hver => exact .before (hlog hnone) (by rw [hver', hver])
  | after hkv hver hok hreply =>
    obtain ⟨r, hr, hown⟩ := hok
    exact .after (by rw [hkv', hkv]) (by rw [hver', hver]) ⟨r, List.mem_append_left _ hr, hown⟩
      (hlog hreply)

/-- Running a handler of another operation, which is no `Put` to the key. -/
theorem course_exec_other {i k : ℕ} {a : Attempt ι} (hop : a.op ≠ i)
    (hreq : ∀ b, a.req = .put b → b.key ≠ args.key) (h : Course i args s) :
    Course i args (s.exec k a) := by
  obtain ⟨hkv', hver'⟩ := handle_of_other_key s.server a.req args.key hreq
  exact course_exec_kept hop hkv' hver' h

/-- The sole writer's `Put` returns `OK` or `ErrMaybe`. -/
theorem course_returned {i τ : ℕ} {o : Operation} {out : Reply} (hl : LogFacts s) (ho : OpFacts s)
    (hcourse : Course i args s) (hi : s.ops[i]? = some o) (hret : o.ret = some (τ, out)) :
    (out = .put ⟨.ok⟩ ∨ out = .put ⟨.errMaybe⟩) ∧ s.server.kv args.key = some args.value ∧
      s.server.versionMap args.key = some (args.version + 1) ∧
      ∃ r ∈ s.log, r.req = .put args ∧ r.appliedTo args.key = true := by
  obtain ⟨r, hr, hri, b, rfl, hfirst⟩ := exists_answer hl ho hi hret
  cases hcourse with
  | before hnone hver => exact absurd hri (hnone r hr)
  | after hkv hver hok hreply =>
    obtain ⟨q, hq, hqi, hreq, hqok⟩ := hok
    refine ⟨?_, hkv, hver, q, hq, hreq, (Exec.appliedTo_iff _ q).mpr ⟨args, hreq, rfl, hqok⟩⟩
    cases b with
    | true =>
      rw [← hfirst rfl q hq hqi, hqok]
      exact .inl rfl
    | false =>
      rcases hreply r hr hri with h | h
      · rw [h]
        exact .inl rfl
      · rw [h]
        exact .inr rfl

variable [DecidableEq ι]

theorem SoleSince.of_step {τ i : ℕ} {x : String} (h : Service.Step s e t)
    (ht : SoleSince τ i x t) : SoleSince τ i x s :=
  fun r hr => ht r (h.log_subset hr)

theorem course_step (hc : ClerkFacts s) {τ i : ℕ} {o : Operation} (hnow : τ ≤ s.now)
    (hi : s.ops[i]? = some o) (hin : o.input = .put args) (hcourse : Course i args s)
    (h : Service.Step s e t) (hsole : SoleSince τ i args.key t) : Course i args t := by
  cases h with
  | exec k a hk hr =>
    by_cases hop : a.op = i
    · obtain ⟨o', ho', hin'⟩ := hc.attempt a (List.mem_of_getElem? hk)
      obtain rfl : o = o' := Option.some.inj (hi.symm.trans (hop ▸ ho'))
      exact course_exec_own hop (hin'.symm.trans hin) hcourse
    · refine course_exec_other hop ?_ hcourse
      intro b hb hkey
      exact hop (hsole _ (List.mem_append_right _ (List.mem_singleton_self _)) hnow b hb hkey)
  | invoke | send | deliver | fail =>
    cases hcourse with
    | before hnone hver => exact .before hnone hver
    | after hkv hver hok hreply => exact .after hkv hver hok hreply

/-- What holds from the call of a `Put` on. -/
structure SinceCall (u : Service ι) (c : ι) (args : PutArgs) (es : List (Event ι))
    (s : Service ι) : Prop where
  now : u.now ≤ s.now
  op : ∃ o, s.ops[u.ops.length]? = some o ∧ o.input = .put args
  clerk : .deliver c ∉ es → ∃ b, (s.clerks c).current = some (u.ops.length, .put args, b)
  course : SoleSince u.now u.ops.length args.key s → Course u.ops.length args s

theorem sinceCall_invoke (hc : ClerkFacts u) (hl : LogFacts u) (c : ι)
    (hv : args.version = (u.server.versionMap args.key).getD 0) :
    SinceCall u c args [] (u.invoke c (.put args)) where
  now := Nat.le_succ _
  op := ⟨_, getElem?_snoc.mpr (.inr ⟨rfl, rfl⟩), rfl⟩
  clerk := fun _ => ⟨true, by simp⟩
  course := by
    intro _
    refine .before ?_ hv.symm
    intro r hr hop
    obtain ⟨o, ho, -⟩ := logged_op hc hl hr
    have hlt := (List.getElem?_eq_some_iff.mp ho).1
    omega

theorem sinceCall_step {c : ι} (hc : ClerkFacts s) (hf : SinceCall u c args es s)
    (h : Service.Step s e t) : SinceCall u c args (es ++ [e]) t where
  now := by
    rw [h.now]
    exact hf.now.trans (Nat.le_succ _)
  op := by
    obtain ⟨o, ho, hin⟩ := hf.op
    obtain ⟨o', ho', hin', -⟩ := h.ops_mono ho
    exact ⟨o', ho', hin'.trans hin⟩
  clerk := by
    intro hmem
    rw [List.mem_append, List.mem_singleton, not_or] at hmem
    obtain ⟨b, hb⟩ := hf.clerk hmem.1
    exact h.current_mono (Ne.symm hmem.2) hb
  course := by
    intro hsole
    obtain ⟨o, ho, hin⟩ := hf.op
    exact course_step hc hf.now ho hin (hf.course (hsole.of_step h)) h hsole

theorem sinceCall (hu : (system ι).Run pre u) {c : ι}
    (hv : args.version = (u.server.versionMap args.key).getD 0)
    (h : (system ι).Run (pre ++ .invoke c (.put args) :: es) s) : SinceCall u c args es s := by
  have hpre : pre ++ [.invoke c (.put args)] <+: pre ++ .invoke c (.put args) :: es :=
    ⟨es, by simp⟩
  obtain ⟨u', hu'⟩ := h.of_prefix hpre
  obtain ⟨u'', hu'', hstep⟩ := hu'.inv_snoc
  obtain rfl := hu.unique hu''
  have hbook := bookkeeping hu
  have hfirst : SinceCall u c args [] u' := by
    cases Service.step_iff.mp (show u.step (.invoke c (.put args)) = some u' from hstep) with
    | invoke c req hidle => exact sinceCall_invoke hbook.1 hbook.2.1 c hv
  refine System.Run.invariant_from hu' hfirst ?_ (by simpa using h)
  intro es s e t hr hf hs
  exact sinceCall_step (bookkeeping hr).1 hf (Service.step_iff.mp hs)

/-- The reply that makes the operation of clerk `c` return. -/
theorem returned_of_deliver {c : ι} {i : ℕ} {req : Request} {b : Bool} (hc : ClerkFacts s)
    (hcur : (s.clerks c).current = some (i, req, b)) (h : Service.Step s (.deliver c) t) :
    ∃ o out, t.ops[i]? = some o ∧ o.ret = some (s.now, out) := by
  cases h with
  | deliver c i' req' b' k reply hwait hr =>
    obtain ⟨rfl, -⟩ : i' = i ∧ _ := by simpa [hwait] using hcur
    obtain ⟨o, ho, -⟩ := hc.current c i' req b hcur
    exact ⟨{ o with ret := some (s.now, clerkResult b' reply) }, _,
      by simp [ho], rfl⟩

/-- Every `Put` to the key that was executed since time `τ` is the given one. -/
def RepeatedSince (τ : ℕ) (args : PutArgs) (s : Service ι) : Prop :=
  ∀ r ∈ s.log, τ ≤ r.time → ∀ a, r.req = .put a → a.key = args.key → a = args

/-- What holds once a `Put` has been applied in the state `u`. -/
structure SinceApplied (u : Service ι) (args : PutArgs) (s : Service ι) : Prop where
  now : u.now ≤ s.now
  log : u.log ⊆ s.log
  entries : RepeatedSince u.now args s → s.server.kv args.key = some args.value ∧
    s.server.versionMap args.key = some (args.version + 1)

theorem sinceApplied_step (hf : SinceApplied u args s) (h : Service.Step s e t) :
    SinceApplied u args t where
  now := by
    rw [h.now]
    exact hf.now.trans (Nat.le_succ _)
  log := List.Subset.trans hf.log h.log_subset
  entries := by
    intro hrep
    obtain ⟨hkv, hver⟩ := hf.entries fun r hr => hrep r (h.log_subset hr)
    rcases h.log with ⟨-, hserver⟩ | ⟨k, a, -, -, -, hlog, hserver⟩
    · rw [hserver]
      exact ⟨hkv, hver⟩
    · rw [hserver]
      have hlast : ∀ b, a.req = .put b → b.key = args.key → b = args :=
        hrep ⟨k, a.op, s.now, a.req, (s.server.handle a.req).2⟩ (by simp [hlog]) hf.now
      by_cases hreq : a.req = .put args
      · have hsame : (s.server.handle a.req).1 = s.server := by
          rw [hreq, KVServer.handle, put_again s.server hver]
        rw [hsame]
        exact ⟨hkv, hver⟩
      · have hother : ∀ b, a.req = .put b → b.key ≠ args.key := by
          intro b hb hkey
          exact hreq (hlast b hb hkey ▸ hb)
        obtain ⟨hkv', hver'⟩ := handle_of_other_key s.server a.req args.key hother
        exact ⟨hkv'.trans hkv, hver'.trans hver⟩

theorem sinceApplied (hu : (system ι).Run pre u) (hkv : u.server.kv args.key = some args.value)
    (hver : u.server.versionMap args.key = some (args.version + 1))
    (h : (system ι).Run (pre ++ es) s) : SinceApplied u args s := by
  have hfirst : SinceApplied u args u := ⟨le_rfl, List.Subset.refl _, fun _ => ⟨hkv, hver⟩⟩
  refine System.Run.invariant_from (I := fun _ s => SinceApplied u args s) hu hfirst ?_ h
  intro es s e t _ hf hs
  exact sinceApplied_step hf (Service.step_iff.mp hs)

/-- A `Put` is called with the key's current version, and until its return no other `Put` to
the key is executed. Then it returns `OK` or `ErrMaybe` with the value in place. From then on
the same `Put` is never applied again. -/
theorem sole_put_in_place (ι : Type*) [DecidableEq ι] (pre es : List (Event ι))
    (u t : Service ι) (c : ι) (args : PutArgs) (hu : (system ι).Run pre u)
    (hv : args.version = (u.server.versionMap args.key).getD 0)
    (hn : args.version.toNat + 1 < 2 ^ 64)
    (ht : (system ι).Run (pre ++ .invoke c (.put args) :: es ++ [.deliver c]) t)
    (hes : .deliver c ∉ es) (hsole : SoleSince u.now u.ops.length args.key t) :
    (∃ o τ out, t.ops[u.ops.length]? = some o ∧ o.ret = some (τ, out) ∧
      (out = .put ⟨.ok⟩ ∨ out = .put ⟨.errMaybe⟩)) ∧
    t.server.Holds args.key args.value (args.version.toNat + 1) ∧
    ∀ more w, (system ι).Run (pre ++ .invoke c (.put args) :: es ++ [.deliver c] ++ more) w →
      (RepeatedSince t.now args w →
        w.server.Holds args.key args.value (args.version.toNat + 1)) ∧
      (version w.log args.key < 2 ^ 64 →
        ∀ r ∈ w.log, t.now ≤ r.time → r.req = .put args → ¬ r.Applied) := by
  obtain ⟨s, hs, hdel⟩ := ht.inv_snoc
  obtain ⟨b, hcur⟩ := (sinceCall hu hv hs).clerk hes
  obtain ⟨o, out, ho, hret⟩ :=
    returned_of_deliver (bookkeeping hs).1 hcur (Service.step_iff.mp hdel)
  obtain ⟨-, hl, hops⟩ := bookkeeping ht
  have hrun : (system ι).Run (pre ++ .invoke c (.put args) :: (es ++ [.deliver c])) t := by
    simpa using ht
  have hcourse : Course u.ops.length args t := (sinceCall hu hv hrun).course hsole
  obtain ⟨hout, hkv, hver, q, hq, hqreq, hqapp⟩ := course_returned hl hops hcourse ho hret
  have hholds : ∀ {s : KVServer}, s.kv args.key = some args.value →
      s.versionMap args.key = some (args.version + 1) →
      s.Holds args.key args.value (args.version.toNat + 1) := by
    intro s hkv hver
    refine ⟨hkv, ?_⟩
    rw [hver, Option.map_some, toNat_add_one rfl hn]
  refine ⟨⟨o, s.now, out, ho, hret, hout⟩, hholds hkv hver, ?_⟩
  intro more w hw
  have hsince := sinceApplied ht hkv hver hw
  constructor
  · intro hrep
    obtain ⟨hkv', hver'⟩ := hsince.entries hrep
    exact hholds hkv' hver'
  · rintro hb r hr htime hreq ⟨x, hx⟩
    obtain ⟨args', hreq', rfl, -⟩ := (Exec.appliedTo_iff x r).mp hx
    obtain rfl : args = args' := by simpa [hreq] using hreq'
    have heq := (bookkeeping hw).2.1.replays.applied_unique hb hr (hsince.log hq) hx hqapp
      (hreq.trans hqreq.symm)
    have hlt := hl.time_lt q hq
    rw [heq] at htime
    omega

/-- Of three attempts at a `Put` the first loses its reply and the second its request. -/
def lossyPutEvents : List (Event Bool) :=
  [.send false, .exec 0, .fail false, .send false, .fail false, .send false, .exec 2]

theorem lossyPut_in_place : ∃ t, (system Bool).Run
      ([] ++ .invoke false (.put ⟨"x", "a", 0⟩) :: lossyPutEvents ++ [.deliver false]) t ∧
    t.ops.map (fun o => o.ret) = [some (8, .put ⟨.errMaybe⟩)] ∧ t.server.Holds "x" "a" 1 := by
  obtain ⟨t, hr, hret, hop⟩ := System.exists_run (system Bool)
    ([] ++ .invoke false (.put ⟨"x", "a", 0⟩) :: lossyPutEvents ++ [.deliver false])
    (fun t => t.ops.map (fun o => o.ret) = [some (8, .put ⟨.errMaybe⟩)] ∧
      ∀ r ∈ t.log, r.op = 0) (by decide +kernel)
  obtain ⟨-, hholds, -⟩ := sole_put_in_place Bool [] lossyPutEvents (Service.init Bool) t false
    ⟨"x", "a", 0⟩ .nil rfl (by decide) hr (by decide) (fun r hmem _ _ _ _ => hop r hmem)
  exact ⟨t, hr, hret, hholds⟩

end KVSrv
