import DistributedLabs.KVSrv.Writing
import DistributedLabs.Lock.Test

/-! No client of the lock's test fails. A client inside the lock is the only one whose `Put`s to
the test's key are applied: those of others are behind it by their versions. -/
namespace Lock
open KVSrv Runs

variable {n : ℕ} {L : Locks (Fin n)} {s t : Clients (Fin n) TestPc}

/-- The client is between `Acquire` and `Release`. -/
def TestPc.inside : TestPc → Bool
  | .get _ => true
  | .put _ _ => true
  | .clear _ _ => true
  | _ => false

/-- The reply that the `Get` of a client is to return, if it is there, is the free key. -/
def ReadsFree (s : Service (Fin n)) (c : Fin n) : Prop :=
  s.server.kv l0 = some "" ∧ ∀ i req b k reply, s.clerks c = .waiting i req b k →
    s.reply? k = some reply →
    clerkResult b reply = .get ⟨"", (s.server.versionMap l0).getD 0, .ok⟩

/-- What a client knows about the test's key. -/
def TestPc.Knows (s : Service (Fin n)) (c : Fin n) : TestPc → Prop
  | .get _ => ReadsFree s c
  | .put _ ver => Writing s c ⟨l0, formatInt c, ver⟩
  | .clear _ ver => Writing s c ⟨l0, "", ver + 1⟩
  | .fatal _ => False
  | _ => True

/-- The test's key exists once a client is in its loop, and it is free while no client is inside
the lock. -/
structure TestInv (s : Clients (Fin n) TestPc) : Prop where
  conditional : Conditional l0 s.kv
  created : ∀ c, s.pc c ≠ .create → 0 < version s.kv.log l0
  free : (∀ c, (s.pc c).inside = false) → 0 < version s.kv.log l0 → s.kv.server.kv l0 = some ""
  known : ∀ c, (s.pc c).Knows s.kv c

theorem testInv_init : TestInv (L.test (n := n)).init where
  conditional := by
    constructor
    · intro a ha
      cases ha
    · intro r hr
      cases hr
  created := fun c hc => absurd rfl hc
  free := fun _ hpos => absurd hpos (Nat.lt_irrefl 0)
  known := fun _ => trivial

theorem lockPc_of_inside {pc : TestPc} (h : pc.inside = true) : lockPc pc = .holding := by
  cases pc with
  | get | put | clear => rfl
  | create | select | acquire | release | returned | fatal => cases h

theorem Inv.one_inside (hi : Inv L (s.map lockPc)) {c d : Fin n}
    (hc : (s.pc c).inside = true) (hd : (s.pc d).inside = true) : c = d :=
  (hi.holding (lockPc_of_inside hc)).unique (hi.holding (lockPc_of_inside hd))

/-- The calls to the test's key. -/
theorem testCalls_l0 (hname : L.lockName ≠ l0) {c : Fin n} {pc : TestPc} {req : Request}
    (h : L.testCalls c pc req = true) (hkey : req.key = l0) :
    (pc = .create ∧ req = .put ⟨l0, "", 0⟩) ∨ (∃ i, pc = .get i ∧ req = .get ⟨l0⟩) ∨
    (∃ i ver, pc = .put i ver ∧ req = .put ⟨l0, formatInt c, ver⟩) ∨
    ∃ i ver, pc = .clear i ver ∧ req = .put ⟨l0, "", ver + 1⟩ := by
  cases pc with
  | create => exact .inl ⟨rfl, of_decide_eq_true h⟩
  | get i => exact .inr (.inl ⟨i, rfl, of_decide_eq_true h⟩)
  | put i ver => exact .inr (.inr (.inl ⟨i, ver, rfl, of_decide_eq_true h⟩))
  | clear i ver => exact .inr (.inr (.inr ⟨i, ver, rfl, of_decide_eq_true h⟩))
  | acquire i pc | release i pc =>
    have hlock := of_decide_eq_true ((Bool.and_eq_true _ _).mp h).1
    exact absurd (hlock.symm.trans hkey) hname
  | select | returned | fatal => cases h

/-- What is known in a state of a run. -/
structure Sound (L : Locks (Fin n)) (s : Clients (Fin n) TestPc) : Prop where
  name : L.lockName ≠ l0
  service : L.oneClient.ServiceFacts s
  lock : Inv L (s.map lockPc)
  bound : version s.kv.log l0 < 2 ^ 64
  inv : TestInv s

/-- No client puts a version that is ahead of the key's. -/
theorem testPut_le (hs : Sound L s) {c : Fin n} {args : PutArgs}
    (hcall : L.testCalls c (s.pc c) (.put args) = true) (hkey : args.key = l0) :
    args.version.toNat ≤ version s.kv.log l0 := by
  have hknown := hs.inv.known c
  rcases testCalls_l0 hs.name hcall hkey with
    ⟨-, h⟩ | ⟨i, -, h⟩ | ⟨i, ver, hpc, h⟩ | ⟨i, ver, hpc, h⟩
  · cases h
    exact Nat.zero_le _
  · cases h
  · rw [hpc] at hknown
    cases h
    exact Writing.version_le hs.service.log hs.bound hknown
  · rw [hpc] at hknown
    cases h
    exact Writing.version_le hs.service.log hs.bound hknown

/-- A `Put` that is applied to the test's key creates it, or belongs to the call of a client inside
the lock. -/
theorem applied_by (hs : Sound L s) {k : ℕ} {a : Attempt (Fin n)}
    (hk : s.kv.attempts[k]? = some a) {args : PutArgs} (hreq : a.req = .put args)
    (hkey : args.key = l0) (hver : args.version = (s.kv.server.versionMap l0).getD 0) :
    (version s.kv.log l0 = 0 ∧ args.value = "") ∨
    ((s.pc a.clerk).inside = true ∧
      ∃ b, (s.kv.clerks a.clerk).current = some (a.op, a.req, b)) := by
  obtain ⟨hnat, b, hcur⟩ :=
    hs.inv.conditional.current hs.service.log hs.bound (List.mem_of_getElem? hk) hreq hkey hver
  have hcall := hs.service.calling a.clerk a.op a.req b hcur
  rw [hreq] at hcall
  rcases testCalls_l0 hs.name hcall hkey with
    ⟨-, h⟩ | ⟨i, -, h⟩ | ⟨i, ver, hpc, -⟩ | ⟨i, ver, hpc, -⟩
  · cases h
    exact .inl ⟨hnat.symm, rfl⟩
  · cases h
  · exact .inr ⟨by rw [hpc]; rfl, b, hcur⟩
  · exact .inr ⟨by rw [hpc]; rfl, b, hcur⟩

section inside
variable {c : Fin n} {e : Event (Fin n)} {kv : Service (Fin n)}

theorem pos_of_inside (hI : TestInv s) (hc : (s.pc c).inside = true) :
    0 < version s.kv.log l0 := by
  apply hI.created c
  intro hpc
  rw [hpc] at hc
  cases hc

/-- While a client is inside the lock only its own `Put`s are applied to the key. -/
theorem spared_by_others (hs : Sound L s) (hc : (s.pc c).inside = true) {k : ℕ}
    {a : Attempt (Fin n)} (hk : s.kv.attempts[k]? = some a) :
    Spares s.kv a l0 ∨
    ∃ b args, (s.kv.clerks c).current = some (a.op, a.req, b) ∧ a.req = .put args := by
  rcases spares_or_applied s.kv a l0 with hspares | ⟨args, hreq, hkey, hver⟩
  · exact .inl hspares
  rcases applied_by hs hk hreq hkey hver with ⟨hzero, -⟩ | ⟨hin, b, hcur⟩
  · have hpos := pos_of_inside hs.inv hc
    omega
  · rw [hs.lock.one_inside hc hin]
    exact .inr ⟨b, args, hcur, hreq⟩

theorem writing_step (hs : Sound L s)
    (he : Service.Step s.kv e kv) (hne : e ≠ .deliver c)
    (hinv : ∀ req, e = .invoke c req → L.testCalls c (s.pc c) req = true)
    (hc : (s.pc c).inside = true) {args : PutArgs} (hkey : args.key = l0)
    (hcalls : ∀ req, L.testCalls c (s.pc c) req = true → req = .put args)
    (hw : Writing s.kv c args) : Writing kv c args := by
  refine hw.step hs.service.clerks hs.service.log he hne (fun req h => hcalls req (hinv req h)) ?_
  intro k a _ hk
  rcases spared_by_others hs hc hk with hspares | ⟨b, args', hcur, hreq⟩
  · rw [hkey]
    exact .inr hspares
  · rw [hcalls a.req (hs.service.calling c a.op a.req b hcur)] at hcur
    exact .inl ⟨b, hcur⟩

theorem readsFree_step (hs : Sound L s)
    (he : Service.Step s.kv e kv) {i : ℕ} (hpc : s.pc c = .get i) (hr : ReadsFree s.kv c) :
    ReadsFree kv c := by
  have hcalls : ∀ {j req b}, (s.kv.clerks c).current = some (j, req, b) → req = .get ⟨l0⟩ := by
    intro j req b hcur
    have hcall := hs.service.calling c j req b hcur
    rw [hpc] at hcall
    exact of_decide_eq_true hcall
  obtain ⟨hfree, hreply⟩ := hr
  have hsame : kv.log = s.kv.log → kv.server = s.kv.server → ReadsFree kv c := by
    intro hlog hserver
    rw [ReadsFree, hserver]
    refine ⟨hfree, ?_⟩
    intro j req b k reply hw hk
    rw [Service.reply?, hlog] at hk
    rcases he.waiting hw with hw' | ⟨-, -, rfl⟩
    · exact hreply j req b k reply hw' hk
    · have hnone := reply?_length hs.service.log
      rw [Service.reply?, hk] at hnone
      cases hnone
  cases he with
  | invoke | send | deliver | fail => exact hsame rfl rfl
  | exec k a hk hnone =>
    have hspares : Spares s.kv a l0 := by
      have hin : (s.pc c).inside = true := by rw [hpc]; rfl
      rcases spared_by_others hs hin hk with hspares | ⟨b, args, hcur, hreq⟩
      · exact hspares
      · rw [hcalls hcur] at hreq
        cases hreq
    have hver : (s.kv.exec k a).server.versionMap l0 = s.kv.server.versionMap l0 := hspares.2
    rw [ReadsFree, hver]
    refine ⟨hspares.1.trans hfree, ?_⟩
    intro j req b k' reply hw hk'
    rcases reply?_exec hk' with hold | ⟨rfl, rfl⟩
    · exact hreply j req b k' reply hw hold
    · have hwait : s.kv.clerks c = .waiting j req b k' := hw
      obtain rfl := Option.some.inj ((hs.service.clerks.waiting c j req b k' hwait).symm.trans hk)
      obtain rfl := hcalls (show (s.kv.clerks c).current = some (j, req, b) by rw [hwait]; rfl)
      simp [KVServer.handle, KVServer.get, hfree, clerkResult, clerkGet]

/-- A step that delivers nothing to a client keeps what it knows. -/
theorem knows_step (hs : Sound L s)
    (he : Service.Step s.kv e kv) (hne : e ≠ .deliver c)
    (hinv : ∀ req, e = .invoke c req → L.testCalls c (s.pc c) req = true) :
    (s.pc c).Knows kv c := by
  have hknown := hs.inv.known c
  cases hpc : s.pc c with
  | get i =>
    rw [hpc] at hknown
    exact readsFree_step hs he hpc hknown
  | put i ver =>
    rw [hpc] at hknown
    refine writing_step hs he hne hinv (by rw [hpc]; rfl) rfl ?_ hknown
    intro req hcall
    rw [hpc] at hcall
    exact of_decide_eq_true hcall
  | clear i ver =>
    rw [hpc] at hknown
    refine writing_step hs he hne hinv (by rw [hpc]; rfl) rfl ?_ hknown
    intro req hcall
    rw [hpc] at hcall
    exact of_decide_eq_true hcall
  | fatal f =>
    rw [hpc] at hknown
    exact hknown
  | create | select | acquire | release | returned => trivial

/-- A client whose `Acquire` is to return is alone: no client is inside the lock. -/
theorem none_inside (hs : Sound L s) {i j k : ℕ} {pc : Pc} {req : Request} {b : Bool}
    {reply : Reply} (hpc : s.pc c = .acquire i pc) (hw : s.kv.clerks c = .waiting j req b k)
    (hr : s.kv.reply? k = some reply) (hret : L.returns c pc (clerkResult b reply) = .holding)
    (d : Fin n) : (s.pc d).inside = false := by
  have howns : L.Owns (s.map lockPc) c := by
    apply hs.lock.coming c j req b k reply hw hr
    show L.returns c (lockPc (s.pc c)) (clerkResult b reply) = .holding
    rw [hpc]
    exact hret
  cases hd : (s.pc d).inside with
  | false => rfl
  | true =>
    rw [howns.unique (hs.lock.holding (lockPc_of_inside hd))] at hpc
    rw [hpc] at hd
    cases hd

/-- A client goes on from its call with what it has to know. -/
theorem knows_returned (hs : Sound L s) {j k : ℕ} {req : Request} {b : Bool} {reply : Reply}
    (hw : s.kv.clerks c = .waiting j req b k) (hr : s.kv.reply? k = some reply) :
    (L.testReturns c (s.pc c) (clerkResult b reply)).Knows
      (s.kv.deliver c j (clerkResult b reply)) c := by
  have hidle : (s.kv.deliver c j (clerkResult b reply)).clerks c = .idle := by simp
  have hknown := hs.inv.known c
  cases hpc : s.pc c with
  | create => cases clerkResult b reply <;> trivial
  | select | returned =>
    have hcall := hs.service.calling c j req b (by rw [hw]; rfl)
    rw [hpc] at hcall
    cases hcall
  | fatal f =>
    rw [hpc] at hknown
    exact hknown.elim
  | acquire i pc =>
    show (acquired i (L.returns c pc (clerkResult b reply))).Knows _ c
    cases hret : L.returns c pc (clerkResult b reply) with
    | holding =>
      have hpos := hs.inv.created c (by rw [hpc]; simp)
      refine ⟨hs.inv.free (none_inside hs hpc hw hr hret) hpos, ?_⟩
      intro j' req' b' k' reply' hw'
      rw [hidle] at hw'
      cases hw'
    | outside | acqGet | acqPut | acqCheck | relGet | relPut => trivial
  | release i pc =>
    show (released i (L.returns c pc (clerkResult b reply))).Knows _ c
    cases L.returns c pc (clerkResult b reply) <;> trivial
  | get i =>
    rw [hpc] at hknown
    rw [hknown.2 j req b k reply hw hr]
    exact .about hidle rfl
  | put i ver =>
    rw [hpc] at hknown
    obtain ⟨hout, -, hver⟩ :=
      Writing.returned hs.service.clerks hs.service.log hs.service.ops hknown hw hr
    have hnext : Writing (s.kv.deliver c j (clerkResult b reply)) c ⟨l0, "", ver + 1⟩ :=
      .about hidle (congrArg (fun v => Option.getD v 0) hver)
    rcases hout with hout | hout <;> rw [hout] at hnext ⊢ <;> exact hnext
  | clear i ver =>
    rw [hpc] at hknown
    obtain ⟨hout, -⟩ :=
      Writing.returned hs.service.clerks hs.service.log hs.service.ops hknown hw hr
    rcases hout with hout | hout <;> rw [hout] <;> trivial

/-- A client that leaves the lock has cleared the key. -/
theorem free_of_leaving (hs : Sound L s) {j k : ℕ} {req : Request} {b : Bool} {reply : Reply}
    (hw : s.kv.clerks c = .waiting j req b k) (hr : s.kv.reply? k = some reply)
    (hin : (s.pc c).inside = true)
    (hout : (L.testReturns c (s.pc c) (clerkResult b reply)).inside = false) :
    s.kv.server.kv l0 = some "" := by
  have hknown := hs.inv.known c
  cases hpc : s.pc c with
  | create | select | acquire | release | returned | fatal =>
    rw [hpc] at hin
    cases hin
  | get i =>
    rw [hpc] at hknown
    exact hknown.1
  | put i ver =>
    rw [hpc] at hknown hout
    obtain ⟨hres, -⟩ :=
      Writing.returned hs.service.clerks hs.service.log hs.service.ops hknown hw hr
    rcases hres with hres | hres <;> rw [hres] at hout <;> cases hout
  | clear i ver =>
    rw [hpc] at hknown
    obtain ⟨-, hkv, -⟩ :=
      Writing.returned hs.service.clerks hs.service.log hs.service.ops hknown hw hr
    exact hkv

end inside

theorem testMoves_cases {pc pc' : TestPc} (h : Locks.testMoves pc pc' = true) :
    ∃ i, pc = .select i ∧ (pc' = .returned ⟨i, 0⟩ ∨ pc' = .acquire i .acqGet) := by
  cases pc with
  | select i => exact ⟨i, rfl, of_decide_eq_true h⟩
  | create | get | put | clear | acquire | release | returned | fatal => cases h

theorem knows_update (hs : Sound L s) (hstep : L.oneClient.Step s t) (c : Fin n) :
    (t.pc c).Knows t.kv c := by
  cases hstep with
  | move d pc hd hm =>
    show (Function.update s.pc d pc c).Knows s.kv c
    by_cases hcd : c = d
    · subst hcd
      rw [Function.update_self]
      obtain ⟨i, -, rfl | rfl⟩ := testMoves_cases hm <;> trivial
    · rw [Function.update_of_ne hcd]
      exact hs.inv.known c
  | invoke d req hd hreq =>
    show (s.pc c).Knows (s.kv.invoke d req) c
    apply knows_step hs (.invoke d req hd) (by simp)
    intro req' heq
    cases heq
    exact hreq
  | send d i req b hd =>
    show (s.pc c).Knows (s.kv.send d i req b) c
    exact knows_step hs (.send d i req b hd) (by simp) (by simp)
  | exec k a hk hr =>
    show (s.pc c).Knows (s.kv.exec k a) c
    exact knows_step hs (.exec k a hk hr) (by simp) (by simp)
  | fail d i req b k hd =>
    show (s.pc c).Knows (s.kv.fail d i req) c
    exact knows_step hs (.fail d i req b k hd) (by simp) (by simp)
  | deliver d i req b k reply hd hr =>
    show (Function.update s.pc d (L.testReturns d (s.pc d) (clerkResult b reply)) c).Knows
      (s.kv.deliver d i (clerkResult b reply)) c
    by_cases hcd : c = d
    · subst hcd
      rw [Function.update_self]
      exact knows_returned hs hd hr
    · rw [Function.update_of_ne hcd]
      exact knows_step hs (.deliver d i req b k reply hd hr) (by simpa using Ne.symm hcd) (by simp)

theorem created_step (hs : Sound L s) (hstep : L.oneClient.Step s t) {c : Fin n}
    (hc : t.pc c ≠ .create) : 0 < version t.kv.log l0 := by
  apply Nat.lt_of_lt_of_le _ (Program.version_mono hstep l0)
  by_cases hpc : s.pc c = .create
  · rcases hstep.pc c with hsame | ⟨-, hm⟩ | ⟨i, req, b, k, reply, hw, hr, -⟩
    · exact absurd (hsame.trans hpc) hc
    · obtain ⟨i, hi, -⟩ := testMoves_cases hm
      rw [hpc] at hi
      cases hi
    · have hcall := hs.service.calling c i req b (by rw [hw]; rfl)
      rw [hpc] at hcall
      obtain rfl := of_decide_eq_true hcall
      obtain ⟨r, hmem, -, -, hreq, -⟩ := waiting_run hs.service.clerks hs.service.log hw hr
      exact hs.inv.conditional.executed r hmem _ hreq rfl
  · exact hs.inv.created c hpc

theorem free_step (hs : Sound L s) (hstep : L.oneClient.Step s t)
    (hout : ∀ c, (t.pc c).inside = false) (hpos : 0 < version t.kv.log l0) :
    t.kv.server.kv l0 = some "" := by
  cases hstep with
  | invoke | send | fail => exact hs.inv.free hout hpos
  | move d pc hd hm =>
    refine hs.inv.free ?_ hpos
    intro c
    by_cases hcd : c = d
    · subst hcd
      obtain ⟨i, hi, -⟩ := testMoves_cases hm
      rw [hi]
      rfl
    · have hc := hout c
      simp only [Function.update_of_ne hcd] at hc
      exact hc
  | exec k a hk hr =>
    rcases exec_key s.kv k a l0 with ⟨args, hreq, hkey, -, hver, -, hkv⟩ | ⟨-, hver, hkv⟩
    · rcases applied_by hs hk hreq hkey hver with ⟨-, hval⟩ | ⟨hin, -⟩
      · exact hkv.trans (congrArg some hval)
      · have hc : (s.pc a.clerk).inside = false := hout a.clerk
        rw [hin] at hc
        cases hc
    · exact hkv.trans (hs.inv.free hout (hver ▸ hpos))
  | deliver d i req b k reply hd hr =>
    have hothers : ∀ c, c ≠ d → (s.pc c).inside = false := by
      intro c hcd
      have hc := hout c
      simp only [Function.update_of_ne hcd] at hc
      exact hc
    cases hin : (s.pc d).inside with
    | true =>
      apply free_of_leaving hs hd hr hin
      have hd := hout d
      simp only [Function.update_self] at hd
      exact hd
    | false =>
      refine hs.inv.free ?_ hpos
      intro c
      by_cases hcd : c = d
      · rw [hcd, hin]
      · exact hothers c hcd

theorem testInv_step (hs : Sound L s) (hstep : L.oneClient.Step s t) : TestInv t where
  conditional := Program.conditional_step hs.service hs.bound hs.inv.conditional
    (fun _ _ hcall hkey => testPut_le hs hcall hkey) hstep
  created := fun _ hc => created_step hs hstep hc
  free := free_step hs hstep
  known := knows_update hs hstep

theorem testInv_of_run (hname : L.lockName ≠ l0) {es : List (Action (Fin n) TestPc)}
    (h : L.test.Run es s) (hb : ∀ x, version s.kv.log x < 2 ^ 64) : TestInv s := by
  revert hb
  apply h.invariant' (I := fun _ s => (∀ x, version s.kv.log x < 2 ^ 64) → TestInv s)
  · intro _
    exact testInv_init (L := L)
  · intro es s e t hrun hI hs hb
    have hstep := Program.Step.of_step hs
    have hb' : ∀ x, version s.kv.log x < 2 ^ 64 := fun x =>
      (Program.version_mono hstep x).trans_lt (hb x)
    exact testInv_step ⟨hname, Program.serviceFacts hrun, test_inv hname hrun (hb' _), hb' l0,
      hI hb'⟩ hstep

/-- With distinct ids for its locks no run of the test calls `Fatalf`: inside the lock a client
finds the key free, and its two `Put`s return `OK` or `ErrMaybe`, whichever calls are lost. -/
theorem oneClient_never_fails (n : ℕ) (L : Locks (Fin n)) (hname : L.lockName = "l")
    (es : List (Action (Fin n) TestPc)) (s : Clients (Fin n) TestPc) (h : L.test.Run es s)
    (hlog : s.kv.log.length < 2 ^ 64) (c : Fin n) (f : Fatal) : s.pc c ≠ .fatal f := by
  intro hpc
  have hne : L.lockName ≠ l0 := by
    rw [hname]
    decide
  have hknown := (testInv_of_run hne h (version_lt hlog)).known c
  rw [hpc] at hknown
  exact hknown

/-- The locks of two clients of the test. -/
def testLocks : Locks (Fin 2) where
  lockName := "l"
  nrand := fun c => c + 1
  distinct := by decide

/-- A client makes a call, which is attempt `k`. -/
def callRun (c : Fin 2) (req : Request) (k : ℕ) : List (Action (Fin 2) TestPc) :=
  [.kv (.invoke c req), .kv (.send c), .kv (.exec k), .kv (.deliver c)]

/-- Client `c` takes the lock while client `d` waits. The reply to its `Put` inside the
lock is lost. After its `Release` client `d` takes the lock. -/
def handoverRun (c d : Fin 2) : List (Action (Fin 2) TestPc) :=
  [callRun c (.put ⟨l0, "", 0⟩) 0, callRun d (.put ⟨l0, "", 0⟩) 1,
    [.move c (.acquire 1 .acqGet), .move d (.acquire 1 .acqGet)],
    callRun c (.get ⟨"l"⟩) 2, callRun c (.put ⟨"l", "1", 0⟩) 3, callRun d (.get ⟨"l"⟩) 4,
    callRun c (.get ⟨l0⟩) 5,
    [.kv (.invoke c (.put ⟨l0, "0", 1⟩)), .kv (.send c), .kv (.exec 6), .kv (.fail c),
      .kv (.send c), .kv (.exec 7), .kv (.deliver c)],
    callRun c (.put ⟨l0, "", 2⟩) 8, callRun c (.get ⟨"l"⟩) 9, callRun c (.put ⟨"l", "", 1⟩) 10,
    callRun d (.get ⟨"l"⟩) 11, callRun d (.put ⟨"l", "2", 2⟩) 12, callRun d (.get ⟨l0⟩) 13].flatten

theorem handoverRun_never_fails : ∃ s, testLocks.test.Run (handoverRun 0 1) s ∧
    s.pc 0 = .select 2 ∧ s.pc 1 = .put 1 3 ∧ ∀ c f, s.pc c ≠ .fatal f := by
  obtain ⟨s, hrun, h0, h1, hlog⟩ := System.exists_run testLocks.test (handoverRun 0 1)
    (fun s => s.pc 0 = .select 2 ∧ s.pc 1 = .put 1 3 ∧ s.kv.log.length < 2 ^ 64) (by decide +kernel)
  exact ⟨s, hrun, h0, h1, oneClient_never_fails 2 testLocks rfl (handoverRun 0 1) s hrun hlog⟩

end Lock
