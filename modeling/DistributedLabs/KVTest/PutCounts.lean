import DistributedLabs.KVTest.PutsCheck
import Mathlib.Algebra.BigOperators.Fin

/-! The counters of the put test: they agree with the results of the clients' calls, and so the
check of the test accepts what the server has counted. -/
namespace KVTest
open KVSrv Runs
variable {J : JsonV} {ka : List String} {rk : Bool} {n : ℕ} {s t : Clients (Fin n) PutPc}

/-- The `Put`s of the client that returned `OK`, with the one its present round has made. -/
def PutPc.oks : PutPc → ℕ
  | .getJson p _ _ .ok => p.nok + 1
  | pc => pc.loop.nok

/-- The `Put`s of the client that returned `ErrMaybe`. -/
def PutPc.maybes : PutPc → ℕ
  | .getJson p _ _ .errMaybe => p.nmaybe + 1
  | pc => pc.loop.nmaybe

/-- The counters of the clients agree with the results of their calls. -/
structure Tallied (s : Clients (Fin n) PutPc) : Prop where
  oks : s.kv.ops.countP (gave (.put ⟨.ok⟩)) = ∑ c, (s.pc c).oks
  maybes : s.kv.ops.countP (gave (.put ⟨.errMaybe⟩)) = ∑ c, (s.pc c).maybes

theorem counts_put (p : PutLoop) (x : String) (ver : Tversion) (err : Err) :
    (onePutDone p x ver err).oks = p.nok + (if err = .ok then 1 else 0) ∧
    (onePutDone p x ver err).maybes = p.nmaybe + (if err = .errMaybe then 1 else 0) := by
  cases err with
  | ok => exact ⟨rfl, rfl⟩
  | errNoKey => exact ⟨rfl, rfl⟩
  | errVersion => exact ⟨rfl, rfl⟩
  | errMaybe => exact ⟨rfl, rfl⟩

/-- The end of a round turns its result into the counter. -/
theorem counts_got {me : ℕ} {p : PutLoop} {x : String} {ver : Tversion} {err : Err} {g : GetReply}
    (h : ∀ p', onePutGot J me p x ver err g ≠ .stopped p') :
    (onePutGot J me p x ver err g).oks = (PutPc.getJson p x ver err).oks ∧
    (onePutGot J me p x ver err g).maybes = (PutPc.getJson p x ver err).maybes := by
  unfold onePutGot at h ⊢
  by_cases hok : g.err = .ok
  · rw [if_pos hok] at h ⊢
    cases hval : J.unmarshal g.value with
    | none =>
      rw [hval] at h
      exact absurd rfl (h p)
    | some e =>
      simp only [hval] at h ⊢
      by_cases hbad : err = .ok ∧ g.version = ver + 1 ∧ e.id ≠ me ∧ e.v ≠ ver
      · rw [if_pos hbad] at h
        exact absurd rfl (h p)
      · rw [if_neg hbad]
        cases err with
        | ok => exact ⟨rfl, rfl⟩
        | errNoKey => exact ⟨rfl, rfl⟩
        | errVersion => exact ⟨rfl, rfl⟩
        | errMaybe => exact ⟨rfl, rfl⟩
  · rw [if_neg hok] at h
    exact absurd rfl (h p)

/-- The delivered result of a call is the only change of the counts. -/
theorem counts_deliver (hf : (oneClientPut J ka rk n).ServiceFacts s) {c : Fin n} {i k : ℕ}
    {req : Request} {b : Bool} {reply : Reply} (hc : s.kv.clerks c = .waiting i req b k)
    (hr : s.kv.reply? k = some reply)
    (h : ∀ p, putReturns J c (s.pc c) (clerkResult b reply) ≠ .stopped p) :
    (putReturns J c (s.pc c) (clerkResult b reply)).oks =
      (s.pc c).oks + (if clerkResult b reply = .put ⟨.ok⟩ then 1 else 0) ∧
    (putReturns J c (s.pc c) (clerkResult b reply)).maybes =
      (s.pc c).maybes + (if clerkResult b reply = .put ⟨.errMaybe⟩ then 1 else 0) := by
  obtain ⟨r, hmem, -, -, hreq, rfl⟩ := waiting_run hf.clerks hf.log hc hr
  obtain ⟨u, hu⟩ := hf.log.replays.exists_handle hmem
  rcases putCalls_cases (hf.calling c i req b (by rw [hc]; rfl)) with
    ⟨p, x, ver, hpc, rfl⟩ | ⟨p, x, ver, err, hpc, rfl⟩
  · rw [hreq, KVServer.handle] at hu
    rw [hu, hpc, clerkResult]
    obtain ⟨err⟩ := clerkPut b (u.put ⟨x, J.marshal ⟨c, ver⟩, ver⟩).2
    simp only [Reply.put.injEq, PutReply.mk.injEq]
    exact counts_put p x ver err
  · rw [hreq, KVServer.handle] at hu
    rw [hu, hpc, clerkResult] at h
    rw [hu, hpc, clerkResult]
    simp only [reduceCtorEq, ↓reduceIte, Nat.add_zero]
    exact counts_got h

theorem not_stopped {pc : PutPc} {log : List Exec} {c : Fin n} (h : pc.Known J log c) :
    ∀ p, pc ≠ .stopped p := by
  rintro p rfl
  exact h

/-- A client whose counts change by what a result adds keeps the tallies. -/
theorem tallied_update (hT : Tallied s) (u : Service (Fin n)) {c : Fin n} {pc : PutPc} {k m : ℕ}
    (hok : u.ops.countP (gave (.put ⟨.ok⟩)) = s.kv.ops.countP (gave (.put ⟨.ok⟩)) + k)
    (hmaybe : u.ops.countP (gave (.put ⟨.errMaybe⟩)) =
      s.kv.ops.countP (gave (.put ⟨.errMaybe⟩)) + m)
    (hoks : pc.oks = (s.pc c).oks + k) (hmaybes : pc.maybes = (s.pc c).maybes + m) :
    Tallied ⟨u, Function.update s.pc c pc⟩ := by
  have hother : ∀ d, d ≠ c → Function.update s.pc c pc d = s.pc d := fun d hd =>
    Function.update_of_ne hd _ _
  have hself : Function.update s.pc c pc c = pc := Function.update_self ..
  constructor
  · have hsum := Counting.sum_change (i := c) (f := fun d => (s.pc d).oks)
      (g := fun d => (Function.update s.pc c pc d).oks) (fun d hd => by simp only [hother d hd])
    have hold := hT.oks
    simp only [hself] at hsum
    show u.ops.countP _ = ∑ d, (Function.update s.pc c pc d).oks
    omega
  · have hsum := Counting.sum_change (i := c) (f := fun d => (s.pc d).maybes)
      (g := fun d => (Function.update s.pc c pc d).maybes) (fun d hd => by simp only [hother d hd])
    have hold := hT.maybes
    simp only [hself] at hsum
    show u.ops.countP _ = ∑ d, (Function.update s.pc c pc d).maybes
    omega

theorem tallied_step (hf : (oneClientPut J ka rk n).ServiceFacts s) (hI : PutInv J t)
    (hT : Tallied s) (h : (oneClientPut J ka rk n).Step s t) : Tallied t := by
  cases h with
  | move c pc hc hm =>
    have hnot := not_stopped (hI.known c)
    have hcounts : pc.oks = (s.pc c).oks ∧ pc.maybes = (s.pc c).maybes := by
      obtain ⟨p, hp, rfl | ⟨k, -, rfl⟩ | ⟨-, rfl⟩⟩ := putMoves_cases hm
      · exact hp ▸ ⟨rfl, rfl⟩
      · exact hp ▸ ⟨rfl, rfl⟩
      · exact hp ▸ ⟨rfl, rfl⟩
    exact tallied_update hT s.kv (k := 0) (m := 0) rfl rfl hcounts.1 hcounts.2
  | invoke c req hc hreq =>
    constructor
    · rw [countP_gave_invoke]
      exact hT.oks
    · rw [countP_gave_invoke]
      exact hT.maybes
  | send c i req b hc => exact ⟨hT.oks, hT.maybes⟩
  | exec k a hk hr => exact ⟨hT.oks, hT.maybes⟩
  | deliver c i req b k reply hc hr =>
    have hknown := hI.known c
    simp only [Function.update_self] at hknown
    obtain ⟨hoks, hmaybes⟩ := counts_deliver hf hc hr (not_stopped hknown)
    exact tallied_update hT (s.kv.deliver c i _) (countP_gave_deliver hf.clerks hc _ _)
      (countP_gave_deliver hf.clerks hc _ _) hoks hmaybes
  | fail c i req b k hc => exact ⟨hT.oks, hT.maybes⟩

def PutPc.key? : PutPc → Option String
  | .putJson _ k _ => some k
  | .getJson _ k _ _ => some k
  | _ => none

/-- The clients use the keys of the test only. -/
structure OnKeys (ka : List String) (s : Clients (Fin n) PutPc) : Prop where
  pcs : ∀ c k, (s.pc c).key? = some k → k ∈ ka
  ops : ∀ o ∈ s.kv.ops, ∀ args, o.input = .put args → args.key ∈ ka

theorem mem_of_choices {k : String} (h : k ∈ choices ka rk) : k ∈ ka := by
  unfold choices at h
  split at h
  next => exact h
  next => exact List.mem_of_mem_take h

theorem key_putReturns {me : Fin n} {pc : PutPc} {out : Reply} {k : String}
    (h : (putReturns J me pc out).key? = some k) : pc.key? = some k := by
  unfold putReturns at h
  split at h
  next p x ver reply =>
    unfold onePutDone at h
    split at h
    next => exact h
    next => cases h
  next p x ver err reply =>
    unfold onePutGot at h
    split at h
    next =>
      split at h
      next => cases h
      next =>
        split at h
        next => cases h
        next =>
          split at h
          next => cases h
          next => exact h
    next => cases h
  next => exact h

theorem onKeys_step (hK : OnKeys ka s) (h : (oneClientPut J ka rk n).Step s t) : OnKeys ka t := by
  constructor
  · intro c k hk
    rcases h.pc c with hsame | ⟨-, hm⟩ | ⟨i, req, b, j, reply, -, -, hret⟩
    · exact hK.pcs c k (hsame ▸ hk)
    · obtain ⟨p, -, hp | ⟨x, hx, hp⟩ | ⟨-, hp⟩⟩ := putMoves_cases hm
      · rw [hp] at hk
        cases hk
      · rw [hp] at hk
        cases hk
        exact mem_of_choices hx
      · rw [hp] at hk
        cases hk
    · rw [hret] at hk
      exact hK.pcs c k (key_putReturns hk)
  · intro o ho args hput
    obtain ⟨i, hi⟩ := List.mem_iff_getElem?.mp ho
    cases h with
    | invoke c req hc hreq =>
      rw [Service.invoke_ops, List.mem_append, List.mem_singleton] at ho
      rcases ho with ho | rfl
      · exact hK.ops o ho args hput
      · obtain rfl : req = .put args := hput
        rcases putCalls_cases hreq with ⟨p, k, ver, hpc, heq⟩ | ⟨p, k, ver, err, -, heq⟩
        · cases heq
          exact hK.pcs c k (by rw [hpc]; rfl)
        · cases heq
    | deliver c i' req b k reply hc hr =>
      rcases (Service.Step.deliver c i' req b k reply hc hr).ops hi with
        ⟨d, he, -⟩ | ⟨o', hi', hin, -⟩
      · cases he
      · exact hK.ops o' (List.mem_of_getElem? hi') args (hin ▸ hput)
    | move c pc hc hm => exact hK.ops o ho args hput
    | send c i' req b hc => exact hK.ops o ho args hput
    | exec k a hk hr => exact hK.ops o ho args hput
    | fail c i' req b k hc => exact hK.ops o ho args hput

/-- What holds of the calls and counters in every run. -/
structure Accounted (ka : List String) (s : Clients (Fin n) PutPc) : Prop where
  tallied : Tallied s
  keys : OnKeys ka s
  opened : Open s.kv

theorem accounted_of_run (hka : ka ≠ []) {es : List (Action (Fin n) PutPc)}
    (h : (puts J ka rk n).Run es s) (hb : ∀ x, version s.kv.log x < 2 ^ 64) : Accounted ka s := by
  revert hb
  apply h.invariant' (I := fun _ s => (∀ x, version s.kv.log x < 2 ^ 64) → Accounted ka s)
  · intro _
    refine ⟨⟨?_, ?_⟩, ⟨?_, ?_⟩, ?_⟩
    · exact (Finset.sum_eq_zero fun c _ => rfl).symm
    · exact (Finset.sum_eq_zero fun c _ => rfl).symm
    · intro c k hk
      cases hk
    · intro o ho
      cases ho
    · intro i o hi
      cases hi
  · intro es s e t hrun hA hs hb
    have hstep := Program.Step.of_step hs
    have hb' : ∀ x, version s.kv.log x < 2 ^ 64 := fun x =>
      (Program.version_mono hstep x).trans_lt (hb x)
    obtain ⟨hT, hK, hO⟩ := hA hb'
    refine ⟨?_, onKeys_step hK hstep, ?_⟩
    · exact tallied_step (Program.serviceFacts hrun) (putInv_of_run hka (hrun.snoc hs) hb) hT hstep
    · rcases hstep.kv with heq | ⟨e', he'⟩
      · rwa [heq]
      · exact open_step hO he'

section returned
variable {res : Fin n → PutLoop}

/-- A call of a test whose clients have all returned has returned. -/
theorem ret_of_returned (hf : (oneClientPut J ka rk n).ServiceFacts s) (hO : Open s.kv)
    (hret : ∀ c, s.pc c = .returned (res c)) {i : ℕ} {o : Operation} (hi : s.kv.ops[i]? = some o) :
    ∃ τ out, o.ret = some (τ, out) := by
  cases hnone : o.ret with
  | some x => exact ⟨x.1, x.2, rfl⟩
  | none =>
    obtain ⟨c, req, b, hcur⟩ := hO i o hi hnone
    have hcall : putCalls J c (s.pc c) req = true := hf.calling c i req b hcur
    simp [hret c, putCalls] at hcall

theorem put_results (hf : (oneClientPut J ka rk n).ServiceFacts s) (hI : PutInv J s) {i τ : ℕ}
    {o : Operation} {args : PutArgs} {out : Reply} (hi : s.kv.ops[i]? = some o)
    (hput : o.input = .put args) (hret : o.ret = some (τ, out)) :
    out = .put ⟨.ok⟩ ∨ out = .put ⟨.errVersion⟩ ∨ out = .put ⟨.errMaybe⟩ := by
  obtain ⟨r, hr, hop, b, rfl, -⟩ := exists_answer hf.log hf.ops hi hret
  obtain ⟨o', hi', hin⟩ := logged_op hf.clerks hf.log hr
  obtain rfl : o' = o := Option.some.inj (hi'.symm.trans (hop ▸ hi))
  exact (hI.answered r hr).put_result hf.log hr (hin.symm.trans hput) b

theorem sums_returned (hT : Tallied s) (hret : ∀ c, s.pc c = .returned (res c)) :
    s.kv.ops.countP (gave (.put ⟨.ok⟩)) = ∑ c, (res c).nok ∧
    s.kv.ops.countP (gave (.put ⟨.errMaybe⟩)) = ∑ c, (res c).nmaybe := by
  rw [hT.oks, hT.maybes]
  exact ⟨Finset.sum_congr rfl fun c _ => by rw [hret c]; rfl,
    Finset.sum_congr rfl fun c _ => by rw [hret c]; rfl⟩

/-- The server has counted no more `Put`s than the clients. -/
theorem version_le_sums (hf : (oneClientPut J ka rk n).ServiceFacts s) (hI : PutInv J s)
    (hA : Accounted ka s) (hret : ∀ c, s.pc c = .returned (res c)) {x : String}
    (hb : version s.kv.log x < 2 ^ 64) :
    version s.kv.log x ≤ ∑ c, (res c).nok + ∑ c, (res c).nmaybe := by
  obtain ⟨hok, hmaybe⟩ := sums_returned hA.tallied hret
  rw [← hok, ← hmaybe]
  apply (version_le_countP hf.clerks hf.log hf.ops hb).trans
  apply Counting.countP_le_add
  intro o ho h
  rw [Bool.and_eq_true, putsTo_iff, Bool.not_eq_true', ← Bool.not_eq_true, gave_iff] at h
  obtain ⟨⟨args, hput, -⟩, hnot⟩ := h
  obtain ⟨i, hi⟩ := List.mem_iff_getElem?.mp ho
  obtain ⟨τ, out, hout⟩ := ret_of_returned hf hA.opened hret hi
  rcases put_results hf hI hi hput hout with rfl | rfl | rfl
  · exact .inl (gave_iff.mpr ⟨τ, hout⟩)
  · exact absurd ⟨τ, hout⟩ hnot
  · exact .inr (gave_iff.mpr ⟨τ, hout⟩)

/-- On the test's only key, the server has counted every `Put` that returned `OK`. -/
theorem sum_nok_le_version {x : String} (hf : (oneClientPut J [x] rk n).ServiceFacts s)
    (hA : Accounted [x] s) (hret : ∀ c, s.pc c = .returned (res c)) :
    ∑ c, (res c).nok ≤ version s.kv.log x := by
  rw [← (sums_returned hA.tallied hret).1]
  refine le_trans ?_ (countP_ok_le_version hf.clerks hf.log hf.ops)
  apply List.countP_mono_left
  intro o ho hgave
  rw [Bool.and_eq_true]
  refine ⟨?_, hgave⟩
  obtain ⟨τ, hout⟩ := gave_iff.mp hgave
  obtain ⟨i, hi⟩ := List.mem_iff_getElem?.mp ho
  obtain ⟨r, hr, hop, b, hres, -⟩ := exists_answer hf.log hf.ops hi hout
  obtain ⟨o', hi', hin⟩ := logged_op hf.clerks hf.log hr
  obtain rfl : o' = o := Option.some.inj (hi'.symm.trans (hop ▸ hi))
  obtain ⟨u, hu⟩ := hf.log.replays.exists_handle hr
  rw [← hin, clerkResult_eq_ok hres.symm] at hu
  cases hput : o'.input with
  | get args => simp [hput, KVServer.handle] at hu
  | put args =>
    exact putsTo_iff.mpr ⟨args, hput, List.mem_singleton.mp (hA.keys.ops o' ho args hput)⟩

end returned

/-- Without failed calls no client counts an `ErrMaybe`. -/
theorem no_maybe_of_run {es : List (Action (Fin n) PutPc)} (h : (puts J ka rk n).Run es s)
    (hes : ∀ c, .kv (.fail c) ∉ es) : s.kv.ops.countP (gave (.put ⟨.errMaybe⟩)) = 0 := by
  suffices hall : FirstTry s.kv ∧ s.kv.ops.countP (gave (.put ⟨.errMaybe⟩)) = 0 from hall.2
  revert hes
  apply h.invariant' (I := fun es s => (∀ c, Action.kv (.fail c) ∉ es) → FirstTry s.kv ∧
    s.kv.ops.countP (gave (.put ⟨.errMaybe⟩)) = 0)
  · intro _
    refine ⟨?_, rfl⟩
    intro c i req b hc
    cases hc
  · intro es s e t hrun hI hs hes
    obtain ⟨hF, h0⟩ := hI fun c hc => hes c (List.mem_append_left _ hc)
    have hf := Program.serviceFacts hrun
    cases e with
    | move c pc =>
      simp only [puts, Program.system, Program.step, Option.ite_none_right_eq_some,
        Option.some.injEq] at hs
      rw [← hs.2]
      exact ⟨hF, h0⟩
    | kv e =>
      simp only [puts, Program.system, Program.step, Option.ite_none_right_eq_some,
        Option.map_eq_some_iff] at hs
      obtain ⟨-, u, hu, rfl⟩ := hs
      have hstep := Service.step_iff.mp hu
      refine ⟨firstTry_step hF ?_ hstep, no_maybe_step hf.clerks hf.log hF h0 hstep⟩
      rintro c rfl
      exact hes c (List.mem_append_right _ (List.mem_singleton_self _))

/-- A key that some client has counted a `Put` for exists. -/
theorem version_pos {x : String} (hf : (oneClientPut J [x] rk n).ServiceFacts s) (hI : PutInv J s)
    (hK : OnKeys [x] s) (err : Err) (h : 0 < s.kv.ops.countP (gave (.put ⟨err⟩))) :
    0 < version s.kv.log x := by
  obtain ⟨o, ho, hgave⟩ := List.countP_pos_iff.mp h
  obtain ⟨τ, hout⟩ := gave_iff.mp hgave
  obtain ⟨i, hi⟩ := List.mem_iff_getElem?.mp ho
  obtain ⟨r, hr, hop, b, hres, -⟩ := exists_answer hf.log hf.ops hi hout
  obtain ⟨o', hi', hin⟩ := logged_op hf.clerks hf.log hr
  obtain rfl : o' = o := Option.some.inj (hi'.symm.trans (hop ▸ hi))
  obtain ⟨u, hu⟩ := hf.log.replays.exists_handle hr
  cases hput : o'.input with
  | get args =>
    rw [hu, ← hin, hput] at hres
    cases hres
  | put args =>
    have hpos := (hI.answered r hr).1
    rw [← hin, hput] at hpos
    rwa [← List.mem_singleton.mp (hK.ops o' ho args hput)]

/-- The check's `Get` finds an entry with the number of `Put`s that the server has counted. -/
theorem check_reads {x : String} (hf : (oneClientPut J [x] rk n).ServiceFacts s) (hI : PutInv J s)
    (hb : version s.kv.log x < 2 ^ 64) (hpos : 0 < version s.kv.log x) :
    (s.kv.server.get ⟨x⟩).err = .ok ∧
    (J.unmarshal (s.kv.server.get ⟨x⟩).value).isSome = true ∧
    (s.kv.server.get ⟨x⟩).version.toNat = version s.kv.log x := by
  have hcount := hf.log.replays.counts x hb
  obtain ⟨value, hvalue⟩ := Option.isSome_iff_exists.mp (hcount.kv_iff.mpr hpos)
  obtain ⟨q, hq, args, hput, -, hval, -⟩ := hf.log.replays.written hvalue
  obtain ⟨a, ha, -, hareq⟩ := hf.log.logged q hq
  have hsent := hI.sent a (List.mem_of_getElem? ha)
  rw [hareq, hput] at hsent
  obtain ⟨⟨e, he⟩, -⟩ := hsent
  have hget : s.kv.server.get ⟨x⟩ = ⟨value, (s.kv.server.versionMap x).getD 0, .ok⟩ := by
    simp [KVServer.get, hvalue]
  rw [hget, ← hval, he, J.roundTrip]
  exact ⟨rfl, rfl, hcount.toNat_eq⟩

/-- A call gives one result at most. -/
theorem gave_add_le (l : List Operation) :
    l.countP (gave (.put ⟨.ok⟩)) + l.countP (gave (.put ⟨.errMaybe⟩)) ≤ l.length := by
  refine (Counting.countP_add_le (r := fun _ => true) ?_ l).trans List.countP_le_length
  intro o
  unfold gave
  cases o.ret with
  | none => simp
  | some ret =>
    by_cases hout : ret.2 = .put ⟨.ok⟩
    · simp [hout]
    · simp [hout, Bool.toNat_le]

theorem sum_results (res : Fin n → PutLoop) (g : ClntRes → ℕ) :
    ((List.ofFn fun c => (res c).res).map g).sum = ∑ c, g (res c).res := by
  rw [List.map_ofFn, List.sum_ofFn]
  rfl

/-- A result that a client is about to get is that of the call it makes. -/
theorem call_of_result (hf : (oneClientPut J ka rk n).ServiceFacts s) {c : Fin n} {out : Reply}
    (h : s.kv.result? c = some out) : ∃ i req b k reply, s.kv.clerks c = .waiting i req b k ∧
      s.kv.reply? k = some reply ∧ clerkResult b reply = out ∧
      putCalls J c (s.pc c) req = true := by
  obtain ⟨i, req, b, k, reply, hw, hr, hout⟩ := Service.exists_of_result? h
  exact ⟨i, req, b, k, reply, hw, hr, hout, hf.calling c i req b (by rw [hw]; rfl)⟩

/-- In no run of the put test does a client meet an error that stops it: every `Put` returns one
of the errors it expects, every `Get` finds an entry, and the one that reads the version of the
client's own `Put` finds the entry that it wrote. -/
theorem oneClientPut_never_stops (J : JsonV) (ka : List String) (rk : Bool) (n : ℕ) (hka : ka ≠ [])
    (es : List (Action (Fin n) PutPc)) (s : Clients (Fin n) PutPc) (h : (puts J ka rk n).Run es s)
    (hlog : s.kv.log.length < 2 ^ 64) (c : Fin n) :
    (∀ p, s.pc c ≠ .stopped p) ∧
    (∀ p x ver out, s.pc c = .putJson p x ver → s.kv.result? c = some out →
      out = .put ⟨.ok⟩ ∨ out = .put ⟨.errVersion⟩ ∨ out = .put ⟨.errMaybe⟩) ∧
    ∀ p x ver err out, s.pc c = .getJson p x ver err → s.kv.result? c = some out →
      ∃ (g : GetReply) (e : EntryV), out = .get g ∧ g.err = .ok ∧
        J.unmarshal g.value = some e ∧ (err = .ok → g.version = ver + 1 → e = ⟨c, ver⟩) := by
  have hf := Program.serviceFacts h
  have hI := putInv_of_run hka h (version_lt hlog)
  refine ⟨not_stopped (hI.known c), ?_, ?_⟩
  · intro p x ver out hpc hout
    obtain ⟨i, req, b, k, reply, hw, hr, rfl, hcall⟩ := call_of_result hf hout
    obtain rfl : req = .put ⟨x, J.marshal ⟨c, ver⟩, ver⟩ := by
      simpa [hpc, putCalls] using hcall
    obtain ⟨r, hmem, -, -, hreq, rfl⟩ := waiting_run hf.clerks hf.log hw hr
    exact (hI.answered r hmem).put_result hf.log hmem hreq b
  · intro p x ver err out hpc hout
    obtain ⟨i, req, b, k, reply, hw, hr, rfl, hcall⟩ := call_of_result hf hout
    obtain rfl : req = .get ⟨x⟩ := by simpa [hpc, putCalls] using hcall
    obtain ⟨g, e, hres, hok, hval, hmine⟩ := get_entry hf (version_lt hlog) hI hpc hw hr
    exact ⟨g, e, hres, hok, by rw [hval, J.roundTrip], hmine⟩

/-- A client of the put test calls `Get`, and the call that it makes is attempt `k`. -/
def getVRun (c : Fin 2) (k : ℕ) : List (Action (Fin 2) PutPc) :=
  [.kv (.invoke c (.get ⟨"k"⟩)), .kv (.send c), .kv (.exec k), .kv (.deliver c)]

/-- A client of the put test calls `Put`, and the call that it makes is attempt `k`. -/
def putVRun (c : Fin 2) (ver : Tversion) (k : ℕ) : List (Action (Fin 2) PutPc) :=
  [.kv (.invoke c (.put ⟨"k", strokesV.marshal ⟨c, ver⟩, ver⟩)), .kv (.send c), .kv (.exec k)]

/-- The `Put` of client `c` is applied but its reply is lost. The one of `d` comes too late and is
made again with the version that it reads. -/
def racingPuts (c d : Fin 2) : List (Action (Fin 2) PutPc) :=
  [[.move c (.putJson (.start ["k"]) "k" 0), .move d (.putJson (.start ["k"]) "k" 0)],
    putVRun c 0 0, [.kv (.fail c), .kv (.send c), .kv (.exec 1), .kv (.deliver c)], getVRun c 2,
    putVRun d 0 3, [.kv (.deliver d)], getVRun d 4,
    putVRun d 1 5, [.kv (.deliver d)], getVRun d 6].flatten

/-- The second client is about to return from the `Get` that reads its own `Put`. -/
theorem racingPuts_never_stop : ∃ s,
    (puts strokesV ["k"] false 2).Run (racingPuts 0 1).dropLast s ∧
    (∀ p, s.pc 1 ≠ .stopped p) ∧ ∃ p g, s.pc 1 = .getJson p "k" 1 .ok ∧
      s.kv.result? 1 = some (.get g) ∧ g.version = 2 ∧
      strokesV.unmarshal g.value = some ⟨1, 1⟩ := by
  obtain ⟨s, hrun, hlog, hpc, hout⟩ := System.exists_run (puts strokesV ["k"] false 2)
    (racingPuts 0 1).dropLast (fun s => s.kv.log.length < 2 ^ 64 ∧
      s.pc 1 = .getJson (.start ["k"]) "k" 1 .ok ∧
      s.kv.result? 1 = some (.get ⟨strokesV.marshal ⟨1, 1⟩, 2, .ok⟩)) (by decide +kernel)
  obtain ⟨hstop, -, hget⟩ := oneClientPut_never_stops strokesV ["k"] false 2 (by simp)
    (racingPuts 0 1).dropLast s hrun hlog 1
  obtain ⟨g, e, hg, -, he, hmine⟩ := hget _ _ _ _ _ hpc hout
  obtain rfl := Reply.get.inj hg
  exact ⟨s, hrun, hstop, _, _, hpc, hout, rfl, by rw [he, hmine rfl rfl]; rfl⟩

/-- `CheckPutConcurrent` accepts the results of the clients in every run: with failed calls the
server has counted at most the `OK`s and `ErrMaybe`s, and without them exactly the `OK`s. -/
theorem checkPutConcurrent_passes (J : JsonV) (x : String) (rk : Bool) (n : ℕ)
    (es : List (Action (Fin n) PutPc)) (s : Clients (Fin n) PutPc)
    (h : (puts J [x] rk n).Run es s) (hlog : s.kv.log.length < 2 ^ 64)
    (hops : s.kv.ops.length < 2 ^ 64) (res : Fin n → PutLoop)
    (hret : ∀ c, s.pc c = .returned (res c)) (hsome : ∃ c, 0 < (res c).nok + (res c).nmaybe)
    (reliable : Bool) (hrel : reliable = true → ∀ c, .kv (.fail c) ∉ es) :
    checkPutConcurrent J (s.kv.server.get ⟨x⟩) (List.ofFn fun c => (res c).res) reliable =
      true := by
  have hf := Program.serviceFacts h
  have hI := putInv_of_run (by simp) h (version_lt hlog)
  have hA := accounted_of_run (by simp) h (version_lt hlog)
  obtain ⟨hok, hmaybe⟩ := sums_returned hA.tallied hret
  have hle := version_le_sums hf hI hA hret (version_lt hlog x)
  have hsums := gave_add_le s.kv.ops
  have hpos : 0 < version s.kv.log x := by
    obtain ⟨c, hc⟩ := hsome
    have hnok : (res c).nok ≤ ∑ c, (res c).nok :=
      Finset.single_le_sum (f := fun c => (res c).nok) (fun _ _ => Nat.zero_le _)
        (Finset.mem_univ c)
    have hnmaybe : (res c).nmaybe ≤ ∑ c, (res c).nmaybe :=
      Finset.single_le_sum (f := fun c => (res c).nmaybe) (fun _ _ => Nat.zero_le _)
        (Finset.mem_univ c)
    by_cases h0 : 0 < s.kv.ops.countP (gave (.put ⟨.ok⟩))
    · exact version_pos hf hI hA.keys .ok h0
    · exact version_pos hf hI hA.keys .errMaybe (by omega)
  obtain ⟨herr, hval, hver⟩ := check_reads hf hI (version_lt hlog x) hpos
  unfold checkPutConcurrent
  simp only [herr, hval, sum_results, decide_true, Bool.and_self, Bool.true_and]
  have hnoks : ∑ c, (res c).res.nok = ∑ c, (res c).nok := rfl
  have hnmaybes : ∑ c, (res c).res.nmaybe = ∑ c, (res c).nmaybe := rfl
  have hsize : UInt64.size = 2 ^ 64 := rfl
  cases reliable with
  | true =>
    have hnone := no_maybe_of_run h (hrel rfl)
    have hge := sum_nok_le_version hf hA hret
    rw [if_pos rfl, decide_eq_true_eq, ← UInt64.toNat_inj, hver,
      UInt64.toNat_ofNat_of_lt' (by omega)]
    omega
  | false =>
    rw [if_neg Bool.false_ne_true, decide_eq_true_eq, gt_iff_lt, UInt64.lt_iff_toNat_lt, hver,
      UInt64.toNat_ofNat_of_lt' (by omega)]
    omega

/-- What client `d` returns if the reply of `c` was lost. -/
def racingPutsRes (c d : Fin 2) : PutLoop :=
  if d = c then (PutLoop.start ["k"]).done "k" 1 false else (PutLoop.start ["k"]).done "k" 2 true

theorem racingPuts_pass : ∃ s es, (puts strokesV ["k"] false 2).Run es s ∧
    (∀ c, s.pc c = .returned (racingPutsRes 0 c)) ∧
    checkPutConcurrent strokesV (s.kv.server.get ⟨"k"⟩)
      (List.ofFn fun c => (racingPutsRes 0 c).res) false = true := by
  obtain ⟨s, hrun, hlog, hops, hret⟩ := System.exists_run (puts strokesV ["k"] false 2)
    (racingPuts 0 1 ++
      [.move 0 (.returned (racingPutsRes 0 0)), .move 1 (.returned (racingPutsRes 0 1))])
    (fun s => s.kv.log.length < 2 ^ 64 ∧ s.kv.ops.length < 2 ^ 64 ∧
      ∀ c, s.pc c = .returned (racingPutsRes 0 c)) (by decide +kernel)
  exact ⟨s, _, hrun, hret, checkPutConcurrent_passes strokesV "k" false 2 _ s hrun hlog hops
    (racingPutsRes 0) hret ⟨0, by decide +kernel⟩ false (fun h => absurd h Bool.false_ne_true)⟩

end KVTest
