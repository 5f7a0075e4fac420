import DistributedLabs.Lock.Client
import DistributedLabs.KVSrv.Conditional

/-! Mutual exclusion. A `Put` on the lock's key whose version is behind the key's can never
be applied any more; one that can still be applied belongs to the call its client is in, and
then the stored value is the one that client has seen. So the id of a client is only removed
by its own `Release`. -/
namespace Lock
open KVSrv Runs

variable {ι : Type*} {L : Locks ι} {s t : Clients ι Pc}

/-- The number of successful `Put`s to the lock's key. -/
def Locks.ver (L : Locks ι) (s : Clients ι Pc) : ℕ := version s.kv.log L.lockName

/-- The value stored under the lock's key is the id of `c`. -/
def Locks.Owns (L : Locks ι) (s : Clients ι Pc) (c : ι) : Prop :=
  s.kv.server.kv L.lockName = some (L.clientID c)

/-- No id is stored under the lock's key. -/
def Locks.Free (L : Locks ι) (s : Clients ι Pc) : Prop :=
  s.kv.server.kv L.lockName = none ∨ s.kv.server.kv L.lockName = some ""

theorem Locks.Owns.unique {c d : ι} (hc : L.Owns s c) (hd : L.Owns s d) : c = d :=
  L.distinct (Option.some.inj (hc.symm.trans hd))

theorem Locks.Free.not_owns (h : L.Free s) (c : ι) : ¬ L.Owns s c := by
  intro hc
  rw [Locks.Free, hc] at h
  rcases h with h | h
  · cases h
  · exact L.clientID_ne_empty c (Option.some.inj h)

/-- What a client in a control state knows about the lock's key. The version that it puts is
not ahead of the key's, and if it is the key's, the value is still the one it has seen. -/
def PcInv (L : Locks ι) (s : Clients ι Pc) (c : ι) : Pc → Prop
  | .acqPut v => v.toNat ≤ L.ver s ∧ (v.toNat = L.ver s → L.Free s)
  | .relPut v => v.toNat ≤ L.ver s ∧ (v.toNat = L.ver s → L.Owns s c)
  | .holding => L.Owns s c
  | .outside => True
  | .acqGet => True
  | .acqCheck => True
  | .relGet => True

theorem pcInv_congr (hver : L.ver t = L.ver s)
    (hkv : t.kv.server.kv L.lockName = s.kv.server.kv L.lockName) (c : ι) (pc : Pc) :
    PcInv L t c pc ↔ PcInv L s c pc := by
  cases pc <;> simp only [PcInv, Locks.Owns, Locks.Free, hver, hkv]

/-- The invariant. The `Put`s on the lock's key are never ahead of it; those that are not
behind are of a call in progress. A reply that will make a client hold the lock shows that its
id is stored. -/
structure Inv (L : Locks ι) (s : Clients ι Pc) : Prop where
  pending : ∀ a ∈ s.kv.attempts, ∀ args, a.req = .put args → args.key = L.lockName →
    args.version.toNat < L.ver s ∨ (args.version.toNat = L.ver s ∧
      ∃ b, (s.kv.clerks a.clerk).current = some (a.op, a.req, b))
  executed : ∀ r ∈ s.kv.log, ∀ args, r.req = .put args → args.key = L.lockName →
    args.version.toNat < L.ver s
  pcs : ∀ c, PcInv L s c (s.pc c)
  coming : ∀ c i req b k reply, s.kv.clerks c = .waiting i req b k → s.kv.reply? k = some reply →
    L.returns c (s.pc c) (clerkResult b reply) = .holding → L.Owns s c

theorem Inv.acqPut (hi : Inv L s) {c : ι} {v : Tversion} (hc : s.pc c = .acqPut v) :
    v.toNat ≤ L.ver s ∧ (v.toNat = L.ver s → L.Free s) := by
  have h := hi.pcs c
  rwa [hc] at h

theorem Inv.relPut (hi : Inv L s) {c : ι} {v : Tversion} (hc : s.pc c = .relPut v) :
    v.toNat ≤ L.ver s ∧ (v.toNat = L.ver s → L.Owns s c) := by
  have h := hi.pcs c
  rwa [hc] at h

theorem Inv.holding (hi : Inv L s) {c : ι} (hc : s.pc c = .holding) : L.Owns s c := by
  have h := hi.pcs c
  rwa [hc] at h

theorem Inv.conditional (hi : Inv L s) : Conditional L.lockName s.kv := ⟨hi.pending, hi.executed⟩

theorem inv_init (L : Locks ι) : Inv L ⟨Service.init ι, fun _ => .outside⟩ := by
  constructor <;> simp [Service.init, PcInv]

/-- A `Put` on the lock's key that its client may make is one of `Acquire` or `Release`. -/
theorem calls_put {c : ι} {pc : Pc} {args : PutArgs} (h : L.calls c pc (.put args) = true)
    (hkey : args.key = L.lockName) :
    (pc = .acqPut args.version ∧ args.value = L.clientID c) ∨
    (pc = .relPut args.version ∧ args.value = "") := by
  cases pc with
  | outside | holding => simp [Locks.calls, Request.key, hkey] at h
  | acqGet | acqCheck | relGet => simp [Locks.calls] at h
  | acqPut v =>
    obtain rfl : args = ⟨L.lockName, L.clientID c, v⟩ := by simpa [Locks.calls] using h
    exact .inl ⟨rfl, rfl⟩
  | relPut v =>
    obtain rfl : args = ⟨L.lockName, "", v⟩ := by simpa [Locks.calls] using h
    exact .inr ⟨rfl, rfl⟩

/-- Only `Acquire` leads to holding the lock. -/
theorem returns_holding {c : ι} {pc : Pc} {out : Reply} (h : L.returns c pc out = .holding) :
    pc = .holding ∨ (∃ v, pc = .acqPut v ∧ out = .put ⟨.ok⟩) ∨
    ((pc = .acqGet ∨ pc = .acqCheck) ∧ ∃ g, out = .get g ∧ g.value = L.clientID c) := by
  have hret := L.returned c pc out
  rw [h] at hret
  cases hret with
  | stay => exact .inl rfl
  | acquired v => exact .inr (.inl ⟨v, rfl, rfl⟩)
  | already g he hv => exact .inr (.inr ⟨.inl rfl, g, rfl, hv⟩)
  | checked g hv => exact .inr (.inr ⟨.inr rfl, g, rfl, hv⟩)

variable {k : ℕ} {a : Attempt ι}

/-- A `Put` on the lock's key that is applied is of the call its client is in, and it comes
from `Acquire` with a free lock or from the `Release` of its owner. -/
theorem applied_cases (hf : L.program.ServiceFacts s) (hi : Inv L s) (hb : L.ver s < 2 ^ 64)
    {args : PutArgs} (ha : a ∈ s.kv.attempts) (hreq : a.req = .put args)
    (hkey : args.key = L.lockName)
    (hv : args.version = (s.kv.server.versionMap L.lockName).getD 0) :
    (∀ c v, s.pc c = .acqPut v ∨ s.pc c = .relPut v → v.toNat < L.ver s + 1) ∧
    ((s.pc a.clerk = .acqPut args.version ∧ args.value = L.clientID a.clerk ∧ L.Free s) ∨
     (s.pc a.clerk = .relPut args.version ∧ args.value = "" ∧ L.Owns s a.clerk)) := by
  obtain ⟨hver, b, hcur⟩ := hi.conditional.current hf.log hb ha hreq hkey hv
  refine ⟨?_, ?_⟩
  · rintro c v (hc | hc)
    · exact Nat.lt_succ_of_le (hi.acqPut hc).1
    · exact Nat.lt_succ_of_le (hi.relPut hc).1
  · have hcall := hf.calling a.clerk a.op a.req b hcur
    rw [hreq] at hcall
    rcases calls_put hcall hkey with ⟨hpc, hval⟩ | ⟨hpc, hval⟩
    · exact .inl ⟨hpc, hval, (hi.acqPut hpc).2 hver⟩
    · exact .inr ⟨hpc, hval, (hi.relPut hpc).2 hver⟩

theorem inv_exec_applied (hf : L.program.ServiceFacts s) (hi : Inv L s) (hb : L.ver s < 2 ^ 64)
    (hk : s.kv.attempts[k]? = some a) {args : PutArgs} (hreq : a.req = .put args)
    (hkey : args.key = L.lockName)
    (hv : args.version = (s.kv.server.versionMap L.lockName).getD 0)
    (hver : L.ver ⟨s.kv.exec k a, s.pc⟩ = L.ver s + 1)
    (hkv : (s.kv.exec k a).server.kv L.lockName = some args.value) :
    Inv L ⟨s.kv.exec k a, s.pc⟩ := by
  obtain ⟨hpcs, hcase⟩ := applied_cases hf hi hb (List.mem_of_getElem? hk) hreq hkey hv
  have hnot : ∀ c, L.Owns s c → ∃ v, s.pc c = .relPut v := by
    intro c hc
    rcases hcase with ⟨-, -, hfree⟩ | ⟨hpc, -, hown⟩
    · exact absurd hc (hfree.not_owns c)
    · exact ⟨args.version, hown.unique hc ▸ hpc⟩
  have hcond := conditional_exec hf.log hb hi.conditional hk
  refine ⟨hcond.pending, hcond.executed, ?_, ?_⟩
  · intro c
    change PcInv L _ c (s.pc c)
    cases hpc : s.pc c with
    | acqPut v =>
      have hlt := hpcs c v (.inl hpc)
      exact ⟨hver ▸ hlt.le, fun heq => absurd (heq.trans hver) hlt.ne⟩
    | relPut v =>
      have hlt := hpcs c v (.inr hpc)
      exact ⟨hver ▸ hlt.le, fun heq => absurd (heq.trans hver) hlt.ne⟩
    | holding =>
      obtain ⟨v, hv⟩ := hnot c (hi.holding hpc)
      rw [hpc] at hv
      cases hv
    | outside | acqGet | acqCheck | relGet => trivial
  · intro c i req b k' reply hw hreply hret
    rcases reply?_exec hreply with hold | ⟨rfl, rfl⟩
    · obtain ⟨v, hv⟩ := hnot c (hi.coming c i req b k' reply hw hold hret)
      rcases returns_holding hret with hpc | ⟨_, hpc, -⟩ | ⟨hpc | hpc, -⟩ <;>
        simp [hv] at hpc
    · obtain rfl := Option.some.inj ((hf.clerks.waiting c i req b k' hw).symm.trans hk)
      rcases hcase with ⟨-, hval, -⟩ | ⟨hpc, -, -⟩
      · exact hkv.trans (congrArg some hval)
      · rcases returns_holding hret with h | ⟨_, h, -⟩ | ⟨h | h, -⟩ <;> simp [hpc] at h

/-- The reply to a call on the lock's key that makes its client hold the lock shows the
client's id, unless it is the reply to a successful `Put`. -/
theorem owns_of_reply {c : ι} {req : Request} {b : Bool} (hi : Inv L s)
    (hcall : L.calls c (s.pc c) req = true)
    (hput : ∀ args, req = .put args → args.key = L.lockName →
      (s.kv.server.handle req).2 ≠ .put ⟨.ok⟩)
    (h : L.returns c (s.pc c) (clerkResult b (s.kv.server.handle req).2) = .holding) :
    L.Owns s c := by
  rcases returns_holding h with hpc | ⟨v, hpc, hout⟩ | ⟨hpc, g, hout, hval⟩
  · exact hi.holding hpc
  · have hreq : req = .put ⟨L.lockName, L.clientID c, v⟩ := by simpa [hpc, Locks.calls] using hcall
    subst hreq
    refine absurd ?_ (hput _ rfl rfl)
    exact clerkResult_eq_ok hout
  · have hreq : req = .get ⟨L.lockName⟩ := by
      rcases hpc with hpc | hpc <;> simpa [hpc, Locks.calls] using hcall
    subst hreq
    obtain rfl : clerkGet (s.kv.server.get ⟨L.lockName⟩) = g := Reply.get.inj hout
    cases hkv : s.kv.server.kv L.lockName with
    | none => simp [clerkGet, KVServer.get, hkv, (L.clientID_ne_empty c).symm] at hval
    | some value =>
      have hvalue : value = L.clientID c := by simpa [clerkGet, KVServer.get, hkv] using hval
      exact hkv.trans (congrArg some hvalue)

theorem inv_exec_other (hf : L.program.ServiceFacts s) (hi : Inv L s) (hb : L.ver s < 2 ^ 64)
    (hk : s.kv.attempts[k]? = some a)
    (hput : ∀ args, a.req = .put args → args.key = L.lockName →
      (s.kv.server.handle a.req).2 ≠ .put ⟨.ok⟩)
    (hver : L.ver ⟨s.kv.exec k a, s.pc⟩ = L.ver s)
    (hkv : (s.kv.exec k a).server.kv L.lockName = s.kv.server.kv L.lockName) :
    Inv L ⟨s.kv.exec k a, s.pc⟩ := by
  have howns : ∀ c, L.Owns ⟨s.kv.exec k a, s.pc⟩ c ↔ L.Owns s c := fun c => by
    simp only [Locks.Owns, hkv]
  have hcond := conditional_exec hf.log hb hi.conditional hk
  refine ⟨hcond.pending, hcond.executed, ?_, ?_⟩
  · exact fun c => (pcInv_congr hver hkv c _).mpr (hi.pcs c)
  · intro c i req b k' reply hw hreply hret
    rw [howns]
    rcases reply?_exec hreply with hold | ⟨rfl, rfl⟩
    · exact hi.coming c i req b k' reply hw hold hret
    · obtain rfl := Option.some.inj ((hf.clerks.waiting c i req b k' hw).symm.trans hk)
      have hcall := hf.calling c i req b (by rw [show s.kv.clerks c = _ from hw]; rfl)
      exact owns_of_reply hi hcall hput hret

theorem inv_exec (hf : L.program.ServiceFacts s) (hi : Inv L s) (hb : L.ver s < 2 ^ 64)
    (hk : s.kv.attempts[k]? = some a) : Inv L ⟨s.kv.exec k a, s.pc⟩ := by
  rcases exec_key s.kv k a L.lockName with ⟨args, hreq, hkey, -, hv, hver, hkv⟩ | ⟨hput, hver, hkv⟩
  · exact inv_exec_applied hf hi hb hk hreq hkey hv hver hkv
  · exact inv_exec_other hf hi hb hk hput hver hkv

/-- What a client knows from a `Get` of the lock's key. -/
theorem get_result (hf : L.program.ServiceFacts s) (hb : L.ver s < 2 ^ 64) {c : ι} {i : ℕ}
    {b : Bool} {reply : Reply} {g : GetReply}
    (hw : s.kv.clerks c = .waiting i (.get ⟨L.lockName⟩) b k) (hr : s.kv.reply? k = some reply)
    (hg : clerkResult b reply = .get g) (hne : g.err ≠ .errNoKey) :
    g.version.toNat ≤ L.ver s ∧
      (g.version.toNat = L.ver s → s.kv.server.kv L.lockName = some g.value) := by
  obtain ⟨r, hmem, -, -, hreq, rfl⟩ := waiting_run hf.clerks hf.log hw hr
  obtain ⟨g', hreply, hcase⟩ := hf.log.replays.get_entry hb hmem hreq
  rw [hreply] at hg
  obtain rfl : clerkGet g' = g := Reply.get.inj hg
  rcases hcase with rfl | ⟨hok, hle, hval⟩
  · exact absurd rfl hne
  · rw [clerkGet, hok]
    exact ⟨hle, hval⟩

theorem pcInv_returns (hf : L.program.ServiceFacts s) (hi : Inv L s) (hb : L.ver s < 2 ^ 64)
    {c : ι} {i : ℕ} {req : Request} {b : Bool} {reply : Reply}
    (hw : s.kv.clerks c = .waiting i req b k) (hr : s.kv.reply? k = some reply) :
    PcInv L s c (L.returns c (s.pc c) (clerkResult b reply)) := by
  have hcall : L.calls c (s.pc c) req = true := hf.calling c i req b (by rw [hw]; rfl)
  have hcoming := hi.coming c i req b k reply hw hr
  have hpcs := hi.pcs c
  generalize hout : clerkResult b reply = out at hcoming ⊢
  generalize s.pc c = pc at hcall hcoming hpcs ⊢
  have hreturned := L.returned c pc out
  generalize L.returns c pc out = pc' at hcoming hreturned ⊢
  cases hreturned with
  | stay => exact hpcs
  | absent g he =>
    refine ⟨Nat.zero_le _, ?_⟩
    intro hver
    have hcount := (hf.log.replays.counts L.lockName hb).kv_iff
    have hzero : version s.kv.log L.lockName = 0 := hver.symm
    exact .inl (by simpa [hzero] using hcount)
  | free g he hv =>
    obtain rfl : req = .get ⟨L.lockName⟩ := by simpa [Locks.calls] using hcall
    obtain ⟨hle, hval⟩ := get_result hf hb hw hr hout he
    exact ⟨hle, fun heq => .inr (hv ▸ hval heq)⟩
  | owned g he hv =>
    obtain rfl : req = .get ⟨L.lockName⟩ := by simpa [Locks.calls] using hcall
    obtain ⟨hle, hval⟩ := get_result hf hb hw hr hout he
    exact ⟨hle, fun heq => (hval heq).trans (congrArg some hv)⟩
  | already | acquired | checked => exact hcoming rfl
  | unsure | refused | failed | lost | released | again => trivial

/-- A client's own moves lead to places where it need not know anything. -/
theorem pcInv_moves {c : ι} {pc pc' : Pc} (hm : Locks.moves pc pc' = true) : PcInv L s c pc' := by
  cases pc' <;> simp [PcInv, Locks.moves] at hm ⊢

variable [DecidableEq ι]

theorem conditional_of_step (hf : L.program.ServiceFacts s) (hi : Inv L s)
    (hb : L.ver s < 2 ^ 64) (h : L.program.Step s t) : Conditional L.lockName t.kv := by
  refine Program.conditional_step hf hb hi.conditional ?_ h
  intro c args hcall hkey
  rcases calls_put hcall hkey with ⟨hpc, -⟩ | ⟨hpc, -⟩
  · exact (hi.acqPut hpc).1
  · exact (hi.relPut hpc).1

theorem inv_step (hf : L.program.ServiceFacts s) (hi : Inv L s) (hb : L.ver s < 2 ^ 64)
    (h : L.program.Step s t) : Inv L t := by
  have hcond := conditional_of_step hf hi hb h
  rcases h.log with ⟨hlog, hserver⟩ | ⟨k, a, hk, rfl⟩
  · have hver : L.ver t = L.ver s := by rw [Locks.ver, hlog, Locks.ver]
    refine ⟨hcond.pending, hcond.executed, ?_, ?_⟩
    · intro d
      rw [pcInv_congr hver (by rw [hserver])]
      rcases h.pc d with hpc | ⟨-, hm⟩ | ⟨i, req, b, k, reply, hw, hr, hpc⟩
      · rw [hpc]
        exact hi.pcs d
      · exact pcInv_moves hm
      · rw [hpc]
        exact pcInv_returns hf hi hb hw hr
    · intro d i req b k reply hd hr hret
      obtain ⟨hd', hr', hpc⟩ := h.awaited hf.log hlog hd hr
      rw [hpc] at hret
      rw [Locks.Owns, hserver]
      exact hi.coming d i req b k reply hd' hr' hret
  · exact inv_exec hf hi hb hk

/-- The invariant holds as long as the key has had fewer than 2^64 successful `Put`s. -/
theorem inv_of_run {es : List (Action ι Pc)} (h : L.system.Run es s) (hb : L.ver s < 2 ^ 64) :
    Inv L s := by
  refine h.invariant' (I := fun _ s => L.ver s < 2 ^ 64 → Inv L s) (fun _ => inv_init L) ?_ hb
  intro es s e t hr hi hs hb
  have hstep : L.program.Step s t := .of_step hs
  have hbs : L.ver s < 2 ^ 64 := (Program.version_mono hstep L.lockName).trans_lt hb
  exact inv_step (Program.serviceFacts hr) (hi hbs) hbs hstep

/-- At no moment of a run are two clients both between the return of `Acquire` and the next
call of `Release`. -/
theorem lock_mutualExclusion {es : List (Action ι Pc)} (h : L.system.Run es s)
    (hb : L.ver s < 2 ^ 64) {c d : ι} (hc : s.pc c = .holding) (hd : s.pc d = .holding) :
    c = d := by
  have hi := inv_of_run h hb
  exact (hi.holding hc).unique (hi.holding hd)

/-- Two clients with the ids 1 and 2. -/
def twoLocks : Locks Bool where
  lockName := "l"
  nrand := fun c => if c then 2 else 1
  distinct := by
    intro c d h
    cases c <;> cases d <;> revert h <;> decide

/-- The reply to the first client's `Put` is lost and its retry is answered `ErrMaybe`; it
finds its id in the check. The second client has called `Acquire` and sees the id. -/
def contendedRun : List (Action Bool Pc) :=
  [.move false .acqGet, .move true .acqGet,
    .kv (.invoke false (.get ⟨"l"⟩)), .kv (.send false), .kv (.exec 0), .kv (.deliver false),
    .kv (.invoke false (.put ⟨"l", "1", 0⟩)), .kv (.send false), .kv (.exec 1), .kv (.fail false),
    .kv (.invoke true (.get ⟨"l"⟩)), .kv (.send true), .kv (.exec 2), .kv (.deliver true),
    .kv (.send false), .kv (.exec 3), .kv (.deliver false),
    .kv (.invoke false (.get ⟨"l"⟩)), .kv (.send false), .kv (.exec 4), .kv (.deliver false)]

theorem contendedRun_one_holder : ∃ s, twoLocks.system.Run contendedRun s ∧
    s.pc false = .holding ∧ s.pc true = .acqGet ∧ ∀ d, s.pc d = .holding → d = false := by
  have hrun := System.run_exec_get twoLocks.system contendedRun (by decide)
  refine ⟨_, hrun, by decide, by decide, ?_⟩
  intro d hd
  refine lock_mutualExclusion hrun ?_ hd (by decide)
  refine List.countP_le_length.trans_lt ?_
  decide

end Lock
