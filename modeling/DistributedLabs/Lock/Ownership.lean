import DistributedLabs.Lock.MutualExclusion

/-! The lock is never orphaned. The id of a client gets under the lock's key only by the
`Acquire` it is in, and when `Release` is about to return, the id is no longer there. -/
namespace Lock
open KVSrv Runs

variable {ι : Type*} {L : Locks ι} {s t : Clients ι Pc}

/-- Only `Release` leads outside: it found the id gone, or its own `Put` was applied. -/
theorem returns_outside {c : ι} {pc : Pc} {out : Reply} (h : L.returns c pc out = .outside) :
    pc = .outside ∨ (∃ v, pc = .relPut v ∧ out = .put ⟨.ok⟩) ∨
    (pc = .relGet ∧ ∃ g, out = .get g ∧ (g.err = .errNoKey ∨ g.value ≠ L.clientID c)) := by
  have hret := L.returned c pc out
  rw [h] at hret
  cases hret with
  | stay => exact .inl rfl
  | lost g hg => exact .inr (.inr ⟨rfl, g, rfl, hg⟩)
  | released v => exact .inr (.inl ⟨v, rfl, rfl⟩)

/-- The stored value is an id of a client that has called `Acquire` and not yet returned from
`Release`; a client whose `Release` is about to return is not that client. -/
structure Owned (L : Locks ι) (s : Clients ι Pc) : Prop where
  ids : ∀ value, s.kv.server.kv L.lockName = some value → value = "" ∨ ∃ c, value = L.clientID c
  outside : ∀ c, s.pc c = .outside → ¬ L.Owns s c
  leaving : ∀ c i req b k reply, s.kv.clerks c = .waiting i req b k → s.kv.reply? k = some reply →
    L.returns c (s.pc c) (clerkResult b reply) = .outside → ¬ L.Owns s c

theorem owned_init (L : Locks ι) : Owned L ⟨Service.init ι, fun _ => .outside⟩ := by
  constructor <;> simp [Service.init, makeKVServer, Locks.Owns]

variable {k : ℕ} {a : Attempt ι}

/-- A `Put` that is applied stores the id of a client inside `Acquire`, or no id. -/
theorem owned_exec_applied (hf : L.program.ServiceFacts s) (hi : Inv L s)
    (hb : L.ver s < 2 ^ 64) (hk : s.kv.attempts[k]? = some a) {args : PutArgs}
    (hreq : a.req = .put args) (hkey : args.key = L.lockName)
    (hv : args.version = (s.kv.server.versionMap L.lockName).getD 0)
    (hkv : (s.kv.exec k a).server.kv L.lockName = some args.value) :
    Owned L ⟨s.kv.exec k a, s.pc⟩ := by
  obtain ⟨-, hcase⟩ := applied_cases hf hi hb (List.mem_of_getElem? hk) hreq hkey hv
  have howner : ∀ c, L.Owns ⟨s.kv.exec k a, s.pc⟩ c → s.pc c = .acqPut args.version := by
    intro c hc
    have hvalue : args.value = L.clientID c := Option.some.inj (hkv.symm.trans hc)
    rcases hcase with ⟨hpc, hval, -⟩ | ⟨-, hval, -⟩
    · rwa [← L.distinct (hval.symm.trans hvalue)]
    · exact absurd (hvalue.symm.trans hval) (L.clientID_ne_empty c)
  constructor
  · intro value hvalue
    obtain rfl : args.value = value := Option.some.inj (hkv.symm.trans hvalue)
    rcases hcase with ⟨-, hval, -⟩ | ⟨-, hval, -⟩
    · exact .inr ⟨a.clerk, hval⟩
    · exact .inl hval
  · intro c hc hown
    have hpc : s.pc c = .outside := hc
    rw [howner c hown] at hpc
    contradiction
  · intro c i req b k' reply _ _ hret hown
    have hpc := howner c hown
    rcases returns_outside hret with h | ⟨v, h, -⟩ | ⟨h, -⟩ <;> simp [hpc] at h

/-- The reply to a call that makes its client leave `Release` shows that its id is gone. -/
theorem not_owns_of_reply {c : ι} {req : Request} {b : Bool} (ho : Owned L s)
    (hcall : L.calls c (s.pc c) req = true)
    (hput : ∀ args, req = .put args → args.key = L.lockName →
      (s.kv.server.handle req).2 ≠ .put ⟨.ok⟩)
    (h : L.returns c (s.pc c) (clerkResult b (s.kv.server.handle req).2) = .outside) :
    ¬ L.Owns s c := by
  rcases returns_outside h with hpc | ⟨v, hpc, hout⟩ | ⟨hpc, g, hout, hg⟩
  · exact ho.outside c hpc
  · obtain rfl : req = .put ⟨L.lockName, "", v⟩ := by simpa [hpc, Locks.calls] using hcall
    exact absurd (clerkResult_eq_ok hout) (hput _ rfl rfl)
  · obtain rfl : req = .get ⟨L.lockName⟩ := by simpa [hpc, Locks.calls] using hcall
    obtain rfl : clerkGet (s.kv.server.get ⟨L.lockName⟩) = g := Reply.get.inj hout
    intro hown
    have hkv : s.kv.server.kv L.lockName = some (L.clientID c) := hown
    simp [clerkGet, KVServer.get, hkv] at hg

theorem owned_exec_other (hf : L.program.ServiceFacts s) (ho : Owned L s)
    (hk : s.kv.attempts[k]? = some a)
    (hput : ∀ args, a.req = .put args → args.key = L.lockName →
      (s.kv.server.handle a.req).2 ≠ .put ⟨.ok⟩)
    (hkv : (s.kv.exec k a).server.kv L.lockName = s.kv.server.kv L.lockName) :
    Owned L ⟨s.kv.exec k a, s.pc⟩ := by
  have howns : ∀ c, L.Owns ⟨s.kv.exec k a, s.pc⟩ c ↔ L.Owns s c := fun c => by
    simp only [Locks.Owns, hkv]
  constructor
  · intro value hvalue
    exact ho.ids value (hkv.symm.trans hvalue)
  · intro c hc
    rw [howns]
    exact ho.outside c hc
  · intro c i req b k' reply hw hreply hret
    rw [howns]
    rcases reply?_exec hreply with hold | ⟨rfl, rfl⟩
    · exact ho.leaving c i req b k' reply hw hold hret
    · obtain rfl := Option.some.inj ((hf.clerks.waiting c i req b k' hw).symm.trans hk)
      have hcall := hf.calling c i req b (by rw [show s.kv.clerks c = _ from hw]; rfl)
      exact not_owns_of_reply ho hcall hput hret

variable [DecidableEq ι]

theorem owned_step (hf : L.program.ServiceFacts s) (hi : Inv L s) (hb : L.ver s < 2 ^ 64)
    (ho : Owned L s) (h : L.program.Step s t) : Owned L t := by
  rcases h.log with ⟨hlog, hserver⟩ | ⟨k, a, hk, rfl⟩
  · have howns : ∀ d, L.Owns t d ↔ L.Owns s d := fun d => by rw [Locks.Owns, hserver, Locks.Owns]
    constructor
    · rw [hserver]
      exact ho.ids
    · intro d hd
      rw [howns]
      rcases h.pc d with hpc | ⟨-, hm⟩ | ⟨i, req, b, k, reply, hw, hr, hpc⟩
      · exact ho.outside d (hpc.symm.trans hd)
      · have hm : Locks.moves (s.pc d) (t.pc d) = true := hm
        simp [hd, Locks.moves] at hm
      · exact ho.leaving d i req b k reply hw hr (hpc.symm.trans hd)
    · intro d i req b k reply hd hr hret
      rw [howns]
      obtain ⟨hd', hr', hpc⟩ := h.awaited hf.log hlog hd hr
      rw [hpc] at hret
      exact ho.leaving d i req b k reply hd' hr' hret
  · rcases exec_key s.kv k a L.lockName with ⟨args, hreq, hkey, -, hv, -, hkv⟩ | ⟨hput, -, hkv⟩
    · exact owned_exec_applied hf hi hb hk hreq hkey hv hkv
    · exact owned_exec_other hf ho hk hput hkv

theorem owned_of_run {es : List (Action ι Pc)} (h : L.system.Run es s) (hb : L.ver s < 2 ^ 64) :
    Owned L s := by
  refine h.invariant' (I := fun _ s => L.ver s < 2 ^ 64 → Owned L s) (fun _ => owned_init L) ?_ hb
  intro es s e t hr ho hs hb
  have hstep : L.program.Step s t := .of_step hs
  have hbs : L.ver s < 2 ^ 64 := (Program.version_mono hstep L.lockName).trans_lt hb
  exact owned_step (Program.serviceFacts hr) (inv_of_run hr hbs) hbs (ho hbs) hstep

/-- A stored id is that of a client inside `Acquire`, holding the lock, or inside `Release`;
it is never that of a client which has returned from `Release`. -/
theorem lock_not_orphaned {es : List (Action ι Pc)} (h : L.system.Run es s)
    (hb : L.ver s < 2 ^ 64) :
    (∀ value, s.kv.server.kv L.lockName = some value → value ≠ "" →
      ∃ c, value = L.clientID c ∧ s.pc c ≠ .outside) ∧
    ∀ c, s.pc c = .outside → s.kv.server.kv L.lockName ≠ some (L.clientID c) := by
  have ho := owned_of_run h hb
  refine ⟨?_, ho.outside⟩
  intro value hkv hne
  rcases ho.ids value hkv with hempty | ⟨c, rfl⟩
  · exact absurd hempty hne
  · exact ⟨c, rfl, fun hpc => ho.outside c hpc hkv⟩

/-- The client of `contendedRun` releases the lock; the reply to its `Put` is lost, its retry
is answered `ErrMaybe`, and its next `Get` shows that the id is gone. -/
def releasedRun : List (Action Bool Pc) :=
  [contendedRun, [.move false .relGet,
    .kv (.invoke false (.get ⟨"l"⟩)), .kv (.send false), .kv (.exec 5), .kv (.deliver false),
    .kv (.invoke false (.put ⟨"l", "", 1⟩)), .kv (.send false), .kv (.exec 6), .kv (.fail false),
    .kv (.send false), .kv (.exec 7), .kv (.deliver false),
    .kv (.invoke false (.get ⟨"l"⟩)), .kv (.send false), .kv (.exec 8),
    .kv (.deliver false)]].flatten

theorem releasedRun_not_orphaned :
    (∃ s, twoLocks.system.Run contendedRun s ∧ s.kv.server.kv "l" = some "1" ∧
      ∃ c, "1" = twoLocks.clientID c ∧ s.pc c ≠ .outside) ∧
    ∃ s, twoLocks.system.Run releasedRun s ∧ s.pc false = .outside ∧
      s.kv.server.kv "l" ≠ some (twoLocks.clientID false) := by
  constructor
  · obtain ⟨s, hr, hkv, hlen⟩ := System.exists_run twoLocks.system contendedRun
      (fun s => s.kv.server.kv "l" = some "1" ∧ s.kv.log.length = 5) (by decide +kernel)
    have hb : twoLocks.ver s < 2 ^ 64 := by
      refine List.countP_le_length.trans_lt ?_
      rw [hlen]
      decide
    exact ⟨s, hr, hkv, (lock_not_orphaned hr hb).1 "1" hkv (by decide)⟩
  · obtain ⟨s, hr, hpc, hlen⟩ := System.exists_run twoLocks.system releasedRun
      (fun s => s.pc false = .outside ∧ s.kv.log.length = 9) (by decide +kernel)
    have hb : twoLocks.ver s < 2 ^ 64 := by
      refine List.countP_le_length.trans_lt ?_
      rw [hlen]
      decide
    exact ⟨s, hr, hpc, (lock_not_orphaned hr hb).2 false hpc⟩

end Lock
