import DistributedLabs.KVSrv.Accounts
import DistributedLabs.KVTest.Puts

/-! What every run of the put test keeps: the keys that clients go on with exist, and so no client
meets an error that stops it. -/
namespace KVTest
open KVSrv Runs
variable {J : JsonV} {ka : List String} {rk : Bool} {n : ℕ} {s t : Clients (Fin n) PutPc}

theorem PutLoop.start_ver (ka : List String) (k : String) : (PutLoop.start ka).ver k = 0 := by
  suffices hall : ∀ m : AList fun _ : String => Tversion, (m.lookup k).getD 0 = 0 →
      ((ka.foldl (fun m k => m.insert k 0) m).lookup k).getD 0 = 0 from hall ∅ (by simp)
  induction ka with
  | nil => exact fun m hm => hm
  | cons k' ka ih =>
    intro m hm
    apply ih
    by_cases hk : k = k'
    · subst hk
      simp
    · rwa [AList.lookup_insert_ne hk]

theorem PutLoop.done_ver (p : PutLoop) (k x : String) (ver : Tversion) (ok : Bool) :
    (p.done k ver ok).ver x = if x = k then ver else p.ver x := by
  have hinsert : (p.done k ver ok).verm = p.verm.insert k ver := by
    unfold PutLoop.done
    split <;> rfl
  unfold PutLoop.ver
  rw [hinsert]
  by_cases hx : x = k
  · subst hx
    simp
  · rw [if_neg hx, AList.lookup_insert_ne hx]

/-- The request is one that the server can answer: it carries an entry, and its key exists
unless it is to create it. -/
def Warranted (J : JsonV) (log : List Exec) : Request → Prop
  | .put args => (∃ e, args.value = J.marshal e) ∧
      (args.version = 0 ∨ 0 < version log args.key)
  | .get args => 0 < version log args.key

/-- The run has found its key, or created it. -/
def Answered (log : List Exec) (r : Exec) : Prop :=
  0 < version log r.req.key ∧ r.reply ≠ .put ⟨.errNoKey⟩ ∧ r.reply ≠ .get { err := .errNoKey }

/-- The versions that the loop holds are 0, or of keys that exist. -/
def PutLoop.Known (log : List Exec) (p : PutLoop) : Prop :=
  ∀ k, p.ver k = 0 ∨ 0 < version log k

/-- What a client may rely on: the keys it goes on with exist, and after an `OK` its entry was
written. No client has stopped. -/
def PutPc.Known (J : JsonV) (log : List Exec) (me : Fin n) : PutPc → Prop
  | .select p => p.Known log
  | .putJson p k ver => p.Known log ∧ (ver = 0 ∨ 0 < version log k)
  | .getJson p k ver err => p.Known log ∧ 0 < version log k ∧
      (err = .ok → ∃ r ∈ log, r.appliedTo k = true ∧ r.req = .put ⟨k, J.marshal ⟨me, ver⟩, ver⟩)
  | .returned p => p.Known log
  | .stopped _ => False

structure PutInv (J : JsonV) (s : Clients (Fin n) PutPc) : Prop where
  sent : ∀ a ∈ s.kv.attempts, Warranted J s.kv.log a.req
  answered : ∀ r ∈ s.kv.log, Answered s.kv.log r
  known : ∀ c, (s.pc c).Known J s.kv.log c

section mono
variable {log more : List Exec}

theorem Warranted.mono {req : Request} (h : Warranted J log req) :
    Warranted J (log ++ more) req := by
  cases req with
  | get args => exact Nat.lt_of_lt_of_le h (version_le_append log more args.key)
  | put args =>
    refine ⟨h.1, ?_⟩
    cases h.2 with
    | inl hzero => exact .inl hzero
    | inr hpos => exact .inr (Nat.lt_of_lt_of_le hpos (version_le_append log more args.key))

theorem Answered.mono {r : Exec} (h : Answered log r) : Answered (log ++ more) r :=
  ⟨Nat.lt_of_lt_of_le h.1 (version_le_append log more _), h.2⟩

theorem PutLoop.Known.mono {p : PutLoop} (h : p.Known log) : p.Known (log ++ more) := by
  intro k
  cases h k with
  | inl hzero => exact .inl hzero
  | inr hpos => exact .inr (Nat.lt_of_lt_of_le hpos (version_le_append log more k))

theorem PutPc.Known.mono {me : Fin n} {pc : PutPc} (h : pc.Known J log me) :
    pc.Known J (log ++ more) me := by
  cases pc with
  | select p => exact PutLoop.Known.mono h
  | putJson p k ver =>
    refine ⟨h.1.mono, ?_⟩
    cases h.2 with
    | inl hzero => exact .inl hzero
    | inr hpos => exact .inr (Nat.lt_of_lt_of_le hpos (version_le_append log more k))
  | getJson p k ver err =>
    obtain ⟨hp, hpos, hmine⟩ := h
    refine ⟨hp.mono, Nat.lt_of_lt_of_le hpos (version_le_append log more k), ?_⟩
    intro herr
    obtain ⟨r, hr, happ, hreq⟩ := hmine herr
    exact ⟨r, List.mem_append_left _ hr, happ, hreq⟩
  | returned p => exact PutLoop.Known.mono h
  | stopped p => exact h

end mono

/-- What a client that knows its keys calls is warranted. -/
theorem warranted_of_calls {c : Fin n} {pc : PutPc} {log : List Exec} {req : Request}
    (hk : pc.Known J log c) (h : putCalls J c pc req = true) : Warranted J log req := by
  cases pc with
  | putJson p k ver =>
    obtain rfl : req = .put ⟨k, J.marshal ⟨c, ver⟩, ver⟩ := by simpa [putCalls] using h
    exact ⟨⟨_, rfl⟩, hk.2⟩
  | getJson p k ver err =>
    obtain rfl : req = .get ⟨k⟩ := by simpa [putCalls] using h
    exact hk.2.1
  | select p | returned p | stopped p => simp [putCalls] at h

/-- A warranted request finds its key, or creates it. -/
theorem answered_exec (hl : LogFacts s.kv) (hb : ∀ x, version s.kv.log x < 2 ^ 64) {k : ℕ}
    {a : Attempt (Fin n)} (hw : Warranted J s.kv.log a.req) :
    Answered (s.kv.exec k a).log ⟨k, a.op, s.kv.now, a.req, (s.kv.server.handle a.req).2⟩ := by
  cases hreq : a.req with
  | get args =>
    rw [hreq] at hw
    have hpos : 0 < version s.kv.log args.key := hw
    have hsome := (hl.replays.counts args.key (hb args.key)).kv_iff.mpr hpos
    obtain ⟨value, hvalue⟩ := Option.isSome_iff_exists.mp hsome
    refine ⟨?_, by simp [KVServer.handle], by simp [KVServer.handle, KVServer.get, hvalue]⟩
    rw [Service.exec_log]
    exact Nat.lt_of_lt_of_le hpos (version_le_append _ _ _)
  | put args =>
    rw [hreq] at hw
    have hnone := hl.replays.versionMap_eq_none args.key
    rcases s.kv.server.put_cases args with ⟨-, h⟩ | ⟨hmatch, hmiss, -⟩ | ⟨-, hex, h⟩
    · refine ⟨?_, by simp [KVServer.handle, h], by simp [KVServer.handle]⟩
      rw [Service.exec_log, hreq, version_snoc_of_applied]
      · exact Nat.succ_pos _
      · exact (Exec.appliedTo_iff _ _).mpr ⟨args, rfl, rfl, by simp [KVServer.handle, h]⟩
    · cases hw.2 with
      | inl hzero => exact absurd (by simp [KVServer.Matches, hzero, hmiss]) hmatch
      | inr hpos => exact absurd (hnone.mp hmiss) hpos.ne'
    · refine ⟨?_, by simp [KVServer.handle, h], by simp [KVServer.handle]⟩
      have hpos : version s.kv.log args.key ≠ 0 := by
        intro hzero
        rw [hnone.mpr hzero] at hex
        cases hex
      rw [Service.exec_log]
      exact Nat.lt_of_lt_of_le (Nat.pos_of_ne_zero hpos) (version_le_append _ _ _)

/-- The results that a `Put` of the test may give. -/
theorem Answered.put_result (hl : LogFacts s.kv) {r : Exec} (hr : r ∈ s.kv.log)
    (ha : Answered s.kv.log r) {args : PutArgs} (hreq : r.req = .put args) (b : Bool) :
    clerkResult b r.reply = .put ⟨.ok⟩ ∨ clerkResult b r.reply = .put ⟨.errVersion⟩ ∨
      clerkResult b r.reply = .put ⟨.errMaybe⟩ := by
  obtain ⟨u, hu⟩ := hl.replays.exists_handle hr
  have hnoKey := ha.2.1
  rw [hreq, KVServer.handle] at hu
  rcases u.put_cases args with ⟨-, h⟩ | ⟨-, -, h⟩ | ⟨-, -, h⟩
  · rw [hu, h]
    exact .inl rfl
  · rw [hu, h] at hnoKey
    exact absurd rfl hnoKey
  · rw [hu, h]
    cases b with
    | true => exact .inr (.inl rfl)
    | false => exact .inr (.inr rfl)

section deliver
variable {c : Fin n} {p : PutLoop} {x : String} {ver : Tversion} {i k : ℕ} {b : Bool}
  {reply : Reply}

/-- After its `Put` a client knows that the key exists, and that its entry is written if the
result is `OK`. -/
theorem known_put (hf : (oneClientPut J ka rk n).ServiceFacts s) (hI : PutInv J s)
    (hpc : s.pc c = .putJson p x ver)
    (hw : s.kv.clerks c = .waiting i (.put ⟨x, J.marshal ⟨c, ver⟩, ver⟩) b k)
    (hr : s.kv.reply? k = some reply) :
    (putReturns J c (s.pc c) (clerkResult b reply)).Known J s.kv.log c := by
  obtain ⟨r, hmem, -, -, hreq, rfl⟩ := waiting_run hf.clerks hf.log hw hr
  obtain ⟨hpos, hnoKey, -⟩ := hI.answered r hmem
  rw [hreq] at hpos
  have hloop : p.Known s.kv.log := by
    have hknown := hI.known c
    rw [hpc] at hknown
    exact hknown.1
  obtain ⟨u, hu⟩ := hf.log.replays.exists_handle hmem
  rw [hreq, KVServer.handle] at hu
  rcases u.put_cases ⟨x, J.marshal ⟨c, ver⟩, ver⟩ with ⟨-, h⟩ | ⟨-, -, h⟩ | ⟨-, -, h⟩
  · rw [h] at hu
    rw [hpc, hu]
    refine ⟨hloop, hpos, fun _ => ⟨r, hmem, ?_, hreq⟩⟩
    exact (Exec.appliedTo_iff x r).mpr ⟨_, hreq, rfl, hu⟩
  · rw [h] at hu
    exact absurd hu hnoKey
  · rw [h] at hu
    rw [hpc, hu]
    cases b with
    | true => exact ⟨hloop, hpos, fun herr => by cases herr⟩
    | false => exact ⟨hloop, hpos, fun herr => by cases herr⟩

/-- The `Get` of a client returns an entry, and its own if the version is the next one. -/
theorem get_entry (hf : (oneClientPut J ka rk n).ServiceFacts s)
    (hb : ∀ x, version s.kv.log x < 2 ^ 64) (hI : PutInv J s) {err : Err}
    (hpc : s.pc c = .getJson p x ver err) (hw : s.kv.clerks c = .waiting i (.get ⟨x⟩) b k)
    (hr : s.kv.reply? k = some reply) :
    ∃ (g : GetReply) (e : EntryV), clerkResult b reply = .get g ∧ g.err = .ok ∧
      g.value = J.marshal e ∧ (err = .ok → g.version = ver + 1 → e = ⟨c, ver⟩) := by
  obtain ⟨r, hmem, -, -, hreq, rfl⟩ := waiting_run hf.clerks hf.log hw hr
  obtain ⟨-, -, hnoKey⟩ := hI.answered r hmem
  obtain ⟨g, hg, hnone | ⟨hok, q, hq, args, hput, happ, hval, hver⟩⟩ :=
    hf.log.replays.read hmem hreq
  · exact absurd (hnone ▸ hg) hnoKey
  · obtain ⟨a, ha, -, hareq⟩ := hf.log.logged q hq
    have hsent := hI.sent a (List.mem_of_getElem? ha)
    rw [hareq, hput] at hsent
    obtain ⟨⟨e, he⟩, -⟩ := hsent
    refine ⟨g, e, ?_, hok, hval.trans he, ?_⟩
    · simp [hg, clerkResult, clerkGet, hok]
    · intro herr hnext
      have hknown := hI.known c
      rw [hpc] at hknown
      obtain ⟨r', hr', happ', hreq'⟩ := hknown.2.2 herr
      have hv : args.version = ver := by
        rw [hver] at hnext
        exact add_right_cancel hnext
      have hsame := hf.log.replays.eq_of_version (hb x) hr' hq happ' happ hreq' hput hv.symm
      rw [hsame, hput] at hreq'
      have hvalue : args.value = J.marshal ⟨c, ver⟩ := by
        rw [Request.put.inj hreq']
      have hround := J.roundTrip e
      rw [← he, hvalue, J.roundTrip] at hround
      exact (Option.some.inj hround).symm

theorem known_got (hf : (oneClientPut J ka rk n).ServiceFacts s)
    (hb : ∀ x, version s.kv.log x < 2 ^ 64) (hI : PutInv J s) {err : Err}
    (hpc : s.pc c = .getJson p x ver err) (hw : s.kv.clerks c = .waiting i (.get ⟨x⟩) b k)
    (hr : s.kv.reply? k = some reply) :
    (putReturns J c (s.pc c) (clerkResult b reply)).Known J s.kv.log c := by
  obtain ⟨g, e, hres, hok, hval, hmine⟩ := get_entry hf hb hI hpc hw hr
  have hknown := hI.known c
  rw [hpc] at hknown
  obtain ⟨hloop, hpos, -⟩ := hknown
  have hfine : ¬ (err = .ok ∧ g.version = ver + 1 ∧ e.id ≠ c ∧ e.v ≠ ver) := by
    rintro ⟨herr, hnext, hid, -⟩
    exact hid (by rw [hmine herr hnext])
  rw [hpc, hres]
  simp only [putReturns, onePutGot, hok, hval, J.roundTrip, if_neg hfine, ↓reduceIte]
  split
  next =>
    intro y
    rw [PutLoop.done_ver]
    by_cases hy : y = x
    · subst hy
      exact .inr hpos
    · rw [if_neg hy]
      exact hloop y
  next => exact ⟨hloop, .inr hpos⟩

end deliver

theorem putCalls_cases {c : Fin n} {pc : PutPc} {req : Request} (h : putCalls J c pc req = true) :
    (∃ p k ver, pc = .putJson p k ver ∧ req = .put ⟨k, J.marshal ⟨c, ver⟩, ver⟩) ∨
    ∃ p k ver err, pc = .getJson p k ver err ∧ req = .get ⟨k⟩ := by
  cases pc with
  | putJson p k ver => exact .inl ⟨p, k, ver, rfl, by simpa [putCalls] using h⟩
  | getJson p k ver err => exact .inr ⟨p, k, ver, err, rfl, by simpa [putCalls] using h⟩
  | select p | returned p | stopped p => simp [putCalls] at h

theorem putMoves_cases {pc pc' : PutPc} (h : putMoves ka rk pc pc' = true) :
    ∃ p, pc = .select p ∧ (pc' = .returned p ∨
      (∃ k ∈ choices ka rk, pc' = .putJson p k (p.ver k)) ∨ (ka = [] ∧ pc' = .stopped p)) := by
  cases pc with
  | select p =>
    refine ⟨p, rfl, ?_⟩
    rcases of_decide_eq_true h with hret | hput | hstop
    · exact .inl hret
    · obtain ⟨k, hk, rfl⟩ := List.mem_map.mp hput
      exact .inr (.inl ⟨k, hk, rfl⟩)
    · exact .inr (.inr hstop)
  | putJson | getJson | returned | stopped => simp [putMoves] at h

/-- A client that goes on to a control state in which it knows its keys keeps the invariant. -/
theorem putInv_update (hI : PutInv J s) (u : Service (Fin n)) (hlog : u.log = s.kv.log)
    (hatt : u.attempts = s.kv.attempts) {c : Fin n} {pc : PutPc} (hpc : pc.Known J s.kv.log c) :
    PutInv J ⟨u, Function.update s.pc c pc⟩ where
  sent := by
    rw [hlog, hatt]
    exact hI.sent
  answered := by
    rw [hlog]
    exact hI.answered
  known := by
    intro d
    rw [hlog]
    show (Function.update s.pc c pc d).Known J s.kv.log d
    by_cases hdc : d = c
    · subst hdc
      rwa [Function.update_self]
    · rw [Function.update_of_ne hdc]
      exact hI.known d

theorem putInv_step (hka : ka ≠ []) (hf : (oneClientPut J ka rk n).ServiceFacts s)
    (hb : ∀ x, version s.kv.log x < 2 ^ 64) (hI : PutInv J s)
    (h : (oneClientPut J ka rk n).Step s t) : PutInv J t := by
  cases h with
  | move c pc hc hm =>
    apply putInv_update hI s.kv rfl rfl
    have hknown := hI.known c
    obtain ⟨p, hp, rfl | ⟨k, -, rfl⟩ | ⟨hnil, -⟩⟩ := putMoves_cases hm
    · rwa [hp] at hknown
    · rw [hp] at hknown
      exact ⟨hknown, hknown k⟩
    · exact absurd hnil hka
  | invoke c req hc hreq => exact ⟨hI.sent, hI.answered, hI.known⟩
  | send c i req b hc =>
    refine ⟨?_, hI.answered, hI.known⟩
    intro a ha
    rw [Service.send_attempts, List.mem_append, List.mem_singleton] at ha
    rcases ha with ha | rfl
    · exact hI.sent a ha
    · exact warranted_of_calls (hI.known c) (hf.calling c i req b (by rw [hc]; rfl))
  | exec k a hk hr =>
    have hw := hI.sent a (List.mem_of_getElem? hk)
    refine ⟨fun a ha => (hI.sent a ha).mono, ?_, fun c => (hI.known c).mono⟩
    intro r hr
    rw [Service.exec_log, List.mem_append, List.mem_singleton] at hr
    rcases hr with hr | rfl
    · exact (hI.answered r hr).mono
    · exact answered_exec hf.log hb hw
  | deliver c i req b k reply hc hr =>
    rcases putCalls_cases (hf.calling c i req b (by rw [hc]; rfl)) with
      ⟨p, x, ver, hpc, rfl⟩ | ⟨p, x, ver, err, hpc, rfl⟩
    · exact putInv_update hI (s.kv.deliver c i _) rfl rfl (known_put hf hI hpc hc hr)
    · exact putInv_update hI (s.kv.deliver c i _) rfl rfl (known_got hf hb hI hpc hc hr)
  | fail c i req b k hc => exact ⟨hI.sent, hI.answered, hI.known⟩

theorem putInv_of_run (hka : ka ≠ []) {es : List (Action (Fin n) PutPc)}
    (h : (puts J ka rk n).Run es s) (hb : ∀ x, version s.kv.log x < 2 ^ 64) : PutInv J s := by
  revert hb
  apply h.invariant' (I := fun _ s => (∀ x, version s.kv.log x < 2 ^ 64) → PutInv J s)
  · intro _
    refine ⟨?_, ?_, ?_⟩
    · intro a ha
      cases ha
    · intro r hr
      cases hr
    · intro c k
      exact .inl (PutLoop.start_ver ka k)
  · intro es s e t hrun hI hs hb
    have hstep := Program.Step.of_step hs
    have hb' : ∀ x, version s.kv.log x < 2 ^ 64 := fun x =>
      (Program.version_mono hstep x).trans_lt (hb x)
    exact putInv_step hka (Program.serviceFacts hrun) hb' (hI hb') hstep

end KVTest
