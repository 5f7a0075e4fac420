import DistributedLabs.KVTest.Append
import DistributedLabs.KVSrv.Conditional

/-! What the stored list has to do with the clients' iterations, in every state of a run. A
tuple is in the list once its `Put` was applied, and that is decided before the client goes
on to the next iteration. -/
namespace KVTest
open KVSrv Runs
variable {J : Json} {n : ℕ} {s t : Clients (Option (Fin n)) Pc} {l : List Entry}

/-- The number of successful `Put`s to the list. -/
def ver (s : Clients (Option (Fin n)) Pc) : ℕ := version s.kv.log "k"

/-- An attempt of the operation that the client is in was applied. -/
def Landed (s : Clients (Option (Fin n)) Pc) (c : Fin n) : Prop :=
  ∃ r ∈ s.kv.log, (s.kv.clerks (some c)).current.map Prod.fst = some r.op ∧
    r.appliedTo "k" = true

/-- The counters count the iterations that have ended, by what their `Put` returned. -/
structure Loop.Fits (p : Loop) : Prop where
  i_eq : p.i = p.outcomes.length
  nok_eq : p.nok = p.outcomes.count .ok
  nmay_eq : p.nmay = p.outcomes.count .errMaybe
  ends : ∀ o ∈ p.outcomes, o = .ok ∨ o = .errMaybe

theorem Loop.fits_start : Loop.start.Fits := by
  constructor <;> simp [Loop.start]

theorem Loop.Fits.ok {p : Loop} (h : p.Fits) : p.ok.Fits where
  i_eq := by simp [Loop.ok, h.i_eq]
  nok_eq := by simp [Loop.ok, h.nok_eq]
  nmay_eq := by simp [Loop.ok, h.nmay_eq]
  ends := by
    intro o ho
    rcases List.mem_append.mp ho with ho | ho
    · exact h.ends o ho
    · exact .inl (List.mem_singleton.mp ho)

theorem Loop.Fits.maybe {p : Loop} (h : p.Fits) : p.maybe.Fits where
  i_eq := by simp [Loop.maybe, h.i_eq]
  nok_eq := by simp [Loop.maybe, h.nok_eq]
  nmay_eq := by simp [Loop.maybe, h.nmay_eq]
  ends := by
    intro o ho
    rcases List.mem_append.mp ho with ho | ho
    · exact h.ends o ho
    · exact .inr (List.mem_singleton.mp ho)

/-- The service holds the list, and the log tells which lists were read. -/
structure Stored (J : Json) (s : Clients (Option (Fin n)) Pc) (l : List Entry) : Prop where
  kv : s.kv.server.kv "k" = some (J.marshal l)
  length : l.length + 1 = ver s
  short : l.length < maxLen
  cond : Conditional "k" s.kv
  gets : ∀ r ∈ s.kv.log, r.req = .get ⟨"k"⟩ → ∃ es v, r.reply = .get ⟨J.marshal es, v, .ok⟩ ∧
    v.toNat ≤ ver s ∧ (v.toNat = ver s → es = l)
  found : ∀ r ∈ s.kv.log, ∀ args, r.req = .put args → args.key = "k" →
    r.reply ≠ .put ⟨.errNoKey⟩

theorem Stored.bound (h : Stored J s l) : version s.kv.log "k" < 2 ^ 64 := by
  have hlen : l.length + 1 = version s.kv.log "k" := h.length
  have hshort := h.short
  unfold maxLen at hshort
  omega

/-- Each client's iterations stand in increasing order. -/
def Increasing (l : List Entry) : Prop := l.Pairwise fun e f => e.id = f.id → e.n < f.n

/-- The list holds the tuples of ended iterations whose `Put` returned `OK`, may hold those
whose `Put` returned `ErrMaybe`, and holds the tuple of the current one if its `Put` landed. -/
structure Kept (s : Clients (Option (Fin n)) Pc) (l : List Entry) : Prop where
  increasing : Increasing l
  known : ∀ e ∈ l, ∃ c : Fin n, e.id = c ∧ e.n ≤ (s.pc (some c)).loop.i
  current : ∀ c : Fin n, ⟨c, (s.pc (some c)).loop.i⟩ ∈ l ↔ Landed s c
  kept : ∀ (c : Fin n) j, (s.pc (some c)).loop.outcomes[j]? = some .ok → ⟨c, j⟩ ∈ l
  fits : ∀ c : Fin n, (s.pc (some c)).loop.Fits
  puts : ∀ (c : Fin n) p es v, s.pc (some c) = .putJson p es v →
    es.length < maxLen ∧ v.toNat ≤ ver s ∧ (v.toNat = ver s → es = l ++ [⟨c, p.i⟩])

/-- The calls of the clients. -/
theorem calls_cases {c : Option (Fin n)} {pc : Pc} {req : Request} (h : calls J c pc req = true) :
    (∃ d p, c = some d ∧ pc = .getJson p ∧ req = .get ⟨"k"⟩) ∨
    ∃ d p es v, c = some d ∧ pc = .putJson p es v ∧ req = .put ⟨"k", J.marshal es, v⟩ := by
  cases c with
  | none => simp [calls] at h
  | some d =>
    cases pc with
    | getJson p => exact .inl ⟨d, p, rfl, rfl, by simpa [calls] using h⟩
    | putJson p es v => exact .inr ⟨d, p, es, v, rfl, rfl, by simpa [calls] using h⟩
    | select p | returned p | stopped p => simp [calls] at h

/-- The runs of the operation that a client is in are of the request it has made. -/
theorem req_of_current (hf : (oneClientAppend J n).ServiceFacts s) {c : Option (Fin n)} {i : ℕ}
    {req : Request} {b : Bool} (hc : (s.kv.clerks c).current = some (i, req, b)) {r : Exec}
    (hr : r ∈ s.kv.log) (hop : r.op = i) : r.req = req := by
  obtain ⟨o, ho, hin, -⟩ := hf.clerks.current c i req b hc
  obtain ⟨o', ho', hin'⟩ := logged_op hf.clerks hf.log hr
  obtain rfl : o = o' := Option.some.inj (ho.symm.trans (hop ▸ ho'))
  rw [← hin', hin]

section exec
variable {k : ℕ} {a : Attempt (Option (Fin n))}

/-- A run that does not change the list leaves everything as it is. -/
theorem landed_exec_other (c : Fin n)
    (happ : ¬ (⟨k, a.op, s.kv.now, a.req, (s.kv.server.handle a.req).2⟩ : Exec).appliedTo "k" =
      true) :
    Landed ⟨s.kv.exec k a, s.pc⟩ c ↔ Landed s c := by
  constructor
  · rintro ⟨r, hr, hop, hr'⟩
    rw [Service.exec_log, List.mem_append, List.mem_singleton] at hr
    rcases hr with hr | rfl
    · exact ⟨r, hr, hop, hr'⟩
    · exact absurd hr' happ
  · rintro ⟨r, hr, hop, hr'⟩
    exact ⟨r, List.mem_append_left _ hr, hop, hr'⟩

theorem stored_exec_other (hf : (oneClientAppend J n).ServiceFacts s) (hS : Stored J s l)
    (hk : s.kv.attempts[k]? = some a)
    (hver : version (s.kv.exec k a).log "k" = version s.kv.log "k")
    (hkv : (s.kv.exec k a).server.kv "k" = s.kv.server.kv "k") :
    Stored J ⟨s.kv.exec k a, s.pc⟩ l := by
  have hcount := hf.log.replays.counts "k" hS.bound
  refine ⟨hkv.trans hS.kv, hS.length.trans hver.symm, hS.short,
    conditional_exec hf.log hS.bound hS.cond hk, ?_, ?_⟩
  · intro r hr hreq
    have hver' : ver (⟨s.kv.exec k a, s.pc⟩ : Clients (Option (Fin n)) Pc) = ver s := hver
    rw [hver']
    rw [Service.exec_log, List.mem_append, List.mem_singleton] at hr
    rcases hr with hr | rfl
    · exact hS.gets r hr hreq
    · refine ⟨l, (s.kv.server.versionMap "k").getD 0, ?_, hcount.toNat_eq.le, fun _ => rfl⟩
      obtain hreq : a.req = .get ⟨"k"⟩ := hreq
      simp [hreq, KVServer.handle, KVServer.get, hS.kv]
  · intro r hr args hreq hkey
    rw [Service.exec_log, List.mem_append, List.mem_singleton] at hr
    rcases hr with hr | rfl
    · exact hS.found r hr args hreq hkey
    · obtain hreq : a.req = .put args := hreq
      have hsome : (s.kv.server.versionMap args.key).isSome := by
        rw [hkey, hcount.version_iff]
        have hlen : l.length + 1 = version s.kv.log "k" := hS.length
        omega
      rcases s.kv.server.put_cases args with ⟨-, h⟩ | ⟨-, hnone, -⟩ | ⟨-, -, h⟩
      · simp [hreq, KVServer.handle, h]
      · simp [hnone] at hsome
      · simp [hreq, KVServer.handle, h]

theorem kept_exec_other (hK : Kept s l)
    (hver : version (s.kv.exec k a).log "k" = version s.kv.log "k")
    (happ : ¬ (⟨k, a.op, s.kv.now, a.req, (s.kv.server.handle a.req).2⟩ : Exec).appliedTo "k" =
      true) :
    Kept ⟨s.kv.exec k a, s.pc⟩ l := by
  refine ⟨hK.increasing, hK.known, ?_, hK.kept, hK.fits, ?_⟩
  · intro c
    rw [landed_exec_other c happ]
    exact hK.current c
  · intro c p es v hpc
    have hver' : ver (⟨s.kv.exec k a, s.pc⟩ : Clients (Option (Fin n)) Pc) = ver s := hver
    rw [hver']
    exact hK.puts c p es v hpc

/-- An attempt that is applied is of a client that puts the list with its own tuple at the
end, and no attempt of that `Put` was applied before. -/
theorem applied_put (hf : (oneClientAppend J n).ServiceFacts s) (hS : Stored J s l)
    (hK : Kept s l) (ha : a ∈ s.kv.attempts) {args : PutArgs} (hreq : a.req = .put args)
    (hkey : args.key = "k") (hv : args.version = (s.kv.server.versionMap "k").getD 0) :
    ∃ (c : Fin n) (p : Loop) (es : List Entry) (v : Tversion), a.clerk = some c ∧
      s.pc (some c) = .putJson p es v ∧ es = l ++ [⟨c, p.i⟩] ∧ es.length < maxLen ∧
      args.value = J.marshal es ∧
      (s.kv.clerks (some c)).current.map Prod.fst = some a.op ∧ ¬ Landed s c := by
  obtain ⟨hver, b, hcur⟩ := hS.cond.current hf.log hS.bound ha hreq hkey hv
  have hcall := hf.calling a.clerk a.op a.req b hcur
  rcases calls_cases hcall with ⟨d, p, -, -, hget⟩ | ⟨c, p, es, v, hclerk, hpc, hput⟩
  · rw [hreq] at hget
    contradiction
  · rw [hclerk] at hpc hcur
    obtain rfl : args = ⟨"k", J.marshal es, v⟩ := by simpa [hreq] using hput
    obtain ⟨hlen, -, heq⟩ := hK.puts c p es v hpc
    refine ⟨c, p, es, v, hclerk, hpc, heq hver, hlen, rfl, by rw [hcur]; rfl, ?_⟩
    rintro ⟨r, hr, hop, -⟩
    have hop' : r.op = a.op := by simpa [hcur] using hop.symm
    have hr' := req_of_current hf hcur hr hop'
    have hlt := hS.cond.executed r hr _ (hr'.trans hreq) rfl
    omega

theorem stored_exec_applied (hf : (oneClientAppend J n).ServiceFacts s) (hS : Stored J s l)
    (hk : s.kv.attempts[k]? = some a) {args : PutArgs} (hreq : a.req = .put args)
    (hok : (s.kv.server.handle a.req).2 = .put ⟨.ok⟩) {e : Entry}
    (hlen : (l ++ [e]).length < maxLen)
    (hver : version (s.kv.exec k a).log "k" = version s.kv.log "k" + 1)
    (hkv : (s.kv.exec k a).server.kv "k" = some (J.marshal (l ++ [e]))) :
    Stored J ⟨s.kv.exec k a, s.pc⟩ (l ++ [e]) := by
  have hver' : ver (⟨s.kv.exec k a, s.pc⟩ : Clients (Option (Fin n)) Pc) = ver s + 1 := hver
  refine ⟨hkv, ?_, hlen, conditional_exec hf.log hS.bound hS.cond hk, ?_, ?_⟩
  · have := hS.length
    rw [hver', List.length_append, List.length_singleton]
    omega
  · intro r hr hget
    rw [hver']
    rw [Service.exec_log, List.mem_append, List.mem_singleton] at hr
    rcases hr with hr | rfl
    · obtain ⟨es, v, hreply, hle, -⟩ := hS.gets r hr hget
      exact ⟨es, v, hreply, by omega, by omega⟩
    · simp [hreq] at hget
  · intro r hr args' hput hkey
    rw [Service.exec_log, List.mem_append, List.mem_singleton] at hr
    rcases hr with hr | rfl
    · exact hS.found r hr args' hput hkey
    · simp [hok]

/-- The tuple that lands is the client's first one with this iteration. -/
theorem increasing_snoc (hK : Kept s l) {c : Fin n} (hnot : ¬ Landed s c) :
    Increasing (l ++ [⟨c, (s.pc (some c)).loop.i⟩]) := by
  unfold Increasing
  rw [List.pairwise_append]
  refine ⟨hK.increasing, List.pairwise_singleton _ _, ?_⟩
  intro e he f hf hid
  obtain rfl := List.mem_singleton.mp hf
  obtain ⟨d, hd, hle⟩ := hK.known e he
  obtain rfl : d = c := Fin.ext (hd.symm.trans hid)
  refine lt_of_le_of_ne hle ?_
  intro heq
  have hent : e = ⟨d, (s.pc (some d)).loop.i⟩ := by
    obtain ⟨x, y⟩ := e
    simp_all
  exact hnot ((hK.current d).mp (hent ▸ he))

theorem kept_exec_applied (hf : (oneClientAppend J n).ServiceFacts s) (hK : Kept s l)
    (hk : s.kv.attempts[k]? = some a) {c : Fin n} (hclerk : a.clerk = some c)
    (hop : (s.kv.clerks (some c)).current.map Prod.fst = some a.op) (hnot : ¬ Landed s c)
    (hver : version (s.kv.exec k a).log "k" = version s.kv.log "k" + 1)
    (happ : (⟨k, a.op, s.kv.now, a.req, (s.kv.server.handle a.req).2⟩ : Exec).appliedTo "k" =
      true) :
    Kept ⟨s.kv.exec k a, s.pc⟩ (l ++ [⟨c, (s.pc (some c)).loop.i⟩]) := by
  refine ⟨increasing_snoc hK hnot, ?_, ?_, ?_, hK.fits, ?_⟩
  · intro e he
    rcases List.mem_append.mp he with he | he
    · exact hK.known e he
    · obtain rfl := List.mem_singleton.mp he
      exact ⟨c, rfl, le_rfl⟩
  · intro d
    by_cases hdc : d = c
    · subst hdc
      refine ⟨fun _ => ⟨_, List.mem_append_right _ (List.mem_singleton_self _), hop, happ⟩, ?_⟩
      intro _
      exact List.mem_append_right _ (List.mem_singleton_self _)
    · have hne : (d : ℕ) ≠ c := fun heq => hdc (Fin.ext heq)
      have hmem : (⟨d, (s.pc (some d)).loop.i⟩ : Entry) ∈ l ++ [⟨c, (s.pc (some c)).loop.i⟩] ↔
          (⟨d, (s.pc (some d)).loop.i⟩ : Entry) ∈ l := by
        simp [hne]
      change _ ∈ l ++ [_] ↔ _
      rw [hmem, hK.current d]
      constructor
      · rintro ⟨r, hr, h⟩
        exact ⟨r, List.mem_append_left _ hr, h⟩
      · rintro ⟨r, hr, hr', h⟩
        rw [Service.exec_log, List.mem_append, List.mem_singleton] at hr
        rcases hr with hr | rfl
        · exact ⟨r, hr, hr', h⟩
        · obtain ⟨⟨i, req, b⟩, hcur, hi⟩ := Option.map_eq_some_iff.mp hr'
          obtain rfl : i = a.op := hi
          have hown := hf.clerks.attempt_owner a (List.mem_of_getElem? hk) (some d) req b hcur
          rw [hclerk] at hown
          exact absurd (Option.some.inj hown) hdc
  · intro d j hj
    exact List.mem_append_left _ (hK.kept d j hj)
  · intro d p es v hpc
    have hver' : ver (⟨s.kv.exec k a, s.pc⟩ : Clients (Option (Fin n)) Pc) = ver s + 1 := hver
    obtain ⟨hlen, hle, -⟩ := hK.puts d p es v hpc
    rw [hver']
    exact ⟨hlen, by omega, by omega⟩

/-- A handler run extends the list by the tuple it applies, or leaves it. -/
theorem exec_step (hf : (oneClientAppend J n).ServiceFacts s) (hS : Stored J s l) (hK : Kept s l)
    (hk : s.kv.attempts[k]? = some a) :
    ∃ l', Stored J ⟨s.kv.exec k a, s.pc⟩ l' ∧ Kept ⟨s.kv.exec k a, s.pc⟩ l' := by
  rcases exec_key s.kv k a "k" with ⟨args, hreq, hkey, hok, hv, hver, hkv⟩ | ⟨hput, hver, hkv⟩
  · obtain ⟨c, p, es, v, hclerk, hpc, rfl, hlen, hval, hop, hnot⟩ :=
      applied_put hf hS hK (List.mem_of_getElem? hk) hreq hkey hv
    have happ : (⟨k, a.op, s.kv.now, a.req, (s.kv.server.handle a.req).2⟩ : Exec).appliedTo "k" =
        true := (Exec.appliedTo_iff _ _).mpr ⟨args, hreq, hkey, hok⟩
    have hloop : p.i = (s.pc (some c)).loop.i := by rw [hpc]; rfl
    refine ⟨_, stored_exec_applied hf hS hk hreq hok hlen hver (hval ▸ hkv), ?_⟩
    rw [hloop]
    exact kept_exec_applied hf hK hk hclerk hop hnot hver happ
  · have happ : ¬ (⟨k, a.op, s.kv.now, a.req, (s.kv.server.handle a.req).2⟩ : Exec).appliedTo "k" =
        true := by
      intro happ
      obtain ⟨args, hreq, hkey, hok⟩ := (Exec.appliedTo_iff _ _).mp happ
      exact hput args hreq hkey hok
    exact ⟨l, stored_exec_other hf hS hk hver hkv, kept_exec_other hK hver happ⟩

end exec

theorem landed_congr {c : Fin n} (hlog : t.kv.log = s.kv.log)
    (hop : (t.kv.clerks (some c)).current.map Prod.fst =
      (s.kv.clerks (some c)).current.map Prod.fst) : Landed t c ↔ Landed s c := by
  unfold Landed
  rw [hlog, hop]

theorem not_landed_of_idle {c : Fin n} (h : (t.kv.clerks (some c)).current = none) :
    ¬ Landed t c := by
  rintro ⟨r, -, hop, -⟩
  simp [h] at hop

/-- The client `c`, in no operation now, has gone on to the control state `pc`. -/
theorem kept_update (hK : Kept s l) {c : Fin n} {pc : Pc} (hlog : t.kv.log = s.kv.log)
    (hpc : t.pc = Function.update s.pc (some c) pc)
    (hidle : (t.kv.clerks (some c)).current = none)
    (hclerks : ∀ d, d ≠ some c → t.kv.clerks d = s.kv.clerks d)
    (hle : (s.pc (some c)).loop.i ≤ pc.loop.i) (hnot : ⟨c, pc.loop.i⟩ ∉ l)
    (hkept : ∀ j, pc.loop.outcomes[j]? = some .ok → ⟨c, j⟩ ∈ l) (hfits : pc.loop.Fits)
    (hputs : ∀ p es v, pc = .putJson p es v →
      es.length < maxLen ∧ v.toNat ≤ ver s ∧ (v.toNat = ver s → es = l ++ [⟨c, p.i⟩])) :
    Kept t l := by
  have hver : ver t = ver s := by rw [ver, ver, hlog]
  have hself : t.pc (some c) = pc := by rw [hpc, Function.update_self]
  have hother : ∀ d : Fin n, d ≠ c → t.pc (some d) = s.pc (some d) := by
    intro d hdc
    rw [hpc, Function.update_of_ne (by simpa using hdc)]
  refine ⟨hK.increasing, ?_, ?_, ?_, ?_, ?_⟩
  · intro e he
    obtain ⟨d, hd, hi⟩ := hK.known e he
    refine ⟨d, hd, ?_⟩
    by_cases hdc : d = c
    · subst hdc
      rw [hself]
      exact hi.trans hle
    · rwa [hother d hdc]
  · intro d
    by_cases hdc : d = c
    · subst hdc
      rw [hself]
      exact ⟨fun h => absurd h hnot, fun h => absurd h (not_landed_of_idle hidle)⟩
    · rw [hother d hdc, hK.current d, landed_congr hlog]
      rw [hclerks (some d) (by simpa using hdc)]
  · intro d j hj
    by_cases hdc : d = c
    · subst hdc
      exact hkept j (hself ▸ hj)
    · exact hK.kept d j (hother d hdc ▸ hj)
  · intro d
    by_cases hdc : d = c
    · subst hdc
      rwa [hself]
    · rw [hother d hdc]
      exact hK.fits d
  · intro d p es v hd
    rw [hver]
    by_cases hdc : d = c
    · subst hdc
      exact hputs p es v (hself ▸ hd)
    · exact hK.puts d p es v (hother d hdc ▸ hd)

/-- A step that moves no client and makes no handler run keeps the invariant. -/
theorem kept_frame (hK : Kept s l) (hlog : t.kv.log = s.kv.log) (hpc : t.pc = s.pc)
    (hlanded : ∀ c, Landed t c ↔ Landed s c) : Kept t l := by
  refine ⟨hK.increasing, ?_, ?_, ?_, ?_, ?_⟩
  · rw [hpc]
    exact hK.known
  · intro c
    rw [hlanded, hpc]
    exact hK.current c
  · rw [hpc]
    exact hK.kept
  · rw [hpc]
    exact hK.fits
  · rw [hpc, ver, hlog]
    exact hK.puts

theorem stored_frame (hS : Stored J s l) (hlog : t.kv.log = s.kv.log)
    (hserver : t.kv.server = s.kv.server) (hcond : Conditional "k" t.kv) : Stored J t l where
  kv := by rw [hserver, hS.kv]
  length := by rw [ver, hlog, hS.length, ver]
  short := hS.short
  cond := hcond
  gets := by
    rw [ver, hlog]
    exact hS.gets
  found := by
    rw [hlog]
    exact hS.found

section deliver
variable {c : Fin n} {p : Loop} {i k : ℕ} {req : Request} {b : Bool} {reply : Reply}

/-- The client reads a list that is the stored one if its version still is the key's. -/
theorem get_reply (hf : (oneClientAppend J n).ServiceFacts s) (hS : Stored J s l)
    (hw : s.kv.clerks (some c) = .waiting i (.get ⟨"k"⟩) b k) (hr : s.kv.reply? k = some reply) :
    ∃ es v, clerkResult b reply = .get ⟨J.marshal es, v, .ok⟩ ∧ v.toNat ≤ ver s ∧
      (v.toNat = ver s → es = l) := by
  obtain ⟨r, hmem, -, -, hreq, rfl⟩ := waiting_run hf.clerks hf.log hw hr
  obtain ⟨es, v, hreply, hle, heq⟩ := hS.gets r hmem hreq
  refine ⟨es, v, ?_, hle, heq⟩
  rw [hreply]
  rfl

/-- No attempt of a `Get` is applied to anything. -/
theorem not_landed_of_get (hf : (oneClientAppend J n).ServiceFacts s)
    (hw : s.kv.clerks (some c) = .waiting i (.get ⟨"k"⟩) b k) : ¬ Landed s c := by
  rintro ⟨r, hr, hop, happ⟩
  have hcur : (s.kv.clerks (some c)).current = some (i, .get ⟨"k"⟩, b) := by rw [hw]; rfl
  have hop' : r.op = i := by simpa [hcur] using hop.symm
  obtain ⟨args, hput, -⟩ := (Exec.appliedTo_iff _ r).mp happ
  rw [req_of_current hf hcur hr hop'] at hput
  contradiction

/-- What the result of a `Put` says: `OK` that it landed, `ErrVersion` that it did not. -/
theorem put_reply (hf : (oneClientAppend J n).ServiceFacts s) (hS : Stored J s l)
    {args : PutArgs} (hkey : args.key = "k")
    (hw : s.kv.clerks (some c) = .waiting i (.put args) b k) (hr : s.kv.reply? k = some reply) :
    (clerkResult b reply = .put ⟨.ok⟩ ∧ Landed s c) ∨
    (clerkResult b reply = .put ⟨.errVersion⟩ ∧ ¬ Landed s c) ∨
    clerkResult b reply = .put ⟨.errMaybe⟩ := by
  obtain ⟨r, hmem, hatt, hop, hreq, rfl⟩ := waiting_run hf.clerks hf.log hw hr
  have hcur : (s.kv.clerks (some c)).current = some (i, .put args, b) := by rw [hw]; rfl
  have hfound := hS.found r hmem args hreq hkey
  obtain ⟨u, hu⟩ := hf.log.replays.exists_handle hmem
  rw [hreq] at hu
  rcases u.put_cases args with ⟨-, h⟩ | ⟨-, -, h⟩ | ⟨-, -, h⟩
  · have hreply : r.reply = .put ⟨.ok⟩ := by rw [hu, KVServer.handle, h]
    refine .inl ⟨by rw [hreply]; rfl, r, hmem, by rw [hcur, hop]; rfl, ?_⟩
    exact (Exec.appliedTo_iff _ r).mpr ⟨args, hreq, hkey, hreply⟩
  · exact absurd (by rw [hu, KVServer.handle, h]) hfound
  · have hreply : r.reply = .put ⟨.errVersion⟩ := by rw [hu, KVServer.handle, h]
    rw [hreply]
    cases b with
    | false => exact .inr (.inr rfl)
    | true =>
      refine .inr (.inl ⟨rfl, ?_⟩)
      rintro ⟨q, hq, hqop, happ⟩
      have hqop' : q.op = i := by simpa [hcur] using hqop.symm
      obtain ⟨a, ha, haop, -⟩ := hf.log.logged q hq
      have hsame := hf.clerks.waiting_first (some c) i _ k hw _ a ha (haop.trans hqop')
      obtain rfl := hf.log.eq_of_attempt hq hmem (hsame.trans hatt.symm)
      obtain ⟨_, -, -, hok⟩ := (Exec.appliedTo_iff _ q).mp happ
      rw [hreply] at hok
      contradiction

/-- The client reads a list and goes on to put it with its own tuple, or stops. -/
theorem kept_got (hf : (oneClientAppend J n).ServiceFacts s) (hS : Stored J s l) (hK : Kept s l)
    (hpc : s.pc (some c) = .getJson p)
    (hw : s.kv.clerks (some c) = .waiting i (.get ⟨"k"⟩) b k) (hr : s.kv.reply? k = some reply) :
    Kept ⟨s.kv.deliver (some c) i (clerkResult b reply),
      Function.update s.pc (some c)
        (returns J (some c) (s.pc (some c)) (clerkResult b reply))⟩ l := by
  obtain ⟨es, v, hres, hle, heq⟩ := get_reply hf hS hw hr
  have hret : returns J (some c) (s.pc (some c)) (clerkResult b reply) =
      if es.length + 1 < maxLen then .putJson p (es ++ [⟨c, p.i⟩]) v else .stopped p := by
    simp [hpc, hres, returns, gotJson, J.roundTrip]
  have hloop : (returns J (some c) (s.pc (some c)) (clerkResult b reply)).loop =
      (s.pc (some c)).loop := by
    rw [hret, hpc]
    split <;> rfl
  refine kept_update hK rfl rfl (by simp) ?_ (by rw [hloop]) ?_ ?_ ?_ ?_
  · intro d hd
    simp [Function.update_of_ne hd]
  · rw [hloop, hK.current c]
    exact not_landed_of_get hf hw
  · rw [hloop]
    exact hK.kept c
  · rw [hloop]
    exact hK.fits c
  · intro p' es' v' hput
    rw [hret] at hput
    split at hput
    next hlen =>
      cases hput
      refine ⟨by simpa using hlen, hle, ?_⟩
      intro hv
      rw [heq hv]
    next => contradiction

/-- The client goes on to the next iteration, of which no tuple is in the list. -/
theorem next_not_mem (hK : Kept s l) (hpc : (s.pc (some c)).loop = p) :
    (⟨c, p.i + 1⟩ : Entry) ∉ l := by
  intro hmem
  obtain ⟨d, hd, hle⟩ := hK.known _ hmem
  obtain rfl : c = d := Fin.ext hd
  rw [hpc] at hle
  exact absurd hle (by simp)

theorem outcomes_snoc {o e : Err} {os : List Err} {j : ℕ} (h : (os ++ [o])[j]? = some e) :
    os[j]? = some e ∨ (j = os.length ∧ o = e) := by
  rcases Nat.lt_trichotomy j os.length with hlt | rfl | hgt
  · rw [List.getElem?_append_left hlt] at h
    exact .inl h
  · exact .inr ⟨rfl, by simpa using h⟩
  · rw [List.getElem?_append_right hgt.le, List.getElem?_eq_none (by simp; omega)] at h
    contradiction

/-- The client ends its iteration, or tries again if its tuple is not in the list. -/
theorem kept_put (hf : (oneClientAppend J n).ServiceFacts s) (hS : Stored J s l) (hK : Kept s l)
    {es : List Entry} {v : Tversion} (hpc : s.pc (some c) = .putJson p es v)
    (hw : s.kv.clerks (some c) = .waiting i (.put ⟨"k", J.marshal es, v⟩) b k)
    (hr : s.kv.reply? k = some reply) :
    Kept ⟨s.kv.deliver (some c) i (clerkResult b reply),
      Function.update s.pc (some c)
        (returns J (some c) (s.pc (some c)) (clerkResult b reply))⟩ l := by
  have hloop : (s.pc (some c)).loop = p := by rw [hpc]; rfl
  have hfits : p.Fits := hloop ▸ hK.fits c
  have hkept : ∀ j, p.outcomes[j]? = some .ok → (⟨c, j⟩ : Entry) ∈ l := hloop ▸ hK.kept c
  have hclerks : ∀ d, d ≠ some c →
      (s.kv.deliver (some c) i (clerkResult b reply)).clerks d = s.kv.clerks d := by
    intro d hd
    simp [Function.update_of_ne hd]
  rcases put_reply hf hS rfl hw hr with ⟨hres, hland⟩ | ⟨hres, hland⟩ | hres
  · have hmem : (⟨c, p.i⟩ : Entry) ∈ l := by
      rw [← hloop, hK.current c]
      exact hland
    rw [hpc, hres]
    refine kept_update hK rfl rfl (by simp) (hres ▸ hclerks) ?_ (next_not_mem hK hloop) ?_
      hfits.ok (by simp [returns, putDone])
    · rw [hloop]
      exact Nat.le_succ _
    · intro j hj
      rcases outcomes_snoc hj with hj | ⟨rfl, -⟩
      · exact hkept j hj
      · rwa [← hfits.i_eq]
  · rw [hpc, hres]
    refine kept_update hK rfl rfl (by simp) (hres ▸ hclerks) ?_ ?_ hkept hfits
      (by simp [returns, putDone])
    · rw [hloop]
      exact le_rfl
    · have hnot := (hK.current c).not.mpr hland
      rwa [hloop] at hnot
  · rw [hpc, hres]
    refine kept_update hK rfl rfl (by simp) (hres ▸ hclerks) ?_ (next_not_mem hK hloop) ?_
      hfits.maybe (by simp [returns, putDone])
    · rw [hloop]
      exact Nat.le_succ _
    · intro j hj
      rcases outcomes_snoc hj with hj | ⟨-, hne⟩
      · exact hkept j hj
      · contradiction

end deliver

/-- No client puts a version ahead of the key's. -/
theorem calls_le (hK : Kept s l) {c : Option (Fin n)} {args : PutArgs}
    (h : calls J c (s.pc c) (.put args) = true) : args.version.toNat ≤ ver s := by
  rcases calls_cases h with ⟨d, p, -, -, hget⟩ | ⟨d, p, es, v, rfl, hpc, hput⟩
  · contradiction
  · obtain rfl : args = ⟨"k", J.marshal es, v⟩ := by simpa using hput
    exact (hK.puts d p es v hpc).2.1

theorem kept_move (hK : Kept s l) {c : Option (Fin n)} {pc : Pc} (hc : s.kv.clerks c = .idle)
    (hm : moves c (s.pc c) pc = true) : Kept ⟨s.kv, Function.update s.pc c pc⟩ l := by
  cases c with
  | none => simp [moves] at hm
  | some c =>
    have hloop : pc.loop = (s.pc (some c)).loop ∧ ∀ p es v, pc ≠ .putJson p es v := by
      cases hpc : s.pc (some c) with
      | select p =>
        rw [hpc] at hm
        simp only [moves, decide_eq_true_eq] at hm
        rcases hm with rfl | rfl <;> simp [Pc.loop]
      | getJson | putJson | returned | stopped => simp [moves, hpc] at hm
    refine kept_update hK rfl rfl (by simp [hc]) (fun _ _ => rfl) ?_ ?_ ?_ ?_ ?_
    · rw [hloop.1]
    · rw [hloop.1, hK.current c]
      exact not_landed_of_idle (by simp [hc])
    · rw [hloop.1]
      exact hK.kept c
    · rw [hloop.1]
      exact hK.fits c
    · intro p es v hput
      exact absurd hput (hloop.2 p es v)

/-- Only a handler run or the delivery of its reply decides what has landed of a client's
operation: a new one has no handler runs. -/
theorem landed_step (hf : (oneClientAppend J n).ServiceFacts s) {e : Event (Option (Fin n))}
    {u : Service (Option (Fin n))} (h : Service.Step s.kv e u) (hlog : u.log = s.kv.log)
    {c : Fin n} (he : e ≠ .deliver (some c)) : Landed ⟨u, s.pc⟩ c ↔ Landed s c := by
  constructor
  · rintro ⟨r, hr, hop, happ⟩
    obtain hr : r ∈ s.kv.log := hlog ▸ hr
    obtain ⟨⟨i, req, b⟩, hcur, hi⟩ := Option.map_eq_some_iff.mp hop
    obtain rfl : i = r.op := hi
    rcases h.current hcur with ⟨-, hnew⟩ | ⟨-, b', hcur'⟩
    · obtain ⟨o, ho, -⟩ := logged_op hf.clerks hf.log hr
      have hlt := (List.getElem?_eq_some_iff.mp ho).1
      omega
    · exact ⟨r, hr, by rw [hcur']; rfl, happ⟩
  · rintro ⟨r, hr, hop, happ⟩
    obtain ⟨⟨i, req, b⟩, hcur, hi⟩ := Option.map_eq_some_iff.mp hop
    obtain rfl : i = r.op := hi
    obtain ⟨b', hcur'⟩ := h.current_mono he hcur
    exact ⟨r, hlog ▸ hr, by rw [hcur']; rfl, happ⟩

theorem kept_deliver (hf : (oneClientAppend J n).ServiceFacts s) (hS : Stored J s l)
    (hK : Kept s l) {c : Option (Fin n)} {i k : ℕ} {req : Request} {b : Bool} {reply : Reply}
    (hw : s.kv.clerks c = .waiting i req b k) (hr : s.kv.reply? k = some reply) :
    Kept ⟨s.kv.deliver c i (clerkResult b reply),
      Function.update s.pc c (returns J c (s.pc c) (clerkResult b reply))⟩ l := by
  have hcall := hf.calling c i req b (by rw [hw]; rfl)
  rcases calls_cases hcall with ⟨d, p, rfl, hpc, rfl⟩ | ⟨d, p, es, v, rfl, hpc, rfl⟩
  · exact kept_got hf hS hK hpc hw hr
  · exact kept_put hf hS hK hpc hw hr

/-- Every step keeps the invariant, of the list or of the list with one more tuple. -/
theorem kept_step (hf : (oneClientAppend J n).ServiceFacts s) (hS : Stored J s l) (hK : Kept s l)
    (h : (oneClientAppend J n).Step s t) : ∃ l', Stored J t l' ∧ Kept t l' := by
  have hcond : Conditional "k" t.kv :=
    Program.conditional_step hf hS.bound hS.cond (fun _ _ hcall _ => calls_le hK hcall) h
  cases h with
  | exec k a hk hr => exact exec_step hf hS hK hk
  | move c pc hc hm => exact ⟨l, stored_frame hS rfl rfl hcond, kept_move hK hc hm⟩
  | deliver c i req b k reply hc hr =>
    exact ⟨l, stored_frame hS rfl rfl hcond, kept_deliver hf hS hK hc hr⟩
  | invoke c req hc hreq =>
    refine ⟨l, stored_frame hS rfl rfl hcond, kept_frame hK rfl rfl ?_⟩
    intro d
    exact landed_step hf (Service.Step.invoke c req hc) rfl (by simp)
  | send c i req b hc =>
    refine ⟨l, stored_frame hS rfl rfl hcond, kept_frame hK rfl rfl ?_⟩
    intro d
    exact landed_step hf (Service.Step.send c i req b hc) rfl (by simp)
  | fail c i req b k hc =>
    refine ⟨l, stored_frame hS rfl rfl hcond, kept_frame hK rfl rfl ?_⟩
    intro d
    exact landed_step hf (Service.Step.fail c i req b k hc) rfl (by simp)

/-- The service that the clients find has run the test's own `Put`. -/
theorem startService_run (J : Json) (n : ℕ) :
    (system (Option (Fin n))).Run [.invoke none (emptyPut J), .send none, .exec 0, .deliver none]
      (startService J n) :=
  System.run_of_exec rfl

theorem serviceFacts_start (J : Json) (n : ℕ) :
    (oneClientAppend J n).ServiceFacts ⟨startService J n, fun _ => .select .start⟩ := by
  obtain ⟨hclerks, hlog, hops⟩ := bookkeeping (startService_run J n)
  refine ⟨hclerks, hlog, hops, ?_⟩
  intro c i req b hc
  cases c <;> simp [startService, Service.init] at hc

theorem stored_start (J : Json) (n : ℕ) :
    Stored J ⟨startService J n, fun _ => .select .start⟩ [] where
  kv := rfl
  length := rfl
  short := by decide
  cond := by
    constructor
    · intro a ha args hreq hkey
      obtain rfl := List.mem_singleton.mp ha
      cases hreq
      exact .inl Nat.zero_lt_one
    · intro r hr args hreq hkey
      obtain rfl := List.mem_singleton.mp hr
      cases hreq
      exact Nat.zero_lt_one
  gets := by
    intro r hr hreq
    obtain rfl := List.mem_singleton.mp hr
    contradiction
  found := by
    intro r hr args hreq hkey
    obtain rfl := List.mem_singleton.mp hr
    exact fun h => by cases h

theorem kept_start (J : Json) (n : ℕ) :
    Kept ⟨startService J n, fun _ => .select .start⟩ [] where
  increasing := List.Pairwise.nil
  known := by simp
  current := by
    intro c
    refine ⟨fun h => absurd h List.not_mem_nil, ?_⟩
    intro h
    exact absurd h (not_landed_of_idle (by simp [startService, Service.init]))
  kept := by simp [Pc.loop, Loop.start]
  fits := fun _ => Loop.fits_start
  puts := by simp

/-- In every state of a run the clients have left a list that fits their counters. -/
theorem kept_of_run {es : List (Action (Option (Fin n)) Pc)} (h : (appends J n).Run es s) :
    ∃ l, Stored J s l ∧ Kept s l := by
  refine h.invariant' (I := fun _ s => ∃ l, Stored J s l ∧ Kept s l)
    ⟨[], stored_start J n, kept_start J n⟩ ?_
  rintro es s e t hrun ⟨l, hS, hK⟩ hs
  exact kept_step (Program.serviceFacts_from (serviceFacts_start J n) hrun) hS hK (.of_step hs)

end KVTest
