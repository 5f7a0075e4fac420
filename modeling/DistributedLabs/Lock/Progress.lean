import DistributedLabs.KVSrv.Progress
import DistributedLabs.Lock.Ownership

/-! The lock never gets stuck. From every state that a run reaches, a client inside `Release` can
return from it by itself, and a client inside `Acquire` can return from it if the client whose id is
stored goes on. -/
namespace Lock
open KVSrv Runs

variable {ι : Type*}

/-- The states of `Acquire`. -/
def Pc.acquiring : Pc → Bool
  | .acqGet => true
  | .acqPut _ => true
  | .acqCheck => true
  | _ => false

/-- The states of `Release`. -/
def Pc.releasing : Pc → Bool
  | .relGet => true
  | .relPut _ => true
  | _ => false

/-- The version stored for the lock's key. -/
def Locks.stored (L : Locks ι) (s : Clients ι Pc) : Tversion :=
  (s.kv.server.versionMap L.lockName).getD 0

variable {L : Locks ι} {s t u : Clients ι Pc} {c d : ι} {D : Set ι} {v : Tversion}

theorem acquiring_returns {pc : Pc} {out : Reply} (h : pc.acquiring = true) :
    (L.returns c pc out).acquiring = true ∨ L.returns c pc out = .holding := by
  have hret := L.returned c pc out
  generalize L.returns c pc out = pc' at hret
  cases hret with
  | stay => exact .inl h
  | already | acquired | checked => exact .inr rfl
  | absent | free | unsure | refused | failed => exact .inl rfl
  | lost | owned | released | again => cases h

theorem releasing_returns {pc : Pc} {out : Reply} (h : pc.releasing = true) :
    (L.returns c pc out).releasing = true ∨ L.returns c pc out = .outside := by
  have hret := L.returned c pc out
  generalize L.returns c pc out = pc' at hret
  cases hret with
  | stay => exact .inl h
  | lost | released => exact .inr rfl
  | owned | again => exact .inl rfl
  | already | acquired | checked | absent | free | unsure | refused | failed => cases h

/-- What is known of a state that a run reaches. -/
structure Sane (L : Locks ι) (s : Clients ι Pc) : Prop where
  facts : L.program.ServiceFacts s
  inv : Inv L s
  owned : Owned L s
  counts : Counts s.kv.server L.lockName (L.ver s)

/-- A request that is served leaves the lock's key alone, or it takes the free lock or gives it
back. -/
theorem served_cases (hs : Sane L s) {req : Request} (hcall : L.calls c (s.pc c) req = true)
    (h : Program.Served s t req) :
    (t.kv.server.kv L.lockName = s.kv.server.kv L.lockName ∧ L.ver t = L.ver s) ∨
    (L.ver t = L.ver s + 1 ∧ (((s.pc c).acquiring = true ∧ L.Free s ∧ L.Owns t c) ∨
      ((s.pc c).releasing = true ∧ L.Owns s c ∧ L.Free t))) := by
  obtain ⟨r, rfl, hreply, hlog⟩ := h.log
  have hver : L.ver t = version (s.kv.log ++ [r]) L.lockName := by rw [Locks.ver, hlog]
  rcases handle_key s.kv.server r L.lockName hreply with
    ⟨args, hput, hkey, happ, hv, hkv, -⟩ | ⟨happ, hkv, -⟩
  · rw [version_snoc_of_applied happ] at hver
    rw [← h.server] at hkv
    have hnat : args.version.toNat = L.ver s := by rw [hv, hs.counts.toNat_eq]
    rw [hput] at hcall
    refine .inr ⟨hver, ?_⟩
    rcases calls_put hcall hkey with ⟨hpc, hval⟩ | ⟨hpc, hval⟩
    · rw [hval] at hkv
      exact .inl ⟨by rw [hpc]; rfl, (hs.inv.acqPut hpc).2 hnat, hkv⟩
    · rw [hval] at hkv
      exact .inr ⟨by rw [hpc]; rfl, (hs.inv.relPut hpc).2 hnat, .inr hkv⟩
  · rw [version_snoc_of_not_applied happ] at hver
    rw [← h.server] at hkv
    exact .inl ⟨hkv, hver⟩

/-- What `Get` answers about a free lock and about one's own. -/
theorem acquireGot_stored (hs : Sane L s) (h : L.Free s ∨ L.Owns s c) :
    L.acquireGot c (clerkGet (s.kv.server.get ⟨L.lockName⟩)) = .acqPut (L.stored s) ∨
    L.acquireGot c (clerkGet (s.kv.server.get ⟨L.lockName⟩)) = .holding := by
  have hne := L.clientID_ne_empty c
  rcases h with (hkv | hkv) | hkv
  · have hnone : s.kv.server.versionMap L.lockName = none := by
      have hiff := hs.counts.kv_iff.trans hs.counts.version_iff.symm
      rw [hkv] at hiff
      simpa using hiff
    left
    simp [KVServer.get, hkv, clerkGet, Locks.acquireGot, Locks.stored, hnone]
  · left
    simp [KVServer.get, hkv, clerkGet, Locks.acquireGot, Locks.stored, hne.symm]
  · right
    rw [Locks.Owns] at hkv
    simp [KVServer.get, hkv, clerkGet, Locks.acquireGot]

/-- `Get` shows the owner its own id with the version that is stored. -/
theorem releaseGot_stored (h : L.Owns s c) :
    L.releaseGot c (clerkGet (s.kv.server.get ⟨L.lockName⟩)) = .relPut (L.stored s) := by
  rw [Locks.Owns] at h
  simp [KVServer.get, h, clerkGet, Locks.releaseGot, Locks.stored]

theorem releaseGot_outside (h : ¬ L.Owns s c) :
    L.releaseGot c (clerkGet (s.kv.server.get ⟨L.lockName⟩)) = .outside := by
  rw [Locks.Owns] at h
  cases hkv : s.kv.server.kv L.lockName with
  | none => simp [KVServer.get, hkv, clerkGet, Locks.releaseGot]
  | some value =>
    have hne : value ≠ L.clientID c := fun heq => h (by rw [hkv, heq])
    simp [KVServer.get, hkv, clerkGet, Locks.releaseGot, hne]

/-- The lock is free or the id of a client is stored. -/
theorem free_or_owned (hs : Sane L s) : L.Free s ∨ ∃ d, L.Owns s d := by
  cases hkv : s.kv.server.kv L.lockName with
  | none => exact .inl (.inl hkv)
  | some value =>
    rcases hs.owned.ids value hkv with rfl | ⟨d, rfl⟩
    · exact .inl (.inr hkv)
    · exact .inr ⟨d, hkv⟩

variable [DecidableEq ι]

/-- A continuation of a run in which only clients of `D` take steps and the lock's key gets at most
one more successful `Put`. -/
structure Passes (L : Locks ι) (D : Set ι) (s t : Clients ι Pc) : Prop where
  advances : L.program.Advances .outside D s t
  ver_le : L.ver t ≤ L.ver s + 1

/-- The state is reached by a run. -/
def Reached (L : Locks ι) (s : Clients ι Pc) : Prop := ∃ es, L.system.Run es s

theorem Reached.sane (h : Reached L s) (hb : L.ver s < 2 ^ 64) : Sane L s := by
  obtain ⟨es, hrun⟩ := h
  have hfacts := Program.serviceFacts hrun
  exact ⟨hfacts, inv_of_run hrun hb, owned_of_run hrun hb, hfacts.log.replays.counts _ hb⟩

theorem Reached.advances (h : Reached L s) (ha : L.program.Advances .outside D s t) :
    Reached L t := by
  obtain ⟨es, hrun⟩ := h
  exact hrun.reaches ha.reaches

/-- A client comes out of the clerk call that it is in. -/
theorem exists_outside_call (hs : Sane L s) (c : ι) :
    ∃ t, Passes L {c} s t ∧ t.kv.clerks c = .idle ∧
      (t.pc c = s.pc c ∨ ∃ out, t.pc c = L.returns c (s.pc c) out) ∧
      (t.kv.server.kv L.lockName = s.kv.server.kv L.lockName ∨
        (((s.pc c).acquiring = true ∧ L.Free s ∧ L.Owns t c) ∨
          ((s.pc c).releasing = true ∧ L.Owns s c ∧ L.Free t))) := by
  obtain ⟨t, hadv, hidle, hpc, hserved⟩ := Program.exists_idle .outside hs.facts c
  rcases hserved with ⟨hserver, hlog⟩ | ⟨req, hcall, hserved⟩
  · exact ⟨t, ⟨hadv, by simp only [Locks.ver, hlog]; omega⟩, hidle, hpc, .inl (by rw [hserver])⟩
  · rcases served_cases hs hcall hserved with ⟨hkv, hver⟩ | ⟨hver, hcase⟩
    · exact ⟨t, ⟨hadv, by omega⟩, hidle, hpc, .inl hkv⟩
    · exact ⟨t, ⟨hadv, by omega⟩, hidle, hpc, .inr hcase⟩

/-- A clerk call of a client by itself, after which server and version are as before. -/
structure Quiet (L : Locks ι) (c : ι) (s t : Clients ι Pc) : Prop where
  advances : L.program.Advances .outside {c} s t
  idle : t.kv.clerks c = .idle
  server : t.kv.server = s.kv.server
  ver : L.ver t = L.ver s

theorem Quiet.passes (h : Quiet L c s t) (h' : Passes L {c} t u) : Passes L {c} s u :=
  ⟨h.advances.trans h'.advances, by rw [← h.ver]; exact h'.ver_le⟩

/-- A `Get` of the lock's key. -/
theorem exists_get (hs : Sane L s) (hidle : s.kv.clerks c = .idle)
    (hcall : L.calls c (s.pc c) (.get ⟨L.lockName⟩) = true) :
    ∃ t, Quiet L c s t ∧
      t.pc c = L.returns c (s.pc c) (.get (clerkGet (s.kv.server.get ⟨L.lockName⟩))) := by
  obtain ⟨t, ht⟩ := Program.exists_calls (p := .outside) hs.facts hidle hcall
  have hver : L.ver t = L.ver s := by
    obtain ⟨r, hreq, -, hlog⟩ := ht.served.log
    have happ : ¬ r.appliedTo L.lockName = true := by simp [Exec.appliedTo, hreq]
    rw [Locks.ver, hlog, version_snoc_of_not_applied happ]
    rfl
  exact ⟨t, ⟨ht.advances, ht.idle, ht.served.server, hver⟩, ht.pc⟩

/-- A `Put` of the lock's key, which succeeds or leaves the server. -/
theorem exists_put (hs : Sane L s) (hidle : s.kv.clerks c = .idle) {value : String}
    (hcall : L.calls c (s.pc c) (.put ⟨L.lockName, value, v⟩) = true) :
    (∃ t, Passes L {c} s t ∧ t.kv.clerks c = .idle ∧ t.kv.server.kv L.lockName = some value ∧
      t.pc c = L.returns c (s.pc c) (.put ⟨.ok⟩)) ∨
    (v ≠ L.stored s ∧ ∃ t err, Quiet L c s t ∧ err ≠ .ok ∧ err ≠ .errMaybe ∧
      t.pc c = L.returns c (s.pc c) (.put ⟨err⟩)) := by
  obtain ⟨t, ht⟩ := Program.exists_calls (p := .outside) hs.facts hidle hcall
  obtain ⟨r, hreq, hreply, hlog⟩ := ht.served.log
  have hver : L.ver t = version (s.kv.log ++ [r]) L.lockName := by rw [Locks.ver, hlog]
  have hserver := ht.served.server
  have hpc := ht.pc
  rcases s.kv.server.put_cases ⟨L.lockName, value, v⟩ with ⟨-, hput⟩ | ⟨hm, -, hput⟩ | ⟨hm, -, hput⟩
  · simp only [KVServer.handle, hput] at hserver hpc
    refine .inl ⟨t, ⟨ht.advances, ?_⟩, ht.idle, by rw [hserver, KVServer.install_kv_self], hpc⟩
    rw [hver, version_snoc]
    split <;> simp [Locks.ver]
  all_goals
    simp only [KVServer.handle, hput] at hserver hpc hreply
    have happ : ¬ r.appliedTo L.lockName = true := by simp [Exec.appliedTo, hreq, hreply]
    rw [version_snoc_of_not_applied happ] at hver
    exact .inr ⟨hm, t, _, ⟨ht.advances, ht.idle, hserver, hver⟩, by simp, by simp, hpc⟩

/-- A client puts its id with the version that is stored. -/
theorem acquire_put (hs : Sane L s) (hidle : s.kv.clerks c = .idle)
    (hpc : s.pc c = .acqPut (L.stored s)) :
    ∃ t, Passes L {c} s t ∧ t.kv.clerks c = .idle ∧ t.pc c = .holding := by
  have hcall : L.calls c (s.pc c) (.put ⟨L.lockName, L.clientID c, L.stored s⟩) = true := by
    simp [hpc, Locks.calls]
  rcases exists_put hs hidle hcall with ⟨t, hpass, hidle', -, hpc'⟩ | ⟨hne, -⟩
  · exact ⟨t, hpass, hidle', by rw [hpc', hpc]; rfl⟩
  · exact absurd rfl hne

theorem Quiet.free_or_owns (h : Quiet L c s t) (hs : L.Free s ∨ L.Owns s c) :
    L.Free t ∨ L.Owns t c := by
  simpa only [Locks.Free, Locks.Owns, h.server] using hs

theorem acquire_get (h : Reached L s) (hb : L.ver s < 2 ^ 64) (hidle : s.kv.clerks c = .idle)
    (hlock : L.Free s ∨ L.Owns s c) (hpc : s.pc c = .acqGet) :
    ∃ t, Passes L {c} s t ∧ t.kv.clerks c = .idle ∧ t.pc c = .holding := by
  have hs := h.sane hb
  obtain ⟨t, hquiet, hpc'⟩ := exists_get hs hidle (by simp [hpc, Locks.calls])
  rw [hpc] at hpc'
  rcases acquireGot_stored hs hlock with hput | hhold
  · have hstored : L.stored t = L.stored s := by rw [Locks.stored, hquiet.server, Locks.stored]
    have hpct : t.pc c = .acqPut (L.stored t) := by rw [hstored, ← hput, hpc', Locks.returns]
    have hst := (h.advances hquiet.advances).sane (hquiet.ver ▸ hb)
    obtain ⟨u, hpass, hidle', hhold⟩ := acquire_put hst hquiet.idle hpct
    exact ⟨u, hquiet.passes hpass, hidle', hhold⟩
  · exact ⟨t, ⟨hquiet.advances, by rw [hquiet.ver]; omega⟩, hquiet.idle,
      by rw [hpc', Locks.returns, hhold]⟩

/-- If the lock is free, or taken by a `Put` of the client itself, `Acquire` returns when nobody
else takes a step. -/
theorem acquire_alone (h : Reached L s) (hb : L.ver s < 2 ^ 64) (hidle : s.kv.clerks c = .idle)
    (hlock : L.Free s ∨ L.Owns s c) (hpc : (s.pc c).acquiring = true) :
    ∃ t, Passes L {c} s t ∧ t.kv.clerks c = .idle ∧ t.pc c = .holding := by
  have hs := h.sane hb
  have hnext : ∀ t, Quiet L c s t → t.pc c = .acqGet →
      ∃ t, Passes L {c} s t ∧ t.kv.clerks c = .idle ∧ t.pc c = .holding := by
    intro t hquiet hget
    obtain ⟨u, hpass, hidle', hhold⟩ := acquire_get (h.advances hquiet.advances) (hquiet.ver ▸ hb)
      hquiet.idle (hquiet.free_or_owns hlock) hget
    exact ⟨u, hquiet.passes hpass, hidle', hhold⟩
  cases hcase : s.pc c with
  | outside | holding | relGet | relPut =>
    rw [hcase] at hpc
    cases hpc
  | acqGet => exact acquire_get h hb hidle hlock hcase
  | acqPut v =>
    have hcall : L.calls c (s.pc c) (.put ⟨L.lockName, L.clientID c, v⟩) = true := by
      simp [hcase, Locks.calls]
    rcases exists_put hs hidle hcall with
      ⟨t, hpass, hidle', -, hpc'⟩ | ⟨-, t, err, hquiet, hok, hmaybe, hpc'⟩
    · exact ⟨t, hpass, hidle', by rw [hpc', hcase]; rfl⟩
    · refine hnext t hquiet ?_
      rw [hpc', hcase]
      cases err with
      | ok => exact absurd rfl hok
      | errMaybe => exact absurd rfl hmaybe
      | errVersion | errNoKey => rfl
  | acqCheck =>
    obtain ⟨t, hquiet, hpc'⟩ := exists_get hs hidle (by simp [hcase, Locks.calls])
    rw [hcase, Locks.returns, Locks.acquireChecked] at hpc'
    split at hpc'
    next => exact ⟨t, ⟨hquiet.advances, by rw [hquiet.ver]; omega⟩, hquiet.idle, hpc'⟩
    next => exact hnext t hquiet hpc'

/-- The `Put` of a `Release` frees the lock or has to be repeated. -/
theorem release_put (hs : Sane L s) (hidle : s.kv.clerks c = .idle) (hpc : s.pc c = .relPut v) :
    (∃ t, Passes L {c} s t ∧ t.kv.clerks c = .idle ∧ t.pc c = .outside ∧ L.Free t) ∨
    (v ≠ L.stored s ∧ ∃ t, Quiet L c s t ∧ t.pc c = .relGet) := by
  have hcall : L.calls c (s.pc c) (.put ⟨L.lockName, "", v⟩) = true := by simp [hpc, Locks.calls]
  rcases exists_put hs hidle hcall with
    ⟨t, hpass, hidle', hkv, hpc'⟩ | ⟨hne, t, err, hquiet, hok, -, hpc'⟩
  · exact .inl ⟨t, hpass, hidle', by rw [hpc', hpc]; rfl, .inr hkv⟩
  · refine .inr ⟨hne, t, hquiet, ?_⟩
    rw [hpc', hpc]
    cases err with
    | ok => exact absurd rfl hok
    | errMaybe | errVersion | errNoKey => rfl

theorem release_get (h : Reached L s) (hb : L.ver s < 2 ^ 64) (hidle : s.kv.clerks c = .idle)
    (hpc : s.pc c = .relGet) :
    ∃ t, Passes L {c} s t ∧ t.kv.clerks c = .idle ∧ t.pc c = .outside ∧
      (L.Owns s c → L.Free t) := by
  have hs := h.sane hb
  obtain ⟨t, hquiet, hpc'⟩ := exists_get hs hidle (by simp [hpc, Locks.calls])
  rw [hpc, Locks.returns] at hpc'
  by_cases hown : L.Owns s c
  · rw [releaseGot_stored hown] at hpc'
    have hstored : L.stored t = L.stored s := by rw [Locks.stored, hquiet.server, Locks.stored]
    have hst := (h.advances hquiet.advances).sane (hquiet.ver ▸ hb)
    rcases release_put hst hquiet.idle hpc' with ⟨u, hpass, hidle', hout, hfree⟩ | ⟨hne, -⟩
    · exact ⟨u, hquiet.passes hpass, hidle', hout, fun _ => hfree⟩
    · exact absurd hstored.symm hne
  · rw [releaseGot_outside hown] at hpc'
    exact ⟨t, ⟨hquiet.advances, by rw [hquiet.ver]; omega⟩, hquiet.idle, hpc',
      fun hown' => absurd hown' hown⟩

/-- `Release` returns when nobody else takes a step, and the owner's frees the lock. -/
theorem release_alone (h : Reached L s) (hb : L.ver s < 2 ^ 64) (hidle : s.kv.clerks c = .idle)
    (hpc : (s.pc c).releasing = true) :
    ∃ t, Passes L {c} s t ∧ t.kv.clerks c = .idle ∧ t.pc c = .outside ∧
      (L.Owns s c → L.Free t) := by
  cases hcase : s.pc c with
  | outside | holding | acqGet | acqPut | acqCheck =>
    rw [hcase] at hpc
    cases hpc
  | relGet => exact release_get h hb hidle hcase
  | relPut v =>
    rcases release_put (h.sane hb) hidle hcase with
      ⟨t, hpass, hidle', hout, hfree⟩ | ⟨-, t, hquiet, hget⟩
    · exact ⟨t, hpass, hidle', hout, fun _ => hfree⟩
    · obtain ⟨u, hpass, hidle', hout, hfree⟩ :=
        release_get (h.advances hquiet.advances) (hquiet.ver ▸ hb) hquiet.idle hget
      refine ⟨u, hquiet.passes hpass, hidle', hout, ?_⟩
      intro hown
      exact hfree (by rwa [Locks.Owns, hquiet.server])

/-- A client that holds the lock can give it back. -/
theorem holder_frees (h : Reached L s) (hb : L.ver s < 2 ^ 64) (hidle : s.kv.clerks d = .idle)
    (hpc : s.pc d = .holding) : ∃ t, Passes L {d} s t ∧ L.Free t := by
  have hown := (h.sane hb).inv.holding hpc
  have hmove : L.program.Advances .outside {d} s ⟨s.kv, Function.update s.pc d .relGet⟩ :=
    Program.advances_step (Program.step_move hidle (by rw [hpc]; rfl)) rfl
  obtain ⟨t, hpass, -, -, hfree⟩ := release_alone (h.advances hmove) hb hidle
    (show (Function.update s.pc d .relGet d).releasing = true by rw [Function.update_self]; rfl)
  exact ⟨t, ⟨hmove.trans hpass.advances, hpass.ver_le⟩, hfree hown⟩

/-- A client whose id is stored can come to give the lock back, wherever it is. -/
theorem owner_frees (h : Reached L s) (hb : L.ver s + 3 < 2 ^ 64) (hown : L.Owns s d) :
    ∃ t, L.program.Advances .outside {d} s t ∧ L.ver t ≤ L.ver s + 3 ∧ L.Free t := by
  have hs := h.sane (by omega)
  obtain ⟨t, hpass, hidle, -, hkv⟩ := exists_outside_call hs d
  have hver := hpass.ver_le
  have ht := h.advances hpass.advances
  have hst := ht.sane (by omega)
  rcases hkv with hkv | ⟨-, hfree, -⟩ | ⟨-, -, hfree⟩
  · have hown' : L.Owns t d := hkv.trans hown
    cases hpc : t.pc d with
    | outside => exact absurd hown' (hst.owned.outside d hpc)
    | holding =>
      obtain ⟨u, hpass', hfree⟩ := holder_frees ht (by omega) hidle hpc
      exact ⟨u, hpass.advances.trans hpass'.advances, by have := hpass'.ver_le; omega, hfree⟩
    | acqGet | acqPut | acqCheck =>
      obtain ⟨u, hpass', hidle', hhold⟩ := acquire_alone ht (by omega) hidle (.inr hown')
        (by rw [hpc]; rfl)
      have hver' := hpass'.ver_le
      obtain ⟨w, hpass'', hfree⟩ :=
        holder_frees (ht.advances hpass'.advances) (by omega) hidle' hhold
      exact ⟨w, (hpass.advances.trans hpass'.advances).trans hpass''.advances,
        by have := hpass''.ver_le; omega, hfree⟩
    | relGet | relPut =>
      obtain ⟨u, hpass', -, -, hfree⟩ := release_alone ht (by omega) hidle (by rw [hpc]; rfl)
      exact ⟨u, hpass.advances.trans hpass'.advances, by have := hpass'.ver_le; omega, hfree hown'⟩
  · exact absurd hown (hfree.not_owns d)
  · exact ⟨t, hpass.advances, by omega, hfree⟩

/-- What a client of a continuation has come to, with the steps written out. -/
theorem exists_path (h : L.program.Advances .outside D s t) :
    ∃ es, L.system.Path (By D) s es t ∧
      ∀ d ∉ D, t.pc d = s.pc d ∧ t.kv.clerks d = s.kv.clerks d := by
  obtain ⟨es, hes⟩ := h
  exact ⟨es, hes, fun d hd => Program.path_others hes hd⟩

theorem advances_outside (h : Reached L s) (hb : L.ver s + 1 < 2 ^ 64)
    (hpc : (s.pc c).releasing = true) :
    ∃ t, L.program.Advances .outside {c} s t ∧ t.pc c = .outside := by
  obtain ⟨t, hpass, hidle, hpct, -⟩ := exists_outside_call (h.sane (by omega)) c
  have hver := hpass.ver_le
  have hcase : (t.pc c).releasing = true ∨ t.pc c = .outside := by
    rcases hpct with hsame | ⟨out, hout⟩
    · exact .inl (by rwa [hsame])
    · rw [hout]
      exact releasing_returns hpc
  rcases hcase with hrel | hout
  · obtain ⟨u, hpass', -, hout, -⟩ :=
      release_alone (h.advances hpass.advances) (by omega) hidle hrel
    exact ⟨u, hpass.advances.trans hpass'.advances, hout⟩
  · exact ⟨t, hpass.advances, hout⟩

/-- From every state of every run in which a client is inside `Release`, it can return from it
with steps that are all its own, and nobody else moves. -/
theorem release_returns (L : Locks ι) (es : List (Action ι Pc)) (s : Clients ι Pc)
    (h : L.system.Run es s) (hb : L.ver s + 1 < 2 ^ 64) (c : ι)
    (hpc : (s.pc c).releasing = true) :
    ∃ es' t, L.system.Path (By {c}) s es' t ∧ t.pc c = .outside ∧
      ∀ d, d ≠ c → t.pc d = s.pc d ∧ t.kv.clerks d = s.kv.clerks d := by
  obtain ⟨t, hadv, hout⟩ := advances_outside ⟨es, h⟩ hb hpc
  obtain ⟨es', hpath, hothers⟩ := exists_path hadv
  exact ⟨es', t, hpath, hout, fun d hd => hothers d hd⟩

/-- The client of `contendedRun` is about to give the lock back, and its `Get` was lost. -/
def leavingRun : List (Action Bool Pc) :=
  contendedRun ++ [.move false .relGet, .kv (.invoke false (.get ⟨"l"⟩)), .kv (.send false),
    .kv (.fail false)]

theorem leavingRun_returns : ∃ s, twoLocks.system.Run leavingRun s ∧
    ∃ es' t, twoLocks.system.Path (By {false}) s es' t ∧ t.pc false = .outside ∧
      ∀ d, d ≠ false → t.pc d = s.pc d ∧ t.kv.clerks d = s.kv.clerks d := by
  have hrun := System.run_exec_get twoLocks.system leavingRun (by decide)
  refine ⟨_, hrun, release_returns twoLocks leavingRun _ hrun ?_ false (by decide)⟩
  refine (Nat.add_le_add_right List.countP_le_length 1).trans_lt ?_
  decide

/-- A client that is back from its call can return from `Acquire`, if the owner goes on. -/
theorem advances_holding (h : Reached L s) (hb : L.ver s + 3 < 2 ^ 64)
    (hidle : s.kv.clerks c = .idle) (hpc : (s.pc c).acquiring = true) :
    ∃ t, L.program.Advances .outside ({c} ∪ {d | L.Owns s d}) s t ∧ t.pc c = .holding := by
  have hsub : ({c} : Set ι) ⊆ {c} ∪ {d | L.Owns s d} := Set.subset_union_left
  rcases free_or_owned (h.sane (by omega)) with hfree | ⟨d, hown⟩
  · obtain ⟨t, hpass, -, hhold⟩ := acquire_alone h (by omega) hidle (.inl hfree) hpc
    exact ⟨t, hpass.advances.mono hsub, hhold⟩
  · by_cases hcd : c = d
    · obtain ⟨t, hpass, -, hhold⟩ := acquire_alone h (by omega) hidle (.inr (hcd ▸ hown)) hpc
      exact ⟨t, hpass.advances.mono hsub, hhold⟩
    · obtain ⟨t, hadv, hver, hfree⟩ := owner_frees h hb hown
      obtain ⟨hpct, hclerk⟩ := hadv.others (show c ∉ ({d} : Set ι) from hcd)
      obtain ⟨u, hpass, -, hhold⟩ := acquire_alone (h.advances hadv) (by omega)
        (by rw [hclerk, hidle]) (.inl hfree) (by rwa [hpct])
      have hd : ({d} : Set ι) ⊆ {c} ∪ {d | L.Owns s d} := Set.singleton_subset_iff.mpr (.inr hown)
      exact ⟨u, (hadv.mono hd).trans (hpass.advances.mono hsub), hhold⟩

/-- From every state of every run in which a client is inside `Acquire`, it can return from it with
steps that are all its own or those of the client whose id is stored, and nobody else moves. -/
theorem acquire_returns (L : Locks ι) (es : List (Action ι Pc)) (s : Clients ι Pc)
    (h : L.system.Run es s) (hb : L.ver s + 4 < 2 ^ 64) (c : ι)
    (hpc : (s.pc c).acquiring = true) :
    ∃ es' t, L.system.Path (By ({c} ∪ {d | L.Owns s d})) s es' t ∧ t.pc c = .holding ∧
      ∀ d, d ≠ c → ¬ L.Owns s d → t.pc d = s.pc d ∧ t.kv.clerks d = s.kv.clerks d := by
  have hreached : Reached L s := ⟨es, h⟩
  obtain ⟨t, hpass, hidle, hpct, hkv⟩ := exists_outside_call (hreached.sane (by omega)) c
  have hver := hpass.ver_le
  have hfirst := hpass.advances.mono (Set.subset_union_left (t := {d | L.Owns s d}))
  have hcase : (t.pc c).acquiring = true ∨ t.pc c = .holding := by
    rcases hpct with hsame | ⟨out, hout⟩
    · exact .inl (by rwa [hsame])
    · rw [hout]
      exact acquiring_returns hpc
  have howns : {c} ∪ {d | L.Owns t d} ⊆ {c} ∪ {d | L.Owns s d} := by
    rintro d (hdc | hown)
    · exact .inl hdc
    · rcases hkv with hkv | ⟨-, -, hown'⟩ | ⟨-, -, hfree⟩
      · exact .inr (hkv.symm.trans hown)
      · exact .inl (hown.unique hown')
      · exact absurd hown (hfree.not_owns d)
  obtain ⟨u, hadv, hhold⟩ :
      ∃ u, L.program.Advances .outside ({c} ∪ {d | L.Owns s d}) s u ∧ u.pc c = .holding := by
    rcases hcase with hacq | hhold
    · obtain ⟨u, hadv, hhold⟩ :=
        advances_holding (hreached.advances hpass.advances) (by omega) hidle hacq
      exact ⟨u, hfirst.trans (hadv.mono howns), hhold⟩
    · exact ⟨t, hfirst, hhold⟩
  obtain ⟨es', hpath, hothers⟩ := exists_path hadv
  refine ⟨es', u, hpath, hhold, ?_⟩
  intro d hdc hown
  exact hothers d (by rintro (h | h); exacts [hdc h, hown h])

theorem contendedRun_returns : ∃ s, twoLocks.system.Run contendedRun s ∧
    s.pc false = .holding ∧ s.pc true = .acqGet ∧
    ∃ es' t, twoLocks.system.Path (By ({true} ∪ {d | twoLocks.Owns s d})) s es' t ∧
      t.pc true = .holding ∧ ∀ d, d ≠ true → ¬ twoLocks.Owns s d →
        t.pc d = s.pc d ∧ t.kv.clerks d = s.kv.clerks d := by
  have hrun := System.run_exec_get twoLocks.system contendedRun (by decide)
  refine ⟨_, hrun, by decide, by decide,
    acquire_returns twoLocks contendedRun _ hrun ?_ true (by decide)⟩
  refine (Nat.add_le_add_right List.countP_le_length 4).trans_lt ?_
  decide

end Lock
