import DistributedLabs.KVTest.Kept

/-! `CheckAppends` on a list that the clients have left. After each entry the map `expect`
holds what follows the client's last iteration in the list, and `skipped` the number of its
earlier iterations that are missing. -/
namespace KVTest
open KVSrv Runs
variable {n : ℕ} {l : List Entry} {m : Maps} {e : Entry}

theorem get_insert (x : AList fun _ : ℕ => ℕ) (a b c : ℕ) :
    get (x.insert a b) c = if c = a then b else get x c := by
  unfold get
  split
  next h => rw [h, AList.lookup_insert, Option.getD_some]
  next h => rw [AList.lookup_insert_ne h]

/-- The iterations of a client that are in the list. -/
def iterations (l : List Entry) (c : ℕ) : List ℕ := (l.filter fun e => e.id = c).map Entry.n

theorem mem_iterations {c j : ℕ} : j ∈ iterations l c ↔ ⟨c, j⟩ ∈ l := by
  unfold iterations
  simp only [List.mem_map, List.mem_filter, decide_eq_true_eq]
  constructor
  · rintro ⟨⟨d, k⟩, ⟨he, rfl⟩, rfl⟩
    exact he
  · intro he
    exact ⟨⟨c, j⟩, ⟨he, rfl⟩, rfl⟩

theorem iterations_length_snoc (c : ℕ) :
    (iterations (l ++ [e]) c).length = (iterations l c).length + if c = e.id then 1 else 0 := by
  unfold iterations
  by_cases h : c = e.id
  · simp [h]
  · simp [h, Ne.symm h]

/-- The maps after the entries `l`. -/
structure Scanned (n : ℕ) (l : List Entry) (m : Maps) : Prop where
  keys : ∀ c ∈ m.expect, c < n
  reached : ∀ c, get m.expect c = 0 ∨ ∃ e ∈ l, e.id = c ∧ e.n + 1 = get m.expect c
  skipped : ∀ c, get m.skipped c + (iterations l c).length = get m.expect c

theorem scanned_make (n : ℕ) : Scanned n [] (Maps.make n) := by
  suffices h : (∀ c ∈ (Maps.make n).expect, c < n) ∧
      (∀ c, get (Maps.make n).expect c = 0) ∧ ∀ c, get (Maps.make n).skipped c = 0 by
    refine ⟨h.1, fun c => .inl (h.2.1 c), ?_⟩
    intro c
    rw [h.2.1 c, h.2.2 c]
    rfl
  induction n with
  | zero => simp [Maps.make, get]
  | succ n ih =>
    obtain ⟨hkeys, hexpect, hskipped⟩ := ih
    have hmake : Maps.make (n + 1) =
        ⟨(Maps.make n).expect.insert n 0, (Maps.make n).skipped.insert n 0⟩ := by
      simp [Maps.make, List.range_succ]
    rw [hmake]
    refine ⟨?_, ?_, ?_⟩
    · intro c hc
      rcases (AList.mem_insert _).mp hc with rfl | hc
      · exact Nat.lt_succ_self c
      · exact Nat.lt_succ_of_lt (hkeys c hc)
    · intro c
      simp [get_insert, hexpect c]
    · intro c
      simp [get_insert, hskipped c]

/-- One round on an entry that is not behind. -/
theorem entry_of_le (h : get m.expect e.id ≤ e.n) :
    ∃ m', m.entry e = some m' ∧ (∀ c ∈ m'.expect, c = e.id ∨ c ∈ m.expect) ∧
      (∀ c, get m'.expect c = if c = e.id then e.n + 1 else get m.expect c) ∧
      ∀ c, get m'.skipped c = get m.skipped c + if c = e.id then e.n - get m.expect c else 0 := by
  unfold Maps.entry
  rw [if_neg (by omega)]
  by_cases heq : get m.expect e.id = e.n
  · rw [if_pos heq]
    refine ⟨_, rfl, fun c => (AList.mem_insert _).mp, ?_, ?_⟩
    · intro c
      rw [get_insert, heq]
    · intro c
      split
      next hc =>
        subst hc
        change get m.skipped e.id = _
        omega
      next => rfl
  · rw [if_neg heq]
    refine ⟨_, rfl, fun c => (AList.mem_insert _).mp, fun c => get_insert _ _ _ c, ?_⟩
    intro c
    rw [get_insert]
    split
    next hc => rw [hc]
    next => rfl

theorem scanned_entry (hs : Scanned n l m) (hinc : Increasing (l ++ [e])) (hid : e.id < n) :
    ∃ m', m.entry e = some m' ∧ Scanned n (l ++ [e]) m' := by
  have hle : get m.expect e.id ≤ e.n := by
    rcases hs.reached e.id with h0 | ⟨f, hf, hfid, hfn⟩
    · omega
    · have hlt := (List.pairwise_append.mp hinc).2.2 f hf e (List.mem_singleton_self e) hfid
      omega
  obtain ⟨m', hm', hkeys, hexpect, hskipped⟩ := entry_of_le hle
  refine ⟨m', hm', ?_, ?_, ?_⟩
  · intro c hc
    rcases hkeys c hc with rfl | hc
    · exact hid
    · exact hs.keys c hc
  · intro c
    rw [hexpect]
    split
    next hc => exact .inr ⟨e, by simp, hc.symm, rfl⟩
    next =>
      refine (hs.reached c).imp_right ?_
      rintro ⟨f, hf, h⟩
      exact ⟨f, List.mem_append_left _ hf, h⟩
  · intro c
    have hold := hs.skipped c
    rw [hexpect, hskipped, iterations_length_snoc]
    split
    next hc =>
      subst hc
      omega
    next => omega

/-- The loop over the entries ends without a call of `Fatalf`. -/
theorem scanned_of_increasing (hinc : Increasing l) (hid : ∀ e ∈ l, e.id < n) :
    ∃ m, l.foldlM Maps.entry (Maps.make n) = some m ∧ Scanned n l m := by
  induction l using List.reverseRecOn with
  | nil => exact ⟨_, rfl, scanned_make n⟩
  | append_singleton l e ih =>
    obtain ⟨m, hm, hs⟩ := ih (List.pairwise_append.mp hinc).1
      fun f hf => hid f (List.mem_append_left _ hf)
    obtain ⟨m', hm', hs'⟩ := scanned_entry hs hinc (hid e (by simp))
    refine ⟨m', ?_, hs'⟩
    rw [List.foldlM_append, hm]
    simpa using hm'

/-- Positions of a value are counted by any list that has them all. -/
theorem count_le_length {os : List Err} {o : Err} {js : List ℕ}
    (h : ∀ j : ℕ, os[j]? = some o → j ∈ js) : os.count o ≤ js.length := by
  induction os using List.reverseRecOn generalizing js with
  | nil => simp
  | append_singleton os x ih =>
    by_cases hx : x = o
    · subst hx
      have hlast : os.length ∈ js := h os.length (by simp)
      have hrest : os.count x ≤ (js.erase os.length).length := by
        apply ih
        intro j hj
        have hlt := (List.getElem?_eq_some_iff.mp hj).1
        apply (List.mem_erase_of_ne hlt.ne).mpr
        apply h
        rwa [List.getElem?_append_left hlt]
      rw [List.length_erase_of_mem hlast] at hrest
      have hpos := List.length_pos_of_mem hlast
      rw [List.count_append, List.count_singleton_self]
      omega
    · have hlast : [x].count o = 0 := List.count_eq_zero_of_not_mem (by simpa using Ne.symm hx)
      rw [List.count_append, hlast, Nat.add_zero]
      apply ih
      intro j hj
      apply h
      rwa [List.getElem?_append_left (List.getElem?_eq_some_iff.mp hj).1]

theorem length_eq_counts {os : List Err} (h : ∀ o ∈ os, o = .ok ∨ o = .errMaybe) :
    os.length = os.count .ok + os.count .errMaybe := by
  induction os with
  | nil => rfl
  | cons o os ih =>
    have hrest := ih fun x hx => h x (List.mem_cons_of_mem _ hx)
    rcases h o List.mem_cons_self with rfl | rfl
    · have hskip : (Err.ok :: os).count .errMaybe = os.count .errMaybe :=
        List.count_cons_of_ne (by decide)
      rw [List.length_cons, List.count_cons_self, hskip]
      omega
    · have hskip : (Err.errMaybe :: os).count .ok = os.count .ok :=
        List.count_cons_of_ne (by decide)
      rw [List.length_cons, List.count_cons_self, hskip]
      omega

/-- What the list has to do with a client that has returned. -/
structure Left (l : List Entry) (c : ℕ) (p : Loop) : Prop where
  fits : p.Fits
  kept : ∀ j, p.outcomes[j]? = some .ok → ⟨c, j⟩ ∈ l
  below : ∀ j, ⟨c, j⟩ ∈ l → j < p.i

/-- The iterations that `CheckAppends` counts are ended ones, and those it misses are among
the ones whose `Put` returned `ErrMaybe`. -/
theorem counts_of_left {c : ℕ} {p : Loop} (hs : Scanned n l m) (hl : Left l c p) :
    get m.skipped c ≤ p.nmay ∧ get m.expect c ≤ p.nok + p.nmay := by
  have htotal : p.i = p.nok + p.nmay := by
    rw [hl.fits.i_eq, hl.fits.nok_eq, hl.fits.nmay_eq]
    exact length_eq_counts hl.fits.ends
  have hle : get m.expect c ≤ p.i := by
    rcases hs.reached c with h0 | ⟨e, he, rfl, hj⟩
    · omega
    · have hlt := hl.below e.n he
      omega
  have hok : (p.outcomes.take (get m.expect c)).count .ok ≤ (iterations l c).length := by
    apply count_le_length
    intro j hj
    rw [List.getElem?_take] at hj
    split at hj
    next => exact mem_iterations.mpr (hl.kept j hj)
    next => contradiction
  have hmay : (p.outcomes.take (get m.expect c)).count .errMaybe ≤ p.nmay := by
    rw [hl.fits.nmay_eq]
    exact (List.take_sublist _ _).count_le _
  have hlen : (p.outcomes.take (get m.expect c)).length = get m.expect c := by
    rw [List.length_take, ← hl.fits.i_eq]
    omega
  have hends : ∀ o ∈ p.outcomes.take (get m.expect c), o = .ok ∨ o = .errMaybe :=
    fun o ho => hl.fits.ends o (List.mem_of_mem_take ho)
  have hsum := length_eq_counts hends
  have hskipped := hs.skipped c
  omega

theorem checkAppends_of_left (hinc : Increasing l) (hid : ∀ e ∈ l, e.id < n)
    {res : Fin n → Loop} (hleft : ∀ c : Fin n, Left l c (res c)) {v : Tversion}
    (hv : l.length + 1 = v.toNat) :
    checkAppends l n (List.ofFn fun c => (res c).res) v = true := by
  obtain ⟨m, hm, hs⟩ := scanned_of_increasing hinc hid
  unfold checkAppends
  rw [hm]
  simp only [hv, decide_true, Bool.true_and, List.all_eq_true]
  rintro ⟨c, k⟩ hmem
  have hlook := AList.mem_lookup_iff.mpr hmem
  have hc : c < n := hs.keys c (AList.lookup_isSome.mp (Option.isSome_of_mem hlook))
  have hk : get m.expect c = k := by
    unfold get
    rw [Option.mem_def.mp hlook, Option.getD_some]
  obtain ⟨hskip, hexpect⟩ := counts_of_left hs (hleft ⟨c, hc⟩)
  have hrs : (List.ofFn fun c => (res c).res)[c]? = some (res ⟨c, hc⟩).res := by
    simp [hc]
  unfold Maps.client
  rw [hrs]
  apply Bool.and_eq_true_iff.mpr
  exact ⟨decide_eq_true hskip, decide_eq_true (hk ▸ hexpect)⟩

theorem nodup_of_increasing (h : Increasing l) : l.Nodup := by
  unfold Increasing at h
  apply h.imp
  rintro e f hlt rfl
  exact absurd (hlt rfl) (lt_irrefl _)

/-- The list of a state in which all clients have returned. -/
theorem left_of_returned {J : Json} {s : Clients (Option (Fin n)) Pc}
    (hf : (oneClientAppend J n).ServiceFacts s) (hK : Kept s l) {c : Fin n} {p : Loop}
    (hret : s.pc (some c) = .returned p) : Left l c p := by
  have hloop : (s.pc (some c)).loop = p := by rw [hret]; rfl
  have hidle : (s.kv.clerks (some c)).current = none := by
    rw [Option.eq_none_iff_forall_ne_some]
    rintro ⟨i, req, b⟩ hcur
    have hcall := hf.calling (some c) i req b hcur
    rw [hret] at hcall
    simp [oneClientAppend, calls] at hcall
  refine ⟨hloop ▸ hK.fits c, hloop ▸ hK.kept c, ?_⟩
  intro j hj
  obtain ⟨d, hd, hle⟩ := hK.known _ hj
  obtain rfl : c = d := Fin.ext hd
  rw [hloop] at hle
  apply lt_of_le_of_ne hle
  rintro rfl
  have hland := (hK.current c).mp (by rwa [hloop])
  exact not_landed_of_idle hidle hland

/-- The ended iterations are the ones whose `Put` returned `OK` or `ErrMaybe`. -/
theorem Left.ended {c j : ℕ} {p : Loop} (h : Left l c p) (hj : ⟨c, j⟩ ∈ l) :
    p.outcomes[j]? = some .ok ∨ p.outcomes[j]? = some .errMaybe := by
  have hlt := h.below j hj
  rw [h.fits.i_eq] at hlt
  rw [List.getElem?_eq_getElem hlt]
  rcases h.fits.ends _ (List.getElem_mem hlt) with ho | ho
  · exact .inl (congrArg some ho)
  · exact .inr (congrArg some ho)

/-- When all clients have returned, the list under `"k"` has every tuple whose `Put` returned
`OK`, none twice, and none but those whose `Put` returned `OK` or `ErrMaybe`; each client's are
in order, and there is one version more than tuples. So `CheckAppends` does not fail. -/
theorem appends_kept (J : Json) (n : ℕ) {es : List (Action (Option (Fin n)) Pc)}
    {s : Clients (Option (Fin n)) Pc} (h : (appends J n).Run es s) (res : Fin n → Loop)
    (hret : ∀ c, s.pc (some c) = .returned (res c)) :
    ∃ text l v, s.kv.server.kv "k" = some text ∧ J.unmarshal text = some l ∧
      s.kv.server.versionMap "k" = some v ∧
      (∀ (c : Fin n) j, (res c).outcomes[j]? = some .ok → ⟨c, j⟩ ∈ l) ∧ l.Nodup ∧
      (∀ e ∈ l, ∃ c : Fin n, e.id = c ∧
        ((res c).outcomes[e.n]? = some .ok ∨ (res c).outcomes[e.n]? = some .errMaybe)) ∧
      (l.Pairwise fun e f => e.id = f.id → e.n < f.n) ∧ l.length + 1 = v.toNat ∧
      checkAppends l n (List.ofFn fun c => (res c).res) v = true := by
  obtain ⟨l, hS, hK⟩ := kept_of_run h
  have hf := Program.serviceFacts_from (serviceFacts_start J n) h
  have hcount := hf.log.replays.counts "k" hS.bound
  have hleft : ∀ c : Fin n, Left l c (res c) := fun c => left_of_returned hf hK (hret c)
  have hlen : l.length + 1 = version s.kv.log "k" := hS.length
  obtain ⟨v, hv⟩ := Option.isSome_iff_exists.mp (hcount.version_iff.mpr (by omega))
  have hver : l.length + 1 = v.toNat := by
    rw [hlen, ← hcount.toNat_eq, hv, Option.getD_some]
  refine ⟨_, l, v, hS.kv, J.roundTrip l, hv, fun c => (hleft c).kept,
    nodup_of_increasing hK.increasing,
    ?_, hK.increasing, hver, checkAppends_of_left hK.increasing ?_ hleft hver⟩
  · rintro ⟨i, j⟩ he
    obtain ⟨c, rfl, -⟩ := hK.known _ he
    exact ⟨c, rfl, (hleft c).ended he⟩
  · intro e he
    obtain ⟨c, hc, -⟩ := hK.known e he
    rw [hc]
    exact c.isLt

/-- A client calls `Get`, and the call that it makes is attempt `k`. -/
def getRun (c : Fin 2) (k : ℕ) : List (Action (Option (Fin 2)) Pc) :=
  [.kv (.invoke (some c) (.get ⟨"k"⟩)), .kv (.send (some c)), .kv (.exec k),
    .kv (.deliver (some c))]

/-- A client calls `Put` of these entries, and the call that it makes is attempt `k`. -/
def putRun (c : Fin 2) (es : List Entry) (ver : Tversion) (k : ℕ) :
    List (Action (Option (Fin 2)) Pc) :=
  [.kv (.invoke (some c) (.put ⟨"k", tally.marshal es, ver⟩)), .kv (.send (some c)), .kv (.exec k)]

/-- Clients `c` and `d` read the empty list. The `Put` of `c` is applied but its reply is lost, the
one of `d` comes too late and is made again. -/
def racingRun (c d : Fin 2) : List (Action (Option (Fin 2)) Pc) :=
  [[.move (some c) (.getJson .start), .move (some d) (.getJson .start)],
    getRun c 1, getRun d 2, putRun c [⟨c, 0⟩] 1 3,
    [.kv (.fail (some c)), .kv (.send (some c)), .kv (.exec 4), .kv (.deliver (some c))],
    putRun d [⟨d, 0⟩] 1 5, [.kv (.deliver (some d))],
    getRun d 6, putRun d [⟨c, 0⟩, ⟨d, 0⟩] 2 7, [.kv (.deliver (some d))],
    [.move (some c) (.returned Loop.start.maybe), .move (some d) (.returned Loop.start.ok)]].flatten

/-- What client `d` returns if the reply of `c` was lost. -/
def racingRes (c d : Fin 2) : Loop := if d = c then Loop.start.maybe else Loop.start.ok

theorem appends_kept_racingRun : ∃ s, (appends tally 2).Run (racingRun 0 1) s ∧
    (∀ c, s.pc (some c) = .returned (racingRes 0 c)) ∧
    ∃ text l v, s.kv.server.kv "k" = some text ∧ tally.unmarshal text = some l ∧
      s.kv.server.versionMap "k" = some v ∧
      (∀ (c : Fin 2) j, (racingRes 0 c).outcomes[j]? = some .ok → ⟨c, j⟩ ∈ l) ∧ l.Nodup ∧
      (∀ e ∈ l, ∃ c : Fin 2, e.id = c ∧ ((racingRes 0 c).outcomes[e.n]? = some .ok ∨
        (racingRes 0 c).outcomes[e.n]? = some .errMaybe)) ∧
      (l.Pairwise fun e f => e.id = f.id → e.n < f.n) ∧ l.length + 1 = v.toNat ∧
      checkAppends l 2 (List.ofFn fun c => (racingRes 0 c).res) v = true := by
  obtain ⟨s, hrun, hret⟩ := System.exists_run (appends tally 2) (racingRun 0 1)
    (fun s => ∀ c, s.pc (some c) = .returned (racingRes 0 c)) (by decide +kernel)
  exact ⟨s, hrun, hret, appends_kept tally 2 hrun (racingRes 0) hret⟩

end KVTest
