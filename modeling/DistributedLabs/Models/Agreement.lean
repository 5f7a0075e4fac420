import DistributedLabs.Models.Kv

/-! The model of one key and the server: which answers of the server the model accepts, and
which of the answers it accepts are the server's. -/
namespace Models
open KVSrv

/-- The two maps of the server agree on whether the key is present. -/
def Synced (s : KVServer) (k : String) : Prop := s.kv k = none ↔ s.versionMap k = none

variable {s : KVServer} {k : String}

theorem kvState_version (hs : Synced s k) :
    (kvState s k).version = (s.versionMap k).getD 0 := by
  unfold kvState KVServer.get
  cases hkv : s.kv k with
  | none => simp [hs.mp hkv]
  | some value => rfl

theorem kvState_install {args : PutArgs} (hk : args.key = k) :
    kvState (s.install args) k = ⟨args.value, args.version + 1⟩ := by
  subst hk
  simp [kvState, KVServer.get]

theorem matches_iff (hs : Synced s k) {args : PutArgs} (hk : args.key = k) :
    s.Matches args ↔ (kvState s k).version = args.version := by
  rw [kvState_version hs, KVServer.Matches, hk]
  exact eq_comm

/-- A request on the key either leaves the server as it is or installs a matched `Put`. -/
theorem handle_cases (hs : Synced s k) {r : Request} (hr : r.key = k) :
    (s.handle r).1 = s ∨
      ∃ args, r = .put args ∧ args.version = (kvState s k).version ∧
        (s.handle r).1 = s.install args := by
  cases r with
  | get args => exact Or.inl rfl
  | put args =>
    rcases s.put_cases args with ⟨hm, he⟩ | ⟨-, -, he⟩ | ⟨-, -, he⟩
    · have hv := (matches_iff hs hr).mp hm
      exact Or.inr ⟨args, rfl, hv.symm, by simp [KVServer.handle, he]⟩
    · exact Or.inl (by simp [KVServer.handle, he])
    · exact Or.inl (by simp [KVServer.handle, he])

theorem synced_handle (hs : Synced s k) {r : Request} (hr : r.key = k) :
    Synced (s.handle r).1 k := by
  rcases handle_cases hs hr with he | ⟨args, rfl, -, he⟩
  · rwa [he]
  · rw [he]
    have hkey : args.key = k := hr
    subst hkey
    simp [Synced]

theorem synced_served {rs : List Request} (hk : ∀ r ∈ rs, r.key = k) :
    Synced (served makeKVServer rs) k := by
  induction rs using List.reverseRecOn with
  | nil => simp [Synced, served, makeKVServer]
  | append_singleton rs r ih =>
    rw [served_snoc]
    refine synced_handle (ih ?_) (hk r (by simp))
    intro q hq
    exact hk q (List.mem_append_left _ hq)

theorem creates_snoc_put {rs : List Request} {args : PutArgs} :
    Creates (rs ++ [.put args]) ↔ Creates rs ∨ args.version = 0 := by
  unfold Creates
  constructor
  · rintro ⟨a, ha, h0⟩
    rcases List.mem_append.mp ha with ha | ha
    · exact Or.inl ⟨a, ha, h0⟩
    · have he : a = args := by simpa using ha
      exact Or.inr (he ▸ h0)
  · rintro (⟨a, ha, h0⟩ | h0)
    · exact ⟨a, List.mem_append_left _ ha, h0⟩
    · exact ⟨args, by simp, h0⟩

/-- The key is present once a `Put` with version 0 has been served. -/
theorem served_versionMap_eq_none {rs : List Request} (hk : ∀ r ∈ rs, r.key = k) :
    (served makeKVServer rs).versionMap k = none ↔ ¬ Creates rs := by
  induction rs using List.reverseRecOn with
  | nil => simp [served, makeKVServer, Creates]
  | append_singleton rs r ih =>
    have hrs : ∀ q ∈ rs, q.key = k := fun q hq => hk q (List.mem_append_left _ hq)
    have ih := ih hrs
    rw [served_snoc]
    cases r with
    | get args =>
      have hc : Creates (rs ++ [.get args]) ↔ Creates rs := by simp [Creates]
      rw [hc]
      exact ih
    | put args =>
      have hkey : args.key = k := hk (.put args) (by simp)
      rw [creates_snoc_put, not_or, ← ih]
      unfold KVServer.handle KVServer.put
      cases hver : (served makeKVServer rs).versionMap args.key with
      | none => by_cases h0 : args.version = 0 <;> simp [h0, ← hkey, hver]
      | some v => by_cases hv : args.version = v <;> simp [hv, ← hkey, hver]

theorem kvModel_step_eq_some {st st' : KvState} {inp : KvInput} {out : KvOutput} :
    kvModel.step st inp out = some st' ↔
      (inp.op = 0 ∧ out.value = st.value ∧ st' = st) ∨
      (inp.op = 1 ∧ st.version = inp.version ∧ (out.err = "OK" ∨ out.err = "ErrMaybe") ∧
        st' = ⟨inp.value, inp.version + 1⟩) ∨
      (inp.op = 1 ∧ st.version ≠ inp.version ∧
        (out.err = "ErrVersion" ∨ out.err = "ErrMaybe") ∧ st' = st) := by
  unfold kvModel step
  by_cases h0 : inp.op = 0
  · simp [h0, @eq_comm _ st']
  · by_cases h1 : inp.op = 1
    · by_cases hv : st.version = inp.version <;> simp [h1, hv, @eq_comm _ st']
    · simp [h0, h1]

/-- Whatever output the model accepts, its next state is the server's. -/
theorem kvModel_step_tracks (hs : Synced s k) {inp : KvInput} (hk : inp.key = k)
    {out : KvOutput} {st : KvState} (h : kvModel.step (kvState s k) inp out = some st) :
    st = kvState (s.handle (request inp)).1 k := by
  rcases kvModel_step_eq_some.mp h with ⟨hop, -, rfl⟩ | ⟨hop, hv, -, rfl⟩ | ⟨hop, hv, -, rfl⟩
  · simp [request, hop, KVServer.handle]
  · have hm : s.Matches ⟨inp.key, inp.value, inp.version⟩ := (matches_iff hs hk).mpr hv
    have herr := (s.put_err_ok_iff _).mpr hm
    simp only [request, hop, KVServer.handle]
    rw [if_neg (by decide), KVServer.put_of_err_ok herr, kvState_install hk]
  · have hm : ¬ s.Matches ⟨inp.key, inp.value, inp.version⟩ :=
      fun hm => hv ((matches_iff hs hk).mp hm)
    have herr : (s.put ⟨inp.key, inp.value, inp.version⟩).2.err ≠ .ok :=
      fun he => hm ((s.put_err_ok_iff _).mp he)
    simp only [request, hop, KVServer.handle]
    rw [if_neg (by decide), KVServer.put_of_err_ne_ok herr]

/-- The model accepts the answer of the server, unless it is the refusal of a `Put` to an
absent key. -/
theorem kvModel_step_handle (hs : Synced s k) {r : Request} (hr : r.key = k) :
    (kvModel.step (kvState s k) (logInput r)
        (logOutput (clerkResult true (s.handle r).2))).isSome ↔
      ∀ args, r = .put args → args.version ≠ 0 → s.versionMap k ≠ none := by
  rw [Option.isSome_iff_exists]
  simp only [kvModel_step_eq_some]
  cases r with
  | get args =>
    have hkey : args.key = k := hr
    have hval : (clerkGet (s.get args)).value = (s.get args).value := by
      unfold clerkGet KVServer.get
      cases s.kv args.key <;> rfl
    constructor
    · intro _ args h
      cases h
    · intro _
      exact ⟨_, Or.inl ⟨rfl, by simp [← hkey, logOutput, clerkResult, KVServer.handle, hval,
        kvState], rfl⟩⟩
  | put args =>
    have hkey : args.key = k := hr
    have hv := matches_iff hs hkey
    rcases s.put_cases args with ⟨hm, he⟩ | ⟨hm, hnone, he⟩ | ⟨hm, hsome, he⟩
    · constructor
      · rintro - a ha h0 hnone
        cases ha
        rw [KVServer.Matches, hkey, hnone] at hm
        exact h0 hm
      · intro _
        exact ⟨_, Or.inr (Or.inl ⟨rfl, hv.mp hm, by simp [logOutput, clerkResult, clerkPut,
          KVServer.handle, he, errText], rfl⟩)⟩
    · have hne : (kvState s k).version ≠ args.version := fun h => hm (hv.mpr h)
      simp only [logInput, logOutput, clerkResult, clerkPut, KVServer.handle, he, errText]
      constructor
      · simp [hne]
      · intro h
        rw [KVServer.Matches, hnone] at hm
        exact absurd (hkey ▸ hnone) (h args rfl hm)
    · have hne : (kvState s k).version ≠ args.version := fun h => hm (hv.mpr h)
      constructor
      · rintro - a - - hnone
        rw [hkey, hnone] at hsome
        cases hsome
      · intro _
        exact ⟨_, Or.inr (Or.inr ⟨rfl, hne, by simp [logOutput, clerkResult, clerkPut,
          KVServer.handle, he, errText], rfl⟩)⟩

/-- The model accepts the log of the requests and ends in the state of the server. -/
def Accepted (k : String) (rs : List Request) : Prop :=
  kvModel.run kvModel.init (logged makeKVServer rs) = some (kvState (served makeKVServer rs) k)

theorem accepted_snoc {rs : List Request} {r : Request} (hk : ∀ q ∈ rs ++ [r], q.key = k)
    (h : Accepted k rs) :
    Accepted k (rs ++ [r]) ↔ ∀ args, r = .put args → args.version ≠ 0 → Creates rs := by
  have hrs : ∀ q ∈ rs, q.key = k := fun q hq => hk q (List.mem_append_left _ hq)
  have hr : r.key = k := hk r (by simp)
  have hs := synced_served hrs
  have hstep := kvModel_step_handle hs hr
  unfold Accepted at h ⊢
  rw [logged_snoc, Linearizability.Spec.run_snoc, h, Option.bind_some, served_snoc]
  constructor
  · intro hacc args ha h0
    have hpresent := hstep.mp (Option.isSome_iff_exists.mpr ⟨_, hacc⟩) args ha h0
    rw [Ne, served_versionMap_eq_none hrs, not_not] at hpresent
    exact hpresent
  · intro hcreates
    have hsome := hstep.mpr fun args ha h0 hnone =>
      (served_versionMap_eq_none hrs).mp hnone (hcreates args ha h0)
    obtain ⟨st, hst⟩ := Option.isSome_iff_exists.mp hsome
    have hkey : (logInput r).key = k := by rw [← request_key, request_logInput, hr]
    have htracks := kvModel_step_tracks hs hkey hst
    rw [request_logInput] at htracks
    rw [hst, htracks]

theorem take_succ_of_getElem {α : Type*} {l : List α} {i : ℕ} {x : α} (h : l[i]? = some x) :
    l.take (i + 1) = l.take i ++ [x] := by
  rw [List.take_add_one, h]
  rfl

/-- The model accepts the answers of the server all along exactly when every `Put` before the
first one with version 0 has that version too. -/
theorem kvModel_accepts_iff {k : String} {rs : List Request} (hk : ∀ r ∈ rs, r.key = k) :
    (∀ i, Accepted k (rs.take i)) ↔
      ∀ i args, rs[i]? = some (.put args) → args.version ≠ 0 → Creates (rs.take i) := by
  have hkeys : ∀ i, ∀ q ∈ rs.take i, q.key = k := fun i q hq => hk q (List.mem_of_mem_take hq)
  constructor
  · intro hacc i args hi h0
    have hsucc := take_succ_of_getElem hi
    exact (accepted_snoc (hsucc ▸ hkeys (i + 1)) (hacc i)).mp (hsucc ▸ hacc (i + 1)) args rfl h0
  · intro hcreates i
    induction i with
    | zero => rfl
    | succ i ih =>
      cases hi : rs[i]? with
      | none =>
        rw [List.take_add_one, hi]
        simpa using ih
      | some r =>
        have hsucc := take_succ_of_getElem hi
        rw [hsucc]
        refine (accepted_snoc (hsucc ▸ hkeys (i + 1)) ih).mpr ?_
        intro args ha h0
        exact hcreates i args (ha ▸ hi) h0

/-- A key that is read, created, overwritten and put with a stale version. -/
def tidyRequests : List Request :=
  [.get ⟨"y"⟩, .put ⟨"y", "a", 0⟩, .put ⟨"y", "b", 1⟩, .put ⟨"y", "c", 7⟩, .get ⟨"y"⟩]

theorem tidyRequests_accepted :
    (∀ r ∈ tidyRequests, r.key = "y") ∧ ∀ i, Accepted "y" (tidyRequests.take i) := by
  have hkeys : ∀ r ∈ tidyRequests, r.key = "y" := by decide
  refine ⟨hkeys, (kvModel_accepts_iff hkeys).mpr ?_⟩
  intro i args hi h0
  have hcreate : Request.put ⟨"y", "a", 0⟩ ∈ tidyRequests.take i := by
    match i with
    | 0 => cases hi
    | 1 =>
      cases hi
      exact absurd rfl h0
    | i + 2 => simp [tidyRequests]
  exact ⟨_, hcreate, rfl⟩

/-- A `Put` with version 1 to a key that does not exist: the server says so, and the model
takes the answer for a wrong one. -/
theorem fresh_put_rejected :
    logged makeKVServer [.put ⟨"y", "v", 1⟩] =
        [({ op := 1, key := "y", value := "v", version := 1 }, { err := "ErrNoKey" })] ∧
      kvModel.run kvModel.init (logged makeKVServer [.put ⟨"y", "v", 1⟩]) = none := by
  decide

/-- The requests of a history. -/
def requests (h : List (KvInput × KvOutput)) : List Request := h.map fun x => request x.1

/-- The output agrees with the server's on what the call returns: a value, a version and an
error for a `Get`, an error for a `Put`. -/
def Agrees (inp : KvInput) (out server : KvOutput) : Prop :=
  if inp.op = 0 then out = server else out.err = server.err

/-- The output that a new server gives the input after the history `h`. -/
def serverOutput (h : List (KvInput × KvOutput)) (inp : KvInput) : KvOutput :=
  logOutput ((served makeKVServer (requests h)).handle (request inp)).2

/-- What the model does not ask of the entry `x` after the history `h`: that a `Get` returns
the version of the state, and an error that says whether the key has been created; and that a
`Put` with a version other than 0 comes after the creation. -/
structure Pinned (h : List (KvInput × KvOutput)) (x : KvInput × KvOutput) : Prop where
  version : x.1.op = 0 → ∀ st, kvModel.run kvModel.init h = some st → x.2.version = st.version
  err : x.1.op = 0 → (Creates (requests h) ∧ x.2.err = "OK") ∨
    (¬ Creates (requests h) ∧ x.2.err = "ErrNoKey")
  put : x.1.op ≠ 0 → x.1.version ≠ 0 → Creates (requests h)

theorem requests_keys {h : List (KvInput × KvOutput)} (hk : ∀ x ∈ h, x.1.key = k) :
    ∀ r ∈ requests h, r.key = k := by
  intro r hr
  obtain ⟨x, hx, rfl⟩ := List.mem_map.mp hr
  rw [request_key]
  exact hk x hx

/-- In every history that the model accepts, its state is the server's. -/
theorem kvModel_run_tracks {h : List (KvInput × KvOutput)} (hk : ∀ x ∈ h, x.1.key = k)
    {st : KvState} (hrun : kvModel.run kvModel.init h = some st) :
    st = kvState (served makeKVServer (requests h)) k := by
  induction h using List.reverseRecOn generalizing st with
  | nil => exact (Option.some.inj hrun).symm
  | append_singleton h x ih =>
    have hkh : ∀ y ∈ h, y.1.key = k := fun y hy => hk y (List.mem_append_left _ hy)
    rw [Linearizability.Spec.run_snoc] at hrun
    obtain ⟨u, hu, hstep⟩ := Option.bind_eq_some_iff.mp hrun
    rw [ih hkh hu] at hstep
    have htracks := kvModel_step_tracks (synced_served (requests_keys hkh)) (hk x (by simp)) hstep
    rw [htracks, requests, requests, List.map_append, List.map_cons, List.map_nil, served_snoc]

theorem agrees_get_iff (hs : Synced s k) {inp : KvInput} (hk : inp.key = k) (hop : inp.op = 0)
    {out : KvOutput} (hval : out.value = (kvState s k).value) :
    Agrees inp out (logOutput (s.handle (request inp)).2) ↔
      out.version = (kvState s k).version ∧
        ((s.versionMap k ≠ none ∧ out.err = "OK") ∨
          (s.versionMap k = none ∧ out.err = "ErrNoKey")) := by
  obtain ⟨value, version, err⟩ := out
  unfold kvState at hval ⊢
  simp only [Agrees, hop, request, KVServer.handle, logOutput, hk]
  cases hkv : s.kv k with
  | none => simp_all [KVServer.get, hs.mp hkv, errText]
  | some v =>
    have hne : s.versionMap k ≠ none := fun hnone => by simp [hs.mpr hnone] at hkv
    simp_all [KVServer.get, errText]

theorem agrees_put_iff (hs : Synced s k) {inp : KvInput} (hk : inp.key = k) (hop : inp.op = 1)
    {out : KvOutput} {st : KvState} (hstep : kvModel.step (kvState s k) inp out = some st)
    (hmaybe : out.err ≠ "ErrMaybe") :
    Agrees inp out (logOutput (s.handle (request inp)).2) ↔
      (inp.version ≠ 0 → s.versionMap k ≠ none) := by
  have hv : s.Matches ⟨inp.key, inp.value, inp.version⟩ ↔
      (kvState s k).version = inp.version := matches_iff hs hk
  have hne : ¬ inp.op = 0 := by simp [hop]
  simp only [Agrees, if_neg hne, request, KVServer.handle, logOutput]
  rcases kvModel_step_eq_some.mp hstep with ⟨h0, -⟩ | ⟨-, hver, herr, -⟩ | ⟨-, hver, herr, -⟩
  · exact absurd h0 hne
  · have hok := herr.resolve_right hmaybe
    have hput := (s.put_err_ok_iff _).mpr (hv.mpr hver)
    simp only [hput, hok, errText, true_iff]
    intro h0 hnone
    rw [kvState_version hs, hnone] at hver
    exact h0 hver.symm
  · have hbad := herr.resolve_right hmaybe
    have hm := fun h => hver (hv.mp h)
    rcases s.put_cases ⟨inp.key, inp.value, inp.version⟩ with
      ⟨h, -⟩ | ⟨-, hnone, he⟩ | ⟨-, hsome, he⟩
    · exact absurd h hm
    · have hnone : s.versionMap k = none := hk ▸ hnone
      rw [kvState_version hs, hnone] at hver
      have hpos : ¬ inp.version = 0 := fun h0 => hver h0.symm
      simp [he, hbad, errText, hnone, hpos]
    · rw [hk] at hsome
      simp [he, hbad, errText, Option.isSome_iff_ne_none.mp hsome]

theorem agrees_iff_pinned {h : List (KvInput × KvOutput)} (hk : ∀ x ∈ h, x.1.key = k)
    {x : KvInput × KvOutput} (hx : x.1.key = k) (hmaybe : x.2.err ≠ "ErrMaybe")
    (haccept : (kvModel.run kvModel.init (h ++ [x])).isSome) :
    Agrees x.1 x.2 (serverOutput h x.1) ↔ Pinned h x := by
  obtain ⟨st, hst⟩ := Option.isSome_iff_exists.mp haccept
  rw [Linearizability.Spec.run_snoc] at hst
  obtain ⟨u, hu, hstep⟩ := Option.bind_eq_some_iff.mp hst
  have hkr := requests_keys hk
  have hs := synced_served hkr
  have hnone := served_versionMap_eq_none hkr
  have hpresent : (served makeKVServer (requests h)).versionMap k ≠ none ↔
      Creates (requests h) := by rw [Ne, hnone, not_not]
  have htracks := kvModel_run_tracks hk hu
  rw [htracks] at hstep
  by_cases hop : x.1.op = 0
  · have hval : x.2.value = (kvState (served makeKVServer (requests h)) k).value := by
      rcases kvModel_step_eq_some.mp hstep with ⟨-, hval, -⟩ | ⟨h1, -⟩ | ⟨h1, -⟩
      · exact hval
      · simp [hop] at h1
      · simp [hop] at h1
    unfold serverOutput
    rw [agrees_get_iff hs hx hop hval, hpresent, hnone]
    constructor
    · rintro ⟨hver, herr⟩
      refine ⟨?_, fun _ => herr, fun hne => absurd hop hne⟩
      intro _ v hv
      rw [hu] at hv
      rw [← Option.some.inj hv, htracks, hver]
    · intro hp
      exact ⟨htracks ▸ hp.version hop u hu, hp.err hop⟩
  · have hop1 : x.1.op = 1 := by
      rcases kvModel_step_eq_some.mp hstep with ⟨h0, -⟩ | ⟨h1, -⟩ | ⟨h1, -⟩
      · exact absurd h0 hop
      · exact h1
      · exact h1
    unfold serverOutput
    rw [agrees_put_iff hs hx hop1 hstep hmaybe, hpresent]
    constructor
    · intro hput
      exact ⟨fun h0 => absurd h0 hop, fun h0 => absurd h0 hop, fun _ => hput⟩
    · intro hp
      exact hp.put hop

/-- Of the histories that the model accepts, those are the server's in which every entry is
pinned down. -/
theorem outputs_agree_iff {k : String} {h : List (KvInput × KvOutput)}
    (hk : ∀ x ∈ h, x.1.key = k) (hmaybe : ∀ x ∈ h, x.2.err ≠ "ErrMaybe")
    (haccept : (kvModel.run kvModel.init h).isSome) :
    (∀ i x, h[i]? = some x → Agrees x.1 x.2 (serverOutput (h.take i) x.1)) ↔
      ∀ i x, h[i]? = some x → Pinned (h.take i) x := by
  have hentry : ∀ i x, h[i]? = some x →
      (Agrees x.1 x.2 (serverOutput (h.take i) x.1) ↔ Pinned (h.take i) x) := by
    intro i x hi
    have hmem : x ∈ h := List.mem_of_getElem? hi
    have hbefore : (kvModel.run kvModel.init (h.take i ++ [x])).isSome := by
      rw [← take_succ_of_getElem hi]
      rw [← List.take_append_drop (i + 1) h, Linearizability.Spec.run_append] at haccept
      exact Option.isSome_of_isSome_bind haccept
    exact agrees_iff_pinned (fun y hy => hk y (List.mem_of_mem_take hy)) (hk x hmem)
      (hmaybe x hmem) hbefore
  constructor
  · intro hall i x hi
    exact (hentry i x hi).mp (hall i x hi)
  · intro hall i x hi
    exact (hentry i x hi).mpr (hall i x hi)

/-- A key that is created and read back. -/
def readBack : List (KvInput × KvOutput) :=
  [({ op := 1, key := "y", value := "a" }, { err := "OK" }),
    ({ op := 0, key := "y" }, { value := "a", version := 1, err := "OK" })]

theorem readBack_agrees :
    (kvModel.run kvModel.init readBack).isSome ∧
      ∀ i x, readBack[i]? = some x → Agrees x.1 x.2 (serverOutput (readBack.take i) x.1) := by
  have haccept : (kvModel.run kvModel.init readBack).isSome := by decide
  refine ⟨haccept, (outputs_agree_iff (k := "y") (by decide) (by decide) haccept).mpr ?_⟩
  intro i x hi
  match i with
  | 0 =>
    cases hi
    exact ⟨fun h0 => absurd h0 (by decide), fun h0 => absurd h0 (by decide),
      fun _ h0 => absurd rfl h0⟩
  | 1 =>
    cases hi
    have hrun : kvModel.run kvModel.init (readBack.take 1) = some ⟨"a", 1⟩ := by decide
    have hcreates : Creates (requests (readBack.take 1)) := ⟨⟨"y", "a", 0⟩, by decide, rfl⟩
    refine ⟨?_, fun _ => Or.inl ⟨hcreates, rfl⟩, fun _ _ => hcreates⟩
    intro _ st hst
    rw [hrun] at hst
    obtain rfl := Option.some.inj hst
    rfl
  | i + 2 => cases hi

/-- The model accepts a `Get` of an absent key that reports version 7 and no error, and a
refused `Put` to an absent key that reports a wrong version. -/
theorem wrong_answers_accepted :
    let get : KvInput × KvOutput := ({ op := 0, key := "y" }, { version := 7, err := "OK" })
    let put : KvInput × KvOutput :=
      ({ op := 1, key := "y", value := "v", version := 3 }, { err := "ErrVersion" })
    ((kvModel.run kvModel.init [get]).isSome ∧ ¬ Agrees get.1 get.2 (serverOutput [] get.1)) ∧
      (kvModel.run kvModel.init [put]).isSome ∧
        ¬ Agrees put.1 put.2 (serverOutput [] put.1) := by
  unfold Agrees
  decide

end Models
