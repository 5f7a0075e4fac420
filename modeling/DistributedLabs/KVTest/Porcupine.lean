import DistributedLabs.KVSrv.Linearizable
import DistributedLabs.KVTest.Recorded
import DistributedLabs.Models.Agreement
import DistributedLabs.Models.PerKey

/-! The check of the tests' log against the model, for runs of this server. -/
namespace KVTest
open KVSrv Models Runs Linearizability

/-- What the library `porcupine` says of a history. -/
inductive CheckResult where
  | ok
  | illegal
  /-- The time was not enough. -/
  | unknown
  deriving DecidableEq, Repr

/-- `checkPorcupine` without the visualization: what it prints, or the message of `Fatal`. The first
argument stands for `porcupine.CheckOperationsVerbose` with the model `KvModel`. -/
def checkPorcupine (checkOperationsVerbose : List Models.Operation → ℤ → CheckResult)
    (opLog : List Models.Operation) (nsec : ℤ) : Except String (List String) :=
  match checkOperationsVerbose opLog nsec with
  | .illegal => .error "history is not linearizable"
  | .unknown => .ok ["info: linearizability check timed out, assuming history is ok\n"]
  | .ok => .ok []

/-- Each part of the history can be explained by the model. -/
def Legal (history : List Models.Operation) : Prop :=
  ∀ l ∈ partition history, Linearizable kvModel (returned l)

/-- The library is right about histories whose operations return after they are called. Nothing is
asked of when it gives up. -/
structure RightVerdicts (check : List Models.Operation → ℤ → CheckResult) : Prop where
  ok : ∀ h nsec, (∀ a ∈ h, a.call ≤ a.ret) → check h nsec = .ok → Legal h
  illegal : ∀ h nsec, (∀ a ∈ h, a.call ≤ a.ret) → check h nsec = .illegal → ¬ Legal h

/-- The states of the model that stand for a map of keys to values with versions. -/
def view (m : Store) (k : String) : KvState :=
  match m k with
  | some (value, n) => ⟨value, UInt64.ofNat n⟩
  | none => ⟨"", 0⟩

/-- All versions fit into 64 bits. -/
def Fits (m : Store) : Prop := ∀ k value n, m k = some (value, n) → n < 2 ^ 64

section Spec
variable {m m' : Store} {req : Request} {out : Reply}

theorem view_update (m : Store) (k value : String) (n : ℕ) :
    view (Function.update m k (some (value, n))) =
      Function.update (view m) k ⟨value, UInt64.ofNat n⟩ := by
  funext x
  by_cases hx : x = k
  · subst hx
    simp [view]
  · simp [view, hx]

theorem Fits.of_update {k value : String} {n : ℕ}
    (h : Fits (Function.update m k (some (value, n + 1))))
    (hold : ∀ v i, m k = some (v, i) → i = n) : Fits m := by
  intro x v i hx
  by_cases hxk : x = k
  · subst hxk
    have hnew := h x value (n + 1) (Function.update_self ..)
    have hin := hold v i hx
    omega
  · exact h x v i (by rwa [Function.update_of_ne hxk])

/-- An entry that the model accepts without a change of its state. -/
theorem mapModel_step_same {f : String → KvState} {inp : KvInput} {o : KvOutput}
    (h : kvModel.step (f inp.key) inp o = some (f inp.key)) : mapModel.step f inp o = some f := by
  show (kvModel.step (f inp.key) inp o).map (Function.update f inp.key) = some f
  rw [h, Option.map_some, Function.update_eq_self]

theorem mapModel_step_put {args : PutArgs} {err : Err} {f : String → KvState}
    (hv : (f args.key).version = args.version) (herr : err = .ok ∨ err = .errMaybe) :
    mapModel.step f (logInput (.put args)) (logOutput (.put ⟨err⟩)) =
      some (Function.update f args.key ⟨args.value, args.version + 1⟩) := by
  have hstep : kvModel.step (f args.key) (logInput (.put args)) (logOutput (.put ⟨err⟩)) =
      some ⟨args.value, args.version + 1⟩ := by
    rw [kvModel_step_eq_some]
    refine .inr (.inl ⟨rfl, hv, ?_, rfl⟩)
    rcases herr with rfl | rfl <;> simp [logOutput, errText]
  show (kvModel.step (f args.key) _ _).map (Function.update f args.key) = _
  rw [hstep, Option.map_some]

/-- What the sequential map accepts the model accepts too, if versions fit into 64 bits, except
for a `Put` that finds no key. -/
theorem mapModel_step_of_store (h : storeStep m req out = some m') (hfits : Fits m')
    (hout : out ≠ .put ⟨.errNoKey⟩) :
    mapModel.step (view m) (logInput req) (logOutput out) = some (view m') ∧ Fits m := by
  unfold storeStep at h
  split at h
  next args reply =>
    have hsame : m' = m ∧ reply.value = (view m args.key).value := by
      split at h
      next value n hm =>
        obtain ⟨hreply, hmm⟩ := Option.ite_none_right_eq_some.mp h
        cases hmm
        exact ⟨rfl, by simp [view, hm, hreply.1]⟩
      next hm =>
        obtain ⟨hreply, hmm⟩ := Option.ite_none_right_eq_some.mp h
        cases hmm
        exact ⟨rfl, by simp [view, hm, hreply]⟩
    obtain ⟨rfl, hvalue⟩ := hsame
    refine ⟨mapModel_step_same ?_, hfits⟩
    exact kvModel_step_eq_some.mpr (.inl ⟨rfl, hvalue, rfl⟩)
  next args reply =>
    obtain ⟨err⟩ := reply
    split at h
    next value n hm =>
      split at h
      next hv =>
        obtain ⟨herr, hmm⟩ := Option.ite_none_right_eq_some.mp h
        cases hmm
        have hver : (view m args.key).version = args.version := by simp [view, hm, ← hv]
        have hnext : UInt64.ofNat (n + 1) = args.version + 1 := by simp [← hv]
        rw [mapModel_step_put hver herr, view_update, hnext]
        refine ⟨rfl, hfits.of_update fun v i hi => ?_⟩
        rw [hm] at hi
        cases hi
        rfl
      next hv =>
        obtain ⟨herr, hmm⟩ := Option.ite_none_right_eq_some.mp h
        cases hmm
        refine ⟨mapModel_step_same ?_, hfits⟩
        refine kvModel_step_eq_some.mpr (.inr (.inr ⟨rfl, ?_, ?_, rfl⟩))
        · have hlt : n < UInt64.size := hfits _ _ _ hm
          intro heq
          have heq' : UInt64.ofNat n = args.version := by
            simpa [view, hm, logInput] using heq
          rw [← heq', UInt64.toNat_ofNat_of_lt' hlt] at hv
          exact hv rfl
        · rcases herr with rfl | rfl <;> simp [logOutput, errText]
    next hm =>
      split at h
      next hv =>
        obtain ⟨herr, hmm⟩ := Option.ite_none_right_eq_some.mp h
        cases hmm
        have hver : (view m args.key).version = args.version := by simp [view, hm, hv]
        have hnext : UInt64.ofNat (0 + 1) = args.version + 1 := by simp [hv]
        rw [mapModel_step_put hver herr]
        have hview := view_update m args.key args.value (0 + 1)
        rw [hnext] at hview
        refine ⟨by rw [← hview], Fits.of_update (n := 0) hfits fun v i hi => ?_⟩
        rw [hm] at hi
        cases hi
      next hv =>
        obtain ⟨herr, -⟩ := Option.ite_none_right_eq_some.mp h
        exact absurd (by rw [show err = .errNoKey from herr]) hout
  next => cases h

/-- The model accepts the log entries of a sequence that the map accepts. -/
theorem mapModel_run_of_store {xs : List (Request × Reply)} (h : store.run m xs = some m')
    (hfits : Fits m') (hout : ∀ x ∈ xs, x.2 ≠ .put ⟨.errNoKey⟩) :
    mapModel.run (view m) (xs.map fun x => (logInput x.1, logOutput x.2)) = some (view m') ∧
      Fits m := by
  induction xs generalizing m with
  | nil =>
    cases h
    exact ⟨rfl, hfits⟩
  | cons x xs ih =>
    obtain ⟨hx, hxs⟩ := List.forall_mem_cons.mp hout
    obtain ⟨m₁, hstep, hrun⟩ := Option.bind_eq_some_iff.mp h
    obtain ⟨hrest, hfits₁⟩ := ih hrun hxs
    obtain ⟨hfirst, hfits₀⟩ := mapModel_step_of_store hstep hfits₁ hx
    refine ⟨?_, hfits₀⟩
    rw [List.map_cons, Spec.run, hfirst]
    exact hrest

end Spec

theorem fits_store (s : KVServer) : Fits s.store := by
  intro k value n h
  obtain ⟨v, -, heq⟩ := Option.map_eq_some_iff.mp h
  cases heq
  exact UInt64.toNat_lt _

variable {ι : Type*}

/-- The handler runs at which the operations of the service take effect, in their order. -/
structure Effects (s : Service ι) (chosen : List Exec) : Prop where
  logged : ∀ r ∈ chosen, r ∈ s.log
  times : chosen.Pairwise fun r q => r.time ≤ q.time
  once : (chosen.map Exec.op).Nodup
  complete : ∀ (i : ℕ) (o : KVSrv.Operation), s.ops[i]? = some o → o.ret.isSome →
    ∃ r ∈ chosen, r.op = i
  explains : ∀ r ∈ chosen, Explains r.reply (s.output r)
  legal : store.run store.init (chosen.map fun r => (r.req, s.output r)) = some s.server.store

theorem exists_effects {s : Service ι} (hc : ClerkFacts s) (hl : LogFacts s) (ho : OpFacts s)
    (hf : OnTimeFacts s) (hb : ∀ x, version s.log x < 2 ^ 64) : ∃ chosen, Effects s chosen := by
  classical
  obtain ⟨answer, hans⟩ := exists_answered hl ho
  let chosen := s.log.filter fun r => decide (Chosen s answer r)
  have hmem : ∀ r, r ∈ chosen ↔ r ∈ s.log ∧ Chosen s answer r := fun r => by
    simp [chosen, List.mem_filter]
  refine ⟨chosen, fun r hr => ((hmem r).mp hr).1, (hl.times.filter _).imp fun h => h.le, ?_, ?_, ?_,
    ?_⟩
  · refine (hl.once.of_map.filter _).map_on ?_
    intro r hr q hq hop
    obtain ⟨hr, hcr⟩ := (hmem r).mp hr
    obtain ⟨hq, hcq⟩ := (hmem q).mp hq
    exact chosen_unique hc hl hb hr hq hcr hcq hop
  · intro i o hi hret
    obtain ⟨x, hret⟩ := Option.isSome_iff_exists.mp hret
    obtain ⟨r, hr, hcr, hri⟩ := exists_chosen hans hi hret
    exact ⟨r, (hmem r).mpr ⟨hr, hcr⟩, hri⟩
  · intro r hr
    obtain ⟨hr, hcr⟩ := (hmem r).mp hr
    exact explains_of_chosen hc hl ho hf hans hr hcr
  · refine hl.replays.legal _ s.output hb (fun r _ happ => by simp [Chosen, happ]) ?_
    intro r hr hcr
    exact explains_of_chosen hc hl ho hf hans hr (by simpa using hcr)

/-- A `Get` takes effect with the answer of a `Get`. -/
theorem Effects.get {s : Service ι} {chosen : List Exec} (h : Effects s chosen)
    (hl : LogFacts s) {r : Exec} (hr : r ∈ chosen) {args : GetArgs} (hreq : r.req = .get args) :
    ∃ reply, s.output r = .get reply := by
  have hexp := h.explains r hr
  obtain ⟨server, hserver⟩ := hl.replays.exists_handle (h.logged r hr)
  generalize s.output r = out at hexp ⊢
  rw [hserver, hreq, KVServer.handle] at hexp
  cases hexp with
  | get reply => exact ⟨_, rfl⟩

section Recorded
variable {s : Tested ι}

theorem Timed.mono (h : Timed s) {i j : ℕ} {x y : ℤ} (hij : i ≤ j) (hi : s.times[i]? = some x)
    (hj : s.times[j]? = some y) : x ≤ y := by
  obtain ⟨hlti, rfl⟩ := List.getElem?_eq_some_iff.mp hi
  obtain ⟨hltj, rfl⟩ := List.getElem?_eq_some_iff.mp hj
  rcases hij.eq_or_lt with rfl | hlt
  · exact le_rfl
  · exact List.pairwise_iff_getElem.mp h.sorted i j hlti hltj hlt

/-- The clock reads of an entry enclose the handler run at which its operation took effect. -/
theorem IsEntry.encloses (ht : Timed s) (hl : LogFacts s.kv) (ho : OpFacts s.kv)
    (hf : OnTimeFacts s.kv) {r : Exec} (hr : r ∈ s.kv.log) {a : Models.Operation}
    (ha : IsEntry s r.op a) : ∃ z, s.times[r.time]? = some z ∧ a.call ≤ z ∧ z ≤ a.ret := by
  obtain ⟨req, out, -, -, ⟨o, x, hop, -, hx, hxle⟩, ⟨o', τ, y, hop', hret, hy, hyle⟩⟩ := ha
  obtain rfl := Option.some.inj (hop.symm.trans hop')
  have hlt : r.time < s.times.length := by
    rw [ht.length]
    exact hl.time_lt r hr
  have hz : s.times[r.time]? = some s.times[r.time] := List.getElem?_eq_getElem hlt
  exact ⟨_, hz, hxle.trans (ht.mono (ho.call_le r hr o hop) hx hz),
    (ht.mono (hf.before_ret r hr o τ out hop hret).le hz hy).trans hyle⟩

/-- An entry has the request and the output of the handler run. -/
theorem IsEntry.io (hc : ClerkFacts s.kv) (hl : LogFacts s.kv) {r : Exec} (hr : r ∈ s.kv.log)
    {a : Models.Operation} (ha : IsEntry s r.op a) :
    a.input = logInput r.req ∧ a.output = logOutput (s.kv.output r) := by
  obtain ⟨req, out, hin, hout, ⟨o, x, hop, hreq, -⟩, ⟨o', τ, y, hop', hret, -⟩⟩ := ha
  obtain rfl := Option.some.inj (hop.symm.trans hop')
  obtain ⟨o', hop', hreq'⟩ := logged_op hc hl hr
  obtain rfl := Option.some.inj (hop.symm.trans hop')
  rw [Service.output_of_ret hop hret, ← hreq', hreq]
  exact ⟨hin, hout⟩

/-- When every client is idle, each handler run at which an operation took effect has its entry,
and these are all entries. -/
theorem exists_entries (hr : Recorded s) (hc : ClerkFacts s.kv) (hl : LogFacts s.kv)
    (hidle : ∀ c, s.phase c = .idle) {chosen : List Exec} (he : Effects s.kv chosen) :
    ∃ entry : Exec → Models.Operation, (∀ r ∈ chosen, IsEntry s r.op (entry r)) ∧
      (chosen.map entry).Perm s.oplog := by
  have hop : ∀ c i, ¬ (s.phase c).op = some i := by
    intro c i hi
    rw [hidle c] at hi
    cases hi
  have hall : ∀ i < s.kv.ops.length, ∃ a, (i, a) ∈ s.entries := by
    intro i hi
    rcases hr.assigned.all i hi with hmem | ⟨c, hci⟩
    · obtain ⟨x, hx, rfl⟩ := List.mem_map.mp hmem
      exact ⟨x.2, hx⟩
    · exact absurd hci (hop c i)
  have hchosen : ∀ r, ∃ a : Models.Operation, r ∈ chosen → (r.op, a) ∈ s.entries := by
    intro r
    by_cases hmem : r ∈ chosen
    · obtain ⟨o, ho, -⟩ := logged_op hc hl (he.logged r hmem)
      obtain ⟨a, ha⟩ := hall r.op (List.getElem?_eq_some_iff.mp ho).1
      exact ⟨a, fun _ => ha⟩
    · exact ⟨logEntry 0 r.req r.reply 0 0, fun h => absurd h hmem⟩
  choose entry hentry using hchosen
  refine ⟨entry, fun r hmem => hr.entry _ (hentry r hmem), ?_⟩
  have hperm : (chosen.map fun r => (r.op, entry r)).Perm s.entries := by
    have honce : ((chosen.map fun r => (r.op, entry r)).map Prod.fst).Nodup := by
      rw [List.map_map]
      exact he.once
    rw [List.perm_ext_iff_of_nodup honce.of_map hr.assigned.once.of_map]
    rintro ⟨i, a⟩
    constructor
    · intro hmem
      obtain ⟨r, hrc, heq⟩ := List.mem_map.mp hmem
      cases heq
      exact hentry r hrc
    · intro hmem
      obtain ⟨-, out, -, -, -, ⟨o, τ, y, ho, hret, -⟩⟩ := hr.entry _ hmem
      obtain ⟨r, hrc, rfl⟩ := he.complete i o ho (by rw [hret]; rfl)
      have heq := List.inj_on_of_nodup_map hr.assigned.once (hentry r hrc) hmem rfl
      exact List.mem_map.mpr ⟨r, hrc, heq⟩
  have hsnd := hperm.map Prod.snd
  rw [List.map_map] at hsnd
  exact hsnd

/-- The log is linearizable if no `Put` has found its key missing. -/
theorem linearizable_oplog (hr : Recorded s) (hc : ClerkFacts s.kv) (hl : LogFacts s.kv)
    (ho : OpFacts s.kv) (hf : OnTimeFacts s.kv) (hb : ∀ x, version s.kv.log x < 2 ^ 64)
    (hidle : ∀ c, s.phase c = .idle)
    (hput : ∀ a ∈ s.oplog, a.input.op = 1 → a.output.err ≠ "ErrNoKey") :
    Linearizable mapModel (returned s.oplog) := by
  obtain ⟨chosen, he⟩ := exists_effects hc hl ho hf hb
  obtain ⟨entry, hentry, hperm⟩ := exists_entries hr hc hl hidle he
  have hlog := he.logged
  refine (linearizable_iff_orders _ _).mpr ⟨(chosen.map entry).map Models.Operation.done,
    hperm.map _, ?_, ?_⟩
  · rw [List.pairwise_map, List.pairwise_map]
    refine he.times.imp_of_mem ?_
    intro r q hrc hqc hle hlt
    obtain ⟨z, hz, hcall, -⟩ := (hentry r hrc).encloses hr.timed hl ho hf (hlog r hrc)
    obtain ⟨w, hw, -, hret⟩ := (hentry q hqc).encloses hr.timed hl ho hf (hlog q hqc)
    have hzw := hr.timed.mono hle hz hw
    have hback : (entry q).ret < (entry r).call := hlt
    omega
  · have hio : ((chosen.map entry).map Models.Operation.done).map Done.io =
        (chosen.map fun r => (r.req, s.kv.output r)).map
          fun x => (logInput x.1, logOutput x.2) := by
      simp only [List.map_map]
      refine List.map_congr_left ?_
      intro r hrc
      obtain ⟨hin, hout⟩ := (hentry r hrc).io hc hl (hlog r hrc)
      simp only [Function.comp_apply, Models.Operation.done, Done.io, hin, hout]
    have hout : ∀ x ∈ chosen.map fun r => (r.req, s.kv.output r), x.2 ≠ .put ⟨.errNoKey⟩ := by
      intro x hx heq
      obtain ⟨r, hrc, rfl⟩ := List.mem_map.mp hx
      obtain ⟨hin, hout⟩ := (hentry r hrc).io hc hl (hlog r hrc)
      replace heq : s.kv.output r = .put ⟨.errNoKey⟩ := heq
      cases hreq : r.req with
      | get args =>
        obtain ⟨reply, hreply⟩ := he.get hl hrc hreq
        rw [heq] at hreply
        cases hreply
      | put args =>
        have hmem : entry r ∈ s.oplog := hperm.mem_iff.mp (List.mem_map_of_mem hrc)
        refine hput (entry r) hmem ?_ ?_
        · rw [hin, hreq]
          rfl
        · rw [hout, heq]
          rfl
    rw [hio]
    have hrun := (mapModel_run_of_store he.legal (fits_store _) hout).1
    exact Option.isSome_iff_exists.mpr ⟨_, hrun⟩

/-- The entries return after they are called. -/
theorem call_le_ret (hr : Recorded s) (hl : LogFacts s.kv) (ho : OpFacts s.kv)
    (hf : OnTimeFacts s.kv) (a : Models.Operation) (ha : a ∈ s.oplog) :
    a.call ≤ a.ret := by
  obtain ⟨⟨i, a⟩, hmem, rfl⟩ := List.mem_map.mp ha
  have hentry := hr.entry _ hmem
  obtain ⟨-, out, -, -, -, ⟨o, τ, y, hop, hret, -⟩⟩ := hr.entry _ hmem
  obtain ⟨r, hrl, rfl, -⟩ := exists_answer hl ho hop hret
  obtain ⟨z, -, hcall, hret⟩ := hentry.encloses hr.timed hl ho hf hrl
  exact hcall.trans hret

end Recorded

/-- The model accepts no `Put` that found its key missing. -/
theorem kvModel_run_noKey {st : KvState} {xs : List (KvInput × KvOutput)}
    (h : (kvModel.run st xs).isSome) : ∀ x ∈ xs, x.1.op = 1 → x.2.err ≠ "ErrNoKey" := by
  induction xs generalizing st with
  | nil => simp
  | cons x xs ih =>
    obtain ⟨st', h⟩ := Option.isSome_iff_exists.mp h
    obtain ⟨st₁, hstep, hrun⟩ := Option.bind_eq_some_iff.mp h
    refine List.forall_mem_cons.mpr ⟨?_, ih (Option.isSome_iff_exists.mpr ⟨st', hrun⟩)⟩
    intro hop herr
    rcases kvModel_step_eq_some.mp hstep with ⟨hget, -⟩ | ⟨-, -, hok, -⟩ | ⟨-, -, hver, -⟩
    · rw [hop] at hget
      exact absurd hget (by decide)
    · simp [herr] at hok
    · simp [herr] at hver

theorem Legal.noKey {history : List Models.Operation} (h : Legal history)
    (a : Models.Operation) (ha : a ∈ history) (hop : a.input.op = 1) :
    a.output.err ≠ "ErrNoKey" := by
  have hmem : onKey a.input.key history ∈ partition history := by
    rw [partition_eq]
    exact List.mem_map_of_mem (mem_sortedKeys.mpr ⟨a, ha, rfl⟩)
  obtain ⟨l, hl⟩ := (linearizable_iff_orders _ _).mp (h _ hmem)
  have hal : a.done ∈ l := by
    refine hl.perm.mem_iff.mpr (List.mem_map_of_mem ?_)
    simp [onKey, ha]
  exact kvModel_run_noKey hl.legal a.done.io (List.mem_map_of_mem hal) hop

/-- The log of a test of this server, with every client back from its call, is legal exactly if no
logged `Put` has found its key missing. -/
theorem legal_oplog_iff {s : Tested ι} (hr : Recorded s) (hc : ClerkFacts s.kv) (hl : LogFacts s.kv)
    (ho : OpFacts s.kv) (hf : OnTimeFacts s.kv) (hb : ∀ x, version s.kv.log x < 2 ^ 64)
    (hidle : ∀ c, s.phase c = .idle) :
    Legal s.oplog ↔ ∀ a ∈ s.oplog, a.input.op = 1 → a.output.err ≠ "ErrNoKey" := by
  constructor
  · exact fun h => h.noKey
  · intro hput l hmem
    have hlin := linearizable_oplog hr hc hl ho hf hb hidle hput
    rw [mapModel_linearizable_iff (call_le_ret hr hl ho hf)] at hlin
    rw [partition_eq] at hmem
    obtain ⟨k, -, rfl⟩ := List.mem_map.mp hmem
    exact hlin k

variable [DecidableEq ι] {cli : ι → ℤ} {es : List (TestEvent ι)} {s : Tested ι}

/-- No handler runs for a call that has returned. -/
def Tested.onTime (s : Tested ι) : TestEvent ι → Bool
  | .net e => s.kv.onTime e
  | _ => true

theorem Tested.Step.kv {t : Tested ι} {e : TestEvent ι} (h : Tested.Step cli s e t) :
    t.kv = s.kv ∨ ∃ k, Service.Step s.kv k t.kv ∧ (s.onTime e = true → s.kv.onTime k = true) := by
  cases h with
  | call c start req kv hp hkv => exact .inr ⟨_, hkv, fun _ => rfl⟩
  | deliver c start req i out kv hp hout hkv => exact .inr ⟨_, hkv, fun _ => rfl⟩
  | net e kv hinvoke hdeliver hkv => exact .inr ⟨e, hkv, fun h => h⟩
  | clock | start | stop | append => exact .inl rfl

/-- The service takes part in the run with a run of its own. -/
theorem exists_service_run (h : (tested ι cli).Run es s) :
    ∃ ks, (KVSrv.system ι).Run ks s.kv ∧
      ((tested ι cli).Along es (fun _ s e => s.onTime e = true) →
        (KVSrv.system ι).Along ks fun _ s e => s.onTime e = true) := by
  induction h with
  | nil =>
    refine ⟨[], .nil, fun _ pre u e hp => ?_⟩
    simp at hp
  | @snoc es s t e hr hs ih =>
    obtain ⟨ks, hrun, hon⟩ := ih
    rw [System.along_snoc hr]
    have hstep : Tested.Step cli s e t := .of_step hs
    rcases hstep.kv with hkv | ⟨k, hkv, htime⟩
    · rw [hkv]
      exact ⟨ks, hrun, fun h => hon h.1⟩
    · have hk : (KVSrv.system ι).step s.kv k = some t.kv := Service.step_iff.mpr hkv
      refine ⟨ks ++ [k], hrun.snoc hk, fun h => ?_⟩
      exact (System.along_snoc hrun).mpr ⟨hon h.1, htime h.2⟩

theorem recorded_of_run (h : (tested ι cli).Run es s)
    (hfwd : (tested ι cli).Along es fun _ s e => s.forward e = true) : Recorded s := by
  induction h with
  | nil => exact recorded_init
  | @snoc es s t e hr hs ih =>
    rw [System.along_snoc hr] at hfwd
    obtain ⟨ks, hrun, -⟩ := exists_service_run hr
    exact recorded_step (bookkeeping hrun).1 (ih hfwd.1) hfwd.2 (.of_step hs)

/-- `checkPorcupine` on the log of a test of this server, with every client back from its call and
the clock never set back: if the library does not give up, the test passes if no logged `Put` has
found its key missing, and fails if one has. -/
theorem checkPorcupine_verdict (ι : Type*) [DecidableEq ι] (cli : ι → ℤ) (es : List (TestEvent ι))
    (s : Tested ι) (h : (tested ι cli).Run es s)
    (ht : (tested ι cli).Along es fun _ s e => s.onTime e = true)
    (hfwd : (tested ι cli).Along es fun _ s e => s.forward e = true)
    (hb : ∀ x, version s.kv.log x < 2 ^ 64) (hidle : ∀ c, s.phase c = .idle)
    (check : List Models.Operation → ℤ → CheckResult) (hcheck : RightVerdicts check) (nsec : ℤ) :
    (check s.oplog nsec = .unknown ∧ checkPorcupine check s.oplog nsec =
      .ok ["info: linearizability check timed out, assuming history is ok\n"]) ∨
    (checkPorcupine check s.oplog nsec = .ok [] ∧
      ∀ a ∈ s.oplog, a.input.op = 1 → a.output.err ≠ "ErrNoKey") ∨
    (checkPorcupine check s.oplog nsec = .error "history is not linearizable" ∧
      ∃ a ∈ s.oplog, a.input.op = 1 ∧ a.output.err = "ErrNoKey") := by
  obtain ⟨ks, hrun, hon⟩ := exists_service_run h
  obtain ⟨hc, hl, ho⟩ := bookkeeping hrun
  have hf := onTimeFacts hrun (hon ht)
  have hr := recorded_of_run h hfwd
  have hcalls := call_le_ret hr hl ho hf
  have hlegal := legal_oplog_iff hr hc hl ho hf hb hidle
  unfold checkPorcupine
  cases hres : check s.oplog nsec with
  | unknown => exact .inl ⟨rfl, rfl⟩
  | ok => exact .inr (.inl ⟨rfl, hlegal.mp (hcheck.ok _ nsec hcalls hres)⟩)
  | illegal =>
    have hnot := hcheck.illegal _ nsec hcalls hres
    rw [hlegal] at hnot
    push Not at hnot
    exact .inr (.inr ⟨rfl, hnot⟩)

/-- The reply of a first `Put` is lost; while it is in progress another client reads its value, and
the retry returns `ErrMaybe`. -/
def lossyLogRun : List (TestEvent Bool) :=
  [.start false (.put ⟨"x", "a", 0⟩), .clock 3, .call false, .net (.send false), .net (.exec 0),
    .net (.fail false), .clock 5, .start true (.get ⟨"x"⟩), .call true, .net (.send true),
    .net (.exec 1), .deliver true, .clock 6, .stop true, .net (.send false), .net (.exec 2),
    .deliver false, .stop false, .append false, .append true]

/-- A library that never gives up. -/
theorem exists_rightVerdicts :
    ∃ check, RightVerdicts check ∧ ∀ h nsec, check h nsec ≠ .unknown := by
  classical
  refine ⟨fun h _ => if Legal h then .ok else .illegal, ⟨?_, ?_⟩, ?_⟩
  · intro h nsec _ hok
    by_contra hnot
    simp [hnot] at hok
  · intro h nsec _ hillegal hlegal
    simp [hlegal] at hillegal
  · intro h nsec
    by_cases hlegal : Legal h <;> simp [hlegal]

theorem lossyLogRun_passes : ∃ s, (tested Bool fun _ => 0).Run lossyLogRun s ∧
    s.oplog.map (fun a => (a.call, a.output.err, a.ret)) = [(0, "ErrMaybe", 6), (5, "OK", 6)] ∧
    ∃ check, RightVerdicts check ∧ checkPorcupine check s.oplog 1000000000 = .ok [] := by
  obtain ⟨s, hrun, hlog, hlen, hidle, hput⟩ := System.exists_run (tested Bool fun _ => 0)
    lossyLogRun (fun s => s.oplog.map (fun a => (a.call, a.output.err, a.ret)) =
      [(0, "ErrMaybe", 6), (5, "OK", 6)] ∧ s.kv.log.length < 2 ^ 64 ∧ (∀ c, s.phase c = .idle) ∧
      ∀ a ∈ s.oplog, a.input.op = 1 → a.output.err ≠ "ErrNoKey") (by decide +kernel)
  obtain ⟨check, hcheck, hends⟩ := exists_rightVerdicts
  refine ⟨s, hrun, hlog, check, hcheck, ?_⟩
  rcases checkPorcupine_verdict Bool (fun _ => 0) lossyLogRun s hrun
      (System.along_of_allSteps Tested.onTime (fun _ _ _ h => h) (by decide +kernel))
      (System.along_of_allSteps Tested.forward (fun _ _ _ h => h) (by decide +kernel))
      (version_lt hlen) hidle check hcheck 1000000000 with
    ⟨hunknown, -⟩ | ⟨hpass, -⟩ | ⟨-, a, ha, hop, herr⟩
  · exact absurd hunknown (hends _ _)
  · exact hpass
  · exact absurd herr (hput a ha hop)

end KVTest
