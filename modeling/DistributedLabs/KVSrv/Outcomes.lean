import DistributedLabs.KVSrv.Attempts

/-! What the result of a clerk's `Put` says about its attempts, whenever their handlers run:
also after their call was given up, and after the `Put` has returned. -/
namespace KVSrv
open Runs
variable {ι : Type*} {s t : Service ι} {e : Event ι} {es : List (Event ι)}

theorem clerkResult_eq_errVersion {b : Bool} {reply : Reply}
    (h : clerkResult b reply = .put ⟨.errVersion⟩) : b = true ∧ reply = .put ⟨.errVersion⟩ := by
  cases reply with
  | get reply => simp [clerkResult] at h
  | put reply =>
    obtain ⟨err⟩ := reply
    cases err <;> cases b <;> simp_all [clerkResult, clerkPut]

/-- An operation has returned what the clerk makes of the reply of a handler run of its own,
and that run was over by then. -/
def AnsweredBefore (s : Service ι) : Prop :=
  ∀ (i : ℕ) (o : Operation) τ out, s.ops[i]? = some o → o.ret = some (τ, out) →
    ∃ r ∈ s.log, r.op = i ∧ r.time < τ ∧ ∃ b, out = clerkResult b r.reply

/-- A `Put` that returned `ErrVersion` made one attempt, and that was refused. -/
theorem not_applied_of_errVersion (hl : LogFacts s) (ho : OpFacts s) {i τ : ℕ} {o : Operation}
    (hi : s.ops[i]? = some o) (hret : o.ret = some (τ, .put ⟨.errVersion⟩)) :
    ∀ r ∈ s.log, r.op = i → ¬ r.Applied := by
  obtain ⟨q, hq, -, b, hout, hfirst⟩ := exists_answer hl ho hi hret
  obtain ⟨hb, hreply⟩ := clerkResult_eq_errVersion hout.symm
  rintro r hr hop ⟨x, hx⟩
  obtain ⟨args, -, -, hok⟩ := (Exec.appliedTo_iff x r).mp hx
  rw [hfirst hb r hr hop, hreply] at hok
  simp at hok

/-- No attempt of an operation was issued after the one its clerk waits for, nor after the one
whose reply it returned. -/
structure LatestFacts (s : Service ι) : Prop where
  waiting : ∀ c i req b k, s.clerks c = .waiting i req b k →
    ∀ j a, s.attempts[j]? = some a → a.op = i → j ≤ k
  returned : ∀ (i : ℕ) (o : Operation) τ out, s.ops[i]? = some o → o.ret = some (τ, out) →
    ∃ r ∈ s.log, r.op = i ∧ (∃ b, out = clerkResult b r.reply) ∧
      ∀ j a, s.attempts[j]? = some a → a.op = i → j ≤ r.attempt

theorem latestFacts_init : LatestFacts (Service.init ι) := by
  constructor <;> simp [Service.init]

variable [DecidableEq ι]

theorem answeredBefore_step (hc : ClerkFacts s) (hl : LogFacts s) (hf : AnsweredBefore s)
    (h : Service.Step s e t) : AnsweredBefore t := by
  intro i o τ out hi hret
  have hlog : s.log ⊆ t.log := h.log_subset
  rcases h.ops hi with ⟨c, -, -, -, hnone⟩ | ⟨o', ho', -, -, hret' | hdel⟩
  · rw [hnone] at hret
    contradiction
  · obtain ⟨r, hr, hop, hlt, hb⟩ := hf i o' τ out ho' (hret' ▸ hret)
    exact ⟨r, hlog hr, hop, hlt, hb⟩
  · obtain ⟨c, req, b, k, reply, -, hwait, hr, hnow⟩ := hdel
    obtain ⟨rfl, rfl⟩ : s.now = τ ∧ clerkResult b reply = out := by
      simpa [hnow] using hret
    obtain ⟨r, hmem, -, hop, -, rfl⟩ := waiting_run hc hl hwait hr
    exact ⟨r, hlog hmem, hop, hl.time_lt r hmem, b, rfl⟩

theorem answeredBefore (h : (system ι).Run es s) : AnsweredBefore s := by
  apply h.invariant' (I := fun _ s => AnsweredBefore s)
  · intro i o τ out hi
    simp [system, Service.init] at hi
  · intro es s e t hr hf hs
    obtain ⟨hc, hl, -⟩ := bookkeeping hr
    exact answeredBefore_step hc hl hf (Service.step_iff.mp hs)

theorem latestFacts_step (hc : ClerkFacts s) (hl : LogFacts s) (hf : LatestFacts s)
    (h : Service.Step s e t) : LatestFacts t where
  waiting := by
    intro d i req b k hd j a hj hop
    rcases h.waiting hd with hd' | ⟨rfl, hready, rfl⟩
    · have hold := h.attempt_of_waiting hc hd' hj hop
      exact hf.waiting d i req b k hd' j a hold hop
    · rw [h.send_attempts hready] at hj
      have hlt := (List.getElem?_eq_some_iff.mp hj).1
      rw [List.length_append, List.length_singleton] at hlt
      omega
  returned := by
    intro i o τ out hi hret
    have hlog : s.log ⊆ t.log := h.log_subset
    rcases h.ops hi with ⟨c, -, -, -, hnone⟩ | ⟨o', ho', -, -, hret' | hdel⟩
    · rw [hnone] at hret
      cases hret
    · rw [hret'] at hret
      obtain ⟨r, hr, hop, hout, hlast⟩ := hf.returned i o' τ out ho' hret
      refine ⟨r, hlog hr, hop, hout, ?_⟩
      intro j a hj ha
      exact hlast j a (h.attempt_of_returned hc ho' hret hj ha) ha
    · obtain ⟨c, req, b, k, reply, -, hwait, hr, hnow⟩ := hdel
      obtain ⟨rfl, rfl⟩ : s.now = τ ∧ clerkResult b reply = out := by
        simpa [hnow] using hret
      obtain ⟨r, hmem, rfl, hop, -, rfl⟩ := waiting_run hc hl hwait hr
      refine ⟨r, hlog hmem, hop, ⟨b, rfl⟩, ?_⟩
      intro j a hj ha
      exact hf.waiting c i req b _ hwait j a (h.attempt_of_waiting hc hwait hj ha) ha

theorem latestFacts (h : (system ι).Run es s) : LatestFacts s := by
  apply h.invariant' (I := fun _ s => LatestFacts s)
  · exact latestFacts_init
  · intro es s e t hr hf hs
    obtain ⟨hc, hl, -⟩ := bookkeeping hr
    exact latestFacts_step hc hl hf (Service.step_iff.mp hs)

/-- A `Put` that returned `ErrNoKey` is never applied if its attempts are executed in the order
in which they were issued. -/
theorem not_applied_of_returned_errNoKey (ι : Type*) [DecidableEq ι] (es : List (Event ι))
    (s : Service ι) (h : (system ι).Run es s) (i τ : ℕ) (o : Operation) (hi : s.ops[i]? = some o)
    (hret : o.ret = some (τ, .put ⟨.errNoKey⟩))
    (horder : ∀ r ∈ s.log, ∀ q ∈ s.log, r.op = i → q.op = i → r.attempt < q.attempt →
      r.time < q.time) :
    ∀ r ∈ s.log, r.op = i → ¬ r.Applied := by
  obtain ⟨hc, hl, -⟩ := bookkeeping h
  obtain ⟨q, hq, hqi, ⟨b, hout⟩, hlast⟩ := (latestFacts h).returned i o τ _ hi hret
  have hreply : q.reply = .put ⟨.errNoKey⟩ := clerkResult_eq_errNoKey hout.symm
  rintro r hr hri ⟨x, hx⟩
  obtain ⟨args, hargs, rfl, hok⟩ := (Exec.appliedTo_iff x r).mp hx
  have hreq : q.req = .put args := by rw [← hargs, req_eq_of_op hc hl hq hr (hqi.trans hri.symm)]
  obtain ⟨a, ha, hop, -⟩ := hl.logged r hr
  rcases (hlast r.attempt a ha (hop.trans hri)).lt_or_eq with hlt | heq
  · have hbefore := horder r hr q hq hri hqi hlt
    exact hl.replays.not_applied_before hl.times hr hq hbefore hreq hreply hx
  · rw [hl.eq_of_attempt hr hq heq, hreply] at hok
    cases hok

/-- A `Put` makes two attempts at a missing key, the first of them executed after its call was
given up. Then another clerk creates the key. -/
def missingKeyRun : List (Event Bool) :=
  [.invoke false (.put ⟨"x", "a", 1⟩), .send false, .fail false, .exec 0, .send false, .exec 1,
    .deliver false, .invoke true (.put ⟨"x", "b", 0⟩), .send true, .exec 2, .deliver true]

theorem missingKeyRun_not_applied : ∃ s, (system Bool).Run missingKeyRun s ∧
    s.log.map (fun r => (r.op, r.reply)) =
      [(0, .put ⟨.errNoKey⟩), (0, .put ⟨.errNoKey⟩), (1, .put ⟨.ok⟩)] ∧
    s.ops[0]?.map (fun o => o.ret) = some (some (6, .put ⟨.errNoKey⟩)) ∧
    ∀ r ∈ s.log, r.op = 0 → ¬ r.Applied := by
  obtain ⟨s, hr, hlog, hret, horder⟩ := System.exists_run (system Bool) missingKeyRun
    (fun s => s.log.map (fun r => (r.op, r.reply)) =
        [(0, .put ⟨.errNoKey⟩), (0, .put ⟨.errNoKey⟩), (1, .put ⟨.ok⟩)] ∧
      s.ops[0]?.map (fun o => o.ret) = some (some (6, .put ⟨.errNoKey⟩)) ∧
      ∀ r ∈ s.log, ∀ q ∈ s.log, r.op = 0 → q.op = 0 → r.attempt < q.attempt → r.time < q.time)
    (by decide +kernel)
  obtain ⟨o, ho, hor⟩ := Option.map_eq_some_iff.mp hret
  exact ⟨s, hr, hlog, hret,
    not_applied_of_returned_errNoKey Bool missingKeyRun s hr 0 6 o ho hor horder⟩

/-- The first attempt of a `Put` is given up and the second one finds no key. After the `Put`
has returned another clerk creates the key, and then the handler of the first attempt runs. -/
def overtakenPutRun : List (Event Bool) :=
  [.invoke false (.put ⟨"x", "a", 1⟩), .send false, .fail false, .send false, .exec 1,
    .deliver false, .invoke true (.put ⟨"x", "b", 0⟩), .send true, .exec 2, .deliver true, .exec 0]

/-- The `Put` has returned `ErrNoKey`, and it is applied later. -/
theorem overtakenPutRun_applied : ∃ s, (system Bool).Run overtakenPutRun s ∧
    s.ops[0]?.map (fun o => o.ret) = some (some (5, .put ⟨.errNoKey⟩)) ∧
    ∃ r ∈ s.log, r.op = 0 ∧ r.Applied := by
  obtain ⟨s, hr, hret, r, hmem, hop, happ⟩ := System.exists_run (system Bool) overtakenPutRun
    (fun s => s.ops[0]?.map (fun o => o.ret) = some (some (5, .put ⟨.errNoKey⟩)) ∧
      ∃ r ∈ s.log, r.op = 0 ∧ r.appliedTo "x" = true) (by decide +kernel)
  exact ⟨s, hr, hret, r, hmem, hop, "x", happ⟩

/-- The first attempt of a `Put` is given up, its second one is applied, and the handler of
the first runs after the `Put` has returned. Then a `Put` with an old version is refused. -/
def lateAttemptRun : List (Event Bool) :=
  [.invoke false (.put ⟨"x", "a", 0⟩), .send false, .fail false, .send false, .exec 1,
    .deliver false, .exec 0, .invoke true (.put ⟨"x", "b", 0⟩), .send true, .exec 2, .deliver true]

end KVSrv
