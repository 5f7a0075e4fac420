import DistributedLabs.KVSrv.Programs

/-! Continuations of a run that a few clients make by themselves. A clerk call can always return,
and the clients that take no step stay where they are. -/
namespace KVSrv
open Runs

variable {ι π : Type*}

theorem reply?_exec_self {s : Service ι} {k : ℕ} (a : Attempt ι) (h : s.reply? k = none) :
    (s.exec k a).reply? k = some (s.server.handle a.req).2 := by
  have hnone : s.log.find? (fun r => r.attempt = k) = none := Option.map_eq_none_iff.mp h
  simp [Service.reply?, List.find?_append, hnone]

/-- Whose step an event is: the clerk's, and for the run of a handler that of the clerk which has
made the call. -/
def Service.actor (s : Service ι) : Event ι → Option ι
  | .invoke c _ => some c
  | .send c => some c
  | .exec k => (s.attempts[k]?).map Attempt.clerk
  | .deliver c => some c
  | .fail c => some c

/-- The client whose step an action is. -/
def Clients.actor (s : Clients ι π) : Action ι π → Option ι
  | .move c _ => some c
  | .kv e => s.kv.actor e

/-- The action is a step of a client in `D`. -/
def By (D : Set ι) (s : Clients ι π) (e : Action ι π) : Prop := ∃ d ∈ D, s.actor e = some d

namespace Program
variable [DecidableEq ι] {P : Program ι π} {p : π} {s t u : Clients ι π} {D E : Set ι} {c : ι}

/-- A run can go on from `s` to `t` with steps of the clients in `D` only. -/
def Advances (P : Program ι π) (p : π) (D : Set ι) (s t : Clients ι π) : Prop :=
  ∃ es, (P.system p).Path (By D) s es t

theorem Advances.refl (s : Clients ι π) : Advances P p D s s := ⟨[], .nil s⟩

theorem Advances.trans (h : Advances P p D s t) (h' : Advances P p D t u) : Advances P p D s u := by
  obtain ⟨es, hes⟩ := h
  obtain ⟨es', hes'⟩ := h'
  exact ⟨es ++ es', hes.append hes'⟩

theorem Advances.mono (h : Advances P p D s t) (hsub : D ⊆ E) : Advances P p E s t := by
  obtain ⟨es, hes⟩ := h
  refine ⟨es, hes.mono ?_⟩
  rintro s e ⟨d, hd, he⟩
  exact ⟨d, hsub hd, he⟩

theorem advances_step {e : Action ι π} (hs : P.step s e = some t) (he : s.actor e = some c) :
    Advances P p {c} s t := ⟨[e], .cons hs ⟨c, rfl, he⟩ (.nil t)⟩

theorem Advances.reaches (h : Advances P p D s t) : (P.system p).Reaches s t := by
  obtain ⟨es, hes⟩ := h
  exact ⟨es, hes.exec⟩

/-- A step of one client leaves the others and their clerks where they are. -/
theorem step_others {e : Action ι π} (hs : P.step s e = some t) (he : s.actor e = some c) {d : ι}
    (hd : d ≠ c) : t.pc d = s.pc d ∧ t.kv.clerks d = s.kv.clerks d := by
  cases e with
  | move c' q =>
    obtain ⟨-, rfl⟩ : _ ∧ (⟨s.kv, Function.update s.pc c' q⟩ : Clients ι π) = t := by
      simpa [Program.step] using hs
    cases he
    exact ⟨Function.update_of_ne hd _ _, rfl⟩
  | kv e =>
    simp only [Program.step, Option.ite_none_right_eq_some, Option.map_eq_some_iff] at hs
    obtain ⟨-, kv, hkv, rfl⟩ := hs
    cases Service.step_iff.mp hkv with
    | exec k a hk hr => exact ⟨rfl, rfl⟩
    | invoke c' req hc | send c' i req b hc | fail c' i req b k hc =>
      cases he
      exact ⟨rfl, Function.update_of_ne hd _ _⟩
    | deliver c' i req b k reply hc hr =>
      cases he
      refine ⟨?_, Function.update_of_ne hd _ _⟩
      simp [pcAfter, Service.result?, hc, hr, Function.update_of_ne hd]

/-- The clients that take no step stay where they are. -/
theorem path_others {es : List (Action ι π)} (h : (P.system p).Path (By D) s es t) {d : ι}
    (hd : d ∉ D) : t.pc d = s.pc d ∧ t.kv.clerks d = s.kv.clerks d := by
  refine h.keeps (R := fun s t => t.pc d = s.pc d ∧ t.kv.clerks d = s.kv.clerks d)
    (fun _ => ⟨rfl, rfl⟩) (fun _ _ _ h h' => ⟨h'.1.trans h.1, h'.2.trans h.2⟩) ?_
  rintro s e t hs ⟨c, hc, hact⟩
  have hdc : d ≠ c := fun heq => hd (heq ▸ hc)
  exact step_others hs hact hdc

theorem Advances.others (h : Advances P p D s t) {d : ι} (hd : d ∉ D) :
    t.pc d = s.pc d ∧ t.kv.clerks d = s.kv.clerks d := by
  obtain ⟨es, hes⟩ := h
  exact path_others hes hd

/-- The server has handled one more request. -/
structure Served (s t : Clients ι π) (req : Request) : Prop where
  server : t.kv.server = (s.kv.server.handle req).1
  log : ∃ r : Exec, r.req = req ∧ r.reply = (s.kv.server.handle req).2 ∧
    t.kv.log = s.kv.log ++ [r]

/-- A clerk has returned from a request that the server handled in between. -/
structure Calls (P : Program ι π) (p : π) (c : ι) (req : Request) (b : Bool)
    (s t : Clients ι π) : Prop where
  advances : Advances P p {c} s t
  idle : t.kv.clerks c = .idle
  pc : t.pc c = P.returns c (s.pc c) (clerkResult b (s.kv.server.handle req).2)
  served : Served s t req

/-- A step before a call that leaves the server and the client's control state. -/
theorem Calls.after {req : Request} {b : Bool} (h : Calls P p c req b t u)
    (ha : Advances P p {c} s t) (hserver : t.kv.server = s.kv.server) (hlog : t.kv.log = s.kv.log)
    (hpc : t.pc c = s.pc c) : Calls P p c req b s u where
  advances := ha.trans h.advances
  idle := h.idle
  pc := by rw [h.pc, hpc, hserver]
  served := by
    obtain ⟨hs, hl⟩ := h.served
    rw [hserver] at hs hl
    rw [hlog] at hl
    exact ⟨hs, hl⟩

section Returning
variable {i k : ℕ} {req : Request} {b : Bool}

theorem exists_calls_of_waiting (hf : ServiceFacts P s) (hc : s.kv.clerks c = .waiting i req b k)
    (hr : s.kv.reply? k = none) : ∃ t, Calls P p c req b s t := by
  have hk := hf.clerks.waiting c i req b k hc
  have hreply := reply?_exec_self ⟨c, i, req⟩ hr
  have hexec : Advances P p {c} s ⟨s.kv.exec k ⟨c, i, req⟩, s.pc⟩ :=
    advances_step (step_exec hk hr) (by simp [Clients.actor, Service.actor, hk])
  have hdeliver := step_deliver (P := P) (s := ⟨s.kv.exec k ⟨c, i, req⟩, s.pc⟩) hc hreply
  refine ⟨_, hexec.trans (advances_step hdeliver rfl), ?_, ?_, rfl, _, rfl, rfl, rfl⟩
  · simp
  · simp

theorem exists_calls_of_ready (hf : ServiceFacts P s) (hc : s.kv.clerks c = .ready i req b) :
    ∃ t, Calls P p c req b s t := by
  have hsend : Step P s ⟨s.kv.send c i req b, s.pc⟩ := .send c i req b hc
  have hnone : (s.kv.send c i req b).reply? s.kv.attempts.length = none := reply?_length hf.log
  have hwaits : (s.kv.send c i req b).clerks c = .waiting i req b s.kv.attempts.length :=
    Function.update_self _ _ _
  obtain ⟨t, ht⟩ := exists_calls_of_waiting (p := p) (serviceFacts_step hf hsend) hwaits hnone
  exact ⟨t, ht.after (advances_step (step_send hc) rfl) rfl rfl rfl⟩

/-- A call that a client may make can be made and return. -/
theorem exists_calls (hf : ServiceFacts P s) (hc : s.kv.clerks c = .idle)
    (hreq : P.calls c (s.pc c) req = true) : ∃ t, Calls P p c req true s t := by
  have hinvoke : Step P s ⟨s.kv.invoke c req, s.pc⟩ := .invoke c req hc hreq
  obtain ⟨t, ht⟩ := exists_calls_of_ready (p := p) (serviceFacts_step hf hinvoke)
    (Function.update_self _ _ _)
  exact ⟨t, ht.after (advances_step (step_invoke hc hreq) rfl) rfl rfl rfl⟩

/-- A client can come out of the call that it is in, with at most one more request served, which
is one that it may make. -/
theorem exists_idle (p : π) (hf : ServiceFacts P s) (c : ι) :
    ∃ t, Advances P p {c} s t ∧ t.kv.clerks c = .idle ∧
      (t.pc c = s.pc c ∨ ∃ out, t.pc c = P.returns c (s.pc c) out) ∧
      ((t.kv.server = s.kv.server ∧ t.kv.log = s.kv.log) ∨
        ∃ req, P.calls c (s.pc c) req = true ∧ Served s t req) := by
  have hcalls : ∀ {i req b t}, (s.kv.clerks c).current = some (i, req, b) →
      Calls P p c req b s t → ∃ t, Advances P p {c} s t ∧ t.kv.clerks c = .idle ∧
        (t.pc c = s.pc c ∨ ∃ out, t.pc c = P.returns c (s.pc c) out) ∧
        ((t.kv.server = s.kv.server ∧ t.kv.log = s.kv.log) ∨
          ∃ req, P.calls c (s.pc c) req = true ∧ Served s t req) := by
    intro i req b t hcur ht
    exact ⟨t, ht.advances, ht.idle, .inr ⟨_, ht.pc⟩,
      .inr ⟨req, hf.calling c i req b hcur, ht.served⟩⟩
  cases hc : s.kv.clerks c with
  | idle => exact ⟨s, .refl s, hc, .inl rfl, .inl ⟨rfl, rfl⟩⟩
  | ready i req b =>
    obtain ⟨t, ht⟩ := exists_calls_of_ready (p := p) hf hc
    exact hcalls (by rw [hc, Clerk.current_ready]) ht
  | waiting i req b k =>
    cases hr : s.kv.reply? k with
    | none =>
      obtain ⟨t, ht⟩ := exists_calls_of_waiting (p := p) hf hc hr
      exact hcalls (by rw [hc, Clerk.current_waiting]) ht
    | some reply =>
      exact ⟨_, advances_step (step_deliver hc hr) rfl, Function.update_self _ _ _,
        .inr ⟨_, Function.update_self _ _ _⟩, .inl ⟨rfl, rfl⟩⟩

end Returning
end Program
end KVSrv
