import DistributedLabs.KVSrv.Attempts

/-! Clients that use the service through their clerks. A client is a control state with the
clerk calls it may make there and the control state in which it continues with the result. -/
namespace KVSrv
open Runs

/-- The code of the clients `ι` over control states `π`. -/
structure Program (ι π : Type*) where
  /-- The clerk calls that a client may make in a control state. -/
  calls : ι → π → Request → Bool
  /-- The moves between control states outside clerk calls. -/
  moves : ι → π → π → Bool
  /-- Where a client continues when the clerk call it made has returned. -/
  returns : ι → π → Reply → π

structure Clients (ι π : Type*) where
  kv : Service ι
  pc : ι → π

inductive Action (ι π : Type*) where
  | move (c : ι) (p : π)
  | kv (e : Event ι)
  deriving DecidableEq, Repr

variable {ι π : Type*} [DecidableEq ι]

/-- The result of the clerk call of `c`, if the reply it waits for has been made. -/
def Service.result? (s : Service ι) (c : ι) : Option Reply :=
  match s.clerks c with
  | .waiting _ _ b k => (s.reply? k).map (clerkResult b)
  | _ => none

omit [DecidableEq ι] in
theorem Service.exists_of_result? {s : Service ι} {c : ι} {out : Reply}
    (h : s.result? c = some out) : ∃ i req b k reply, s.clerks c = .waiting i req b k ∧
      s.reply? k = some reply ∧ clerkResult b reply = out := by
  unfold Service.result? at h
  cases hc : s.clerks c with
  | idle | ready i req b => simp [hc] at h
  | waiting i req b k =>
    simp only [hc, Option.map_eq_some_iff] at h
    obtain ⟨reply, hreply, rfl⟩ := h
    exact ⟨i, req, b, k, reply, rfl, hreply, rfl⟩

namespace Program

/-- Calls are made by the client's code; everything else is up to clerks and network. -/
def allows (P : Program ι π) (s : Clients ι π) : Event ι → Bool
  | .invoke c req => P.calls c (s.pc c) req
  | _ => true

def pcAfter (P : Program ι π) (s : Clients ι π) : Event ι → ι → π
  | .deliver c =>
      match s.kv.result? c with
      | some out => Function.update s.pc c (P.returns c (s.pc c) out)
      | none => s.pc
  | _ => s.pc

def step (P : Program ι π) (s : Clients ι π) : Action ι π → Option (Clients ι π)
  | .move c p =>
      if s.kv.clerks c = .idle ∧ P.moves c (s.pc c) p = true then
        some { s with pc := Function.update s.pc c p }
      else none
  | .kv e =>
      if P.allows s e = true then (s.kv.step e).map fun kv => ⟨kv, P.pcAfter s e⟩ else none

/-- All clients start in the control state `p`. -/
def system (P : Program ι π) (p : π) : System (Clients ι π) (Action ι π) where
  init := ⟨Service.init ι, fun _ => p⟩
  step := P.step

/-- The clients start in a given state of theirs and of the service. -/
def systemFrom (P : Program ι π) (s : Clients ι π) : System (Clients ι π) (Action ι π) where
  init := s
  step := P.step

/-- The steps with what they require of the state. -/
inductive Step (P : Program ι π) (s : Clients ι π) : Clients ι π → Prop
  | move (c : ι) (p : π) (hc : s.kv.clerks c = .idle) (hm : P.moves c (s.pc c) p = true) :
      Step P s ⟨s.kv, Function.update s.pc c p⟩
  | invoke (c : ι) (req : Request) (hc : s.kv.clerks c = .idle)
      (hreq : P.calls c (s.pc c) req = true) : Step P s ⟨s.kv.invoke c req, s.pc⟩
  | send (c : ι) (i : ℕ) (req : Request) (b : Bool) (hc : s.kv.clerks c = .ready i req b) :
      Step P s ⟨s.kv.send c i req b, s.pc⟩
  | exec (k : ℕ) (a : Attempt ι) (hk : s.kv.attempts[k]? = some a) (hr : s.kv.reply? k = none) :
      Step P s ⟨s.kv.exec k a, s.pc⟩
  | deliver (c : ι) (i : ℕ) (req : Request) (b : Bool) (k : ℕ) (reply : Reply)
      (hc : s.kv.clerks c = .waiting i req b k) (hr : s.kv.reply? k = some reply) :
      Step P s ⟨s.kv.deliver c i (clerkResult b reply),
        Function.update s.pc c (P.returns c (s.pc c) (clerkResult b reply))⟩
  | fail (c : ι) (i : ℕ) (req : Request) (b : Bool) (k : ℕ)
      (hc : s.kv.clerks c = .waiting i req b k) : Step P s ⟨s.kv.fail c i req, s.pc⟩

variable {P : Program ι π} {s t : Clients ι π} {e : Action ι π} {es : List (Action ι π)} {p : π}

theorem Step.of_step (h : P.step s e = some t) : Step P s t := by
  cases e with
  | move c p =>
    simp only [Program.step, Option.ite_none_right_eq_some, Option.some.injEq] at h
    obtain ⟨⟨hc, hm⟩, rfl⟩ := h
    exact .move c p hc hm
  | kv e =>
    simp only [Program.step, Option.ite_none_right_eq_some, Option.map_eq_some_iff] at h
    obtain ⟨hallow, kv, hkv, rfl⟩ := h
    cases Service.step_iff.mp hkv with
    | invoke c req hc => exact .invoke c req hc hallow
    | send c i req b hc => exact .send c i req b hc
    | exec k a hk hr => exact .exec k a hk hr
    | deliver c i req b k reply hc hr =>
      have hpc : P.pcAfter s (.deliver c) =
          Function.update s.pc c (P.returns c (s.pc c) (clerkResult b reply)) := by
        simp [pcAfter, Service.result?, hc, hr]
      rw [hpc]
      exact .deliver c i req b k reply hc hr
    | fail c i req b k hc => exact .fail c i req b k hc

section Equations
variable {c : ι} {i k : ℕ} {req : Request} {b : Bool}

theorem step_move {q : π} (hc : s.kv.clerks c = .idle) (hm : P.moves c (s.pc c) q = true) :
    P.step s (.move c q) = some ⟨s.kv, Function.update s.pc c q⟩ := by
  simp [Program.step, hc, hm]

theorem step_invoke (hc : s.kv.clerks c = .idle) (hreq : P.calls c (s.pc c) req = true) :
    P.step s (.kv (.invoke c req)) = some ⟨s.kv.invoke c req, s.pc⟩ := by
  simp [Program.step, allows, pcAfter, Service.step, hc, hreq]

theorem step_send (hc : s.kv.clerks c = .ready i req b) :
    P.step s (.kv (.send c)) = some ⟨s.kv.send c i req b, s.pc⟩ := by
  simp [Program.step, allows, pcAfter, Service.step, hc]

theorem step_exec {a : Attempt ι} (hk : s.kv.attempts[k]? = some a) (hr : s.kv.reply? k = none) :
    P.step s (.kv (.exec k)) = some ⟨s.kv.exec k a, s.pc⟩ := by
  simp [Program.step, allows, pcAfter, Service.step, hk, hr]

theorem step_deliver {reply : Reply} (hc : s.kv.clerks c = .waiting i req b k)
    (hr : s.kv.reply? k = some reply) :
    P.step s (.kv (.deliver c)) = some ⟨s.kv.deliver c i (clerkResult b reply),
      Function.update s.pc c (P.returns c (s.pc c) (clerkResult b reply))⟩ := by
  simp [Program.step, allows, pcAfter, Service.step, Service.result?, hc, hr]

theorem step_fail (hc : s.kv.clerks c = .waiting i req b k) :
    P.step s (.kv (.fail c)) = some ⟨s.kv.fail c i req, s.pc⟩ := by
  simp [Program.step, allows, pcAfter, Service.step, hc]

theorem Step.exists_action (h : Step P s t) : ∃ e, P.step s e = some t := by
  cases h with
  | move c q hc hm => exact ⟨_, step_move hc hm⟩
  | invoke c req hc hreq => exact ⟨_, step_invoke hc hreq⟩
  | send c i req b hc => exact ⟨_, step_send hc⟩
  | exec k a hk hr => exact ⟨_, step_exec hk hr⟩
  | deliver c i req b k reply hc hr => exact ⟨_, step_deliver hc hr⟩
  | fail c i req b k hc => exact ⟨_, step_fail hc⟩

end Equations

/-- Clients take steps of the service only. -/
theorem Step.kv (h : Step P s t) : t.kv = s.kv ∨ ∃ e, Service.Step s.kv e t.kv := by
  cases h with
  | move => exact .inl rfl
  | invoke c req hc hreq => exact .inr ⟨_, .invoke c req hc⟩
  | send c i req b hc => exact .inr ⟨_, .send c i req b hc⟩
  | exec k a hk hr => exact .inr ⟨_, .exec k a hk hr⟩
  | deliver c i req b k reply hc hr => exact .inr ⟨_, .deliver c i req b k reply hc hr⟩
  | fail c i req b k hc => exact .inr ⟨_, .fail c i req b k hc⟩

/-- A step is the run of a handler, or it leaves server and log. -/
theorem Step.log (h : Step P s t) :
    (t.kv.log = s.kv.log ∧ t.kv.server = s.kv.server) ∨
    ∃ k a, s.kv.attempts[k]? = some a ∧ t = ⟨s.kv.exec k a, s.pc⟩ := by
  cases h with
  | exec k a hk hr => exact .inr ⟨k, a, hk, rfl⟩
  | move | invoke | send | deliver | fail => exact .inl ⟨rfl, rfl⟩

/-- A client stays in its control state, makes a move of its own, or continues with the result
of its call. -/
theorem Step.pc (h : Step P s t) (d : ι) :
    t.pc d = s.pc d ∨ (s.kv.clerks d = .idle ∧ P.moves d (s.pc d) (t.pc d) = true) ∨
    ∃ i req b k reply, s.kv.clerks d = .waiting i req b k ∧ s.kv.reply? k = some reply ∧
      t.pc d = P.returns d (s.pc d) (clerkResult b reply) := by
  cases h with
  | move c p hc hm =>
    by_cases hdc : d = c
    · subst hdc
      exact .inr (.inl ⟨hc, by simpa using hm⟩)
    · exact .inl (Function.update_of_ne hdc _ _)
  | deliver c i req b k reply hc hr =>
    by_cases hdc : d = c
    · subst hdc
      exact .inr (.inr ⟨i, req, b, k, reply, hc, hr, Function.update_self _ _ _⟩)
    · exact .inl (Function.update_of_ne hdc _ _)
  | invoke | send | exec | fail => exact .inl rfl

/-- A reply that a client waits for was there before the step, and the client has not moved,
unless the handler has just run. -/
theorem Step.awaited (hl : LogFacts s.kv) (h : Step P s t) (hlog : t.kv.log = s.kv.log) {d : ι}
    {i k : ℕ} {req : Request} {b : Bool} {reply : Reply}
    (hd : t.kv.clerks d = .waiting i req b k) (hr : t.kv.reply? k = some reply) :
    s.kv.clerks d = .waiting i req b k ∧ s.kv.reply? k = some reply ∧ t.pc d = s.pc d := by
  have hr' : s.kv.reply? k = some reply := by rwa [Service.reply?, ← hlog]
  have hd' : s.kv.clerks d = .waiting i req b k := by
    rcases h.kv with heq | ⟨e, he⟩
    · rwa [← heq]
    · rcases he.waiting hd with hd' | ⟨-, -, rfl⟩
      · exact hd'
      · rw [reply?_length hl] at hr'
        cases hr'
  refine ⟨hd', hr', ?_⟩
  cases h with
  | move c p hc hm =>
    refine Function.update_of_ne ?_ _ _
    rintro rfl
    rw [hc] at hd
    cases hd
  | deliver c i' req' b' k' reply' hc hr =>
    refine Function.update_of_ne ?_ _ _
    rintro rfl
    simp at hd
  | invoke | send | exec | fail => rfl

/-- A clerk's operation in progress is one that its client calls in its control state. -/
def Calling (P : Program ι π) (s : Clients ι π) : Prop :=
  ∀ c i req b, (s.kv.clerks c).current = some (i, req, b) → P.calls c (s.pc c) req = true

theorem calling_step (hcall : Calling P s) (h : Step P s t) : Calling P t := by
  intro d i req b hd
  cases h with
  | move c p hc hm =>
    by_cases hdc : d = c
    · subst hdc
      simp [hc] at hd
    · simp only [Function.update_of_ne hdc]
      exact hcall d i req b hd
  | deliver c i' req' b' k reply hc hr =>
    by_cases hdc : d = c
    · subst hdc
      simp at hd
    · simp only [Service.deliver_clerks, Function.update_of_ne hdc] at hd ⊢
      exact hcall d i req b hd
  | invoke c req' hc hreq =>
    rcases (Service.Step.invoke c req' hc).current hd with ⟨he, -⟩ | ⟨-, b', hd'⟩
    · cases he
      exact hreq
    · exact hcall d i req b' hd'
  | send c i' req' b' hc =>
    rcases (Service.Step.send c i' req' b' hc).current hd with ⟨he, -⟩ | ⟨-, b', hd'⟩
    · cases he
    · exact hcall d i req b' hd'
  | exec k a hk hr => exact hcall d i req b hd
  | fail c i' req' b' k hc =>
    rcases (Service.Step.fail c i' req' b' k hc).current hd with ⟨he, -⟩ | ⟨-, b', hd'⟩
    · cases he
    · exact hcall d i req b' hd'

/-- What holds of the service and its clerks in every run of client code. -/
structure ServiceFacts (P : Program ι π) (s : Clients ι π) : Prop where
  clerks : ClerkFacts s.kv
  log : LogFacts s.kv
  ops : OpFacts s.kv
  calling : Calling P s

theorem serviceFacts_step (hf : ServiceFacts P s) (h : Step P s t) : ServiceFacts P t := by
  have hcalling := calling_step hf.calling h
  rcases h.kv with heq | ⟨e, he⟩
  · exact ⟨heq ▸ hf.clerks, heq ▸ hf.log, heq ▸ hf.ops, hcalling⟩
  · exact ⟨clerkFacts_step hf.clerks he, logFacts_step hf.log he,
      opFacts_step hf.clerks hf.log hf.ops he, hcalling⟩

theorem serviceFacts_from {s₀ : Clients ι π} (h0 : ServiceFacts P s₀)
    (h : (P.systemFrom s₀).Run es s) : ServiceFacts P s :=
  h.invariant' (I := fun _ s => ServiceFacts P s) h0
    fun _ _ _ _ _ hf hs => serviceFacts_step hf (.of_step hs)

theorem serviceFacts (h : (P.system p).Run es s) : ServiceFacts P s :=
  serviceFacts_from
    ⟨clerkFacts_init, logFacts_init, opFacts_init, fun _ _ _ _ hc => by cases hc⟩ h

theorem version_mono (h : Step P s t) (x : String) : version s.kv.log x ≤ version t.kv.log x := by
  rcases h.kv with heq | ⟨e, he⟩
  · rw [heq]
  · rcases he.log with ⟨hlog, -⟩ | ⟨k, a, -, -, -, hlog, -⟩
    · rw [hlog]
    · rw [hlog]
      exact version_le_append _ _ x

end Program
end KVSrv
