import DistributedLabs.KVSrv.Programs

/-! Client code that uses other client code: the control states of the larger program show
those of the smaller one, and its runs show runs of the smaller one on the same service. -/
namespace KVSrv
open Runs

variable {ι π ρ : Type*} [DecidableEq ι]

/-- The clients with only what `f` shows of their control states. -/
def Clients.map (f : ρ → π) (s : Clients ι ρ) : Clients ι π := ⟨s.kv, f ∘ s.pc⟩

namespace Program
variable {Q : Program ι ρ} {P : Program ι π} {f : ρ → π}

/-- What `f` shows of `Q` is client code of `P`: the calls of `Q` are ones that `P` may make, and
where a client of `Q` goes on, one of `P` does too, with at most one move after a call. -/
structure Refines (Q : Program ι ρ) (P : Program ι π) (f : ρ → π) : Prop where
  calls : ∀ c q req, Q.calls c q req = true → P.calls c (f q) req = true
  moves : ∀ c q q', Q.moves c q q' = true → f q' = f q ∨ P.moves c (f q) (f q') = true
  returns : ∀ c q out, f (Q.returns c q out) = P.returns c (f q) out ∨
    P.moves c (P.returns c (f q) out) (f (Q.returns c q out)) = true

theorem exec_of_step {p : π} {s t : Clients ι π} (h : Step P s t) :
    ∃ es, (P.system p).exec s es = some t := by
  obtain ⟨e, he⟩ := h.exists_action
  exact ⟨[e], by rw [System.exec, show (P.system p).step s e = some t from he]; rfl⟩

theorem exec_of_steps {p : π} {s t u : Clients ι π} (h : Step P s t) (h' : Step P t u) :
    ∃ es, (P.system p).exec s es = some u := by
  obtain ⟨e, he⟩ := h.exists_action
  obtain ⟨es, hes⟩ := exec_of_step (p := p) h'
  refine ⟨e :: es, ?_⟩
  rw [System.exec, show (P.system p).step s e = some t from he, Option.bind_some, hes]

theorem Refines.step (hr : Refines Q P f) {p : π} {s t : Clients ι ρ} (h : Step Q s t) :
    ∃ es, (P.system p).exec (s.map f) es = some (t.map f) := by
  cases h with
  | move c q hc hm =>
    have hmap : Clients.map f ⟨s.kv, Function.update s.pc c q⟩ =
        ⟨s.kv, Function.update (f ∘ s.pc) c (f q)⟩ := by
      rw [Clients.map, Function.comp_update]
    rcases hr.moves c (s.pc c) q hm with hstay | hmove
    · refine ⟨[], ?_⟩
      rw [hmap, hstay, show f (s.pc c) = (f ∘ s.pc) c from rfl, Function.update_eq_self]
      rfl
    · rw [hmap]
      exact exec_of_step (.move c (f q) hc hmove)
  | invoke c req hc hreq => exact exec_of_step (.invoke c req hc (hr.calls c (s.pc c) req hreq))
  | send c i req b hc => exact exec_of_step (.send c i req b hc)
  | exec k a hk hk' => exact exec_of_step (.exec k a hk hk')
  | deliver c i req b k reply hc hk =>
    have hmap : Clients.map f ⟨s.kv.deliver c i (clerkResult b reply),
        Function.update s.pc c (Q.returns c (s.pc c) (clerkResult b reply))⟩ =
        ⟨s.kv.deliver c i (clerkResult b reply),
          Function.update (f ∘ s.pc) c (f (Q.returns c (s.pc c) (clerkResult b reply)))⟩ := by
      rw [Clients.map, Function.comp_update]
    have hdel : Step P (s.map f) _ := .deliver c i req b k reply hc hk
    rcases hr.returns c (s.pc c) (clerkResult b reply) with hsame | hmove
    · rw [hmap, hsame]
      exact exec_of_step hdel
    · rw [hmap]
      have hnext : Step P ⟨s.kv.deliver c i (clerkResult b reply),
          Function.update (f ∘ s.pc) c (P.returns c (f (s.pc c)) (clerkResult b reply))⟩
          ⟨s.kv.deliver c i (clerkResult b reply), Function.update (Function.update (f ∘ s.pc) c
            (P.returns c (f (s.pc c)) (clerkResult b reply))) c
            (f (Q.returns c (s.pc c) (clerkResult b reply)))⟩ :=
        .move c _ (by simp) (by simpa using hmove)
      rw [Function.update_idem] at hnext
      exact exec_of_steps hdel hnext
  | fail c i req b k hc => exact exec_of_step (.fail c i req b k hc)

theorem Refines.simulates (hr : Refines Q P f) (q : ρ) :
    (Q.system q).Simulates (P.system (f q)) (Clients.map f) where
  init := rfl
  step := fun _ _ _ hs => hr.step (.of_step hs)

end Program
end KVSrv
