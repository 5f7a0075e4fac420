import DistributedLabs.MR.Barrier
import DistributedLabs.MR.Work

/-! What the runs of a job do to the coordinator: it takes its own steps, and workers issue new
calls. -/
namespace MR
open Runs
variable {J : Config} {p q : Process} {e : CoordEvent}

/-- Calls as workers issue them. -/
inductive Call.Fresh : Call → Prop
  | select (since : ℕ) : Fresh (.select since)
  | mark (id : ℕ) (kind : TaskType) : Fresh (.mark id kind)

def Process.issue (p : Process) (x : Call) : Process := { p with calls := p.calls ++ [x] }

theorem State.Work.coord {ι : Type*} [DecidableEq ι] {J : Job} {s t : State ι} {w : ι}
    (h : State.Work J s w t) :
    t.coord = s.coord ∨ ∃ x, x.Fresh ∧ t.coord = s.coord.issue x := by
  cases h with
  | ask hw => exact .inr ⟨_, .select _, rfl⟩
  | report task hw => exact .inr ⟨_, .mark _ _, rfl⟩
  | _ => exact .inl rfl

/-- The steps of the coordinator in a run meet `C`. -/
def CoordAlong {ι : Type*} [DecidableEq ι] (J : Job) (es : List (Event ι))
    (C : Process → CoordEvent → Prop) : Prop :=
  (system J ι).Along es fun _ s e => ∀ a, e = .coord a → C s.coord a

/-- The invariant rule for the coordinator in a run of a job. -/
theorem coord_invariant {ι : Type*} [DecidableEq ι] {J : Job} {es : List (Event ι)} {s : State ι}
    {C : Process → CoordEvent → Prop} {I : Process → Prop} (h0 : I (.init J.files))
    (hstep : ∀ p a q, I p → C p a → p.step J.toConfig a = some q → I q)
    (hissue : ∀ p x, I p → x.Fresh → I (p.issue x))
    (h : (system J ι).Run es s) (hc : CoordAlong J es C) : I s.coord := by
  refine h.invariant (I := fun _ s => I s.coord) h0 ?_ hc
  intro es s e t _ hi hC ht
  rcases State.step_cases ht with ⟨a, p, rfl, hp, rfl⟩ | ⟨w, hw⟩
  · exact hstep _ a _ hi (hC a rfl) hp
  · rcases hw.coord with heq | ⟨x, hx, heq⟩
    · rw [heq]
      exact hi
    · rw [heq]
      exact hissue _ x hi hx

/-- The rule without a condition on the steps. -/
theorem coord_invariant' {ι : Type*} [DecidableEq ι] {J : Job} {es : List (Event ι)} {s : State ι}
    {I : Process → Prop} (h0 : I (.init J.files))
    (hstep : ∀ p q, I p → Process.Step J.toConfig p q → I q)
    (hissue : ∀ p x, I p → x.Fresh → I (p.issue x)) (h : (system J ι).Run es s) : I s.coord :=
  coord_invariant (C := fun _ _ => True) h0 (fun p _ q hi _ hs => hstep p q hi (.of_step hs))
    hissue h fun _ _ _ _ _ _ _ => trivial

theorem send_calls {sent : Option Task} {receiver : Option ℕ} {u : Process}
    (hs : p.send sent receiver = some u) {k : ℕ} {x : Call} (hk : p.calls[k]? = some x)
    (hx : ∀ since, x ≠ .select since) : u.calls[k]? = some x := by
  rcases send_cases hs with rfl | ⟨j, since, hj, rfl⟩
  · exact hk
  · have hjk : j ≠ k := by
      rintro rfl
      rw [hk] at hj
      exact hx since (Option.some.inj hj)
    rw [List.getElem?_set_ne hjk]
    exact hk

theorem mainStep_calls {receiver : Option ℕ} (h : p.mainStep J receiver = some q) {k : ℕ} {x : Call}
    (hk : p.calls[k]? = some x) (hx : ∀ since, x ≠ .select since) : q.calls[k]? = some x := by
  unfold Process.mainStep at h
  split at h
  · split at h <;> exact Option.some.inj h ▸ hk
  · obtain ⟨u, hu, rfl⟩ := Option.map_eq_some_iff.mp h
    exact send_calls hu hk hx
  · simp only [Option.ite_none_right_eq_some, Option.some.injEq] at h
    exact h.2 ▸ hk
  · split at h <;> exact Option.some.inj h ▸ hk
  · simp only [Option.ite_none_right_eq_some, Option.some.injEq] at h
    exact h.2 ▸ hk
  · exact Option.some.inj h ▸ hk
  · simp only [Option.ite_none_right_eq_some, Option.some.injEq] at h
    exact h.2 ▸ hk
  · split at h <;> exact Option.some.inj h ▸ hk
  · obtain ⟨u, hu, rfl⟩ := Option.map_eq_some_iff.mp h
    exact send_calls hu hk hx
  · split at h
    · obtain ⟨u, hu, rfl⟩ := Option.map_eq_some_iff.mp h
      exact send_calls hu hk hx
    · exact Option.some.inj h ▸ hk
  · cases h

theorem monitorStep_calls {order : List ℕ} {receiver : Option ℕ}
    (h : p.monitorStep order receiver = some q) {k : ℕ} {x : Call} (hk : p.calls[k]? = some x)
    (hx : ∀ since, x ≠ .select since) : q.calls[k]? = some x := by
  unfold Process.monitorStep at h
  split at h
  · cases h
  · simp only [Option.ite_none_right_eq_some, Option.some.injEq] at h
    exact h.2 ▸ hk
  · simp only [Option.ite_none_right_eq_some, Option.some.injEq] at h
    exact h.2 ▸ hk
  · exact Option.some.inj h ▸ hk
  · exact Option.some.inj h ▸ hk
  · simp only [Option.ite_none_right_eq_some, Option.some.injEq] at h
    exact h.2 ▸ hk
  · split at h
    · split at h <;> exact Option.some.inj h ▸ hk
    · exact Option.some.inj h ▸ hk
  · obtain ⟨u, hu, rfl⟩ := Option.map_eq_some_iff.mp h
    exact send_calls hu hk hx
  · exact Option.some.inj h ▸ hk

/-- Apart from its `select` a call is moved on by its own steps only. -/
theorem event_of_call (h : p.step J e = some q) {k : ℕ} {x : Call} (hk : p.calls[k]? = some x)
    (hx : ∀ since, x ≠ .select since) (hq : q.calls[k]? ≠ some x) : e = .call k := by
  unfold Process.step at h
  split at h
  · cases h
  cases e with
  | pass d => exact absurd (Option.some.inj h ▸ hk) hq
  | tick =>
    simp only [Process.tickStep, Option.ite_none_right_eq_some, Option.some.injEq] at h
    exact absurd (h.2 ▸ hk) hq
  | main receiver => exact absurd (mainStep_calls h hk hx) hq
  | monitor order receiver => exact absurd (monitorStep_calls h hk hx) hq
  | call j =>
    by_cases hjk : j = k
    · rw [hjk]
    · refine absurd ?_ hq
      have hset : ∃ y, q.calls = p.calls.set j y ∨ q.calls = p.calls := by
        simp only [Process.callStep] at h
        split at h <;> (try split at h) <;> cases h <;>
          first | exact ⟨_, .inl rfl⟩ | exact ⟨x, .inr rfl⟩
      obtain ⟨y, hset | hset⟩ := hset
      · rw [hset, List.getElem?_set_ne hjk]
        exact hk
      · rw [hset]
        exact hk
  | timeout j =>
    refine absurd ?_ hq
    simp only [Process.timeoutStep] at h
    split at h
    next since hj =>
      simp only [Option.ite_none_right_eq_some, Option.some.injEq] at h
      have hjk : j ≠ k := by
        rintro rfl
        rw [hk] at hj
        exact hx since (Option.some.inj hj)
      rw [← h.2, List.getElem?_set_ne hjk]
      exact hk
    next => cases h

end MR
