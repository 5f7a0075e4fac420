import Mathlib.Data.List.Infix

/-! Finite runs of labelled systems, and what a run says about its own past.
A label determines the successor, so a run is given by its list of labels. -/
namespace Runs

/-- A labelled system; `step s e = none` means that `e` is not enabled in `s`. -/
structure System (σ ε : Type*) where
  init : σ
  step : σ → ε → Option σ

namespace System
variable {σ ε : Type*} (S : System σ ε)

/-- Execute the labels in order from a given state. -/
def exec (s : σ) : List ε → Option σ
  | [] => some s
  | e :: es => (S.step s e).bind fun t => exec t es

/-- The labels `es` lead from the initial state to `s`. -/
inductive Run : List ε → σ → Prop
  | nil : Run [] S.init
  | snoc {es : List ε} {s t : σ} {e : ε} : Run es s → S.step s e = some t → Run (es ++ [e]) t

variable {S} {es pre : List ε} {s t : σ} {e : ε}

theorem Run.exec_append (h : S.Run pre s) (he : S.exec s es = some t) : S.Run (pre ++ es) t := by
  induction es generalizing pre s with
  | nil =>
    obtain rfl : s = t := by simpa [exec] using he
    simpa using h
  | cons e es ih =>
    obtain ⟨u, hu, he⟩ := Option.bind_eq_some_iff.mp he
    simpa using ih (h.snoc hu) he

theorem run_of_exec (he : S.exec S.init es = some s) : S.Run es s := by
  simpa using Run.nil.exec_append he

theorem Run.eq_init (h : S.Run [] s) : s = S.init := by
  generalize hes : ([] : List ε) = es at h
  cases h with
  | nil => rfl
  | snoc _ _ => simp at hes

theorem Run.inv_snoc (h : S.Run (es ++ [e]) t) : ∃ s, S.Run es s ∧ S.step s e = some t := by
  generalize hes : es ++ [e] = es' at h
  cases h with
  | nil => simp at hes
  | snoc h hs =>
    obtain ⟨rfl, he⟩ := List.append_inj' hes rfl
    obtain rfl : e = _ := by simpa using he
    exact ⟨_, h, hs⟩

/-- Labels determine the state they lead to. -/
theorem Run.unique (h : S.Run es s) (h' : S.Run es t) : s = t := by
  induction h generalizing t with
  | nil => exact h'.eq_init.symm
  | snoc _ hs ih =>
    obtain ⟨u, hu, hs'⟩ := h'.inv_snoc
    rw [ih hu, hs'] at hs
    exact (Option.some.inj hs).symm

variable (S)

/-- At some moment of the run `es` the state satisfied `P`. -/
def Once (es : List ε) (P : σ → Prop) : Prop :=
  ∃ pre s, pre <+: es ∧ S.Run pre s ∧ P s

/-- Some step of the run `es` satisfies `A`. -/
def Did (es : List ε) (A : σ → ε → σ → Prop) : Prop :=
  ∃ pre s e t, pre ++ [e] <+: es ∧ S.Run pre s ∧ S.step s e = some t ∧ A s e t

/-- Every step of the run `es` meets `C`, a condition on the labels so far, the state
before the step and the label. -/
def Along (es : List ε) (C : List ε → σ → ε → Prop) : Prop :=
  ∀ pre s e, pre ++ [e] <+: es → S.Run pre s → C pre s e

variable {S} {P : σ → Prop} {A : σ → ε → σ → Prop} {C : List ε → σ → ε → Prop}

theorem once_mono (h : S.Once pre P) (hp : pre <+: es) : S.Once es P := by
  obtain ⟨p, s, hs, hr, hP⟩ := h
  exact ⟨p, s, hs.trans hp, hr, hP⟩

theorem once_now (h : S.Run es s) (hP : P s) : S.Once es P := ⟨es, s, List.prefix_rfl, h, hP⟩

theorem once_snoc (h : S.Run es s) (hs : S.step s e = some t) :
    S.Once (es ++ [e]) P ↔ S.Once es P ∨ P t := by
  constructor
  · rintro ⟨pre, u, hp, hr, hP⟩
    rcases List.prefix_concat_iff.mp hp with rfl | hp
    · exact Or.inr ((h.snoc hs).unique hr ▸ hP)
    · exact Or.inl ⟨pre, u, hp, hr, hP⟩
  · rintro (ho | hP)
    · exact once_mono ho (List.prefix_append _ _)
    · exact once_now (h.snoc hs) hP

theorem did_nil : ¬ S.Did [] A := by
  rintro ⟨pre, s, e, t, hp, -⟩
  simpa using List.prefix_nil.mp hp

theorem countP_pos_of_did {p : ε → Bool} (hA : ∀ s e t, A s e t → p e = true)
    (h : S.Did es A) : 0 < es.countP p := by
  obtain ⟨pre, s, e, t, hp, -, -, ha⟩ := h
  have hmem : e ∈ es := hp.subset (by simp)
  exact List.countP_pos_iff.mpr ⟨e, hmem, hA s e t ha⟩

theorem did_mono (h : S.Did pre A) (hp : pre <+: es) : S.Did es A := by
  obtain ⟨p, s, e, t, hs, hr⟩ := h
  exact ⟨p, s, e, t, hs.trans hp, hr⟩

theorem did_snoc (h : S.Run es s) (hs : S.step s e = some t) :
    S.Did (es ++ [e]) A ↔ S.Did es A ∨ A s e t := by
  constructor
  · rintro ⟨pre, u, f, v, hp, hr, hv, hA⟩
    rcases List.prefix_concat_iff.mp hp with heq | hp
    · obtain ⟨rfl, hf⟩ := List.append_inj' heq rfl
      obtain rfl : f = e := by simpa using hf
      obtain rfl := h.unique hr
      obtain rfl : t = v := Option.some.inj (hs.symm.trans hv)
      exact Or.inr hA
    · exact Or.inl ⟨pre, u, f, v, hp, hr, hv, hA⟩
  · rintro (hd | hA)
    · exact did_mono hd (List.prefix_append _ _)
    · exact ⟨es, s, e, t, List.prefix_rfl, h, hs, hA⟩

theorem along_mono (h : S.Along es C) (hp : pre <+: es) : S.Along pre C :=
  fun p s e hs hr => h p s e (hs.trans hp) hr

theorem along_snoc (h : S.Run es s) :
    S.Along (es ++ [e]) C ↔ S.Along es C ∧ C es s e := by
  constructor
  · intro ha
    exact ⟨along_mono ha (List.prefix_append _ _), ha es s e List.prefix_rfl h⟩
  · rintro ⟨ha, hc⟩ pre u f hp hr
    rcases List.prefix_concat_iff.mp hp with heq | hp
    · obtain ⟨rfl, hf⟩ := List.append_inj' heq rfl
      obtain rfl : f = e := by simpa using hf
      exact h.unique hr ▸ hc
    · exact ha pre u f hp hr

/-- Evaluate a test of the state and the label at every step of an execution. -/
def allSteps (S : System σ ε) (f : σ → ε → Bool) (s : σ) : List ε → Bool
  | [] => true
  | e :: es => f s e && (S.step s e).all fun t => allSteps S f t es

theorem allSteps_append (f : σ → ε → Bool) (es' : List ε) :
    S.allSteps f s (es ++ es') = (S.allSteps f s es &&
      (S.exec s es).all fun t => S.allSteps f t es') := by
  induction es generalizing s with
  | nil => simp [allSteps, exec]
  | cons e es ih =>
    cases hs : S.step s e with
    | none => simp [allSteps, exec, hs]
    | some u => simp [allSteps, exec, hs, ih, Bool.and_assoc]

theorem Run.exec_eq (h : S.Run es s) : S.exec S.init es = some s := by
  have happ : ∀ (u : σ) (as bs : List ε), S.exec u (as ++ bs) =
      (S.exec u as).bind fun v => S.exec v bs := by
    intro u as bs
    induction as generalizing u with
    | nil => simp [exec]
    | cons a as ih => simp [exec, ih, Option.bind_assoc]
  induction h with
  | nil => rfl
  | snoc _ hs ih => simp [happ, ih, exec, hs]

/-- A test that implies `C` and succeeds at every step of an execution gives `Along`. -/
theorem along_of_allSteps (f : σ → ε → Bool) (hf : ∀ pre s e, f s e = true → C pre s e)
    (h : S.allSteps f S.init es = true) : S.Along es C := by
  intro pre s e hp hr
  obtain ⟨post, rfl⟩ := hp
  simp only [List.append_assoc, allSteps_append, hr.exec_eq, Option.all_some, List.cons_append,
    List.nil_append, allSteps, Bool.and_eq_true] at h
  exact hf pre s e h.2.1

/-- The number of steps of an execution that meet a test. -/
def countSteps (S : System σ ε) (f : σ → ε → σ → Bool) (s : σ) : List ε → ℕ
  | [] => 0
  | e :: es =>
      match S.step s e with
      | some t => (f s e t).toNat + countSteps S f t es
      | none => 0

theorem countSteps_append (f : σ → ε → σ → Bool) (es' : List ε) (he : S.exec s es = some t) :
    S.countSteps f s (es ++ es') = S.countSteps f s es + S.countSteps f t es' := by
  induction es generalizing s with
  | nil =>
    obtain rfl : s = t := by simpa [exec] using he
    simp [countSteps]
  | cons e es ih =>
    obtain ⟨u, hu, he⟩ := Option.bind_eq_some_iff.mp he
    simp only [List.cons_append, countSteps, hu, ih he]
    omega

theorem countSteps_snoc (f : σ → ε → σ → Bool) (h : S.Run es s) (hs : S.step s e = some t) :
    S.countSteps f S.init (es ++ [e]) = S.countSteps f S.init es + (f s e t).toNat := by
  rw [countSteps_append f [e] h.exec_eq]
  simp [countSteps, hs]

/-- Evaluate a test of the state at every moment of an execution. -/
def allStates (S : System σ ε) (f : σ → Bool) (s : σ) : List ε → Bool
  | [] => f s
  | e :: es => f s && (S.step s e).all fun t => allStates S f t es

theorem allStates_exec (f : σ → Bool) (he : S.exec s pre = some t)
    (h : S.allStates f s (pre ++ es) = true) : f t = true := by
  induction pre generalizing s with
  | nil =>
    obtain rfl : s = t := by simpa [exec] using he
    cases es with
    | nil => simpa [allStates] using h
    | cons e es =>
      simp only [List.nil_append, allStates, Bool.and_eq_true] at h
      exact h.1
  | cons e pre ih =>
    obtain ⟨u, hu, he⟩ := Option.bind_eq_some_iff.mp he
    simp only [List.cons_append, allStates, hu, Option.all_some, Bool.and_eq_true] at h
    exact ih he h.2

/-- A test that excludes `P` and succeeds at every moment of an execution excludes `Once`. -/
theorem not_once_of_allStates (f : σ → Bool) (hf : ∀ s, f s = true → ¬ P s)
    (h : S.allStates f S.init es = true) : ¬ S.Once es P := by
  rintro ⟨pre, s, ⟨post, rfl⟩, hr, hP⟩
  exact hf s (allStates_exec f hr.exec_eq h) hP

theorem not_did_of_along (h : S.Along es fun _ s e => ∀ t, S.step s e = some t → ¬ A s e t) :
    ¬ S.Did es A := by
  rintro ⟨pre, s, e, t, hp, hr, hs, hA⟩
  exact h pre s e hp hr t hs hA

/-- An execution that succeeds is a run to the state it returns. -/
theorem run_exec_get (S : System σ ε) (es : List ε) (h : (S.exec S.init es).isSome) :
    S.Run es ((S.exec S.init es).get h) :=
  run_of_exec (Option.some_get h).symm

/-- An execution whose last state is found to satisfy `P`. -/
theorem exists_run (S : System σ ε) (es : List ε) (P : σ → Prop) [DecidablePred P]
    (h : (S.exec S.init es).any fun s => P s) : ∃ s, S.Run es s ∧ P s := by
  obtain ⟨s, hs, hP⟩ := (Option.any_eq_true _ _).mp h
  exact ⟨s, run_of_exec hs, of_decide_eq_true hP⟩

/-- An execution whose last step is found to satisfy `P`. -/
theorem exists_last_step (S : System σ ε) (es : List ε) (e : ε) (P : σ → σ → Prop)
    [∀ s t, Decidable (P s t)]
    (h : (S.exec S.init es).any fun s => (S.step s e).any fun t => P s t) :
    ∃ s t, S.Run es s ∧ S.step s e = some t ∧ P s t := by
  obtain ⟨s, hs, hlast⟩ := (Option.any_eq_true _ _).mp h
  obtain ⟨t, ht, hP⟩ := (Option.any_eq_true _ _).mp hlast
  exact ⟨s, t, run_of_exec hs, ht, of_decide_eq_true hP⟩

/-- The invariant rule: what holds initially and is kept by every step that meets `C`
holds at the end of every run whose steps meet `C`. -/
theorem Run.invariant {I : List ε → σ → Prop} (h0 : I [] S.init)
    (hstep : ∀ es s e t, S.Run es s → I es s → C es s e → S.step s e = some t →
      I (es ++ [e]) t)
    (h : S.Run es s) (hc : S.Along es C) : I es s := by
  induction h with
  | nil => exact h0
  | snoc hr hs ih =>
    obtain ⟨hc, he⟩ := (along_snoc hr).mp hc
    exact hstep _ _ _ _ hr (ih hc) he hs

/-- The invariant rule without a condition on the steps. -/
theorem Run.invariant' {I : List ε → σ → Prop} (h0 : I [] S.init)
    (hstep : ∀ es s e t, S.Run es s → I es s → S.step s e = some t → I (es ++ [e]) t)
    (h : S.Run es s) : I es s :=
  Run.invariant (C := fun _ _ _ => True) h0
    (fun es s e t hr hI _ hs => hstep es s e t hr hI hs) h (fun _ _ _ _ _ => trivial)

/-- The invariant rule from a given moment of a run on; the invariant may speak of the labels
since then. -/
theorem Run.invariant_from {I : List ε → σ → Prop} {u : σ} (hu : S.Run pre u) (h0 : I [] u)
    (hstep : ∀ es s e t, S.Run (pre ++ es) s → I es s → S.step s e = some t → I (es ++ [e]) t)
    (h : S.Run (pre ++ es) s) : I es s := by
  induction es using List.reverseRecOn generalizing s with
  | nil =>
    rw [List.append_nil] at h
    exact hu.unique h ▸ h0
  | append_singleton es e ih =>
    rw [← List.append_assoc] at h
    obtain ⟨t, ht, hs⟩ := h.inv_snoc
    exact hstep es t e s ht (ih ht) hs

/-- Labels taken from `own` can lead from `s` to a state that satisfies `P`. -/
def CanReach (S : System σ ε) (own : List ε) (P : σ → Prop) (s : σ) : Prop :=
  ∃ es t, es ⊆ own ∧ S.exec s es = some t ∧ P t

theorem canReach_now {own : List ε} (h : P s) : S.CanReach own P s :=
  ⟨[], s, List.nil_subset _, rfl, h⟩

theorem canReach_step {own : List ε} (he : e ∈ own) (hs : S.step s e = some t)
    (h : S.CanReach own P t) : S.CanReach own P s := by
  obtain ⟨es, u, hsub, hexec, hP⟩ := h
  refine ⟨e :: es, u, List.cons_subset.mpr ⟨he, hsub⟩, ?_, hP⟩
  rw [exec, hs, Option.bind_some, hexec]

/-- A prefix of a run is a run. -/
theorem Run.of_prefix (h : S.Run es s) (hp : pre <+: es) : ∃ u, S.Run pre u := by
  induction h with
  | nil =>
    obtain rfl := List.prefix_nil.mp hp
    exact ⟨_, .nil⟩
  | snoc hr hs ih =>
    rcases List.prefix_concat_iff.mp hp with rfl | hp
    · exact ⟨_, hr.snoc hs⟩
    · exact ih hp

/-- Some labels lead from `s` to `t`. -/
def Reaches (S : System σ ε) (s t : σ) : Prop := ∃ es, S.exec s es = some t

theorem Reaches.refl (s : σ) : S.Reaches s s := ⟨[], rfl⟩

theorem Reaches.head {u : σ} (hs : S.step s e = some t) (h : S.Reaches t u) : S.Reaches s u := by
  obtain ⟨es, hes⟩ := h
  exact ⟨e :: es, by rw [exec, hs, Option.bind_some, hes]⟩

theorem Reaches.trans {u : σ} (h : S.Reaches s t) (h' : S.Reaches t u) : S.Reaches s u := by
  obtain ⟨es, hes⟩ := h
  induction es generalizing s with
  | nil =>
    obtain rfl := Option.some.inj hes
    exact h'
  | cons e es ih =>
    obtain ⟨v, hv, hes⟩ := Option.bind_eq_some_iff.mp hes
    exact .head hv (ih hes)

/-- A run goes on to what its last state reaches. -/
theorem Run.reaches (h : S.Run es s) (hr : S.Reaches s t) : ∃ es', S.Run es' t := by
  obtain ⟨es', hes⟩ := hr
  exact ⟨es ++ es', h.exec_append hes⟩

/-- The labels lead from `s` to `t`, and each of them is allowed where it is taken. -/
inductive Path (S : System σ ε) (A : σ → ε → Prop) : σ → List ε → σ → Prop
  | nil (s : σ) : Path S A s [] s
  | cons {s t u : σ} {e : ε} {es : List ε} (hs : S.step s e = some t) (ha : A s e)
      (h : Path S A t es u) : Path S A s (e :: es) u

section Path
variable {A B : σ → ε → Prop} {es' : List ε} {u : σ}

theorem Path.exec (h : S.Path A s es t) : S.exec s es = some t := by
  induction h with
  | nil s => rfl
  | cons hs _ _ ih => rw [System.exec, hs, Option.bind_some, ih]

theorem Path.append (h : S.Path A s es t) (h' : S.Path A t es' u) : S.Path A s (es ++ es') u := by
  induction h with
  | nil s => exact h'
  | cons hs ha _ ih => exact .cons hs ha (ih h')

theorem Path.mono (h : S.Path A s es t) (hsub : ∀ s e, A s e → B s e) : S.Path B s es t := by
  induction h with
  | nil s => exact .nil s
  | cons hs ha _ ih => exact .cons hs (hsub _ _ ha) ih

/-- What every allowed step keeps, a path keeps. -/
theorem Path.keeps (h : S.Path A s es t) {R : σ → σ → Prop} (hrefl : ∀ s, R s s)
    (htrans : ∀ s t u, R s t → R t u → R s u)
    (hstep : ∀ s e t, S.step s e = some t → A s e → R s t) : R s t := by
  induction h with
  | nil s => exact hrefl s
  | cons hs ha _ ih => exact htrans _ _ _ (hstep _ _ _ hs ha) ih

end Path

/-- A forward simulation along `f`: `T` follows every step of `S` with some steps of its own. -/
structure Simulates {τ δ : Type*} (S : System σ ε) (T : System τ δ) (f : σ → τ) : Prop where
  init : T.init = f S.init
  step : ∀ s e t, S.step s e = some t → ∃ ds, T.exec (f s) ds = some (f t)

/-- What `f` shows of a run is a run. -/
theorem Simulates.run {τ δ : Type*} {T : System τ δ} {f : σ → τ} (hf : S.Simulates T f)
    (h : S.Run es s) : ∃ ds, T.Run ds (f s) := by
  induction h with
  | nil => exact ⟨[], hf.init ▸ .nil⟩
  | snoc _ hs ih =>
    obtain ⟨ds, hrun⟩ := ih
    obtain ⟨ds', hexec⟩ := hf.step _ _ _ hs
    exact ⟨ds ++ ds', hrun.exec_append hexec⟩

end System
end Runs
