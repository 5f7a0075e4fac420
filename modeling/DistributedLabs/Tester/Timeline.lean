import DistributedLabs.Runs.History
import Mathlib.Data.List.AList

/-! The fault timeline of the tester: annotations that last until the next one of their tag. At
most one of them is open for each tag; it is recorded when it is closed. -/
namespace Tester
open Runs

/-- A recorded interval, `porcupine.Annotation`. -/
structure Annotation where
  tag : String
  start : ℤ
  endTime : ℤ
  description : String
  details : String
  backgroundColor : String
  deriving DecidableEq, Repr

/-- An open annotation. The default values are Go's zero values. -/
structure Continuous where
  start : ℤ := 0
  desp : String := ""
  details : String := ""
  bgcolor : String := ""
  deriving DecidableEq, Repr

/-- The interval of an annotation that ends at time `t`. -/
def Continuous.close (cont : Continuous) (tag : String) (t : ℤ) : Annotation :=
  ⟨tag, cont.start, t, cont.desp, cont.details, cont.bgcolor⟩

/-- The object that collects the annotations. -/
structure Annotations where
  annotations : List Annotation
  continuous : AList fun _ : String => Continuous
  finalized : Bool

/-- A call at the time `t`. -/
inductive Note where
  | annotateContinuousColor (tag desp details bgcolor : String) (t : ℤ)
  | annotateContinuousEnd (tag : String) (t : ℤ)
  deriving DecidableEq, Repr

namespace Note

def tag : Note → String
  | annotateContinuousColor tag _ _ _ _ => tag
  | annotateContinuousEnd tag _ => tag

def time : Note → ℤ
  | annotateContinuousColor _ _ _ _ t => t
  | annotateContinuousEnd _ t => t

/-- The annotation that the call opens. -/
def opens : Note → Option Continuous
  | annotateContinuousColor _ desp details bgcolor t => some ⟨t, desp, details, bgcolor⟩
  | annotateContinuousEnd _ _ => none

end Note

namespace Annotations

def empty : Annotations := ⟨[], ∅, false⟩

def annotateContinuousColor (an : Annotations) (tag desp details bgcolor : String) (t : ℤ) :
    Annotations :=
  match an.continuous.lookup tag with
  | none => { an with continuous := an.continuous.insert tag ⟨t, desp, details, bgcolor⟩ }
  | some cont => { an with
      annotations := an.annotations ++ [cont.close tag t]
      continuous := an.continuous.insert tag ⟨t, desp, details, bgcolor⟩ }

/-- The test of the source for an open annotation has an empty body, so that without one an
interval is made of zero values. -/
def annotateContinuousEnd (an : Annotations) (tag : String) (t : ℤ) : Annotations :=
  let cont := (an.continuous.lookup tag).getD {}
  { an with
    annotations := an.annotations ++ [cont.close tag t]
    continuous := an.continuous.erase tag }

/-- `finalize` closes all open annotations in the result only. -/
def finalize (an : Annotations) (t : ℤ) : Annotations × List Annotation :=
  ({ an with finalized := true },
    an.annotations ++ an.continuous.entries.map fun x => x.2.close x.1 t)

def apply (an : Annotations) : Note → Annotations
  | .annotateContinuousColor tag desp details bgcolor t =>
      an.annotateContinuousColor tag desp details bgcolor t
  | .annotateContinuousEnd tag t => an.annotateContinuousEnd tag t

end Annotations

def timeline : System Annotations Note where
  init := Annotations.empty
  step := fun an note => some (an.apply note)

/-- The time at which an annotation of the tag ends that is open when the calls begin. -/
def endOf (tag : String) (T : ℤ) : List Note → ℤ
  | [] => T
  | note :: notes => if note.tag = tag then note.time else endOf tag T notes

/-- One interval for each `annotateContinuousColor` of the tag, from its time to that of the next
call for the tag, or to the time `T` of `finalize`. -/
def intervals (tag : String) (T : ℤ) : List Note → List Annotation
  | [] => []
  | note :: notes =>
      match note.opens with
      | some cont =>
          if note.tag = tag then cont.close tag (endOf tag T notes) :: intervals tag T notes
          else intervals tag T notes
      | none => intervals tag T notes

section snoc
variable {tag : String} {note : Note} (T : ℤ) (notes : List Note)

theorem endOf_snoc : endOf tag T (notes ++ [note]) =
    if note.tag = tag then endOf tag note.time notes else endOf tag T notes := by
  induction notes with
  | nil => by_cases h : note.tag = tag <;> simp [endOf, h]
  | cons first notes ih =>
    rw [List.cons_append, endOf, endOf, endOf, ih]
    by_cases hfirst : first.tag = tag <;> simp [hfirst]

theorem intervals_snoc_other (h : note.tag ≠ tag) :
    intervals tag T (notes ++ [note]) = intervals tag T notes := by
  induction notes with
  | nil => cases hopens : note.opens <;> simp [intervals, hopens, h]
  | cons first notes ih =>
    rw [List.cons_append, intervals, intervals, endOf_snoc, if_neg h, ih]

/-- A call for the tag ends the interval before it and may open another one. -/
theorem intervals_snoc_own (h : note.tag = tag) : intervals tag T (notes ++ [note]) =
    intervals tag note.time notes ++ (note.opens.map fun cont => cont.close tag T).toList := by
  induction notes with
  | nil => cases hopens : note.opens <;> simp [intervals, endOf, hopens, h]
  | cons first notes ih =>
    rw [List.cons_append, intervals, intervals, endOf_snoc, if_pos h, ih]
    cases hopens : first.opens with
    | none => rfl
    | some cont => by_cases hfirst : first.tag = tag <;> simp [hfirst]

end snoc

namespace Annotations
variable {an : Annotations} {note : Note} {tag : String}

/-- The intervals of a tag if its open annotation ends at time `T`. -/
def recordedFor (an : Annotations) (tag : String) (T : ℤ) : List Annotation :=
  an.annotations.filter (fun a => a.tag = tag) ++
    ((an.continuous.lookup tag).map fun cont => cont.close tag T).toList

theorem close_filter (T : ℤ) (l : List (Sigma fun _ : String => Continuous)) (h : l.NodupKeys) :
    (l.map fun x => x.2.close x.1 T).filter (fun a => a.tag = tag) =
      ((l.dlookup tag).map fun cont => cont.close tag T).toList := by
  induction l with
  | nil => rfl
  | cons x l ih =>
    obtain ⟨key, cont⟩ := x
    obtain ⟨hnot, hrest⟩ := List.nodupKeys_cons.mp h
    by_cases hkey : key = tag
    · subst hkey
      have hnone : l.dlookup key = none := List.dlookup_eq_none.mpr hnot
      rw [List.map_cons, List.filter_cons_of_pos (by simp [Continuous.close]), ih hrest, hnone,
        List.dlookup_cons_eq]
      rfl
    · have hne : tag ≠ key := Ne.symm hkey
      rw [List.dlookup_cons_ne l ⟨key, cont⟩ hne, ← ih hrest]
      simp [Continuous.close, hkey]

theorem finalize_filter (T : ℤ) :
    (an.finalize T).2.filter (fun a => a.tag = tag) = an.recordedFor tag T := by
  rw [finalize, List.filter_append, close_filter T _ an.continuous.nodupKeys]
  rfl

theorem recordedFor_other (h : note.tag ≠ tag) (T : ℤ) :
    (an.apply note).recordedFor tag T = an.recordedFor tag T := by
  cases note with
  | annotateContinuousColor g desp details bgcolor t =>
    have hg : g ≠ tag := h
    cases hopen : an.continuous.lookup g with
    | none =>
      simp [apply, annotateContinuousColor, recordedFor, hopen, AList.lookup_insert_ne hg.symm]
    | some cont =>
      simp [apply, annotateContinuousColor, recordedFor, hopen, AList.lookup_insert_ne hg.symm,
        Continuous.close, hg]
  | annotateContinuousEnd g t =>
    have hg : g ≠ tag := h
    simp [apply, annotateContinuousEnd, recordedFor, AList.lookup_erase_ne hg.symm,
      Continuous.close, hg]

/-- A call for the tag closes the open annotation, if it is meant to, and may open another. -/
theorem recordedFor_own (h : note.tag = tag)
    (hopen : note.opens = none → (an.continuous.lookup tag).isSome) (T : ℤ) :
    (an.apply note).recordedFor tag T = an.recordedFor tag note.time ++
      (note.opens.map fun cont => cont.close tag T).toList := by
  cases note with
  | annotateContinuousColor g desp details bgcolor t =>
    obtain rfl : g = tag := h
    cases hold : an.continuous.lookup g with
    | none => simp [apply, annotateContinuousColor, recordedFor, hold, Note.opens]
    | some cont =>
      simp [apply, annotateContinuousColor, recordedFor, hold, Note.opens, Note.time,
        Continuous.close]
  | annotateContinuousEnd g t =>
    obtain rfl : g = tag := h
    obtain ⟨cont, hold⟩ := Option.isSome_iff_exists.mp (hopen rfl)
    simp [apply, annotateContinuousEnd, recordedFor, hold, Note.opens, Note.time,
      Continuous.close]

/-- An `annotateContinuousEnd` of the tag finds an open annotation. -/
def endsOpen (tag : String) (an : Annotations) (note : Note) : Bool :=
  note.tag ≠ tag || note.opens.isSome || (an.continuous.lookup tag).isSome

/-- If every `annotateContinuousEnd` of a tag ends an open annotation, the intervals of the tag
are those of its `annotateContinuousColor` calls. -/
theorem finalize_intervals (tag : String) (notes : List Note) (an : Annotations) (T : ℤ)
    (h : timeline.Run notes an)
    (hc : timeline.Along notes fun _ an note => endsOpen tag an note = true) :
    (an.finalize T).2.filter (fun a => a.tag = tag) = intervals tag T notes := by
  rw [finalize_filter]
  refine h.invariant (I := fun notes an => ∀ T, an.recordedFor tag T = intervals tag T notes)
    ?_ ?_ hc T
  · intro T
    rfl
  · intro notes an note an' _ ih hc hs T
    obtain rfl : an.apply note = an' := Option.some.inj hs
    by_cases htag : note.tag = tag
    · have hopen : note.opens = none → (an.continuous.lookup tag).isSome := by
        intro hnone
        simpa [endsOpen, htag, hnone] using hc
      rw [recordedFor_own htag hopen, intervals_snoc_own T notes htag, ih]
    · rw [recordedFor_other htag, intervals_snoc_other T notes htag, ih]

/-- Two faults of which the second replaces the first, the end of the second, and a third fault
that is open at the end. -/
def faultNotes : List Note :=
  [.annotateContinuousColor "fault" "a" "a" "" 1, .annotateContinuousColor "fault" "b" "b" "" 2,
    .annotateContinuousEnd "fault" 4, .annotateContinuousColor "fault" "c" "c" "" 5]

theorem faultNotes_recorded : ∃ an, timeline.Run faultNotes an ∧
    (an.finalize 7).2.filter (fun a => a.tag = "fault") = [⟨"fault", 1, 2, "a", "a", ""⟩,
      ⟨"fault", 2, 4, "b", "b", ""⟩, ⟨"fault", 5, 7, "c", "c", ""⟩] := by
  have hr := timeline.run_exec_get faultNotes rfl
  have hc : timeline.Along faultNotes fun _ an note => endsOpen "fault" an note = true :=
    System.along_of_allSteps (endsOpen "fault") (fun _ _ _ h => h) (by decide +kernel)
  exact ⟨_, hr, finalize_intervals "fault" faultNotes _ 7 hr hc⟩

/-- `AnnotateClearFailure` in a run without faults: an interval is recorded that nobody started,
from time 0 and without texts. -/
theorem clearFailure_recorded : ∃ an,
    timeline.Run [.annotateContinuousEnd "$ Failure" 3] an ∧
    (an.finalize 7).2.filter (fun a => a.tag = "$ Failure") = [⟨"$ Failure", 0, 3, "", "", ""⟩] ∧
    intervals "$ Failure" 7 [.annotateContinuousEnd "$ Failure" 3] = [] := by
  obtain ⟨an, hr, hrec⟩ := System.exists_run timeline [.annotateContinuousEnd "$ Failure" 3]
    (fun an => (an.finalize 7).2.filter (fun a => a.tag = "$ Failure") =
      [⟨"$ Failure", 0, 3, "", "", ""⟩]) (by decide +kernel)
  exact ⟨an, hr, hrec, rfl⟩

end Annotations
end Tester
