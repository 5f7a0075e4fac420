import DistributedLabs.MR.WordCount
import Mathlib.Data.List.Dedup

/-! The indexing application, `indexer.go`, as a job. Its map function ranges over a Go map, so the
order of the pairs it emits is not fixed; the index does not depend on it. -/
namespace Indexer
open MR Runs Grouping

/-- The orders in which the loop over the map `m` visits the words of the documents. -/
structure Visits (isLetter : Char → Bool) where
  order : String → String → List String
  perm : ∀ document value, (order document value).Perm (WC.words isLetter value).dedup

variable {isLetter : Char → Bool}

def map (V : Visits isLetter) (document value : String) : List KeyValue :=
  (V.order document value).map fun w => ⟨w, document⟩

def reduce (_key : String) (values : List String) : String :=
  toString values.length ++ " " ++ ",".intercalate (values.mergeSort fun a b => decide (a ≤ b))

def job (V : Visits isLetter) (c : Config) (input : String → Option String) : Job where
  toConfig := c
  mapf := map V
  reducef := reduce
  input := input

/-- The input files in which a word stands. -/
def documents (isLetter : Char → Bool) (J : Job) (word : String) : List String :=
  (J.inputs.filter fun file => 0 < WC.occurrences isLetter word file.2).map Prod.fst

theorem sorted_mergeSort (l : List String) :
    (l.mergeSort fun a b => decide (a ≤ b)).Pairwise (· ≤ ·) := by
  have h := @List.pairwise_mergeSort String (fun a b => decide (a ≤ b))
    (by simpa using fun _ _ _ => le_trans) (by simpa using fun a b : String => le_total a b) l
  simpa using h

theorem mergeSort_eq_of_perm {vs ws : List String} (h : vs.Perm ws) :
    (vs.mergeSort fun a b => decide (a ≤ b)) = ws.mergeSort fun a b => decide (a ≤ b) := by
  refine List.Perm.eq_of_pairwise (fun a b _ _ => le_antisymm) (sorted_mergeSort vs)
    (sorted_mergeSort ws) ?_
  exact (List.mergeSort_perm vs _).trans (h.trans (List.mergeSort_perm ws _).symm)

theorem permInvariant_reduce : PermInvariant reduce := by
  intro k vs ws h
  rw [reduce, reduce, h.length_eq, mergeSort_eq_of_perm h]

variable {V : Visits isLetter}

/-- A document has one pair for each of its words. -/
theorem valuesOf_map (word document value : String) :
    valuesOf word (map V document value) =
      if 0 < WC.occurrences isLetter word value then [document] else [] := by
  have hnodup : (V.order document value).Nodup :=
    (V.perm document value).nodup_iff.mpr (List.nodup_dedup _)
  have hmem : word ∈ V.order document value ↔ 0 < WC.occurrences isLetter word value := by
    rw [(V.perm document value).mem_iff, List.mem_dedup, ← WC.count_words, List.count_pos_iff]
  have hone : (V.order document value).count word =
      if 0 < WC.occurrences isLetter word value then 1 else 0 := by
    simp only [hnodup.count, hmem]
  have hvalues : valuesOf word (map V document value) =
      ((V.order document value).filter (· == word)).map fun _ => document := by
    rw [valuesOf, map, List.filter_map, List.map_map]
    rfl
  rw [hvalues, List.filter_beq, hone]
  split <;> rfl

variable {c : Config} {input : String → Option String}

theorem valuesOf_emitted (files : List (String × String)) (word : String) :
    valuesOf word (emitted (map V) files) =
      (files.filter fun file => 0 < WC.occurrences isLetter word file.2).map Prod.fst := by
  induction files with
  | nil => rfl
  | cons file files ih =>
    have hsplit : valuesOf word (emitted (map V) (file :: files)) =
        valuesOf word (map V file.1 file.2) ++ valuesOf word (emitted (map V) files) := by
      simp only [valuesOf, emitted, List.flatMap_cons, List.filter_append, List.map_append]
    rw [hsplit, valuesOf_map, ih]
    by_cases hword : 0 < WC.occurrences isLetter word file.2
    · rw [if_pos hword, List.filter_cons_of_pos (by simpa using hword)]
      rfl
    · rw [if_neg hword, List.filter_cons_of_neg (by simpa using hword)]
      rfl

/-- The lines of the job are those of the words that stand in some document. -/
theorem isLine_iff (x : Line) :
    (job V c input).IsLine x ↔
      documents isLetter (job V c input) x.key ≠ [] ∧
        x.output = reduce x.key (documents isLetter (job V c input) x.key) := by
  obtain ⟨word, output⟩ := x
  have hvalues := valuesOf_emitted (V := V) (job V c input).inputs word
  have hmem : (∃ kv ∈ emitted (map V) (job V c input).inputs, kv.key = word) ↔
      documents isLetter (job V c input) word ≠ [] := by
    rw [documents, ← hvalues, ← List.length_pos_iff, valuesOf, List.length_map,
      List.length_pos_iff_exists_mem]
    simp only [List.mem_filter, decide_eq_true_eq]
  rw [Job.IsLine, documents, ← hvalues]
  rw [documents, ← hvalues] at hmem
  exact and_congr_left fun _ => hmem

variable {ι : Type*} [DecidableEq ι]

/-- The words in reverse order. -/
def reverseVisits : Visits Char.isAlpha where
  order := fun _ value => (WC.words Char.isAlpha value).dedup.reverse
  perm := fun _ _ => List.reverse_perm _

/-- The second worker takes over from the first one, which crashes while it writes its file. -/
def abRun : List (Event Bool) :=
  [mainSteps 3, getTaskSteps false 0, workSteps false 3, [.crash false],
    monitorRound 4, monitorRound 4, monitorRound 4, monitorRound 6,
    getTaskSteps true 1, workSteps true 6, reportSteps true 2, mainSteps 8,
    getTaskSteps true 3, workSteps true 5, [.sort true [⟨"a", "f"⟩, ⟨"ab", "f"⟩]],
    workSteps true 3, reportSteps true 4, mainSteps 4].flatten

end Indexer
