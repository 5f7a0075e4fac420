import DistributedLabs.MR.Lines
import DistributedLabs.Grouping.Fields

/-! The word count application, `wc.go`, as a job: what its output files say of the words in the
input files. `unicode.IsLetter` is a parameter. -/
namespace WC
open MR Runs Grouping
variable (isLetter : Char → Bool)

/-- The separators, as `ff` finds them. -/
def ff (r : Char) : Bool := !isLetter r

def words (contents : String) : List String :=
  (fieldsFunc (ff isLetter) contents.toList).map String.ofList

def map (_filename contents : String) : List KeyValue :=
  (words isLetter contents).map fun w => ⟨w, "1"⟩

def reduce (_key : String) (values : List String) : String := toString values.length

/-- The word count over some input files. -/
def job (c : Config) (input : String → Option String) : Job where
  toConfig := c
  mapf := map isLetter
  reducef := reduce
  input := input

/-- The number of places of the text at which the word stands: it starts there, before it is the
beginning of the text or no letter, and after it the end or no letter. -/
def occurrences (word contents : String) : ℕ :=
  (List.range contents.toList.length).countP fun i =>
    fieldAt (ff isLetter) contents.toList i == word.toList &&
      starts (ff isLetter) contents.toList i

/-- The number of occurrences in all input files. -/
def total (J : Job) (word : String) : ℕ :=
  (J.inputs.map fun file => occurrences isLetter word file.2).sum

variable {isLetter}

theorem count_words (word contents : String) :
    (words isLetter contents).count word = occurrences isLetter word contents := by
  have hinj : Function.Injective String.ofList := fun _ _ => String.ofList_injective
  have hcount := List.count_map_of_injective (fieldsFunc (ff isLetter) contents.toList)
    String.ofList hinj word.toList
  rw [String.ofList_toList] at hcount
  rw [words, hcount, count_fieldsFunc, occurrences]

theorem emitted_map (files : List (String × String)) :
    emitted (map isLetter) files =
      (files.flatMap fun file => words isLetter file.2).map fun w => ⟨w, "1"⟩ := by
  rw [emitted, List.map_flatMap]
  rfl

theorem length_valuesOf (ws : List String) (word : String) :
    (valuesOf word (ws.map fun w => ⟨w, "1"⟩)).length = ws.count word := by
  rw [valuesOf, List.length_map, ← List.countP_eq_length_filter, List.countP_map, List.count]
  refine List.countP_congr ?_
  intro w _
  simp

theorem permInvariant_reduce : PermInvariant reduce := by
  intro k vs ws h
  rw [reduce, reduce, h.length_eq]

variable {c : Config} {input : String → Option String}

theorem length_values (word : String) :
    (valuesOf word (emitted (map isLetter) (job isLetter c input).inputs)).length =
      total isLetter (job isLetter c input) word := by
  rw [emitted_map, length_valuesOf, List.count_flatMap, total]
  congr 1
  refine List.map_congr_left ?_
  intro file _
  exact count_words word file.2

/-- The lines of the job are those of the words that occur, with the number of occurrences. -/
theorem isLine_iff (x : Line) :
    (job isLetter c input).IsLine x ↔
      0 < total isLetter (job isLetter c input) x.key ∧
        x.output = toString (total isLetter (job isLetter c input) x.key) := by
  obtain ⟨word, count⟩ := x
  have hout : (job isLetter c input).reducef word
      (valuesOf word (emitted (job isLetter c input).mapf (job isLetter c input).inputs)) =
        toString (total isLetter (job isLetter c input) word) := by
    rw [← length_values]
    rfl
  have hmem : (∃ kv ∈ emitted (job isLetter c input).mapf (job isLetter c input).inputs,
      kv.key = word) ↔ 0 < total isLetter (job isLetter c input) word := by
    rw [← length_values, valuesOf, List.length_map, List.length_pos_iff_exists_mem]
    simp only [List.mem_filter, decide_eq_true_eq]
    rfl
  rw [Job.IsLine, hout, hmem]

variable {ι : Type*} [DecidableEq ι]

/-- However workers are slow, crash or repeat tasks: at every moment of a run of the word count an
output file has, in the order of the words, one line for each word of the inputs that hashes to its
reduce task: the word, a blank and the number of times it stands in all inputs. -/
theorem outputs_count_words (isLetter : Char → Bool) (c : Config) (input : String → Option String)
    (es : List (Event ι)) (s : State ι) (h : (system (job isLetter c input) ι).Run es s)
    (r n : ℕ) (hr : r < c.nReduce) (hn : s.fs.dir (.out r) = some n) :
    ∃ ws : List String, ws.Pairwise (· < ·) ∧
      (∀ w, w ∈ ws ↔
        ihash w % c.nReduce = r ∧ 0 < total isLetter (job isLetter c input) w) ∧
      s.fs.data n = ws.map fun w =>
        .line (w ++ " " ++ toString (total isLetter (job isLetter c input) w) ++ "\n") :=
  outputKeys_of_run permInvariant_reduce h hr hn isLine_iff

/-- One file with the words ab, a and ab, and one reduce task. -/
def abConfig : Config where
  files := ["f"]
  nReduce := 1
  nReduce_pos := Nat.one_pos

def abInput (_ : String) : Option String := some "ab,a ab"

/-- The first worker crashes while it writes its file; after twelve seconds the second worker gets
its task, does it and then the reduce task. -/
def abRun : List (Event Bool) :=
  [mainSteps 3, getTaskSteps false 0, workSteps false 3, [.crash false],
    monitorRound 4, monitorRound 4, monitorRound 4, monitorRound 6,
    getTaskSteps true 1, workSteps true 7, reportSteps true 2, mainSteps 8,
    getTaskSteps true 3, workSteps true 6, [.sort true [⟨"a", "1"⟩, ⟨"ab", "1"⟩, ⟨"ab", "1"⟩]],
    workSteps true 3, reportSteps true 4, mainSteps 4].flatten

theorem abRun_output : ∃ s, (system (job Char.isAlpha abConfig abInput) Bool).Run abRun s ∧
    s.workers false = .crashed ∧ ∃ (n : ℕ) (ws : List String), s.fs.dir (.out 0) = some n ∧
      s.fs.data n = [.line "a 1\n", .line "ab 2\n"] ∧
      s.fs.data n = ws.map fun w => .line (w ++ " " ++
        toString (total Char.isAlpha (job Char.isAlpha abConfig abInput) w) ++ "\n") := by
  obtain ⟨s, hrun, hcrash, hout, htext⟩ := System.exists_run
    (system (job Char.isAlpha abConfig abInput) Bool) abRun
    (fun s => s.workers false = .crashed ∧ s.fs.dir (.out 0) = some 2 ∧
      s.fs.data 2 = [.line "a 1\n", .line "ab 2\n"]) (by decide +kernel)
  obtain ⟨ws, -, -, hdata⟩ := outputs_count_words Char.isAlpha abConfig abInput abRun s hrun
    0 2 Nat.one_pos hout
  exact ⟨s, hrun, hcrash, 2, ws, hout, htext, hdata⟩

/-- When the word count is done and no report was late, the output files together have one line for
each word of the inputs, with the number of times it stands there, and no other line. -/
theorem every_word_counted (isLetter : Char → Bool) (c : Config) (input : String → Option String)
    (es : List (Event ι)) (s : State ι) (h : (system (job isLetter c input) ι).Run es s)
    (hlate : (system (job isLetter c input) ι).Along es fun _ s _ => ¬ LateReport s.coord)
    (hdone : s.coord.c.phase = .done) :
    ∃ ws : ℕ → List String,
      (∀ r < c.nReduce, ∃ n, s.fs.dir (.out r) = some n ∧
        s.fs.data n = (ws r).map fun w =>
          .line (w ++ " " ++ toString (total isLetter (job isLetter c input) w) ++ "\n")) ∧
      ((List.range c.nReduce).flatMap ws).Nodup ∧
      ∀ w, w ∈ (List.range c.nReduce).flatMap ws ↔
        0 < total isLetter (job isLetter c input) w :=
  outputKeys_of_done permInvariant_reduce h hlate hdone isLine_iff

theorem abRun_counted : ∃ s, (system (job Char.isAlpha abConfig abInput) Bool).Run abRun s ∧
    s.coord.c.phase = .done ∧ ∃ (n : ℕ) (ws : List String), s.fs.dir (.out 0) = some n ∧
      s.fs.data n = [.line "a 1\n", .line "ab 2\n"] ∧
      s.fs.data n = ws.map fun w => .line (w ++ " " ++
        toString (total Char.isAlpha (job Char.isAlpha abConfig abInput) w) ++ "\n") := by
  obtain ⟨s, hrun, hdone, hout, htext⟩ := System.exists_run
    (system (job Char.isAlpha abConfig abInput) Bool) abRun
    (fun s => s.coord.c.phase = .done ∧ s.fs.dir (.out 0) = some 2 ∧
      s.fs.data 2 = [.line "a 1\n", .line "ab 2\n"]) (by decide +kernel)
  have hlate : (system (job Char.isAlpha abConfig abInput) Bool).Along abRun
      fun _ s _ => ¬ LateReport s.coord :=
    System.along_of_allSteps (fun s _ => ¬ LateReport s.coord) (by simp) (by decide +kernel)
  obtain ⟨ws, hfiles, -, -⟩ := every_word_counted Char.isAlpha abConfig abInput abRun s hrun
    hlate hdone
  obtain ⟨n, hn, hdata⟩ := hfiles 0 Nat.one_pos
  obtain rfl : 2 = n := Option.some.inj (hout.symm.trans hn)
  exact ⟨s, hrun, hdone, 2, ws 0, hout, htext, hdata⟩

end WC
