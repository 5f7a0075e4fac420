import DistributedLabs.MR.Completeness
import DistributedLabs.MR.Sequential

/-! The lines of the output files of a run, key by key, for a reduce function to which the order
of the values does not matter. -/
namespace MR
open Runs Grouping
variable {ι : Type*} [DecidableEq ι] {J : Job} {s : State ι} {es : List (Event ι)}

/-- The line of a key is the one that `reducef` makes from all values emitted for it. -/
def Job.IsLine (J : Job) (x : Line) : Prop :=
  (∃ kv ∈ emitted J.mapf J.inputs, kv.key = x.key) ∧
    x.output = J.reducef x.key (valuesOf x.key (emitted J.mapf J.inputs))

/-- The lines of the keys that hash to reduce task `r`, in the order of the keys. -/
structure Job.OutputLines (J : Job) (r : ℕ) (lines : List Line) : Prop where
  sorted : (lines.map Line.key).Pairwise (· < ·)
  mem_iff : ∀ x, x ∈ lines ↔ ihash x.key % J.nReduce = r ∧ J.IsLine x

/-- The text of lines whose outputs are given by their keys. -/
theorem lineRecords_of_keys {lines : List Line} {f : String → String}
    (h : ∀ x ∈ lines, x.output = f x.key) :
    lineRecords lines = (lines.map Line.key).map fun k => .line (k ++ " " ++ f k ++ "\n") := by
  rw [lineRecords, List.map_map]
  refine List.map_congr_left ?_
  intro x hx
  rw [Line.text, h x hx]
  rfl

theorem keys_reduceLines {reducef : String → List String → String} {l : List KeyValue}
    (h : Sorted KeyValue.key l) :
    ((reduceLines reducef l).map Line.key).Pairwise (· < ·) := by
  obtain ⟨ks, hks, -, heq⟩ := adjacent_of_sorted
    (fun k kvs => (⟨k, reducef k (kvs.map KeyValue.value)⟩ : Line)) h
  rw [reduceLines, heq, List.map_map]
  simpa [Function.comp_def] using hks

theorem RightOutput.outputLines (hred : PermInvariant J.reducef) {r : ℕ} (hr : r < J.nReduce)
    {d : List Record} (h : RightOutput J r d) :
    ∃ lines, d = lineRecords lines ∧ J.OutputLines r lines := by
  obtain ⟨l, hs, hp, rfl⟩ := h
  refine ⟨_, rfl, keys_reduceLines hs, fun x => ?_⟩
  rw [Job.buckets, collect_doMapTask hr] at hp
  rw [((reduces_of_sorted hs).of_perm hred hp).mem_iff, Job.IsLine]
  constructor
  · rintro ⟨⟨kv, hkv, hkey⟩, hout⟩
    obtain ⟨hmem, hhash⟩ := List.mem_filter.mp hkv
    have hxr : ihash x.key % J.nReduce = r := by
      rw [← hkey]
      simpa using hhash
    rw [← hxr, valuesOf_filter] at hout
    exact ⟨hxr, ⟨kv, hmem, hkey⟩, hout⟩
  · rintro ⟨hxr, ⟨kv, hmem, hkey⟩, hout⟩
    refine ⟨⟨kv, List.mem_filter.mpr ⟨hmem, by simp [hkey, hxr]⟩, hkey⟩, ?_⟩
    rw [← hxr, valuesOf_filter]
    exact hout

/-- At every moment of a run, an output file has the lines of its reduce task. -/
theorem outputLines_of_run (hred : PermInvariant J.reducef) (h : (system J ι).Run es s) {r n : ℕ}
    (hr : r < J.nReduce) (hn : s.fs.dir (.out r) = some n) :
    ∃ lines, s.fs.data n = lineRecords lines ∧ J.OutputLines r lines :=
  ((inv_of_run h).files.named _ n hn).2.outputLines hred hr

/-- The keys of an output file, if the line of a key is known. -/
theorem outputKeys_of_run (hred : PermInvariant J.reducef) (h : (system J ι).Run es s) {r n : ℕ}
    (hr : r < J.nReduce) (hn : s.fs.dir (.out r) = some n) {f : String → String}
    {P : String → Prop} (hline : ∀ x, J.IsLine x ↔ P x.key ∧ x.output = f x.key) :
    ∃ ks : List String, ks.Pairwise (· < ·) ∧
      (∀ k, k ∈ ks ↔ ihash k % J.nReduce = r ∧ P k) ∧
      s.fs.data n = ks.map fun k => .line (k ++ " " ++ f k ++ "\n") := by
  obtain ⟨lines, hdata, hlines⟩ := outputLines_of_run hred h hr hn
  refine ⟨lines.map Line.key, hlines.sorted, ?_, ?_⟩
  · intro k
    rw [List.mem_map]
    constructor
    · rintro ⟨x, hx, rfl⟩
      obtain ⟨hhash, hx⟩ := (hlines.mem_iff x).mp hx
      exact ⟨hhash, ((hline x).mp hx).1⟩
    · rintro ⟨hhash, hk⟩
      exact ⟨⟨k, f k⟩, (hlines.mem_iff _).mpr ⟨hhash, (hline _).mpr ⟨hk, rfl⟩⟩, rfl⟩
  · rw [hdata]
    refine lineRecords_of_keys ?_
    intro x hx
    exact ((hline x).mp ((hlines.mem_iff x).mp hx).2).2

/-- The output files of different reduce tasks have no key in common. -/
theorem nodup_keys {lines : ℕ → List Line} (h : ∀ r < J.nReduce, J.OutputLines r (lines r)) :
    (((List.range J.nReduce).flatMap lines).map Line.key).Nodup := by
  rw [List.map_flatMap, List.nodup_flatMap]
  constructor
  · intro r hr
    exact (h r (List.mem_range.mp hr)).sorted.imp fun hlt => hlt.ne
  · refine (List.nodup_range).imp_of_mem ?_
    intro r r' hr hr' hne k hk hk'
    obtain ⟨x, hx, rfl⟩ := List.mem_map.mp hk
    obtain ⟨y, hy, hxy⟩ := List.mem_map.mp hk'
    have hxr := (((h r (List.mem_range.mp hr)).mem_iff x).mp hx).1
    have hyr := (((h r' (List.mem_range.mp hr')).mem_iff y).mp hy).1
    rw [hxy] at hyr
    exact hne (hxr.symm.trans hyr)

/-- When the job is done and no report was late, the output files together have the line of every
emitted key, once. -/
theorem outputs_of_done (hred : PermInvariant J.reducef) (h : (system J ι).Run es s)
    (hlate : (system J ι).Along es fun _ s _ => ¬ LateReport s.coord)
    (hdone : s.coord.c.phase = .done) :
    ∃ lines : ℕ → List Line,
      (∀ r < J.nReduce, ∃ n, s.fs.dir (.out r) = some n ∧ s.fs.data n = lineRecords (lines r)) ∧
      (((List.range J.nReduce).flatMap lines).map Line.key).Nodup ∧
      ∀ x, x ∈ (List.range J.nReduce).flatMap lines ↔ J.IsLine x := by
  have hi := reduceInv_of_run h hlate
  have hfile : ∀ r, ∃ l, r < J.nReduce → (∃ n, s.fs.dir (.out r) = some n ∧
      s.fs.data n = lineRecords l) ∧ J.OutputLines r l := by
    intro r
    by_cases hr : r < J.nReduce
    · obtain ⟨n, hn⟩ := Option.isSome_iff_exists.mp (hi.finished (hi.phase hdone) r hr)
      obtain ⟨l, hdata, hl⟩ := outputLines_of_run hred h hr hn
      exact ⟨l, fun _ => ⟨⟨n, hn, hdata⟩, hl⟩⟩
    · exact ⟨[], fun hlt => absurd hlt hr⟩
  choose lines hlines using hfile
  refine ⟨lines, fun r hr => (hlines r hr).1, nodup_keys fun r hr => (hlines r hr).2, ?_⟩
  intro x
  rw [List.mem_flatMap]
  constructor
  · rintro ⟨r, hr, hx⟩
    exact (((hlines r (List.mem_range.mp hr)).2.mem_iff x).mp hx).2
  · intro hx
    have hlt : ihash x.key % J.nReduce < J.nReduce := Nat.mod_lt _ J.nReduce_pos
    exact ⟨_, List.mem_range.mpr hlt, ((hlines _ hlt).2.mem_iff x).mpr ⟨rfl, hx⟩⟩

/-- The keys of all output files of a job that is done, if the line of a key is known. -/
theorem outputKeys_of_done (hred : PermInvariant J.reducef) (h : (system J ι).Run es s)
    (hlate : (system J ι).Along es fun _ s _ => ¬ LateReport s.coord)
    (hdone : s.coord.c.phase = .done) {f : String → String} {P : String → Prop}
    (hline : ∀ x, J.IsLine x ↔ P x.key ∧ x.output = f x.key) :
    ∃ ks : ℕ → List String,
      (∀ r < J.nReduce, ∃ n, s.fs.dir (.out r) = some n ∧
        s.fs.data n = (ks r).map fun k => .line (k ++ " " ++ f k ++ "\n")) ∧
      ((List.range J.nReduce).flatMap ks).Nodup ∧
      ∀ k, k ∈ (List.range J.nReduce).flatMap ks ↔ P k := by
  obtain ⟨lines, hfiles, hkeys, hmem⟩ := outputs_of_done hred h hlate hdone
  rw [List.map_flatMap] at hkeys
  refine ⟨fun r => (lines r).map Line.key, ?_, hkeys, ?_⟩
  · intro r hr
    obtain ⟨n, hn, hdata⟩ := hfiles r hr
    refine ⟨n, hn, hdata.trans (lineRecords_of_keys ?_)⟩
    intro x hx
    have hall : x ∈ (List.range J.nReduce).flatMap lines :=
      List.mem_flatMap.mpr ⟨r, List.mem_range.mpr hr, hx⟩
    exact ((hline x).mp ((hmem x).mp hall)).2
  · intro k
    rw [← List.map_flatMap, List.mem_map]
    constructor
    · rintro ⟨x, hx, rfl⟩
      exact ((hline x).mp ((hmem x).mp hx)).1
    · intro hk
      exact ⟨⟨k, f k⟩, (hmem _).mpr ((hline _).mpr ⟨hk, rfl⟩), rfl⟩

end MR
