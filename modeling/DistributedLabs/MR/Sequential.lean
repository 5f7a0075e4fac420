import DistributedLabs.MR.Job

/-! The distributed tasks together write what the sequential program writes. -/
namespace MR
variable {mapf : String → String → List KeyValue} {reducef : String → List String → String}

/-- The lines that `mrsequential` writes. -/
def sequential (mapf : String → String → List KeyValue)
    (reducef : String → List String → String) (S : Sorter) (files : List (String × String)) :
    List Line :=
  reduceLines reducef (S.sort (emitted mapf files))

/-- The lines that reduce task `r` of a job with `n` reduce tasks writes. -/
def taskLines (mapf : String → String → List KeyValue)
    (reducef : String → List String → String) (n : ℕ) (sorters : ℕ → Sorter)
    (files : List (String × String)) (r : ℕ) : List Line :=
  doReduceTask reducef (sorters r) (files.map (doMapTask mapf n)) r

variable {n r : ℕ} {sorters : ℕ → Sorter} {files : List (String × String)}

theorem taskLines_reduces (hred : PermInvariant reducef) (hr : r < n) :
    Reduces reducef ((emitted mapf files).filter fun kv => ihash kv.key % n = r)
      (taskLines mapf reducef n sorters files r) := by
  rw [taskLines, doReduceTask, collect_doMapTask hr]
  exact reduces_sort hred (sorters r) _

/-- A line of reduce task `r` is the line of an emitted key that hashes to `r`. -/
theorem mem_taskLines (hred : PermInvariant reducef) (hr : r < n) {x : Line} :
    x ∈ taskLines mapf reducef n sorters files r ↔
      ihash x.key % n = r ∧ (∃ kv ∈ emitted mapf files, kv.key = x.key) ∧
        x.output = reducef x.key (valuesOf x.key (emitted mapf files)) := by
  rw [(taskLines_reduces hred hr).mem_iff]
  constructor
  · rintro ⟨⟨kv, hkv, hkey⟩, hout⟩
    obtain ⟨hmem, hhash⟩ := List.mem_filter.mp hkv
    have hxr : ihash x.key % n = r := by rw [← hkey]; simpa using hhash
    subst hxr
    exact ⟨rfl, ⟨kv, hmem, hkey⟩, by rw [hout, valuesOf_filter]⟩
  · rintro ⟨rfl, ⟨kv, hmem, hkey⟩, hout⟩
    refine ⟨⟨kv, List.mem_filter.mpr ⟨hmem, by simp [hkey]⟩, hkey⟩, ?_⟩
    rw [hout, valuesOf_filter]

theorem taskLines_nodup (hred : PermInvariant reducef) :
    ((List.range n).flatMap (taskLines mapf reducef n sorters files)).Nodup := by
  rw [List.nodup_flatMap]
  refine ⟨fun r hr => (taskLines_reduces hred (List.mem_range.mp hr)).nodup, ?_⟩
  refine (List.nodup_range).imp_of_mem ?_
  intro r r' hr hr' hne x hx hx'
  have h := (mem_taskLines hred (List.mem_range.mp hr)).mp hx
  have h' := (mem_taskLines hred (List.mem_range.mp hr')).mp hx'
  exact hne (h.1.symm.trans h'.1)

theorem taskLines_perm_sequential (hred : PermInvariant reducef) (hn : 0 < n) (S : Sorter) :
    ((List.range n).flatMap (taskLines mapf reducef n sorters files)).Perm
      (sequential mapf reducef S files) := by
  have hseq : Reduces reducef (emitted mapf files) (sequential mapf reducef S files) :=
    reduces_sort hred S _
  rw [List.perm_ext_iff_of_nodup (taskLines_nodup hred) hseq.nodup]
  intro x
  rw [hseq.mem_iff, List.mem_flatMap]
  constructor
  · rintro ⟨r, hr, hx⟩
    exact ((mem_taskLines hred (List.mem_range.mp hr)).mp hx).2
  · intro hx
    have hlt : ihash x.key % n < n := Nat.mod_lt _ hn
    exact ⟨_, List.mem_range.mpr hlt, (mem_taskLines hred hlt).mpr ⟨rfl, hx⟩⟩

/-- The output of all reduce tasks is a permutation of the output of the sequential program,
and every emitted key occurs in the output of exactly one reduce task. -/
theorem distributed_eq_sequential (hred : PermInvariant reducef) (hn : 0 < n)
    (files : List (String × String)) (sorters : ℕ → Sorter) (S : Sorter) :
    (((List.range n).flatMap (taskLines mapf reducef n sorters files)).map Line.text).Perm
        ((sequential mapf reducef S files).map Line.text) ∧
      ∀ kv ∈ emitted mapf files,
        ∃! r, r < n ∧ kv.key ∈ (taskLines mapf reducef n sorters files r).map Line.key := by
  refine ⟨(taskLines_perm_sequential hred hn S).map _, ?_⟩
  intro kv hkv
  have hlt : ihash kv.key % n < n := Nat.mod_lt _ hn
  refine ⟨ihash kv.key % n, ⟨hlt, ?_⟩, ?_⟩
  · rw [(taskLines_reduces hred hlt).mem_keys]
    exact ⟨kv, List.mem_filter.mpr ⟨hkv, by simp⟩, rfl⟩
  · rintro r ⟨hr, hmem⟩
    obtain ⟨kv', hkv', hkey⟩ := (taskLines_reduces hred hr).mem_keys.mp hmem
    have hhash : ihash kv'.key % n = r := by simpa using (List.mem_filter.mp hkv').2
    rw [← hhash, hkey]

/-- A sorter as the standard library has one. -/
def mergeSorter : Sorter where
  sort := fun l => l.mergeSort fun a b => decide (a.key ≤ b.key)
  perm := fun l => List.mergeSort_perm l _
  sorted := by
    intro l
    have h := @List.pairwise_mergeSort KeyValue (fun a b => decide (a.key ≤ b.key))
      (by simpa using fun _ _ _ => le_trans)
      (by simpa using fun a b : KeyValue => le_total a.key b.key) l
    simpa using h

/-- Counting the values of a key, as the word count application does. -/
def countValues (_ : String) (values : List String) : String := toString values.length

theorem permInvariant_countValues : PermInvariant countValues := by
  intro k vs ws h
  simp only [countValues, h.length_eq]

/-- One pair for each character of the content. -/
def charPairs (_ content : String) : List KeyValue :=
  content.toList.map fun c => ⟨c.toString, "1"⟩

theorem distributed_eq_sequential_count :
    PermInvariant countValues ∧
      (((List.range 3).flatMap
        (taskLines charPairs countValues 3 (fun _ => mergeSorter) [("f", "aab"), ("g", "ba")])).map
          Line.text).Perm
        ((sequential charPairs countValues mergeSorter [("f", "aab"), ("g", "ba")]).map
          Line.text) :=
  ⟨permInvariant_countValues,
    (distributed_eq_sequential permInvariant_countValues (by decide) _ _ mergeSorter).1⟩

end MR
