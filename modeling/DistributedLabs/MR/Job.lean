import DistributedLabs.Grouping.Adjacent
import Mathlib.Data.String.Basic
import Mathlib.Data.List.Sort
import Mathlib.Data.UInt

/-! What a MapReduce job computes: the buckets that a map task writes and the lines that a
reduce task writes. -/
namespace MR
open Grouping

structure KeyValue where
  key : String
  value : String
  deriving DecidableEq, Repr

/-- The 32-bit FNV-1a hash. -/
def fnv32a (bytes : List UInt8) : UInt32 :=
  bytes.foldl (fun h b => (h ^^^ b.toUInt32) * 16777619) 2166136261

def ihash (key : String) : ℕ := (fnv32a key.toUTF8.data.toList &&& 0x7fffffff).toNat

/-- The loop of `doMapTask` that appends each pair to the bucket of its key. -/
def hashKeyID (reduceNum : ℕ) (intermediate : List KeyValue) : List (List KeyValue) :=
  intermediate.foldl (fun buckets kv => buckets.modify (ihash kv.key % reduceNum) (· ++ [kv]))
    (List.replicate reduceNum [])

/-- One line of reduce output. -/
structure Line where
  key : String
  output : String
  deriving DecidableEq, Repr

/-- The line as `Fprintf` writes it with the format `"%v %v\n"`. -/
def Line.text (l : Line) : String := l.key ++ " " ++ l.output ++ "\n"

/-- All that is assumed of `sort.Sort(ByKey(...))`: it returns a permutation sorted by key. -/
structure Sorter where
  sort : List KeyValue → List KeyValue
  perm : ∀ l, (sort l).Perm l
  sorted : ∀ l, Sorted KeyValue.key (sort l)

variable (mapf : String → String → List KeyValue) (reducef : String → List String → String)

/-- The loop over groups of equal keys in `doReduceTask` and in `mrsequential`. -/
def reduceLines (intermediate : List KeyValue) : List Line :=
  adjacent KeyValue.key (fun k kvs => ⟨k, reducef k (kvs.map KeyValue.value)⟩) intermediate

/-- The line of the group of `kv`, which stands before `rest` in the sorted pairs. -/
def groupLine (kv : KeyValue) (rest : List KeyValue) : Line :=
  ⟨kv.key, reducef kv.key
    (kv.value :: (rest.takeWhile fun x => x.key = kv.key).map KeyValue.value)⟩

/-- The buckets that `doMapTask` writes for a file with its content. -/
def doMapTask (reduceNum : ℕ) (file : String × String) : List (List KeyValue) :=
  hashKeyID reduceNum (mapf file.1 file.2)

/-- What `doReduceTask` collects: bucket `r` of every map task, in the order of the tasks. -/
def collect (buckets : List (List (List KeyValue))) (r : ℕ) : List KeyValue :=
  buckets.flatMap fun b => b.getD r []

/-- The lines that `doReduceTask` writes. -/
def doReduceTask (S : Sorter) (buckets : List (List (List KeyValue))) (r : ℕ) : List Line :=
  reduceLines reducef (S.sort (collect buckets r))

/-- All pairs that the map function emits. -/
def emitted (files : List (String × String)) : List KeyValue :=
  files.flatMap fun file => mapf file.1 file.2

/-- The result of `reducef` does not depend on the order of the values. -/
def PermInvariant : Prop := ∀ k vs ws, List.Perm vs ws → reducef k vs = reducef k ws

/-- The values of a key. -/
def valuesOf (k : String) (l : List KeyValue) : List String :=
  (l.filter fun kv => kv.key = k).map KeyValue.value

/-- The lines are one for every key of the pairs, made by `reducef` from all its values. -/
def Reduces (l : List KeyValue) (lines : List Line) : Prop :=
  ∃ ks : List String, ks.Nodup ∧ (∀ k, k ∈ ks ↔ ∃ kv ∈ l, kv.key = k) ∧
    lines = ks.map fun k => ⟨k, reducef k (valuesOf k l)⟩

variable {mapf reducef}

theorem reduceLines_cons (kv : KeyValue) (rest : List KeyValue) :
    reduceLines reducef (kv :: rest) = groupLine reducef kv rest ::
      reduceLines reducef (rest.dropWhile fun x => x.key = kv.key) :=
  adjacent_cons kv rest

theorem reduces_of_sorted {l : List KeyValue} (h : Sorted KeyValue.key l) :
    Reduces reducef l (reduceLines reducef l) := by
  obtain ⟨ks, hks, hmem, heq⟩ := adjacent_of_sorted
    (fun k kvs => (⟨k, reducef k (kvs.map KeyValue.value)⟩ : Line)) h
  exact ⟨ks, hks.imp fun h => h.ne, hmem, heq⟩

/-- Only the pairs matter, not their order. -/
theorem Reduces.of_perm (hred : PermInvariant reducef) {l l' : List KeyValue} {lines : List Line}
    (hp : l.Perm l') (h : Reduces reducef l lines) : Reduces reducef l' lines := by
  obtain ⟨ks, hnd, hmem, rfl⟩ := h
  refine ⟨ks, hnd, ?_, ?_⟩
  · intro k
    rw [hmem]
    simp only [hp.mem_iff]
  · refine List.map_congr_left ?_
    intro k _
    have hvalues : (valuesOf k l).Perm (valuesOf k l') := (hp.filter _).map _
    rw [hred k _ _ hvalues]

/-- The lines of a sorted permutation of the pairs. -/
theorem reduces_sort (hred : PermInvariant reducef) (S : Sorter) (l : List KeyValue) :
    Reduces reducef l (reduceLines reducef (S.sort l)) :=
  (reduces_of_sorted (S.sorted l)).of_perm hred (S.perm l)

theorem Reduces.mem_iff {l : List KeyValue} {lines : List Line} (h : Reduces reducef l lines)
    {x : Line} : x ∈ lines ↔
      (∃ kv ∈ l, kv.key = x.key) ∧ x.output = reducef x.key (valuesOf x.key l) := by
  obtain ⟨ks, -, hmem, rfl⟩ := h
  rw [List.mem_map]
  constructor
  · rintro ⟨k, hk, rfl⟩
    exact ⟨(hmem k).mp hk, rfl⟩
  · rintro ⟨hk, hout⟩
    exact ⟨x.key, (hmem x.key).mpr hk, by rw [← hout]⟩

theorem Reduces.nodup {l : List KeyValue} {lines : List Line} (h : Reduces reducef l lines) :
    lines.Nodup := by
  obtain ⟨ks, hnd, -, rfl⟩ := h
  exact hnd.map fun k k' hkk => congrArg Line.key hkk

theorem Reduces.mem_keys {l : List KeyValue} {lines : List Line} (h : Reduces reducef l lines)
    {k : String} : k ∈ lines.map Line.key ↔ ∃ kv ∈ l, kv.key = k := by
  obtain ⟨ks, -, hmem, rfl⟩ := h
  simp [hmem]

theorem hashKeyID_foldl (n : ℕ) (kvs : List KeyValue) (buckets : List (List KeyValue)) (r : ℕ) :
    (kvs.foldl (fun b kv => b.modify (ihash kv.key % n) (· ++ [kv])) buckets)[r]? =
      (buckets[r]?).map (· ++ kvs.filter fun kv => ihash kv.key % n = r) := by
  induction kvs generalizing buckets with
  | nil => simp
  | cons kv kvs ih =>
    rw [List.foldl_cons, ih, List.getElem?_modify]
    by_cases hr : ihash kv.key % n = r
    · rw [List.filter_cons_of_pos (by simpa using hr)]
      simp [hr, Function.comp_def]
    · rw [List.filter_cons_of_neg (by simpa using hr)]
      simp [hr]

/-- Bucket `r` has the pairs whose key hashes to `r`, in the order in which they were emitted. -/
theorem hashKeyID_getElem? {n r : ℕ} (hr : r < n) (kvs : List KeyValue) :
    (hashKeyID n kvs)[r]? = some (kvs.filter fun kv => ihash kv.key % n = r) := by
  rw [hashKeyID, hashKeyID_foldl]
  simp [hr]

/-- Reduce task `r` collects the emitted pairs whose key hashes to `r`. -/
theorem collect_doMapTask {n r : ℕ} (hr : r < n) (files : List (String × String)) :
    collect (files.map (doMapTask mapf n)) r =
      (emitted mapf files).filter fun kv => ihash kv.key % n = r := by
  rw [collect, emitted, List.filter_flatMap, List.flatMap_map]
  congr 1
  funext file
  rw [doMapTask, List.getD_eq_getElem?_getD, hashKeyID_getElem? hr]
  rfl

theorem valuesOf_filter {n : ℕ} (k : String) (l : List KeyValue) :
    valuesOf k (l.filter fun kv => ihash kv.key % n = ihash k % n) = valuesOf k l := by
  rw [valuesOf, valuesOf, List.filter_filter]
  congr 1
  refine List.filter_congr ?_
  intro kv _
  by_cases h : kv.key = k <;> simp [h]

end MR
