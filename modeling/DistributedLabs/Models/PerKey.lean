import DistributedLabs.Linearizability.Locality
import DistributedLabs.Models.Kv

/-! The history of all keys and the parts into which `Partition` cuts it. -/
namespace Models
open Linearizability

/-- The operation without its client. -/
def Operation.done (a : Operation) : Done ℤ KvInput KvOutput := ⟨a.input, a.output, a.call, a.ret⟩

/-- The history in which all these operations have returned. -/
def returned (h : List Operation) : List (Linearizability.Operation ℤ KvInput KvOutput) :=
  (h.map Operation.done).map Done.operation

/-- The operations on one key, in the order of the history. -/
def onKey (k : String) (h : List Operation) : List Operation :=
  h.filter fun a => a.input.key = k

/-- All keys with the state of each. -/
def mapModel : Spec (String → KvState) KvInput KvOutput := kvModel.keyed KvInput.key

theorem groups_snoc (h : List Operation) (a : Operation) :
    groups (h ++ [a]) = addOperation (groups h) a := by
  simp [groups]

theorem onKey_snoc (k : String) (h : List Operation) (a : Operation) :
    onKey k (h ++ [a]) = onKey k h ++ if a.input.key = k then [a] else [] := by
  unfold onKey
  rw [List.filter_append, List.filter_singleton]
  by_cases hk : a.input.key = k <;> simp [hk]

theorem groups_lookup (h : List Operation) (k : String) :
    ((groups h).lookup k).getD [] = onKey k h := by
  induction h using List.reverseRecOn with
  | nil => rfl
  | append_singleton h a ih =>
    rw [groups_snoc, onKey_snoc]
    unfold addOperation
    by_cases hk : a.input.key = k
    · rw [hk, AList.lookup_insert, Option.getD_some, ih, if_pos rfl]
    · rw [AList.lookup_insert_ne (Ne.symm hk), ih, if_neg hk, List.append_nil]

theorem mem_groups (h : List Operation) (k : String) :
    k ∈ groups h ↔ ∃ a ∈ h, a.input.key = k := by
  induction h using List.reverseRecOn with
  | nil => simp [groups]
  | append_singleton h a ih =>
    rw [groups_snoc, addOperation, AList.mem_insert, ih]
    simp only [List.mem_append, List.mem_singleton]
    constructor
    · rintro (rfl | ⟨b, hb, hk⟩)
      · exact ⟨a, Or.inr rfl, rfl⟩
      · exact ⟨b, Or.inl hb, hk⟩
    · rintro ⟨b, hb | rfl, hk⟩
      · exact Or.inr ⟨b, hb, hk⟩
      · exact Or.inl hk.symm

/-- The keys of the history in the order of `Partition`. -/
def sortedKeys (h : List Operation) : List String := (groups h).keys.insertionSort (· ≤ ·)

theorem nodup_sortedKeys (h : List Operation) : (sortedKeys h).Nodup :=
  (List.perm_insertionSort _ _).nodup_iff.mpr (groups h).keys_nodup

theorem mem_sortedKeys {h : List Operation} {k : String} :
    k ∈ sortedKeys h ↔ ∃ a ∈ h, a.input.key = k := by
  rw [← mem_groups, AList.mem_keys]
  exact (List.perm_insertionSort _ _).mem_iff

theorem partition_eq (h : List Operation) :
    partition h = (sortedKeys h).map fun k => onKey k h := by
  unfold partition
  simp only [groups_lookup]
  rfl

theorem onKey_done (k : String) (h : List Operation) :
    (onKey k h).map Operation.done = part KvInput.key k (h.map Operation.done) := by
  unfold onKey part
  rw [List.filter_map]
  rfl

theorem onKey_eq_nil {h : List Operation} {k : String} (hk : k ∉ sortedKeys h) :
    onKey k h = [] := by
  unfold onKey
  rw [List.filter_eq_nil_iff]
  intro a ha
  simp only [decide_eq_true_eq]
  exact fun hak => hk (mem_sortedKeys.mpr ⟨a, ha, hak⟩)

theorem mapModel_linearizable_iff {h : List Operation} (hcall : ∀ a ∈ h, a.call ≤ a.ret) :
    Linearizable mapModel (returned h) ↔ ∀ k, Linearizable kvModel (returned (onKey k h)) := by
  unfold returned mapModel
  have hdone : ∀ a ∈ h.map Operation.done, a.call ≤ a.ret := by
    intro a ha
    obtain ⟨b, hb, rfl⟩ := List.mem_map.mp ha
    exact hcall b hb
  rw [linearizable_iff_orders, keyed_orders_iff hdone]
  simp only [linearizable_iff_orders, onKey_done]

/-- Checking each part of the history is checking the whole history, and the parts are made of
the operations of the history, one key in each. -/
theorem partition_checks_history {h : List Operation} (hcall : ∀ a ∈ h, a.call ≤ a.ret) :
    (Linearizable mapModel (returned h) ↔
      ∀ l ∈ partition h, Linearizable kvModel (returned l)) ∧
    (partition h).flatten.Perm h ∧
    ∃ keys : List String, keys.Nodup ∧ partition h = keys.map fun k => onKey k h := by
  refine ⟨?_, ?_, sortedKeys h, nodup_sortedKeys h, partition_eq h⟩
  · rw [mapModel_linearizable_iff hcall, partition_eq]
    constructor
    · intro hall l hl
      obtain ⟨k, -, rfl⟩ := List.mem_map.mp hl
      exact hall k
    · intro hall k
      by_cases hk : k ∈ sortedKeys h
      · exact hall _ (List.mem_map_of_mem hk)
      · rw [onKey_eq_nil hk]
        exact linearizable_nil kvModel
  · rw [partition_eq, ← List.flatMap_def]
    refine flatMap_filter_perm (fun a : Operation => a.input.key) (nodup_sortedKeys h) ?_
    intro a ha
    exact mem_sortedKeys.mpr ⟨a, ha, rfl⟩

/-- Two clients on two keys: each `Get` overlaps the `Put` whose value it returns. -/
def crossing : List Operation :=
  [⟨0, { op := 1, key := "x", value := "a" }, 0, { err := "OK" }, 4⟩,
    ⟨1, { op := 0, key := "x" }, 1, { value := "a", version := 1, err := "OK" }, 2⟩,
    ⟨1, { op := 1, key := "w", value := "b" }, 3, { err := "OK" }, 6⟩,
    ⟨0, { op := 0, key := "w" }, 5, { value := "b", version := 1, err := "OK" }, 7⟩]

theorem crossing_linearizable : Linearizable mapModel (returned crossing) := by
  refine (partition_checks_history (by decide)).1.mpr ?_
  intro l hl
  have hparts : partition crossing = [crossing.drop 2, crossing.take 2] := by decide +kernel
  rw [hparts] at hl
  refine (linearizable_iff_orders _ _).mpr ⟨l.map Operation.done, List.Perm.refl _, ?_, ?_⟩
  · revert l
    decide
  · revert l
    decide

end Models
