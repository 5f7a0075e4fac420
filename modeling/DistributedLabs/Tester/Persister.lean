import DistributedLabs.Runs.History
import Mathlib.Data.List.Nodup

/-! What servers save across restarts: `persister.go` with the starts and shutdowns of a group.
`Copy` shares the byte slices of the old persister with the new one, so slices are modelled as
addresses, and services may write into the slices they hold at any time. -/
namespace Tester
open Runs

/-- The slices of a persister; nil is `none`. -/
structure Persister where
  raftstate : Option ℕ
  snapshot : Option ℕ
  deriving DecidableEq, Repr

def makePersister : Persister := ⟨none, none⟩

/-- `Copy` takes over the slices themselves. -/
def Persister.copy (ps : Persister) : Persister :=
  { makePersister with raftstate := ps.raftstate, snapshot := ps.snapshot }

/-- The memory and the persisters of a group of `n` servers, with the persister that each server of
the tester has and the one that each started instance was given. -/
structure Storage (n : ℕ) where
  heap : List (List UInt8)
  /-- The slices that services hold. -/
  held : List ℕ
  persisters : List Persister
  saved : Fin n → Option ℕ
  instances : List ℕ

inductive StorageEvent (n : ℕ) where
  | start (i : Fin n)
  | shutdown (i : Fin n)
  /-- A service makes a slice. -/
  | make (bytes : List UInt8)
  /-- A service writes into a slice it holds. -/
  | write (a : ℕ) (bytes : List UInt8)
  | save (k : ℕ) (raftstate snapshot : Option ℕ)
  | readRaftState (k : ℕ)
  | readSnapshot (k : ℕ)
  deriving DecidableEq, Repr

namespace Storage
variable {n : ℕ}

def init (n : ℕ) : Storage n where
  heap := []
  held := []
  persisters := []
  saved := fun _ => none
  instances := []

def bytes (s : Storage n) : Option ℕ → List UInt8
  | some a => s.heap.getD a []
  | none => []

/-- `clone` makes a new slice, also of nil. -/
def clone (s : Storage n) (orig : Option ℕ) : Storage n :=
  { s with heap := s.heap ++ [s.bytes orig] }

/-- `startServer`, with the instance that gets the persister. -/
def start (s : Storage n) (i : Fin n) : Storage n :=
  let ps :=
    match (s.saved i).bind fun p => s.persisters[p]? with
    | some old => old.copy
    | none => makePersister
  { s with
    persisters := s.persisters ++ [ps]
    saved := Function.update s.saved i (some s.persisters.length)
    instances := s.instances ++ [s.persisters.length] }

/-- `shutdownServer`. -/
def shutdown (s : Storage n) (i : Fin n) : Storage n :=
  match (s.saved i).bind fun p => s.persisters[p]? with
  | some old =>
      { s with
        persisters := s.persisters ++ [old.copy]
        saved := Function.update s.saved i (some s.persisters.length) }
  | none => s

/-- `Save` clones both slices. -/
def save (s : Storage n) (p : ℕ) (raftstate snapshot : Option ℕ) : Storage n :=
  let t := (s.clone raftstate).clone snapshot
  { t with persisters := t.persisters.set p ⟨some s.heap.length, some (s.heap.length + 1)⟩ }

/-- A clone that a service gets. -/
def give (s : Storage n) (orig : Option ℕ) : Storage n :=
  { s.clone orig with held := s.held ++ [s.heap.length] }

def step (s : Storage n) : StorageEvent n → Option (Storage n)
  | .start i => some (s.start i)
  | .shutdown i => some (s.shutdown i)
  | .make bytes => some { s with heap := s.heap ++ [bytes], held := s.held ++ [s.heap.length] }
  | .write a bytes => if a ∈ s.held then some { s with heap := s.heap.set a bytes } else none
  | .save k raftstate snapshot =>
      match s.instances[k]? with
      | some p =>
          if (∀ a ∈ raftstate, a ∈ s.held) ∧ ∀ a ∈ snapshot, a ∈ s.held then
            some (s.save p raftstate snapshot)
          else none
      | none => none
  | .readRaftState k =>
      ((s.instances[k]?).bind fun p => s.persisters[p]?).map fun ps => s.give ps.raftstate
  | .readSnapshot k =>
      ((s.instances[k]?).bind fun p => s.persisters[p]?).map fun ps => s.give ps.snapshot

/-- What `ReadRaftState` and `ReadSnapshot` of a persister return. -/
def stored (s : Storage n) (p : ℕ) : List UInt8 × List UInt8 :=
  match s.persisters[p]? with
  | some ps => (s.bytes ps.raftstate, s.bytes ps.snapshot)
  | none => ([], [])

/-- What an instance reads. -/
def contents (s : Storage n) (k : ℕ) : Option (List UInt8 × List UInt8) :=
  (s.instances[k]?).map s.stored

end Storage

def storage (n : ℕ) : System (Storage n) (StorageEvent n) where
  init := .init n
  step := Storage.step

variable {n : ℕ} {s t : Storage n} {e : StorageEvent n} {es : List (StorageEvent n)} {p : ℕ}

def Persister.slices (ps : Persister) : List ℕ := ps.raftstate.toList ++ ps.snapshot.toList

/-- No service holds a slice of a persister, and no two instances have one persister. -/
structure Separate (s : Storage n) : Prop where
  slices : ∀ ps ∈ s.persisters, ∀ a ∈ ps.slices, a < s.heap.length ∧ a ∉ s.held
  held_lt : ∀ a ∈ s.held, a < s.heap.length
  instances_lt : ∀ p ∈ s.instances, p < s.persisters.length
  once : s.instances.Nodup

theorem separate_init : Separate (Storage.init n) := by
  constructor <;> simp [Storage.init]

/-- The slices that a new persister may have: those of another one. -/
theorem slices_found {i : Fin n} {ps : Persister}
    (h : ((s.saved i).bind fun p => s.persisters[p]?) = some ps) : ps ∈ s.persisters := by
  obtain ⟨q, -, hq⟩ := Option.bind_eq_some_iff.mp h
  exact List.mem_of_getElem? hq

/-- More slices and none of them in a persister. -/
theorem Separate.grow (h : Separate s) {more : List (List UInt8)} {held : List ℕ}
    (hheap : t.heap = s.heap ++ more) (hheld : t.held = s.held ++ held)
    (hnew : ∀ a ∈ held, s.heap.length ≤ a ∧ a < t.heap.length) (hps : t.persisters = s.persisters)
    (hin : t.instances = s.instances) : Separate t where
  slices := by
    rw [hps, hheap, hheld, List.length_append]
    intro ps hmem a ha
    obtain ⟨hlt, hout⟩ := h.slices ps hmem a ha
    refine ⟨by omega, ?_⟩
    rw [List.mem_append]
    rintro (hold | hmore)
    · exact hout hold
    · have hle := (hnew a hmore).1
      omega
  held_lt := by
    rw [hheld, List.forall_mem_append]
    refine ⟨?_, fun a ha => (hnew a ha).2⟩
    intro a ha
    have hlt := h.held_lt a ha
    rw [hheap, List.length_append]
    omega
  instances_lt := by
    rw [hin, hps]
    exact h.instances_lt
  once := by
    rw [hin]
    exact h.once

theorem separate_start (h : Separate s) (i : Fin n) : Separate (s.start i) where
  slices := by
    intro ps hmem
    rcases List.mem_append.mp hmem with hmem | hmem
    · exact h.slices ps hmem
    · rw [List.mem_singleton] at hmem
      split at hmem
      next old hold =>
        rw [hmem]
        exact h.slices old (slices_found hold)
      next =>
        rw [hmem]
        simp [Persister.slices, makePersister]
  held_lt := h.held_lt
  instances_lt := by
    have hlen : (s.start i).persisters.length = s.persisters.length + 1 := by simp [Storage.start]
    have hin : (s.start i).instances = s.instances ++ [s.persisters.length] := rfl
    rw [hlen, hin, List.forall_mem_append, List.forall_mem_singleton]
    refine ⟨?_, by omega⟩
    intro p hp
    have hlt := h.instances_lt p hp
    omega
  once := by
    have hin : (s.start i).instances = s.instances ++ [s.persisters.length] := rfl
    rw [hin, List.nodup_append]
    refine ⟨h.once, List.nodup_singleton _, ?_⟩
    intro p hp q hq hpq
    rw [List.mem_singleton.mp hq] at hpq
    have hlt := h.instances_lt p hp
    omega

theorem separate_shutdown (h : Separate s) (i : Fin n) : Separate (s.shutdown i) := by
  unfold Storage.shutdown
  split
  next old hold =>
    refine ⟨?_, h.held_lt, ?_, h.once⟩
    · intro ps hmem
      rcases List.mem_append.mp hmem with hmem | hmem
      · exact h.slices ps hmem
      · rw [List.mem_singleton.mp hmem]
        exact h.slices old (slices_found hold)
    · intro p hp
      have hlt := h.instances_lt p hp
      rw [List.length_append]
      omega
  next => exact h

theorem separate_save (h : Separate s) (p : ℕ) (raftstate snapshot : Option ℕ) :
    Separate (s.save p raftstate snapshot) := by
  have hlen : (s.save p raftstate snapshot).heap.length = s.heap.length + 2 := by
    simp [Storage.save, Storage.clone]
  have hps : (s.save p raftstate snapshot).persisters.length = s.persisters.length := by
    simp [Storage.save, Storage.clone]
  refine ⟨?_, ?_, ?_, h.once⟩
  · intro ps hmem a ha
    rw [hlen]
    have hheld : ∀ b ∈ s.held, b < s.heap.length := h.held_lt
    rcases List.mem_or_eq_of_mem_set hmem with hold | rfl
    · obtain ⟨hlt, hout⟩ := h.slices ps hold a ha
      exact ⟨by omega, hout⟩
    · have hnew : a = s.heap.length ∨ a = s.heap.length + 1 := by
        simpa [Persister.slices] using ha
      refine ⟨by omega, fun hin => ?_⟩
      have hlt := hheld a hin
      omega
  · intro a ha
    rw [hlen]
    have hlt := h.held_lt a ha
    omega
  · intro q hq
    rw [hps]
    exact h.instances_lt q hq

theorem separate_step (h : Separate s) (hs : s.step e = some t) : Separate t := by
  cases e with
  | start i =>
    cases hs
    exact separate_start h i
  | shutdown i =>
    cases hs
    exact separate_shutdown h i
  | make bytes =>
    cases hs
    exact h.grow rfl rfl (by simp) rfl rfl
  | write a bytes =>
    obtain ⟨-, heq⟩ := Option.ite_none_right_eq_some.mp hs
    cases heq
    refine ⟨?_, ?_, h.instances_lt, h.once⟩
    · simpa using h.slices
    · simpa using h.held_lt
  | save k raftstate snapshot =>
    simp only [Storage.step] at hs
    split at hs
    next p hp =>
      obtain ⟨-, heq⟩ := Option.ite_none_right_eq_some.mp hs
      cases heq
      exact separate_save h p raftstate snapshot
    next => cases hs
  | readRaftState k | readSnapshot k =>
    obtain ⟨ps, -, rfl⟩ := Option.map_eq_some_iff.mp hs
    refine h.grow rfl rfl ?_ rfl rfl
    simp [Storage.give, Storage.clone]

theorem separate_of_run (h : (storage n).Run es s) : Separate s :=
  h.invariant' (I := fun _ s => Separate s) separate_init fun _ _ _ _ _ hi hs => separate_step hi hs

end Tester
