import DistributedLabs.Tester.Persister
import Mathlib.Data.List.GetD

/-! What instances read of what was saved: the last `Save` of an instance, and after a restart the
last `Save` before the shutdown, whatever services do with their slices. -/
namespace Tester
open Runs
variable {n : ℕ} {s t : Storage n} {e : StorageEvent n} {es : List (StorageEvent n)} {p : ℕ}

/-- A persister that has the same slices, with the same bytes. -/
theorem stored_congr (hps : t.persisters[p]? = s.persisters[p]?)
    (hbytes : ∀ ps ∈ s.persisters[p]?, ∀ a ∈ ps.slices, t.heap.getD a [] = s.heap.getD a []) :
    t.stored p = s.stored p := by
  unfold Storage.stored
  rw [hps]
  cases hp : s.persisters[p]? with
  | none => rfl
  | some ps =>
    have hsame : ∀ o : Option ℕ, (∀ a ∈ o, a ∈ ps.slices) → t.bytes o = s.bytes o := by
      intro o ho
      cases o with
      | none => rfl
      | some a => exact hbytes ps hp a (ho a rfl)
    have hraft := hsame ps.raftstate (by simp +contextual [Persister.slices])
    have hsnap := hsame ps.snapshot (by simp +contextual [Persister.slices])
    simp only [hraft, hsnap]

theorem stored_append (h : Separate s) {more : List (List UInt8)} (hheap : t.heap = s.heap ++ more)
    (hps : t.persisters[p]? = s.persisters[p]?) : t.stored p = s.stored p := by
  refine stored_congr hps ?_
  intro ps hp a ha
  have hlt := (h.slices ps (List.mem_of_getElem? hp) a ha).1
  rw [hheap, List.getD_append _ _ _ _ hlt]

/-- What a persister stores changes only by a `Save` of the instance that has it. -/
theorem stored_step (h : Separate s) (hs : s.step e = some t) (hp : p < s.persisters.length)
    (hsave : ∀ k raftstate snapshot, e = .save k raftstate snapshot → s.instances[k]? ≠ some p) :
    t.stored p = s.stored p := by
  cases e with
  | start i =>
    cases hs
    exact stored_congr (List.getElem?_append_left hp) fun _ _ _ _ => rfl
  | shutdown i =>
    cases hs
    unfold Storage.shutdown
    split
    next => exact stored_congr (List.getElem?_append_left hp) fun _ _ _ _ => rfl
    next => rfl
  | make bytes =>
    cases hs
    exact stored_append h rfl rfl
  | write a bytes =>
    obtain ⟨ha, heq⟩ := Option.ite_none_right_eq_some.mp hs
    cases heq
    refine stored_congr rfl ?_
    intro ps hps b hb
    have hne : a ≠ b := by
      rintro rfl
      exact (h.slices ps (List.mem_of_getElem? hps) a hb).2 ha
    simp [List.getD_eq_getElem?_getD, List.getElem?_set_ne hne]
  | save k raftstate snapshot =>
    simp only [Storage.step] at hs
    split at hs
    next q hq =>
      obtain ⟨-, heq⟩ := Option.ite_none_right_eq_some.mp hs
      cases heq
      have hne : q ≠ p := by
        rintro rfl
        exact hsave k raftstate snapshot rfl hq
      refine stored_append h (List.append_assoc ..) ?_
      exact List.getElem?_set_ne hne
    next => cases hs
  | readRaftState k | readSnapshot k =>
    obtain ⟨ps, -, rfl⟩ := Option.map_eq_some_iff.mp hs
    exact stored_append h rfl rfl

/-- Instances and persisters stay. -/
theorem instances_step (hs : s.step e = some t) :
    s.instances <+: t.instances ∧ s.persisters.length ≤ t.persisters.length := by
  cases e with
  | start i =>
    cases hs
    exact ⟨List.prefix_append _ _, by simp [Storage.start]⟩
  | shutdown i =>
    cases hs
    unfold Storage.shutdown
    split
    next => exact ⟨List.prefix_rfl, by simp⟩
    next => exact ⟨List.prefix_rfl, le_rfl⟩
  | make bytes =>
    cases hs
    exact ⟨List.prefix_rfl, le_rfl⟩
  | write a bytes =>
    obtain ⟨-, heq⟩ := Option.ite_none_right_eq_some.mp hs
    cases heq
    exact ⟨List.prefix_rfl, le_rfl⟩
  | save k raftstate snapshot =>
    simp only [Storage.step] at hs
    split at hs
    next q hq =>
      obtain ⟨-, heq⟩ := Option.ite_none_right_eq_some.mp hs
      cases heq
      exact ⟨List.prefix_rfl, by simp [Storage.save, Storage.clone]⟩
    next => cases hs
  | readRaftState k | readSnapshot k =>
    obtain ⟨ps, -, rfl⟩ := Option.map_eq_some_iff.mp hs
    exact ⟨List.prefix_rfl, le_rfl⟩

/-- What an instance has saved stays until it saves again. -/
theorem stored_exec {es' : List (StorageEvent n)} {k : ℕ} (h : (storage n).Run es s)
    (hexec : (storage n).exec s es' = some t) (hk : s.instances[k]? = some p)
    (hsave : ∀ raftstate snapshot, .save k raftstate snapshot ∉ es') :
    t.instances[k]? = some p ∧ t.stored p = s.stored p := by
  induction es' generalizing es s with
  | nil =>
    cases hexec
    exact ⟨hk, rfl⟩
  | cons e es' ih =>
    obtain ⟨u, hstep, hexec⟩ := Option.bind_eq_some_iff.mp hexec
    have hsep := separate_of_run h
    have hs : s.step e = some u := hstep
    have hku : u.instances[k]? = some p := by
      obtain ⟨rest, hrest⟩ := (instances_step hs).1
      rw [← hrest, List.getElem?_append_left (List.getElem?_eq_some_iff.mp hk).1, hk]
    obtain ⟨hkt, hst⟩ := ih (h.snoc hstep) hexec hku
      fun r sn hmem => hsave r sn (List.mem_cons_of_mem e hmem)
    refine ⟨hkt, hst.trans (stored_step hsep hs (hsep.instances_lt p (List.mem_of_getElem? hk)) ?_)⟩
    rintro k' r sn rfl hk'
    obtain ⟨hlt, hp⟩ := List.getElem?_eq_some_iff.mp hk
    obtain ⟨hlt', hp'⟩ := List.getElem?_eq_some_iff.mp hk'
    obtain rfl : k' = k := (hsep.once.getElem_inj_iff).mp (hp'.trans hp.symm)
    exact hsave r sn List.mem_cons_self

theorem stored_save (h : Separate s) (hp : p < s.persisters.length) {raftstate snapshot : Option ℕ}
    (hheld : ∀ a ∈ snapshot, a ∈ s.held) :
    (s.save p raftstate snapshot).stored p = (s.bytes raftstate, s.bytes snapshot) := by
  have hsnap : (s.clone raftstate).bytes snapshot = s.bytes snapshot := by
    cases snapshot with
    | none => rfl
    | some a => exact List.getD_append _ _ _ _ (h.held_lt a (hheld a rfl))
  have hps : (s.save p raftstate snapshot).persisters[p]? =
      some ⟨some s.heap.length, some (s.heap.length + 1)⟩ := List.getElem?_set_self hp
  unfold Storage.stored
  rw [hps]
  simp only [Prod.mk.injEq]
  constructor
  · simp [Storage.save, Storage.clone, Storage.bytes, List.getD_eq_getElem?_getD]
  · rw [← hsnap]
    simp [Storage.save, Storage.clone, Storage.bytes, List.getD_eq_getElem?_getD]

/-- After a `Save`, whatever services write into the slices they passed or hold, and whatever is
started, shut down, saved and read otherwise, the instance reads both states of that `Save`. -/
theorem save_reads_back (n : ℕ) (es es' : List (StorageEvent n)) (s t u : Storage n) (k : ℕ)
    (raftstate snapshot : Option ℕ) (h : (storage n).Run es s)
    (hs : s.step (.save k raftstate snapshot) = some t) (hexec : (storage n).exec t es' = some u)
    (hsave : ∀ raftstate snapshot, .save k raftstate snapshot ∉ es') :
    u.contents k = some (s.bytes raftstate, s.bytes snapshot) := by
  have hsep := separate_of_run h
  have hrun := h.snoc (show (storage n).step s (.save k raftstate snapshot) = some t from hs)
  simp only [Storage.step] at hs
  split at hs
  next p hp =>
    obtain ⟨hheld, heq⟩ := Option.ite_none_right_eq_some.mp hs
    cases heq
    obtain ⟨hku, hst⟩ := stored_exec hrun hexec (show _ = some p from hp) hsave
    have hpair : (s.save p raftstate snapshot).stored p = (s.bytes raftstate, s.bytes snapshot) :=
      stored_save hsep (hsep.instances_lt p (List.mem_of_getElem? hp)) hheld.2
    rw [Storage.contents, hku, Option.map_some, hst, hpair]
  next => cases hs

/-- The only server of a group of one. -/
def soleServer : Fin 1 := ⟨0, Nat.one_pos⟩

/-- An instance makes two slices. -/
def makeSlices : List (StorageEvent 1) := [.start soleServer, .make [1, 2], .make [3]]

theorem overwritten_reads_back : ∃ s t u, (storage 1).Run makeSlices s ∧
    s.step (.save 0 (some 0) (some 1)) = some t ∧
    (storage 1).exec t [.write 0 [9, 9], .shutdown soleServer] = some u ∧
    u.bytes (some 0) = [9, 9] ∧ u.contents 0 = some ([1, 2], [3]) := by
  obtain ⟨s, hrun, hraft, hsnap, hnext⟩ := System.exists_run (storage 1) makeSlices
    (fun s => s.bytes (some 0) = [1, 2] ∧ s.bytes (some 1) = [3] ∧
      (s.step (.save 0 (some 0) (some 1))).any fun t =>
        ((storage 1).exec t [.write 0 [9, 9], .shutdown soleServer]).any fun u =>
          u.bytes (some 0) = [9, 9]) (by decide)
  obtain ⟨t, ht, hnext⟩ := (Option.any_eq_true _ _).mp hnext
  obtain ⟨u, hu, hbytes⟩ := (Option.any_eq_true _ _).mp hnext
  have hback := save_reads_back 1 makeSlices _ s t u 0 (some 0) (some 1) hrun ht hu (by simp)
  rw [hraft, hsnap] at hback
  exact ⟨s, t, u, hrun, ht, hu, of_decide_eq_true hbytes, hback⟩

/-- A server of the tester that is shut down, with what was saved for it. -/
def Parked (s : Storage n) (i : Fin n) (pair : List UInt8 × List UInt8) : Prop :=
  ∃ p, s.saved i = some p ∧ p < s.persisters.length ∧ p ∉ s.instances ∧ s.stored p = pair

theorem stored_copy {old : Persister} (hheap : t.heap = s.heap)
    (hps : t.persisters = s.persisters ++ [old.copy]) (hold : s.persisters[p]? = some old) :
    t.stored s.persisters.length = s.stored p := by
  have hget : t.persisters[s.persisters.length]? = some old := by
    rw [hps]
    exact List.getElem?_concat_length
  have hbytes : ∀ o, t.bytes o = s.bytes o := by
    intro o
    unfold Storage.bytes
    rw [hheap]
  simp only [Storage.stored, hget, hold, hbytes]

theorem parked_shutdown (h : Separate s) {i : Fin n} (hi : s.saved i = some p)
    (hp : p < s.persisters.length) : Parked (s.shutdown i) i (s.stored p) := by
  have hold : s.persisters[p]? = some s.persisters[p] := List.getElem?_eq_getElem hp
  have hfound : ((s.saved i).bind fun p => s.persisters[p]?) = some s.persisters[p] := by
    rw [hi, Option.bind_some, hold]
  have heq : s.shutdown i = { s with
      persisters := s.persisters ++ [s.persisters[p].copy]
      saved := Function.update s.saved i (some s.persisters.length) } := by
    unfold Storage.shutdown
    rw [hfound]
  rw [heq]
  refine ⟨s.persisters.length, Function.update_self .., by simp, ?_, stored_copy rfl rfl hold⟩
  intro hmem
  have hlt := h.instances_lt _ hmem
  omega

theorem parked_step (h : Separate s) {i : Fin n} {pair : List UInt8 × List UInt8}
    (hpark : Parked s i pair) (hs : s.step e = some t) (he : e ≠ .start i) : Parked t i pair := by
  obtain ⟨p, hi, hp, hfree, rfl⟩ := hpark
  have hlen := (instances_step hs).2
  have hstored : t.stored p = s.stored p := by
    refine stored_step h hs hp ?_
    intro k r sn _ hk
    exact hfree (List.mem_of_getElem? hk)
  have hkeep : t.saved i = s.saved i → t.instances = s.instances → Parked t i (s.stored p) :=
    fun hsaved hin => ⟨p, hsaved.trans hi, hp.trans_le hlen, hin ▸ hfree, hstored⟩
  cases e with
  | start j =>
    cases hs
    have hij : i ≠ j := by
      rintro rfl
      exact he rfl
    refine ⟨p, (Function.update_of_ne hij ..).trans hi, hp.trans_le hlen, ?_, hstored⟩
    show p ∉ s.instances ++ [s.persisters.length]
    rw [List.mem_append, List.mem_singleton]
    rintro (hmem | rfl)
    · exact hfree hmem
    · exact absurd hp (lt_irrefl _)
  | shutdown j =>
    cases hs
    by_cases hij : i = j
    · subst hij
      exact parked_shutdown h hi hp
    · refine hkeep ?_ ?_
      · unfold Storage.shutdown
        split
        next => exact Function.update_of_ne hij ..
        next => rfl
      · unfold Storage.shutdown
        split <;> rfl
  | make bytes =>
    cases hs
    exact hkeep rfl rfl
  | write a bytes =>
    obtain ⟨-, heq⟩ := Option.ite_none_right_eq_some.mp hs
    cases heq
    exact hkeep rfl rfl
  | save k raftstate snapshot =>
    simp only [Storage.step] at hs
    split at hs
    next =>
      obtain ⟨-, heq⟩ := Option.ite_none_right_eq_some.mp hs
      cases heq
      exact hkeep rfl rfl
    next => cases hs
  | readRaftState k | readSnapshot k =>
    obtain ⟨ps, -, rfl⟩ := Option.map_eq_some_iff.mp hs
    exact hkeep rfl rfl

theorem parked_exec {es' : List (StorageEvent n)} {i : Fin n} {pair : List UInt8 × List UInt8}
    (h : (storage n).Run es s) (hpark : Parked s i pair) (hexec : (storage n).exec s es' = some t)
    (hstart : .start i ∉ es') : (storage n).Run (es ++ es') t ∧ Parked t i pair := by
  induction es' generalizing es s with
  | nil =>
    cases hexec
    exact ⟨by rwa [List.append_nil], hpark⟩
  | cons e es' ih =>
    obtain ⟨u, hstep, hexec⟩ := Option.bind_eq_some_iff.mp hexec
    have hne : e ≠ .start i := fun heq => hstart (heq ▸ List.mem_cons_self)
    have hpark' := parked_step (separate_of_run h) hpark hstep hne
    have hrest := ih (h.snoc hstep) hpark' hexec fun hmem => hstart (List.mem_cons_of_mem e hmem)
    rwa [List.append_assoc] at hrest

/-- An instance that is started gets what was saved for the server. -/
theorem start_parked {i : Fin n} {pair : List UInt8 × List UInt8} (hpark : Parked s i pair) :
    (s.start i).stored s.persisters.length = pair := by
  obtain ⟨p, hi, hp, -, rfl⟩ := hpark
  have hold : s.persisters[p]? = some s.persisters[p] := List.getElem?_eq_getElem hp
  have hps : (s.start i).persisters = s.persisters ++ [s.persisters[p].copy] := by
    unfold Storage.start
    simp only [hi, Option.bind_some, hold]
  exact stored_copy rfl hps hold

/-- A server that was shut down and is started again reads what its last instance had saved when it
was shut down, until it saves itself: whatever that instance and all others save, read and write
into their slices in between, and however often the server is shut down. -/
theorem restart_reads_saved (n : ℕ) (es es' es'' : List (StorageEvent n)) (s t u v w : Storage n)
    (i : Fin n) (k p : ℕ) (h : (storage n).Run es s) (hi : s.saved i = some p)
    (hk : s.instances[k]? = some p) (hdown : s.step (.shutdown i) = some t)
    (hbetween : (storage n).exec t es' = some u) (hstart : .start i ∉ es')
    (hup : u.step (.start i) = some v) (hafter : (storage n).exec v es'' = some w)
    (hsave : ∀ raftstate snapshot, .save u.instances.length raftstate snapshot ∉ es'') :
    w.contents u.instances.length = s.contents k := by
  have hsep := separate_of_run h
  have hrun := h.snoc (show (storage n).step s (.shutdown i) = some t from hdown)
  cases hdown
  have hpark := parked_shutdown hsep hi (hsep.instances_lt p (List.mem_of_getElem? hk))
  obtain ⟨hrun, hpark⟩ := parked_exec hrun hpark hbetween hstart
  have hrun := hrun.snoc (show (storage n).step u (.start i) = some v from hup)
  cases hup
  have hnew : (u.start i).instances[u.instances.length]? = some u.persisters.length :=
    List.getElem?_concat_length
  obtain ⟨hkw, hst⟩ := stored_exec hrun hafter hnew hsave
  rw [Storage.contents, hkw, Option.map_some, hst, start_parked hpark, Storage.contents, hk,
    Option.map_some]

/-- The instance of the server saves a slice. -/
def saveOnce : List (StorageEvent 1) := [.start soleServer, .make [1], .save 0 (some 0) none]

/-- The old instance goes on to write and to save after it was shut down. -/
def saveLate : List (StorageEvent 1) := [.write 0 [7], .save 0 (some 0) none]

theorem lateSave_not_read : ∃ s t u v, (storage 1).Run saveOnce s ∧
    s.step (.shutdown soleServer) = some t ∧ (storage 1).exec t saveLate = some u ∧
    u.step (.start soleServer) = some v ∧ v.contents 0 = some ([7], []) ∧
    v.contents 1 = some ([1], []) := by
  obtain ⟨s, hrun, hi, hk, hone, hnext⟩ := System.exists_run (storage 1) saveOnce
    (fun s => s.saved soleServer = some 0 ∧ s.instances[0]? = some 0 ∧
      s.contents 0 = some ([1], []) ∧
      (s.step (.shutdown soleServer)).any fun t => ((storage 1).exec t saveLate).any fun u =>
        u.instances.length = 1 ∧ (u.step (.start soleServer)).any fun v =>
          v.contents 0 = some ([7], [])) (by decide)
  obtain ⟨t, ht, hnext⟩ := (Option.any_eq_true _ _).mp hnext
  obtain ⟨u, hu, hnext⟩ := (Option.any_eq_true _ _).mp hnext
  obtain ⟨hlen, hnext⟩ := of_decide_eq_true hnext
  obtain ⟨v, hv, hseven⟩ := (Option.any_eq_true _ _).mp hnext
  have hread := restart_reads_saved 1 saveOnce saveLate [] s t u v v soleServer 0 0 hrun hi hk ht hu
    (by simp [saveLate]) hv rfl (by simp)
  rw [hlen, hone] at hread
  exact ⟨s, t, u, v, hrun, ht, hu, hv, of_decide_eq_true hseven, hread⟩

end Tester
