import DistributedLabs.RaftTest.Harness
import Mathlib.Algebra.GroupWithZero.Nat
import Mathlib.Data.Int.Order.Basic

/-! The Raft test with snapshots. A snapshot holds a server's log, and it replaces the log of the
server that takes it in without being compared with the others'. The logs agree all the same if
Raft hands out only snapshots that were taken and never goes back behind them. -/
namespace RaftTest
open Runs

/-- All that is assumed of `labgob` on the two values of a snapshot. -/
structure Gob (V B : Type*) where
  encode : ℤ → List V → B
  decode : B → Option (ℤ × List V)
  roundTrip : ∀ index xlog, decode (encode index xlog) = some (index, xlog)

variable {n : ℕ} {V B : Type*}

/-- `SnapShotInterval` -/
def snapShotInterval : ℤ := 10

/-- The map that the loop of `ingestSnap` makes of the decoded log. -/
def logsOf (xlog : List V) (index : ℤ) : Option V :=
  if 0 ≤ index then xlog[index.toNat]? else none

/-- `ingestSnap` returns the server that it leaves, or the error. -/
def ingestSnap (G : Gob V B) (me : Fin n) (snapshot : Option B) (index : ℤ) :
    Except (ApplyErr n V) (Rfsrv V) :=
  match snapshot with
  | none => .error .nilSnapshot
  | some b =>
      match G.decode b with
      | none => .error .decode
      | some (lastIncludedIndex, xlog) =>
          if index ≠ -1 ∧ index ≠ lastIncludedIndex then .error (.snapshotIndex me)
          else .ok ⟨lastIncludedIndex, logsOf xlog⟩

def Test.set (ts : Test n V) (i : Fin n) (rs : Rfsrv V) : Test n V :=
  { ts with srvs := Function.update ts.srvs i rs }

/-- A snapshot that an applier has handed to its Raft. -/
structure Taken (n : ℕ) (B : Type*) where
  server : Fin n
  index : ℤ
  snapshot : B
  deriving DecidableEq, Repr

structure SnapProcess (n : ℕ) (V B : Type*) where
  test : Test n V
  exit : Option (ApplyErr n V)
  taken : List (Taken n B)

inductive SnapEvent (n : ℕ) (V B : Type*) where
  | apply (i : Fin n) (m : ApplyMsg V B)
  /-- A new server takes the place of an old one; its persister has this snapshot, or none. -/
  | restart (i : Fin n) (snapshot : Option B)
  deriving DecidableEq, Repr

/-- `newRfsrv` with a snapshot or an empty one. -/
def newRfsrvSnap (G : Gob V B) (i : Fin n) (snapshot : Option B) :
    Except (ApplyErr n V) (Rfsrv V) :=
  match snapshot with
  | none => .ok (newRfsrv V)
  | some b => ingestSnap G i (some b) (-1)

/-- What Raft has to keep to: a snapshot that a server gets was taken before and is not behind
what the server has applied; one that it restarts from is not behind those that it has taken
itself. -/
def Contract (p : SnapProcess n V B) : SnapEvent n V B → Prop
  | .apply i m => m.snapshotValid = true →
      ∃ t ∈ p.taken, m.snapshot = some t.snapshot ∧ (p.test.srvs i).lastApplied ≤ t.index
  | .restart i none => ∀ t ∈ p.taken, t.server ≠ i
  | .restart i (some b) =>
      ∃ t ∈ p.taken, b = t.snapshot ∧ ∀ u ∈ p.taken, u.server = i → u.index ≤ t.index

instance [DecidableEq B] (p : SnapProcess n V B) : (e : SnapEvent n V B) → Decidable (Contract p e)
  | .apply i m => inferInstanceAs (Decidable (m.snapshotValid = true →
      ∃ t ∈ p.taken, m.snapshot = some t.snapshot ∧ (p.test.srvs i).lastApplied ≤ t.index))
  | .restart i none => inferInstanceAs (Decidable (∀ t ∈ p.taken, t.server ≠ i))
  | .restart i (some b) => inferInstanceAs (Decidable (∃ t ∈ p.taken, b = t.snapshot ∧
      ∀ u ∈ p.taken, u.server = i → u.index ≤ t.index))

def Agree (rs rs' : Rfsrv V) : Prop :=
  ∀ k v w, rs.logs k = some v → rs'.logs k = some w → v = w

section logs
variable [Inhabited V]

/-- The log that `applierSnap` encodes. A missing entry reads as nil. -/
def Rfsrv.xlog (rs : Rfsrv V) (index : ℤ) : List V :=
  (List.range (index + 1).toNat).map fun j : ℕ => (rs.logs j).getD default

/-- The log has exactly the entries that have been applied. Where it comes from a snapshot, it has
nil at index 0. -/
structure Rfsrv.Whole (rs : Rfsrv V) : Prop where
  nonneg : 0 ≤ rs.lastApplied
  range : ∀ k v, rs.logs k = some v → 0 ≤ k ∧ k ≤ rs.lastApplied
  full : ∀ k, 1 ≤ k → k ≤ rs.lastApplied → ∃ v, rs.logs k = some v
  zero : ∀ v, rs.logs 0 = some v → v = default

theorem whole_newRfsrv : (newRfsrv V).Whole where
  nonneg := le_rfl
  range := by
    intro k v h
    cases h
  full := by
    intro k h1 h0
    have hle : k ≤ 0 := h0
    omega
  zero := by
    intro v h
    cases h

/-- Where two whole logs that agree reach an index, their snapshots there are the same. -/
theorem xlog_eq {rs rs' : Rfsrv V} {index : ℤ} (h : rs.Whole) (h' : rs'.Whole)
    (hagree : Agree rs rs')
    (hle : index ≤ rs.lastApplied) (hle' : index ≤ rs'.lastApplied) :
    rs.xlog index = rs'.xlog index := by
  apply List.map_congr_left
  intro j hj
  rw [List.mem_range] at hj
  by_cases hzero : j = 0
  · subst hzero
    have hnil : ∀ {q : Rfsrv V}, q.Whole → (q.logs (0 : ℕ)).getD default = default := by
      intro q hq
      cases hlog : q.logs (0 : ℕ) with
      | none => rfl
      | some v => exact hq.zero v hlog
    rw [hnil h, hnil h']
  · obtain ⟨v, hv⟩ := h.full j (by omega) (by omega)
    obtain ⟨w, hw⟩ := h'.full j (by omega) (by omega)
    rw [hv, hw, hagree j v w hv hw]

/-- A server that starts from a snapshot. -/
def restored (rs : Rfsrv V) (index : ℤ) : Rfsrv V := ⟨index, logsOf (rs.xlog index)⟩

variable {rs : Rfsrv V} {index : ℤ}

theorem restored_logs {k : ℤ} {v : V} : (restored rs index).logs k = some v ↔
    0 ≤ k ∧ k ≤ index ∧ (rs.logs k).getD default = v := by
  show logsOf (rs.xlog index) k = some v ↔ _
  unfold logsOf Rfsrv.xlog
  by_cases hk : 0 ≤ k
  · have hcast : ((k.toNat : ℕ) : ℤ) = k := Int.toNat_of_nonneg hk
    rw [if_pos hk, List.getElem?_map]
    by_cases hlt : k.toNat < (index + 1).toNat
    · have hle : k ≤ index := by omega
      rw [List.getElem?_range hlt]
      simp [hcast, hk, hle]
    · have hle : ¬ k ≤ index := by omega
      have hlen : (List.range (index + 1).toNat)[k.toNat]? = none := by
        rw [List.getElem?_eq_none_iff, List.length_range]
        omega
      rw [hlen]
      simp [hle]
  · simp [hk]

theorem whole_restored (h : rs.Whole) (h0 : 0 ≤ index) : (restored rs index).Whole where
  nonneg := h0
  range := by
    intro k v hv
    obtain ⟨hk, hle, -⟩ := restored_logs.mp hv
    exact ⟨hk, hle⟩
  full := by
    intro k hk hle
    exact ⟨_, restored_logs.mpr ⟨by omega, hle, rfl⟩⟩
  zero := by
    intro v hv
    obtain ⟨-, -, rfl⟩ := restored_logs.mp hv
    cases hlog : rs.logs 0 with
    | none => rfl
    | some w => exact h.zero w hlog

/-- A restored log agrees with what the log it comes from agrees with. -/
theorem agree_restored {rs' : Rfsrv V} (h : rs.Whole) (h' : rs'.Whole) (hagree : Agree rs rs')
    (hle : index ≤ rs.lastApplied) : Agree (restored rs index) rs' := by
  intro k v w hv hw
  obtain ⟨hk, hindex, rfl⟩ := restored_logs.mp hv
  by_cases hzero : k = 0
  · subst hzero
    rw [h'.zero w hw]
    cases hlog : rs.logs 0 with
    | none => rfl
    | some u => exact h.zero u hlog
  · obtain ⟨u, hu⟩ := h.full k (by omega) (by omega)
    rw [hu]
    exact hagree k u w hu hw

end logs

variable [Inhabited V]

section appliers
variable [DecidableEq V]

/-- `applierSnap` with a command. The third component is its call of `Snapshot`. -/
def applyCommand (G : Gob V B) (ts : Test n V) (i : Fin n) (m : ApplyMsg V B) :
    Test n V × Option (ApplyErr n V) × Option (ℤ × B) :=
  let lastApplied := (ts.srvs i).lastApplied
  let (ts', err) :=
    if m.commandIndex ≠ lastApplied + 1 then
      (ts, some (.expected i (lastApplied + 1) m.commandIndex))
    else checkCommand ts i m
  let rs := { ts'.srvs i with lastApplied := m.commandIndex }
  (ts'.set i rs, err,
    if (m.commandIndex + 1) % snapShotInterval = 0 then
      some (m.commandIndex, G.encode m.commandIndex (rs.xlog m.commandIndex))
    else none)

/-- `applierSnap` with one message. -/
def applierSnap (G : Gob V B) (ts : Test n V) (i : Fin n) (m : ApplyMsg V B) :
    Test n V × Option (ApplyErr n V) × Option (ℤ × B) :=
  if m.snapshotValid = true then
    match ingestSnap G i m.snapshot m.snapshotIndex with
    | .error err => (ts, some err, none)
    | .ok rs => (ts.set i rs, none, none)
  else if m.commandValid = true then applyCommand G ts i m
  else (ts, none, none)

end appliers

/-- A step of the test with snapshots. A restart is one step, in which no message is read: in the
source the new reader runs before `mksrv` stores its server, and the old reader may go on with its
own `lastApplied` and `logs`. -/
def snapStep [DecidableEq V] (G : Gob V B) (p : SnapProcess n V B) (e : SnapEvent n V B) :
    Option (SnapProcess n V B) :=
  if p.exit.isSome then none
  else match e with
    | .apply i m =>
        let (ts, err, snap) := applierSnap G p.test i m
        some ⟨ts, err, p.taken ++ (snap.map fun (index, b) => ⟨i, index, b⟩).toList⟩
    | .restart i snapshot =>
        match newRfsrvSnap G i snapshot with
        | .error err => some { p with exit := some err }
        | .ok rs => some { p with test := p.test.set i rs }

def snapHarness [DecidableEq V] (G : Gob V B) (n : ℕ) :
    System (SnapProcess n V B) (SnapEvent n V B) where
  init := ⟨⟨fun _ => newRfsrv V, 0⟩, none, []⟩
  step := snapStep G

/-- The logs agree, and every snapshot that was taken is still one of the server that took it. -/
structure SnapInv (G : Gob V B) (ts : Test n V) (taken : List (Taken n B)) : Prop where
  whole : ∀ i, (ts.srvs i).Whole
  agree : ∀ i j, Agree (ts.srvs i) (ts.srvs j)
  taken : ∀ t ∈ taken, 0 ≤ t.index ∧ t.index ≤ (ts.srvs t.server).lastApplied ∧
    t.snapshot = G.encode t.index ((ts.srvs t.server).xlog t.index)

section steps
variable {G : Gob V B} {ts : Test n V} {taken : List (Taken n B)} {i : Fin n}

theorem snapInv_congr {ts' : Test n V} (hs : ts'.srvs = ts.srvs) (h : SnapInv G ts taken) :
    SnapInv G ts' taken where
  whole := by
    rw [hs]
    exact h.whole
  agree := by
    rw [hs]
    exact h.agree
  taken := by
    rw [hs]
    exact h.taken

/-- A server may be replaced by one that agrees with the others and still has the snapshots that
it has taken. -/
theorem snapInv_set (h : SnapInv G ts taken) {rs : Rfsrv V} (hwhole : rs.Whole)
    (hagree : ∀ j, j ≠ i → Agree rs (ts.srvs j))
    (hkeep : ∀ t ∈ taken, t.server = i →
      t.index ≤ rs.lastApplied ∧ rs.xlog t.index = (ts.srvs i).xlog t.index) :
    SnapInv G (ts.set i rs) taken where
  whole := by
    intro j
    show (Function.update ts.srvs i rs j).Whole
    by_cases hj : j = i
    · rwa [hj, Function.update_self]
    · rw [Function.update_of_ne hj]
      exact h.whole j
  agree := by
    intro j k
    show Agree (Function.update ts.srvs i rs j) (Function.update ts.srvs i rs k)
    by_cases hj : j = i
    · by_cases hk : k = i
      · rw [hj, hk]
        intro index v w hv hw
        exact Option.some.inj (hv.symm.trans hw)
      · rw [hj, Function.update_self, Function.update_of_ne hk]
        exact hagree k hk
    · by_cases hk : k = i
      · rw [hk, Function.update_self, Function.update_of_ne hj]
        intro index v w hv hw
        exact (hagree j hj index w v hw hv).symm
      · rw [Function.update_of_ne hj, Function.update_of_ne hk]
        exact h.agree j k
  taken := by
    intro t ht
    obtain ⟨h0, hle, hsnap⟩ := h.taken t ht
    show 0 ≤ t.index ∧ t.index ≤ (Function.update ts.srvs i rs t.server).lastApplied ∧
      t.snapshot = G.encode t.index ((Function.update ts.srvs i rs t.server).xlog t.index)
    by_cases hi : t.server = i
    · obtain ⟨hle', hxlog⟩ := hkeep t ht hi
      rw [hi, Function.update_self, hxlog]
      rw [hi] at hsnap
      exact ⟨h0, hle', hsnap⟩
    · rw [Function.update_of_ne hi]
      exact ⟨h0, hle, hsnap⟩

/-- Taking in a snapshot that was taken before, and that covers all that the server has taken. -/
theorem snapInv_restored (h : SnapInv G ts taken) {t : Taken n B} (ht : t ∈ taken)
    (hcover : ∀ u ∈ taken, u.server = i → u.index ≤ t.index) :
    SnapInv G (ts.set i (restored (ts.srvs t.server) t.index)) taken := by
  obtain ⟨h0, hle, -⟩ := h.taken t ht
  have hwhole := whole_restored (h.whole t.server) h0
  have hagree : ∀ j, Agree (restored (ts.srvs t.server) t.index) (ts.srvs j) := by
    intro j
    exact agree_restored (h.whole t.server) (h.whole j) (h.agree t.server j) hle
  apply snapInv_set h hwhole (fun j _ => hagree j)
  intro u hu hui
  obtain ⟨-, hle', -⟩ := h.taken u hu
  rw [hui] at hle'
  exact ⟨hcover u hu hui, xlog_eq hwhole (h.whole i) (hagree i) (hcover u hu hui) hle'⟩

/-- The snapshots that were taken are decoded to what their servers still have. -/
theorem ingestSnap_taken (h : SnapInv G ts taken) {t : Taken n B} (ht : t ∈ taken) {index : ℤ}
    {rs : Rfsrv V} (hok : ingestSnap G i (some t.snapshot) index = .ok rs) :
    rs = restored (ts.srvs t.server) t.index := by
  obtain ⟨-, -, hsnap⟩ := h.taken t ht
  rw [hsnap] at hok
  simp only [ingestSnap, G.roundTrip] at hok
  split at hok
  next => cases hok
  next => exact (Except.ok.inj hok).symm

theorem xlog_update {rs : Rfsrv V} {index k : ℤ} (hlt : index < k) (v : V) (last : ℤ) :
    Rfsrv.xlog ⟨last, Function.update rs.logs k (some v)⟩ index = rs.xlog index := by
  apply List.map_congr_left
  intro j hj
  rw [List.mem_range] at hj
  have hne : (j : ℤ) ≠ k := by omega
  show (Function.update rs.logs k (some v) j).getD default = _
  rw [Function.update_of_ne hne]

/-- The next command in order, which no other server contradicts. -/
theorem snapInv_command (h : SnapInv G ts taken) {v : V}
    (hnone : ∀ j old, (ts.srvs j).logs ((ts.srvs i).lastApplied + 1) = some old → old = v) :
    SnapInv G (ts.set i ⟨(ts.srvs i).lastApplied + 1,
      Function.update (ts.srvs i).logs ((ts.srvs i).lastApplied + 1) (some v)⟩) taken := by
  have hi := h.whole i
  have hcases : ∀ {k w}, Function.update (ts.srvs i).logs ((ts.srvs i).lastApplied + 1) (some v) k =
      some w → (k = (ts.srvs i).lastApplied + 1 ∧ w = v) ∨ (ts.srvs i).logs k = some w := by
    intro k w hw
    by_cases hk : k = (ts.srvs i).lastApplied + 1
    · rw [hk, Function.update_self] at hw
      exact .inl ⟨hk, (Option.some.inj hw).symm⟩
    · rw [Function.update_of_ne hk] at hw
      exact .inr hw
  apply snapInv_set h
  · have hnonneg := hi.nonneg
    refine ⟨by show 0 ≤ (ts.srvs i).lastApplied + 1; omega, ?_, ?_, ?_⟩
    · intro k w hw
      show 0 ≤ k ∧ k ≤ (ts.srvs i).lastApplied + 1
      rcases hcases hw with ⟨rfl, -⟩ | hold
      · omega
      · have hrange := hi.range k w hold
        omega
    · intro k hk hle
      show ∃ w, Function.update (ts.srvs i).logs ((ts.srvs i).lastApplied + 1) (some v) k = some w
      by_cases hlast : k = (ts.srvs i).lastApplied + 1
      · exact ⟨v, by rw [hlast, Function.update_self]⟩
      · rw [Function.update_of_ne hlast]
        have hle' : k ≤ (ts.srvs i).lastApplied + 1 := hle
        exact hi.full k hk (by omega)
    · intro w hw
      rcases hcases hw with ⟨hzero, -⟩ | hold
      · omega
      · exact hi.zero w hold
  · intro j _ k w u hw hu
    rcases hcases hw with ⟨rfl, rfl⟩ | hold
    · exact (hnone j u hu).symm
    · exact h.agree i j k w u hold hu
  · intro t ht hti
    obtain ⟨-, hle, -⟩ := h.taken t ht
    rw [hti] at hle
    refine ⟨by show t.index ≤ (ts.srvs i).lastApplied + 1; omega, ?_⟩
    exact xlog_update (by omega) v _

theorem snapInv_snapshot (h : SnapInv G ts taken) :
    SnapInv G ts (taken ++ [⟨i, (ts.srvs i).lastApplied,
      G.encode (ts.srvs i).lastApplied ((ts.srvs i).xlog (ts.srvs i).lastApplied)⟩]) where
  whole := h.whole
  agree := h.agree
  taken := by
    rw [List.forall_mem_append, List.forall_mem_singleton]
    exact ⟨h.taken, (h.whole i).nonneg, le_rfl, rfl⟩

end steps

section runs
variable [DecidableEq V] {G : Gob V B} {ts : Test n V} {taken : List (Taken n B)} {i : Fin n}
  {m : ApplyMsg V B} {p q : SnapProcess n V B} {e : SnapEvent n V B}

/-- What a command that raises no error leaves behind: it is the next one of its server, and no
other server contradicts it. -/
theorem applyCommand_ok (herr : (applyCommand G ts i m).2.1 = none) :
    m.commandIndex = (ts.srvs i).lastApplied + 1 ∧
    (∀ j old, (ts.srvs j).logs m.commandIndex = some old → old = m.command) ∧
    ∃ rs : Rfsrv V, rs = ⟨m.commandIndex,
        Function.update (ts.srvs i).logs m.commandIndex (some m.command)⟩ ∧
      (applyCommand G ts i m).1.srvs = (ts.set i rs).srvs ∧
      (applyCommand G ts i m).2.2 = if (m.commandIndex + 1) % snapShotInterval = 0 then
        some (m.commandIndex, G.encode m.commandIndex (rs.xlog m.commandIndex)) else none := by
  unfold applyCommand at herr ⊢
  by_cases hnext : m.commandIndex = (ts.srvs i).lastApplied + 1
  · simp only [ne_eq, hnext, not_true_eq_false, if_false] at herr ⊢
    rw [← hnext]
    have hsrv : (checkCommand ts i m).1.srvs = Function.update ts.srvs i { ts.srvs i with
        logs := Function.update (ts.srvs i).logs m.commandIndex (some m.command) } := rfl
    refine ⟨trivial, ?_, _, rfl, ?_, ?_⟩
    · rw [checkCommand_err] at herr
      split at herr
      next => cases herr
      next => exact disagreement_eq_none.mp herr
    · simp only [Test.set, hsrv, Function.update_self, Function.update_idem]
    · simp only [hsrv, Function.update_self]
  · simp [hnext] at herr

theorem snapInv_applyCommand (h : SnapInv G ts taken) (herr : (applyCommand G ts i m).2.1 = none) :
    SnapInv G (applyCommand G ts i m).1
      (taken ++ ((applyCommand G ts i m).2.2.map fun (index, b) => ⟨i, index, b⟩).toList) := by
  obtain ⟨hnext, hagree, rs, hrs, hsrvs, hsnap⟩ := applyCommand_ok herr
  have hinv : SnapInv G (ts.set i rs) taken := by
    rw [hrs]
    rw [hnext] at hagree ⊢
    exact snapInv_command h hagree
  have hself : (ts.set i rs).srvs i = rs := Function.update_self _ _ _
  apply snapInv_congr hsrvs
  rw [hsnap]
  split
  next =>
    have htake := snapInv_snapshot (i := i) hinv
    rw [hself] at htake
    have hlast : rs.lastApplied = m.commandIndex := by rw [hrs]
    rw [hlast] at htake
    exact htake
  next =>
    rw [Option.map_none, Option.toList_none, List.append_nil]
    exact hinv

/-- A message that raises no error, of a Raft that keeps to the contract. -/
theorem snapInv_apply (h : SnapInv G p.test p.taken) (hc : Contract p (.apply i m))
    (herr : (applierSnap G p.test i m).2.1 = none) :
    SnapInv G (applierSnap G p.test i m).1
      (p.taken ++ ((applierSnap G p.test i m).2.2.map fun (index, b) => ⟨i, index, b⟩).toList) := by
  unfold applierSnap at herr ⊢
  by_cases hsnap : m.snapshotValid = true
  · obtain ⟨t, ht, hmsg, hle⟩ := hc hsnap
    rw [if_pos hsnap, hmsg] at herr ⊢
    cases hok : ingestSnap G i (some t.snapshot) m.snapshotIndex with
    | error err =>
      rw [hok] at herr
      cases herr
    | ok rs =>
      obtain rfl := ingestSnap_taken h ht hok
      simp only [Option.map_none, Option.toList_none, List.append_nil]
      apply snapInv_restored h ht
      intro u hu hui
      obtain ⟨-, hu', -⟩ := h.taken u hu
      rw [hui] at hu'
      exact hu'.trans hle
  · rw [if_neg hsnap] at herr ⊢
    by_cases hvalid : m.commandValid = true
    · rw [if_pos hvalid] at herr ⊢
      exact snapInv_applyCommand h herr
    · rw [if_neg hvalid, Option.map_none, Option.toList_none, List.append_nil]
      exact h

theorem snapInv_step (h : SnapInv G p.test p.taken) (hc : Contract p e)
    (hs : snapStep G p e = some q) (hexit : q.exit = none) : SnapInv G q.test q.taken := by
  unfold snapStep at hs
  split at hs
  next => cases hs
  next =>
    cases e with
    | apply i m =>
      obtain rfl := Option.some.inj hs
      exact snapInv_apply h hc hexit
    | restart i snapshot =>
      cases snapshot with
      | none =>
        obtain rfl := Option.some.inj hs
        apply snapInv_set h whole_newRfsrv
        · intro j _ k v w hv
          cases hv
        · intro t ht hti
          exact absurd hti (hc t ht)
      | some b =>
        obtain ⟨t, ht, rfl, hcover⟩ := hc
        cases hok : ingestSnap G i (some t.snapshot) (-1) with
        | error err =>
          simp only [newRfsrvSnap, hok] at hs
          obtain rfl := Option.some.inj hs
          cases hexit
        | ok rs =>
          simp only [newRfsrvSnap, hok] at hs
          obtain rfl := Option.some.inj hs
          obtain rfl := ingestSnap_taken h ht hok
          exact snapInv_restored h ht hcover

theorem snapInv_of_run {es : List (SnapEvent n V B)} (h : (snapHarness G n).Run es p)
    (hc : (snapHarness G n).Along es fun _ s e => Contract s e) (hexit : p.exit = none) :
    SnapInv G p.test p.taken := by
  revert hexit
  apply h.invariant (I := fun _ p => p.exit = none → SnapInv G p.test p.taken) _ _ hc
  · intro _
    refine ⟨fun _ => whole_newRfsrv, ?_, ?_⟩
    · intro i j k v w hv
      cases hv
    · intro t ht
      cases ht
  · intro es p e q _ ih hc hs hexit
    refine snapInv_step (ih ?_) hc hs hexit
    cases hp : p.exit with
    | none => rfl
    | some err =>
      have hnone : snapStep G p e = none := by simp [snapStep, hp]
      rw [show snapStep G p e = some q from hs] at hnone
      cases hnone

end runs

/-- Snapshots that are their own encodings. -/
def plainGob : Gob String (ℤ × List String) where
  encode := fun index xlog => (index, xlog)
  decode := some
  roundTrip := fun _ _ => rfl

/-- Server `i` applies nine commands and takes a snapshot. Server `j` gets it and goes on; server
`i` is restarted from it and follows. -/
def snapshotRun (i j : Fin 2) : List (SnapEvent 2 String (ℤ × List String)) :=
  let snapshot := (9, "" :: List.replicate 9 "c")
  (List.range 9).map (fun k => .apply i ⟨true, "c", k + 1, false, none, 0⟩) ++
    [.apply j ⟨false, "", 0, true, some snapshot, 9⟩, .apply j ⟨true, "d", 10, false, none, 0⟩,
      .restart i (some snapshot), .apply i ⟨true, "d", 10, false, none, 0⟩]

end RaftTest
