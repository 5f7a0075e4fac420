import DistributedLabs.Tester.Ends
import Mathlib.Data.List.FinRange
import Mathlib.Data.Int.Init
import Mathlib.Data.List.Pairwise

/-! A group of servers of the tester. Each server object has an end to every server of the group;
the group switches the ends on and off and keeps one flag for each server. -/
namespace Tester
open Labrpc

abbrev Tgid := ℤ

def serverName (gid : Tgid) (i : ℕ) : String := "server-" ++ toString gid ++ "-" ++ toString i

/-- The ends of a server object, and whether `svcs` is not `nil`: its services run. -/
structure Server (n : ℕ) (ε : Type*) where
  endNames : Fin n → ε
  svcs : Bool

/-- A group with the network it uses. No two of its ends have the same name, and the network has
all of them. -/
structure ServerGrp (n : ℕ) (ε : Type*) where
  net : Net ε String
  gid : Tgid
  srvs : Fin n → Server n ε
  connected : Fin n → Bool
  distinct : ∀ i j i' j', (srvs i).endNames j = (srvs i').endNames j' → i = i' ∧ j = j'
  made : ∀ i j, net.ends ((srvs i).endNames j) = true

variable {n : ℕ} {ε : Type*} [DecidableEq ε]

/-- The network after a new server object has made its ends, whose names are random. -/
def makeServer (net : Net ε String) (gid : Tgid) (names : Fin n → ε) : Option (Net ε String) :=
  (List.finRange n).foldlM (fun net j => makeEnd net (names j) (serverName gid j)) net

theorem allocated_makeServer {net net' : Net ε String} {gid : Tgid} {names : Fin n → ε}
    (h : makeServer net gid names = some net') :
    Allocated net ((List.finRange n).map names) net' := by
  have hstep : ∀ net j net', makeEnd net (names j) (serverName gid j) = some net' →
      Allocated net [names j] net' := fun _ _ _ hj => allocated_makeEnd hj
  rw [List.map_eq_flatMap]
  exact allocated_foldlM hstep h

theorem Allocated.injective {net net' : Net ε String} {names : Fin n → ε}
    (h : Allocated net ((List.finRange n).map names) net') : Function.Injective names :=
  fun i j hij => List.inj_on_of_nodup_map h.nodup (List.mem_finRange i) (List.mem_finRange j) hij

theorem allocated_makeServers {net net' : Net ε String} {gid : Tgid} {names : Fin n → Fin n → ε}
    (h : (List.finRange n).foldlM (fun net i => makeServer net gid (names i)) net = some net') :
    Allocated net ((List.finRange n).flatMap fun i => (List.finRange n).map (names i)) net' := by
  refine allocated_foldlM ?_ h
  intro net i net' hi
  exact allocated_makeServer hi

/-- Names that were allocated in one go are distinct. -/
theorem Allocated.distinct {net net' : Net ε String} {names : Fin n → Fin n → ε}
    (h : Allocated net ((List.finRange n).flatMap fun i => (List.finRange n).map (names i)) net') :
    ∀ i j i' j', names i j = names i' j' → i = i' ∧ j = j' := by
  intro i j i' j' heq
  obtain ⟨hrow, hpair⟩ := List.nodup_flatMap.mp h.nodup
  have hi : i = i' := by
    by_contra hne
    have : Std.Symm (Function.onFun List.Disjoint fun i => (List.finRange n).map (names i)) :=
      ⟨fun _ _ hd _ he he' => hd he' he⟩
    have hdisj := hpair.forall (List.mem_finRange i) (List.mem_finRange i') hne
    exact hdisj (List.mem_map_of_mem (List.mem_finRange j))
      (heq ▸ List.mem_map_of_mem (List.mem_finRange j'))
  subst hi
  exact ⟨rfl, List.inj_on_of_nodup_map (hrow i (List.mem_finRange i)) (List.mem_finRange j)
    (List.mem_finRange j') heq⟩

def makeSrvGrp (net : Net ε String) (gid : Tgid) (names : Fin n → Fin n → ε) :
    Option (ServerGrp n ε) :=
  match h : (List.finRange n).foldlM (fun net i => makeServer net gid (names i)) net with
  | none => none
  | some net' => some {
      net := net'
      gid := gid
      srvs := fun i => ⟨names i, false⟩
      connected := fun _ => false
      distinct := (allocated_makeServers h).distinct
      made := fun i j => ((allocated_makeServers h).ends _).mpr (.inr (by
        simp only [List.mem_flatMap, List.mem_map, List.mem_finRange, true_and]
        exact ⟨i, j, rfl⟩)) }

namespace ServerGrp
variable {sg : ServerGrp n ε}

def all (_ : ServerGrp n ε) : List (Fin n) := List.finRange n

def isConnected (sg : ServerGrp n ε) (i : Fin n) : Bool := sg.connected i

/-- Whether the current end from server `i` to server `j` is enabled. -/
def link (sg : ServerGrp n ε) (i j : Fin n) : Bool := sg.net.enabled ((sg.srvs i).endNames j)

/-- The loops of `connect` and `disconnect`: set one end for each server of the list that passes
a test. -/
def setEnds (sg : ServerGrp n ε) (peers : List (Fin n)) (which : Fin n → Fin n × Fin n)
    (test : Fin n → Bool) (enabled : Bool) : ServerGrp n ε :=
  { sg with
    net := setAll sg.net peers (fun j => (sg.srvs (which j).1).endNames (which j).2) test enabled
    made := by simpa only [setAll_ends] using sg.made }

/-- `Server.connect`. -/
def serverConnect (sg : ServerGrp n ε) (i : Fin n) (peers : List (Fin n)) : ServerGrp n ε :=
  sg.setEnds peers (fun j => (i, j)) sg.isConnected true

/-- `Server.disconnect`. -/
def serverDisconnect (sg : ServerGrp n ε) (i : Fin n) (peers : List (Fin n)) : ServerGrp n ε :=
  sg.setEnds peers (fun j => (i, j)) (fun _ => true) false

def connect (sg : ServerGrp n ε) (i : Fin n) (peers : List (Fin n)) : ServerGrp n ε :=
  let sg := { sg with connected := Function.update sg.connected i true }
  let sg := sg.serverConnect i peers
  sg.setEnds peers (fun j => (j, i)) sg.isConnected true

def disconnect (sg : ServerGrp n ε) (i : Fin n) (peers : List (Fin n)) : ServerGrp n ε :=
  let sg := { sg with connected := Function.update sg.connected i false }
  let sg := sg.serverDisconnect i peers
  sg.setEnds peers (fun j => (j, i)) (fun _ => true) false

def connectOne (sg : ServerGrp n ε) (i : Fin n) : ServerGrp n ε := sg.connect i sg.all

def connectAll (sg : ServerGrp n ε) : ServerGrp n ε := sg.all.foldl connectOne sg

def disconnectAll (sg : ServerGrp n ε) (i : Fin n) : ServerGrp n ε := sg.disconnect i sg.all

@[simp] theorem setEnds_connected (peers : List (Fin n)) (which : Fin n → Fin n × Fin n)
    (test : Fin n → Bool) (b : Bool) :
    (sg.setEnds peers which test b).connected = sg.connected := rfl

theorem setEnds_link (peers : List (Fin n)) (which : Fin n → Fin n × Fin n) (test : Fin n → Bool)
    (b : Bool) (a c : Fin n) : (sg.setEnds peers which test b).link a c = true ↔
      ((∃ j ∈ peers, test j = true ∧ which j = (a, c)) ∧ b = true) ∨
        ((¬ ∃ j ∈ peers, test j = true ∧ which j = (a, c)) ∧ sg.link a c = true) := by
  have hname : ∀ j, (sg.srvs (which j).1).endNames (which j).2 = (sg.srvs a).endNames c ↔
      which j = (a, c) := by
    intro j
    constructor
    · intro heq
      exact Prod.ext_iff.mpr (sg.distinct _ _ _ _ heq)
    · intro heq
      rw [heq]
  rw [link, setEnds, setAll_enabled]
  simp only [hname, link]

@[simp] theorem connect_connected (i : Fin n) (peers : List (Fin n)) :
    (sg.connect i peers).connected = Function.update sg.connected i true := by
  simp [connect, serverConnect]

@[simp] theorem disconnect_connected (i : Fin n) (peers : List (Fin n)) :
    (sg.disconnect i peers).connected = Function.update sg.connected i false := by
  simp [disconnect, serverDisconnect]

theorem exists_out (i : Fin n) (peers : List (Fin n)) (test : Fin n → Bool) (a c : Fin n) :
    (∃ j ∈ peers, test j = true ∧ (i, j) = (a, c)) ↔ a = i ∧ c ∈ peers ∧ test c = true := by
  constructor
  · rintro ⟨j, hj, ht, heq⟩
    obtain ⟨rfl, rfl⟩ := Prod.mk.inj heq
    exact ⟨rfl, hj, ht⟩
  · rintro ⟨rfl, hc, ht⟩
    exact ⟨c, hc, ht, rfl⟩

theorem exists_in (i : Fin n) (peers : List (Fin n)) (test : Fin n → Bool) (a c : Fin n) :
    (∃ j ∈ peers, test j = true ∧ (j, i) = (a, c)) ↔ c = i ∧ a ∈ peers ∧ test a = true := by
  constructor
  · rintro ⟨j, hj, ht, heq⟩
    obtain ⟨rfl, rfl⟩ := Prod.mk.inj heq
    exact ⟨rfl, hj, ht⟩
  · rintro ⟨rfl, ha, ht⟩
    exact ⟨a, ha, ht, rfl⟩

/-- `connect` enables the ends between `i` and the listed servers that are marked connected. -/
theorem connect_link (i : Fin n) (peers : List (Fin n)) (a c : Fin n) :
    (sg.connect i peers).link a c = true ↔ sg.link a c = true ∨
      (a = i ∧ c ∈ peers ∧ Function.update sg.connected i true c = true) ∨
      (c = i ∧ a ∈ peers ∧ Function.update sg.connected i true a = true) := by
  have hold : ServerGrp.link { sg with connected := Function.update sg.connected i true } a c =
      sg.link a c := rfl
  unfold connect serverConnect
  rw [setEnds_link, setEnds_link, exists_out, exists_in, hold]
  simp only [isConnected, setEnds_connected]
  tauto

/-- `disconnect` disables the ends between `i` and the listed servers. -/
theorem disconnect_link (i : Fin n) (peers : List (Fin n)) (a c : Fin n) :
    (sg.disconnect i peers).link a c = true ↔
      sg.link a c = true ∧ ¬ (a = i ∧ c ∈ peers) ∧ ¬ (c = i ∧ a ∈ peers) := by
  have hold : ServerGrp.link { sg with connected := Function.update sg.connected i false } a c =
      sg.link a c := rfl
  unfold disconnect serverDisconnect
  rw [setEnds_link, setEnds_link, exists_out, exists_in, hold]
  simp only [Bool.false_eq_true, and_false, and_true, false_or]
  tauto

end ServerGrp
end Tester
