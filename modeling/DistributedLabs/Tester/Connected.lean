import DistributedLabs.Tester.Group
import Mathlib.Algebra.GroupWithZero.Nat

/-! Whether `connected` tells the truth about the ends of a group when servers are connected,
disconnected, shut down and started again. A server that is started has new ends, all disabled;
its flag is not touched. -/
namespace Tester
open Labrpc Runs
variable {n : ℕ} {ε : Type*} [DecidableEq ε]

namespace ServerGrp
variable {sg s t : ServerGrp n ε} {i : Fin n} {names : Fin n → ε} {net : Net ε String}

/-- A new name is not the name of an end of the group. -/
theorem ne_of_allocated (h : Allocated sg.net ((List.finRange n).map names) net)
    (a c j : Fin n) : names j ≠ (sg.srvs a).endNames c :=
  h.ne_of_mem (List.mem_map_of_mem (List.mem_finRange j)) (sg.made a c)

theorem distinct_of_allocated (h : Allocated sg.net ((List.finRange n).map names) net) :
    ∀ a c a' c', (Function.update sg.srvs i ⟨names, true⟩ a).endNames c =
      (Function.update sg.srvs i ⟨names, true⟩ a').endNames c' → a = a' ∧ c = c' := by
  intro a c a' c' heq
  rw [Function.update_apply, Function.update_apply] at heq
  by_cases ha : a = i
  · by_cases ha' : a' = i
    · rw [if_pos ha, if_pos ha'] at heq
      exact ⟨ha.trans ha'.symm, h.injective heq⟩
    · rw [if_pos ha, if_neg ha'] at heq
      exact absurd heq (ne_of_allocated h a' c' c)
  · by_cases ha' : a' = i
    · rw [if_neg ha, if_pos ha'] at heq
      exact absurd heq.symm (ne_of_allocated h a c c')
    · rw [if_neg ha, if_neg ha'] at heq
      exact sg.distinct a c a' c' heq

theorem made_of_allocated (h : Allocated sg.net ((List.finRange n).map names) net) :
    ∀ a c, net.ends ((Function.update sg.srvs i ⟨names, true⟩ a).endNames c) = true := by
  intro a c
  rw [h.ends, Function.update_apply]
  by_cases ha : a = i
  · rw [if_pos ha]
    exact .inr (List.mem_map_of_mem (List.mem_finRange c))
  · rw [if_neg ha]
    exact .inl (sg.made a c)

/-- `StartServer`: a new server object takes the place of the old one, and its services are
added to the network. -/
def startServer (sg : ServerGrp n ε) (i : Fin n) (names : Fin n → ε) (labsrv : Labrpc.Server) :
    Option (ServerGrp n ε) :=
  match h : makeServer sg.net sg.gid names with
  | none => none
  | some net => some { sg with
      net := (net.apply (.addServer (serverName sg.gid i) labsrv)).getD net
      srvs := Function.update sg.srvs i ⟨names, true⟩
      distinct := distinct_of_allocated (allocated_makeServer h)
      made := by
        have hmade := made_of_allocated (i := i) (allocated_makeServer h)
        exact hmade }

def start (sg : ServerGrp n ε) (names : Fin n → Fin n → ε) (labsrvs : Fin n → Labrpc.Server) :
    Option (ServerGrp n ε) :=
  sg.all.foldlM (fun sg i => sg.startServer i (names i) (labsrvs i)) sg

def startServers (sg : ServerGrp n ε) (names : Fin n → Fin n → ε)
    (labsrvs : Fin n → Labrpc.Server) : Option (ServerGrp n ε) :=
  (sg.start names labsrvs).map connectAll

omit [DecidableEq ε] in
theorem endNames_update (srvs : Fin n → Server n ε) (i a : Fin n) :
    (Function.update srvs i { srvs i with svcs := false } a).endNames = (srvs a).endNames := by
  rw [Function.update_apply]
  split_ifs with ha
  · rw [ha]
  · rfl

/-- The services of server `i` are stopped; its ends stay. -/
def stopServices (sg : ServerGrp n ε) (i : Fin n) : ServerGrp n ε :=
  { sg with
    srvs := Function.update sg.srvs i { sg.srvs i with svcs := false }
    distinct := by simpa only [endNames_update] using sg.distinct
    made := by simpa only [endNames_update] using sg.made }

def deleteServer (sg : ServerGrp n ε) (i : Fin n) : ServerGrp n ε :=
  { sg with
    net := (sg.net.apply (.deleteServer (serverName sg.gid i))).getD sg.net
    made := sg.made }

def shutdownServer (sg : ServerGrp n ε) (i : Fin n) : ServerGrp n ε :=
  ((sg.disconnect i sg.all).deleteServer i).stopServices i

end ServerGrp

/-- The calls on a group that are considered, with the names that are drawn in them. -/
inductive GroupEvent (n : ℕ) (ε : Type*) where
  | connectOne (i : Fin n)
  | connectAll
  | disconnectAll (i : Fin n)
  | shutdownServer (i : Fin n)
  | startServer (i : Fin n) (names : Fin n → ε) (labsrv : Labrpc.Server)
  | startServers (names : Fin n → Fin n → ε) (labsrvs : Fin n → Labrpc.Server)

/-- Only servers that have been shut down are started again. -/
def ServerGrp.step (sg : ServerGrp n ε) : GroupEvent n ε → Option (ServerGrp n ε)
  | .connectOne i => some (sg.connectOne i)
  | .connectAll => some sg.connectAll
  | .disconnectAll i => some (sg.disconnectAll i)
  | .shutdownServer i => some (sg.shutdownServer i)
  | .startServer i names labsrv =>
    if (sg.srvs i).svcs then none else sg.startServer i names labsrv
  | .startServers names labsrvs =>
    if ∃ i, (sg.srvs i).svcs then none else sg.startServers names labsrvs

def groupSystem (sg : ServerGrp n ε) : System (ServerGrp n ε) (GroupEvent n ε) where
  init := sg
  step := ServerGrp.step

namespace ServerGrp
variable {sg s t : ServerGrp n ε} {i : Fin n}

/-- An end is enabled exactly if the flags of both servers are set. -/
def Truthful (sg : ServerGrp n ε) : Prop :=
  ∀ a c, sg.link a c = true ↔ sg.connected a = true ∧ sg.connected c = true

theorem connectOne_link (i a c : Fin n) : (sg.connectOne i).link a c = true ↔ sg.link a c = true ∨
    (a = i ∧ (sg.connectOne i).connected c = true) ∨
      (c = i ∧ (sg.connectOne i).connected a = true) := by
  rw [connectOne, connect_link, connect_connected]
  simp [all, List.mem_finRange]

theorem connectOne_connected (i a : Fin n) :
    (sg.connectOne i).connected a = true ↔ a = i ∨ sg.connected a = true := by
  rw [connectOne, connect_connected, Function.update_apply]
  by_cases ha : a = i <;> simp [ha]

theorem disconnectAll_link (i a c : Fin n) :
    (sg.disconnectAll i).link a c = true ↔ sg.link a c = true ∧ a ≠ i ∧ c ≠ i := by
  rw [disconnectAll, disconnect_link]
  simp [all, List.mem_finRange]

theorem disconnectAll_connected (i a : Fin n) :
    (sg.disconnectAll i).connected a = true ↔ a ≠ i ∧ sg.connected a = true := by
  rw [disconnectAll, disconnect_connected, Function.update_apply]
  by_cases ha : a = i <;> simp [ha]

theorem truthful_connectOne (h : sg.Truthful) (i : Fin n) : (sg.connectOne i).Truthful := by
  intro a c
  rw [connectOne_link, h a c, connectOne_connected, connectOne_connected]
  tauto

theorem truthful_disconnectAll (h : sg.Truthful) (i : Fin n) : (sg.disconnectAll i).Truthful := by
  intro a c
  rw [disconnectAll_link, h a c, disconnectAll_connected, disconnectAll_connected]
  tauto

theorem shutdownServer_link (i a c : Fin n) :
    (sg.shutdownServer i).link a c = (sg.disconnectAll i).link a c := by
  show (((sg.disconnectAll i).deleteServer i).stopServices i).link a c = _
  unfold link stopServices
  rw [endNames_update]
  rfl

theorem truthful_shutdownServer (h : sg.Truthful) (i : Fin n) : (sg.shutdownServer i).Truthful := by
  intro a c
  rw [shutdownServer_link]
  exact truthful_disconnectAll h i a c

theorem connectAll_prefix (sg : ServerGrp n ε) (d : List (Fin n)) : ∀ a ∈ d,
    (d.foldl connectOne sg).connected a = true ∧
      ∀ c ∈ d, (d.foldl connectOne sg).link a c = true := by
  induction d using List.reverseRecOn with
  | nil => simp
  | append_singleton d i ih =>
    rw [List.foldl_append, List.foldl_cons, List.foldl_nil]
    have hflag : ∀ a ∈ d ++ [i], ((d.foldl connectOne sg).connectOne i).connected a = true := by
      intro a ha
      rw [List.mem_append, List.mem_singleton] at ha
      rw [connectOne_connected]
      exact ha.symm.imp_right fun ha => (ih a ha).1
    intro a ha
    refine ⟨hflag a ha, ?_⟩
    intro c hc
    rw [connectOne_link]
    rcases List.mem_append.mp ha with had | hai
    · rcases List.mem_append.mp hc with hcd | hci
      · exact .inl ((ih a had).2 c hcd)
      · exact .inr (.inr ⟨List.mem_singleton.mp hci, hflag a ha⟩)
    · exact .inr (.inl ⟨List.mem_singleton.mp hai, hflag c hc⟩)

/-- Whatever the flags and the ends were before, `ConnectAll` sets and enables all of them. -/
theorem truthful_connectAll (sg : ServerGrp n ε) : sg.connectAll.Truthful := by
  have hall := connectAll_prefix sg sg.all
  intro a c
  exact iff_of_true ((hall a (List.mem_finRange a)).2 c (List.mem_finRange c))
    ⟨(hall a (List.mem_finRange a)).1, (hall c (List.mem_finRange c)).1⟩

theorem startServer_spec {names : Fin n → ε} {labsrv : Labrpc.Server}
    (h : sg.startServer i names labsrv = some t) : t.connected = sg.connected ∧
      ∀ a c, t.link a c = if a = i then false else sg.link a c := by
  unfold startServer at h
  split at h
  · cases h
  next net hnet =>
    obtain rfl := Option.some.inj h
    refine ⟨rfl, ?_⟩
    intro a c
    have halloc := allocated_makeServer hnet
    show net.enabled ((Function.update sg.srvs i ⟨names, true⟩ a).endNames c) = _
    rw [halloc.enabled, Function.update_apply]
    by_cases ha : a = i
    · rw [if_pos ha, if_pos (List.mem_map_of_mem (List.mem_finRange c)), if_pos ha]
    · rw [if_neg ha, if_neg, if_neg ha]
      · rfl
      · rw [List.mem_map]
        rintro ⟨j, -, hj⟩
        exact ne_of_allocated halloc a c j hj

theorem truthful_startServer {names : Fin n → ε} {labsrv : Labrpc.Server} (hf : sg.Truthful)
    (hi : sg.connected i = false) (h : sg.startServer i names labsrv = some t) : t.Truthful := by
  obtain ⟨hconn, hlink⟩ := startServer_spec h
  intro a c
  rw [hlink, hconn]
  by_cases ha : a = i
  · simp [ha, hi]
  · rw [if_neg ha]
    exact hf a c

theorem truthful_startServers {names : Fin n → Fin n → ε} {labsrvs : Fin n → Labrpc.Server}
    (h : sg.startServers names labsrvs = some t) : t.Truthful := by
  obtain ⟨u, -, rfl⟩ := Option.map_eq_some_iff.mp h
  exact truthful_connectAll u

/-- The server that the event starts on its own has its flag cleared. -/
def startsDisconnected (sg : ServerGrp n ε) : GroupEvent n ε → Bool
  | .startServer i _ _ => !sg.connected i
  | _ => true

theorem truthful_step {e : GroupEvent n ε} (hf : sg.Truthful) (hc : sg.startsDisconnected e = true)
    (h : sg.step e = some t) : t.Truthful := by
  cases e with
  | connectOne i =>
    obtain rfl := Option.some.inj h
    exact truthful_connectOne hf i
  | connectAll =>
    obtain rfl := Option.some.inj h
    exact truthful_connectAll sg
  | disconnectAll i =>
    obtain rfl := Option.some.inj h
    exact truthful_disconnectAll hf i
  | shutdownServer i =>
    obtain rfl := Option.some.inj h
    exact truthful_shutdownServer hf i
  | startServer i names labsrv =>
    obtain ⟨-, h⟩ := Option.ite_none_left_eq_some.mp h
    exact truthful_startServer hf (by simpa [startsDisconnected] using hc) h
  | startServers names labsrvs =>
    obtain ⟨-, h⟩ := Option.ite_none_left_eq_some.mp h
    exact truthful_startServers h

/-- From `StartServers` on the flags tell the truth, as long as no server is started on its own
while its flag is set. -/
theorem link_iff_connected (n : ℕ) (ε : Type*) [DecidableEq ε] (sg sg' s : ServerGrp n ε)
    (names : Fin n → Fin n → ε) (labsrvs : Fin n → Labrpc.Server)
    (hstart : sg.startServers names labsrvs = some sg') (es : List (GroupEvent n ε))
    (h : (groupSystem sg').Run es s)
    (hc : (groupSystem sg').Along es fun _ s e => s.startsDisconnected e = true) (i j : Fin n) :
    s.link i j = true ↔ s.connected i = true ∧ s.connected j = true := by
  refine h.invariant (I := fun _ s => s.Truthful) ?_ ?_ hc i j
  · exact truthful_startServers hstart
  · intro es s e t _ hf hc hs
    exact truthful_step hf hc hs

/-- The two servers of the group have new ends with the names from `k` on. -/
def pairNames (k : ℕ) (i j : Fin 2) : ℕ := k + 2 * i.val + j.val

def noServices : Labrpc.Server := ⟨fun _ => none⟩

/-- A group of two servers after `StartServers`. -/
def startedPair : Option (ServerGrp 2 ℕ) :=
  (makeSrvGrp makeNetwork 0 (pairNames 0)).bind fun sg =>
    sg.startServers (pairNames 4) fun _ => noServices

/-- Find a state of a run from the started pair. -/
theorem exists_pair_run (es : List (GroupEvent 2 ℕ)) (P : ServerGrp 2 ℕ → Bool)
    (f : ServerGrp 2 ℕ → GroupEvent 2 ℕ → Bool)
    (h : (startedPair.any fun sg => (groupSystem sg).allSteps f sg es &&
      ((groupSystem sg).exec sg es).any P) = true) :
    ∃ sg sg' s, makeSrvGrp makeNetwork 0 (pairNames 0) = some sg ∧
      sg.startServers (pairNames 4) (fun _ => noServices) = some sg' ∧
      (groupSystem sg').Run es s ∧ P s = true ∧
      (groupSystem sg').Along es fun _ s e => f s e = true := by
  obtain ⟨sg', hsg', hrun⟩ := (Option.any_eq_true _ _).mp h
  obtain ⟨sg, hsg, hstart⟩ := Option.bind_eq_some_iff.mp hsg'
  rw [Bool.and_eq_true] at hrun
  obtain ⟨s, hs, hP⟩ := (Option.any_eq_true _ _).mp hrun.2
  exact ⟨sg, sg', s, hsg, hstart, System.run_of_exec hs, hP,
    System.along_of_allSteps f (fun _ _ _ h => h) hrun.1⟩

/-- Server `i` is shut down, started and connected again, and then server `j` is cut off. -/
def restartEvents (i j : Fin 2) : List (GroupEvent 2 ℕ) :=
  [.shutdownServer i, .startServer i (pairNames 8 i) noServices, .connectOne i, .disconnectAll j]

theorem restart_truthful : ∃ sg sg' s, makeSrvGrp makeNetwork 0 (pairNames 0) = some sg ∧
    sg.startServers (pairNames 4) (fun _ => noServices) = some sg' ∧
    (groupSystem sg').Run (restartEvents 0 1) s ∧ s.connected 0 = true ∧
    ∀ i j, s.link i j = true ↔ s.connected i = true ∧ s.connected j = true := by
  obtain ⟨sg, sg', s, hsg, hstart, hr, hP, hc⟩ := exists_pair_run (restartEvents 0 1)
    (fun s => s.connected 0) startsDisconnected (by decide +kernel)
  exact ⟨sg, sg', s, hsg, hstart, hr, hP,
    link_iff_connected 2 ℕ sg sg' s (pairNames 4) (fun _ => noServices) hstart
      (restartEvents 0 1) hr hc⟩

/-- Server 0 is connected while it is shut down. When it is started, its flag is still set but
its new end to server 1 is disabled. -/
theorem connected_before_restart : ∃ sg sg' s,
    makeSrvGrp makeNetwork 0 (pairNames 0) = some sg ∧
    sg.startServers (pairNames 4) (fun _ => noServices) = some sg' ∧
    (groupSystem sg').Run [.shutdownServer 0, .connectOne 0,
      .startServer 0 (pairNames 8 0) noServices] s ∧
    s.connected 0 = true ∧ s.connected 1 = true ∧ s.link 0 1 = false := by
  obtain ⟨sg, sg', s, hsg, hstart, hr, hP, -⟩ := exists_pair_run
    [.shutdownServer 0, .connectOne 0, .startServer 0 (pairNames 8 0) noServices]
    (fun s => s.connected 0 && s.connected 1 && !s.link 0 1) (fun _ _ => true) (by decide +kernel)
  simp only [Bool.and_eq_true, Bool.not_eq_true'] at hP
  exact ⟨sg, sg', s, hsg, hstart, hr, hP.1.1, hP.1.2, hP.2⟩

end ServerGrp
end Tester
