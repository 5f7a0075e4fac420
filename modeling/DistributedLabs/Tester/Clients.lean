import DistributedLabs.Tester.Ends
import Mathlib.Data.List.AList

/-! A client of the tester: it makes an end to a server when it first calls it. Which servers it
may reach is kept in `srvs` for ends to come and in the network for the ends that exist. -/
namespace Tester
open Labrpc Runs

/-- A client with its ends; `srvs = none` is the `nil` that allows all servers. The names of its
ends are different, and the network has them. -/
structure Clnt (ε : Type*) where
  net : Net ε String
  ends : AList fun _ : String => ε
  srvs : Option (List String)
  nodup : (ends.entries.map Sigma.snd).Nodup
  made : ∀ x ∈ ends.entries, net.ends x.2 = true

/-- Whether a list of servers, or `nil`, allows a server. -/
def allows (srvs : Option (List String)) (server : String) : Bool :=
  match srvs with
  | none => true
  | some l => l.any fun n => n = server

variable {ε : Type*} [DecidableEq ε]

omit [DecidableEq ε] in
/-- A client without ends. -/
def makeClntTo (net : Net ε String) (srvs : Option (List String)) : Clnt ε where
  net := net
  ends := ∅
  srvs := srvs
  nodup := List.nodup_nil
  made := by simp

namespace Clnt
variable {clnt t : Clnt ε} {server : String} {e : ε} {net : Net ε String}

def allowedL (clnt : Clnt ε) (server : String) : Bool := allows clnt.srvs server

theorem ne_of_allocated (h : Allocated clnt.net [e] net) : ∀ x ∈ clnt.ends.entries, x.2 ≠ e :=
  fun x hx => (h.ne_of_mem (List.mem_singleton_self e) (clnt.made x hx)).symm

theorem nodup_of_allocated (hs : server ∉ clnt.ends) (h : Allocated clnt.net [e] net) :
    ((clnt.ends.insert server e).entries.map Sigma.snd).Nodup := by
  rw [AList.entries_insert_of_notMem hs, List.map_cons, List.nodup_cons]
  refine ⟨?_, clnt.nodup⟩
  rw [List.mem_map]
  rintro ⟨x, hx, heq⟩
  exact ne_of_allocated h x hx heq

theorem made_of_allocated (hs : server ∉ clnt.ends) (h : Allocated clnt.net [e] net) :
    ∀ x ∈ (clnt.ends.insert server e).entries, net.ends x.2 = true := by
  rw [AList.entries_insert_of_notMem hs, List.forall_mem_cons]
  refine ⟨(h.ends e).mpr (.inr (List.mem_singleton_self e)), ?_⟩
  intro x hx
  exact (h.ends x.2).mpr (.inl (clnt.made x hx))

/-- `makeEnd`; the new name is random. -/
def makeEnd (clnt : Clnt ε) (server : String) (name : ε) : Option (Clnt ε) :=
  if hs : server ∈ clnt.ends then some clnt
  else
    match h : Tester.makeEnd clnt.net name server with
    | none => none
    | some net => some {
        net := if clnt.allowedL server then enable net name true else enable net name false
        ends := clnt.ends.insert server name
        srvs := clnt.srvs
        nodup := nodup_of_allocated hs (allocated_makeEnd h)
        made := by
          have hmade := made_of_allocated hs (allocated_makeEnd h)
          split <;> exact hmade }

/-- The loops over `ends`: set the ends to the servers that pass a test. -/
def setEnds (clnt : Clnt ε) (test : String → Bool) (enabled : Bool) : Clnt ε :=
  { clnt with
    net := setAll clnt.net clnt.ends.entries Sigma.snd (fun x => test x.1) enabled
    made := by simpa only [setAll_ends] using clnt.made }

def connectAll (clnt : Clnt ε) : Clnt ε :=
  { clnt.setEnds (fun _ => true) true with srvs := none }

def connectTo (clnt : Clnt ε) (srvs : Option (List String)) : Clnt ε :=
  { clnt with srvs := srvs }.setEnds (allows srvs) true

def disconnect (clnt : Clnt ε) (srv : String) : Clnt ε := clnt.setEnds (fun s => s = srv) false

def disconnectAll (clnt : Clnt ε) : Clnt ε :=
  { clnt.setEnds (fun _ => true) false with srvs := some [] }

/-- A loop over `ends` sets the ends to the servers that pass the test and no others. -/
theorem setEnds_enabled (test : String → Bool) (b : Bool) {x : Sigma fun _ : String => ε}
    (hx : x ∈ clnt.ends.entries) : (clnt.setEnds test b).net.enabled x.2 =
      if test x.1 then b else clnt.net.enabled x.2 := by
  have hsame : (∃ y ∈ clnt.ends.entries, test y.1 = true ∧ y.2 = x.2) ↔ test x.1 = true := by
    constructor
    · rintro ⟨y, hy, hyt, heq⟩
      obtain rfl := List.inj_on_of_nodup_map clnt.nodup hy hx heq
      exact hyt
    · intro ht
      exact ⟨x, hx, ht, rfl⟩
  rw [Bool.eq_iff_iff, setEnds, setAll_enabled, hsame]
  by_cases ht : test x.1 = true <;> simp [ht]

/-- An end that exists is kept as it is; a new one gets the status that `srvs` says. -/
theorem makeEnd_cases (h : clnt.makeEnd server e = some t) : (server ∈ clnt.ends ∧ t = clnt) ∨
    (server ∉ clnt.ends ∧ t.srvs = clnt.srvs ∧ t.ends = clnt.ends.insert server e ∧
      t.net.enabled e = clnt.allowedL server ∧
      ∀ x ∈ clnt.ends.entries, t.net.enabled x.2 = clnt.net.enabled x.2) := by
  unfold makeEnd at h
  split at h
  next hs => exact .inl ⟨hs, (Option.some.inj h).symm⟩
  next hs =>
    split at h
    next => cases h
    next net hnet =>
      obtain rfl := Option.some.inj h
      have halloc := allocated_makeEnd hnet
      have hboth : ∀ b, (if b = true then enable net e true else enable net e false) =
          enable net e b := by
        intro b
        cases b <;> rfl
      refine .inr ⟨hs, rfl, rfl, ?_, ?_⟩
      · simp only [hboth, enable_enabled, Function.update_self]
      · intro x hx
        have hne := ne_of_allocated halloc x hx
        have hold := halloc.enabled x.2
        rw [if_neg (by simpa using hne)] at hold
        simp only [hboth, enable_enabled, Function.update_of_ne hne, hold]

end Clnt

/-- The calls on a client, with the name that is drawn when an end is made. -/
inductive ClntEvent (ε : Type*) where
  | call (server : String) (name : ε)
  | connectAll
  | connectTo (srvs : Option (List String))
  | disconnect (srv : String)
  | disconnectAll

/-- A client and the servers it is meant to reach, a record of the calls. -/
structure Meant (ε : Type*) where
  clnt : Clnt ε
  allowed : String → Bool

/-- One call on the client and what it means. -/
def Meant.step (s : Meant ε) : ClntEvent ε → Option (Meant ε)
  | .call server name => (s.clnt.makeEnd server name).map fun clnt => { s with clnt := clnt }
  | .connectAll => some ⟨s.clnt.connectAll, fun _ => true⟩
  | .connectTo srvs => some ⟨s.clnt.connectTo srvs, allows srvs⟩
  | .disconnect srv => some ⟨s.clnt.disconnect srv, fun x => x ≠ srv && s.allowed x⟩
  | .disconnectAll => some ⟨s.clnt.disconnectAll, fun _ => false⟩

def clntSystem (net : Net ε String) (srvs : Option (List String)) :
    System (Meant ε) (ClntEvent ε) where
  init := ⟨makeClntTo net srvs, allows srvs⟩
  step := Meant.step

namespace Meant
variable {s t : Meant ε} {ev : ClntEvent ε}

/-- The ends that exist, and those to come, have the status that is meant. -/
structure Agrees (s : Meant ε) : Prop where
  ends : ∀ x ∈ s.clnt.ends.entries, s.clnt.net.enabled x.2 = s.allowed x.1
  later : ∀ server, server ∉ s.clnt.ends → s.clnt.allowedL server = s.allowed server

/-- `ConnectTo` withdraws no end that is enabled, and `Disconnect` meets an end, unless the
server is not allowed anyway. -/
def effective (s : Meant ε) : ClntEvent ε → Bool
  | .connectTo srvs => s.clnt.ends.entries.all fun x => !s.allowed x.1 || allows srvs x.1
  | .disconnect srv => srv ∈ s.clnt.ends ∨ s.allowed srv = false
  | _ => true

theorem agrees_call {server : String} {name : ε} {clnt : Clnt ε} (hf : s.Agrees)
    (h : s.clnt.makeEnd server name = some clnt) : Agrees { s with clnt := clnt } := by
  rcases Clnt.makeEnd_cases h with ⟨-, rfl⟩ | ⟨hs, hsrvs, hends, hnew, hold⟩
  · exact hf
  constructor
  · show ∀ x ∈ clnt.ends.entries, clnt.net.enabled x.2 = s.allowed x.1
    rw [hends, AList.entries_insert_of_notMem hs, List.forall_mem_cons]
    refine ⟨hnew.trans (hf.later server hs), ?_⟩
    intro x hx
    rw [hold x hx, hf.ends x hx]
  · intro server' hs'
    rw [hends, AList.mem_insert, not_or] at hs'
    rw [Clnt.allowedL, hsrvs]
    exact hf.later server' hs'.2

theorem agrees_connectTo {srvs : Option (List String)} (hf : s.Agrees)
    (hc : s.effective (.connectTo srvs) = true) :
    Agrees ⟨s.clnt.connectTo srvs, allows srvs⟩ := by
  refine ⟨?_, fun _ _ => rfl⟩
  intro x hx
  have hset : (s.clnt.connectTo srvs).net.enabled x.2 =
      if allows srvs x.1 then true else s.clnt.net.enabled x.2 :=
    Clnt.setEnds_enabled (allows srvs) true hx
  rw [hset, hf.ends x hx]
  simp only [effective, List.all_eq_true, Bool.or_eq_true, Bool.not_eq_true'] at hc
  rcases hc x hx with hno | hyes
  · cases hallows : allows srvs x.1 <;> simp [hallows, hno]
  · simp [hyes]

theorem agrees_disconnect {srv : String} (hf : s.Agrees)
    (hc : s.effective (.disconnect srv) = true) :
    Agrees ⟨s.clnt.disconnect srv, fun x => x ≠ srv && s.allowed x⟩ := by
  constructor
  · intro x hx
    have hset : (s.clnt.disconnect srv).net.enabled x.2 =
        if decide (x.1 = srv) then false else s.clnt.net.enabled x.2 :=
      Clnt.setEnds_enabled (fun s => s = srv) false hx
    rw [hset, hf.ends x hx]
    by_cases hsrv : x.1 = srv <;> simp [hsrv]
  · intro server hserver
    have hold : s.clnt.allowedL server = s.allowed server := hf.later server hserver
    show s.clnt.allowedL server = (server ≠ srv && s.allowed server)
    rw [hold]
    by_cases hsrv : server = srv
    · subst hsrv
      have hno : s.allowed server = false := by
        rcases of_decide_eq_true hc with hmem | hno
        · exact absurd hmem hserver
        · exact hno
      simp [hno]
    · simp [hsrv]

theorem agrees_step (hf : s.Agrees) (hc : s.effective ev = true) (h : s.step ev = some t) :
    t.Agrees := by
  cases ev with
  | call server name =>
    obtain ⟨clnt, hclnt, rfl⟩ := Option.map_eq_some_iff.mp h
    exact agrees_call hf hclnt
  | connectAll =>
    obtain rfl := Option.some.inj h
    refine ⟨?_, fun _ _ => rfl⟩
    intro x hx
    exact Clnt.setEnds_enabled (fun _ => true) true hx
  | connectTo srvs =>
    obtain rfl := Option.some.inj h
    exact agrees_connectTo hf hc
  | disconnect srv =>
    obtain rfl := Option.some.inj h
    exact agrees_disconnect hf hc
  | disconnectAll =>
    obtain rfl := Option.some.inj h
    refine ⟨?_, fun _ _ => rfl⟩
    intro x hx
    exact Clnt.setEnds_enabled (fun _ => true) false hx

/-- As long as every `ConnectTo` and `Disconnect` is effective, the ends of a client have the
status that is meant, and so has every end that a later call makes. -/
theorem ends_agree (ε : Type*) [DecidableEq ε] (net : Net ε String)
    (srvs : Option (List String)) (es : List (ClntEvent ε)) (s : Meant ε)
    (h : (clntSystem net srvs).Run es s)
    (hc : (clntSystem net srvs).Along es fun _ s ev => s.effective ev = true) :
    (∀ x ∈ s.clnt.ends.entries, s.clnt.net.enabled x.2 = s.allowed x.1) ∧
    ∀ server, server ∉ s.clnt.ends → ∀ name t, s.step (.call server name) = some t →
      t.clnt.net.enabled name = s.allowed server := by
  have hagrees : s.Agrees := by
    refine h.invariant (I := fun _ s => s.Agrees) ?_ ?_ hc
    · exact ⟨by simp [clntSystem, makeClntTo], fun _ _ => rfl⟩
    · intro es s ev t _ hf hc hs
      exact agrees_step hf hc hs
  refine ⟨hagrees.ends, ?_⟩
  intro server hserver name t ht
  obtain ⟨clnt, hclnt, rfl⟩ := Option.map_eq_some_iff.mp ht
  rcases Clnt.makeEnd_cases hclnt with ⟨hmem, -⟩ | ⟨-, -, -, hnew, -⟩
  · exact absurd hmem hserver
  · exact hnew.trans (hagrees.later server hserver)

/-- Two servers are called; one is cut off and allowed again, and then a third one is called. -/
def reconnectEvents : List (ClntEvent ℕ) :=
  [.call "a" 0, .call "b" 1, .disconnect "a", .connectTo (some ["a", "b"]), .call "c" 2]

theorem reconnect_agrees : ∃ s, (clntSystem makeNetwork none).Run reconnectEvents s ∧
    s.allowed "a" = true ∧ s.allowed "c" = false ∧
    ∀ x ∈ s.clnt.ends.entries, s.clnt.net.enabled x.2 = s.allowed x.1 := by
  obtain ⟨s, hr, ha, hc⟩ := System.exists_run (clntSystem makeNetwork none) reconnectEvents
    (fun s => s.allowed "a" = true ∧ s.allowed "c" = false) (by decide +kernel)
  have heffective : (clntSystem makeNetwork none).Along reconnectEvents fun _ s ev =>
      s.effective ev = true :=
    System.along_of_allSteps effective (fun _ _ _ h => h) (by decide +kernel)
  exact ⟨s, hr, ha, hc, (ends_agree ℕ makeNetwork none reconnectEvents s hr heffective).1⟩

/-- `ConnectTo` leaves an end to a server that is not in its list enabled, and a `Disconnect`
before the first call to a server is forgotten. -/
theorem ends_disagree :
    (∃ s, (clntSystem makeNetwork none).Run [.call "a" 0, .connectTo (some ["b"])] s ∧
      s.clnt.ends.lookup "a" = some 0 ∧ s.allowed "a" = false ∧ s.clnt.net.enabled 0 = true) ∧
    ∃ s, (clntSystem makeNetwork none).Run [.disconnect "a", .call "a" 0] s ∧
      s.clnt.ends.lookup "a" = some 0 ∧ s.allowed "a" = false ∧ s.clnt.net.enabled 0 = true := by
  constructor
  · exact System.exists_run (clntSystem makeNetwork none) [.call "a" 0, .connectTo (some ["b"])]
      (fun s => s.clnt.ends.lookup "a" = some 0 ∧ s.allowed "a" = false ∧
        s.clnt.net.enabled 0 = true) (by decide +kernel)
  · exact System.exists_run (clntSystem makeNetwork none) [.disconnect "a", .call "a" 0]
      (fun s => s.clnt.ends.lookup "a" = some 0 ∧ s.allowed "a" = false ∧
        s.clnt.net.enabled 0 = true) (by decide +kernel)

end Meant
end Tester
