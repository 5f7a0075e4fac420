import DistributedLabs.Labrpc.Calls

/-! What a `Call` may rely on: at most one run of its handler, at most one message, and
success only for a run that ended on a server that was still registered. -/
namespace Labrpc
open Runs
variable {ε ν α ρ : Type*}

/-- The steps of the network. -/
inductive Network.Step [DecidableEq ε] [DecidableEq ν] (s : Network ε ν α ρ) :
    Label ε ν α ρ → Network ε ν α ρ → Prop
  | net {ev : NetEvent ε ν} {n : Net ε ν} : s.net.apply ev = some n →
      Network.Step s (.net ev) { s with net := n }
  | call (req : ReqMsg ε α) :
      Network.Step s (.call req) { s with calls := s.calls ++ [Call.make req] }
  | act {i : ℕ} {a : Act ρ} {c d : Call ε ν α ρ} : s.calls[i]? = some c → Acts s.net c a d →
      Network.Step s (.act i a) { s with calls := s.calls.set i d }

/-- What stays true of the table of servers: no server comes back once its name has been
given to another or to none. -/
structure Later (n n' : Net ε ν) : Prop where
  objects : n.objects.length ≤ n'.objects.length
  gone : ∀ name o, o < n.objects.length → n.servers name ≠ some o → n'.servers name ≠ some o

theorem later_refl (n : Net ε ν) : Later n n := ⟨le_rfl, fun _ _ _ h => h⟩

variable [DecidableEq ε] [DecidableEq ν]

theorem Network.step_of {s t : Network ε ν α ρ} {l : Label ε ν α ρ} (h : s.step l = some t) :
    s.Step l t := by
  unfold Network.step at h
  split at h
  · cases h
  · cases l with
    | net ev =>
      obtain ⟨n, hn, rfl⟩ := Option.map_eq_some_iff.mp h
      exact .net hn
    | call req =>
      cases h
      exact .call req
    | act i a =>
      obtain ⟨c, hc, h⟩ := Option.bind_eq_some_iff.mp h
      obtain ⟨d, hd, rfl⟩ := Option.map_eq_some_iff.mp h
      exact .act hc (acts_of hd)

/-- What the users of the network can do to the table of servers: nothing, register a new server
under a name, or free the name. -/
theorem apply_servers {n n' : Net ε ν} {ev : NetEvent ε ν} (h : n.apply ev = some n') :
    (n'.servers = n.servers ∧ n'.objects = n.objects) ∨
    (∃ name rs, n'.servers = Function.update n.servers name (some n.objects.length) ∧
      n'.objects = n.objects ++ [rs]) ∨
    ∃ name, n'.servers = Function.update n.servers name none ∧ n'.objects = n.objects := by
  cases ev with
  | addServer name rs =>
    cases h
    exact Or.inr (Or.inl ⟨name, rs, rfl, rfl⟩)
  | deleteServer name =>
    cases h
    exact Or.inr (Or.inr ⟨name, rfl, rfl⟩)
  | makeEnd | deleteEnd | cleanup | quit =>
    simp only [Net.apply] at h
    split at h <;> cases h
    all_goals exact Or.inl ⟨rfl, rfl⟩
  | connect | enable | reliable | longReordering =>
    cases h
    exact Or.inl ⟨rfl, rfl⟩

theorem later_apply {n n' : Net ε ν} {ev : NetEvent ε ν} (h : n.apply ev = some n') :
    Later n n' := by
  rcases apply_servers h with ⟨hs, ho⟩ | ⟨name, rs, hs, ho⟩ | ⟨name, hs, ho⟩
  · exact ⟨by rw [ho], fun x o _ hne => by rwa [hs]⟩
  · refine ⟨by rw [ho, List.length_append]; omega, ?_⟩
    intro x o hlt hne
    rw [hs, Function.update_apply]
    split
    · intro heq
      have hnew : n.objects.length = o := Option.some.inj heq
      omega
    · exact hne
  · refine ⟨by rw [ho], ?_⟩
    intro x o hlt hne
    rw [hs, Function.update_apply]
    split
    · exact nofun
    · exact hne

/-- The request of the call `i` was read while the server `o` was registered under `name`, to
which its end was connected. -/
def ReadFrom (es : List (Label ε ν α ρ)) (i : ℕ) (name : ν) (o : ℕ) : Prop :=
  (network ε ν α ρ).Did es fun s l _ => l = .act i .read ∧
    ∃ c, s.calls[i]? = some c ∧ s.net.connections c.req.endname = some name ∧
      s.net.servers name = some o

/-- The handler of the call `i` was started on the server `o`. -/
def StartedOn (es : List (Label ε ν α ρ)) (i : ℕ) (o : ℕ) : Prop :=
  (network ε ν α ρ).Did es fun s l _ => l = .act i .start ∧
    ∃ c, s.calls[i]? = some c ∧ c.handler = .spawned o

/-- The handler of the call `i` ended with the result `r` on the server `o`, at a moment at
which `o` was registered under `name`. -/
def FinishedOn (es : List (Label ε ν α ρ)) (i : ℕ) (name : ν) (o : ℕ) (r : ρ) : Prop :=
  (network ε ν α ρ).Did es fun s l _ => l = .act i (.finish r) ∧
    (∃ c, s.calls[i]? = some c ∧ c.handler = .running o) ∧ s.net.servers name = some o

/-- The steps of the call `i` that start its handler. -/
def Label.starts (i : ℕ) : Label ε ν α ρ → Bool
  | .act j .start => j = i
  | _ => false

/-- The steps of the call `i` that end its handler. -/
def Label.finishes (i : ℕ) : Label ε ν α ρ → Bool
  | .act j (.finish _) => j = i
  | _ => false

section
variable {es : List (Label ε ν α ρ)} {l : Label ε ν α ρ} {n n' : Net ε ν} {i : ℕ}

theorem ReadFrom.snoc {name : ν} {o : ℕ} (h : ReadFrom es i name o) :
    ReadFrom (es ++ [l]) i name o := System.did_mono h (List.prefix_append _ _)

theorem StartedOn.snoc {o : ℕ} (h : StartedOn es i o) : StartedOn (es ++ [l]) i o :=
  System.did_mono h (List.prefix_append _ _)

theorem FinishedOn.snoc {name : ν} {o : ℕ} {r : ρ} (h : FinishedOn es i name o r) :
    FinishedOn (es ++ [l]) i name o r := System.did_mono h (List.prefix_append _ _)

/-- What is known of the server that `processReq` remembers. -/
structure Known (es : List (Label ε ν α ρ)) (n : Net ε ν) (i : ℕ) (info : Info ν) : Prop where
  read : ReadFrom es i info.servername info.server
  object : info.server < n.objects.length

/-- What is known of a result of the handler: the server was registered at its end, or has
been given up for good. -/
def Settled (es : List (Label ε ν α ρ)) (n : Net ε ν) (i : ℕ) (info : Info ν)
    (m : ReplyMsg ρ) : Prop :=
  ∃ r, m = ⟨true, some r⟩ ∧ StartedOn es i info.server ∧
    (FinishedOn es i info.servername info.server r ∨
      n.servers info.servername ≠ some info.server)

/-- What is known of the handler while `processReq` waits for it. -/
def HandlerPast (es : List (Label ε ν α ρ)) (n : Net ε ν) (i : ℕ) (info : Info ν) :
    Handler ρ → Prop
  | .spawned o => o = info.server
  | .running o => o = info.server ∧ StartedOn es i o
  | .finished _ m => Settled es n i info m
  | _ => True

structure ProcPast (es : List (Label ε ν α ρ)) (n : Net ε ν) (i : ℕ) (c : Call ε ν α ρ) :
    Prop where
  accepted : ∀ info, c.proc = .accepted info → Known es n i info
  polling : ∀ info, c.proc = .polling info →
    Known es n i info ∧ HandlerPast es n i info c.handler
  checking : ∀ info m, c.proc = .checking info (some m) →
    Known es n i info ∧ Settled es n i info m

/-- A message that reports success is the result of the one run of the handler, which ended
while its server was registered. -/
def Good (es : List (Label ε ν α ρ)) (i : ℕ) (m : ReplyMsg ρ) : Prop :=
  m.ok = true → ∃ name o r, m.reply = some r ∧ ReadFrom es i name o ∧ StartedOn es i o ∧
    FinishedOn es i name o r

/-- The messages that `processReq` has let through. -/
def Call.Holds (c : Call ε ν α ρ) (m : ReplyMsg ρ) : Prop :=
  c.proc = .sending m ∨ c.timer = .pending m ∨ c.timer = .sending m ∨ c.caller = .returned m

structure CallInv (es : List (Label ε ν α ρ)) (n : Net ε ν) (i : ℕ) (c : Call ε ν α ρ) :
    Prop where
  shape : c.Shape
  starts : es.countP (Label.starts i) = c.handler.starts
  finishes : es.countP (Label.finishes i) = c.handler.finishes
  past : ProcPast es n i c
  good : ∀ m, c.Holds m → Good es i m

theorem Known.later {info : Info ν} (h : Known es n i info) (hn : Later n n') :
    Known (es ++ [l]) n' i info :=
  ⟨h.read.snoc, h.object.trans_le hn.objects⟩

theorem Settled.later {info : Info ν} {m : ReplyMsg ρ} (h : Settled es n i info m)
    (ho : info.server < n.objects.length) (hn : Later n n') :
    Settled (es ++ [l]) n' i info m := by
  obtain ⟨r, hm, hstart, hend⟩ := h
  refine ⟨r, hm, hstart.snoc, ?_⟩
  rcases hend with hend | hend
  · exact Or.inl hend.snoc
  · exact Or.inr (hn.gone _ _ ho hend)

theorem HandlerPast.later {info : Info ν} {x : Handler ρ} (h : HandlerPast es n i info x)
    (ho : info.server < n.objects.length) (hn : Later n n') :
    HandlerPast (es ++ [l]) n' i info x := by
  cases x with
  | running o => exact ⟨h.1, h.2.snoc⟩
  | finished o m => exact Settled.later h ho hn
  | absent | spawned | ended | crashed => exact h

theorem ProcPast.later {c : Call ε ν α ρ} (h : ProcPast es n i c) (hn : Later n n') :
    ProcPast (es ++ [l]) n' i c where
  accepted := fun info hp => (h.accepted info hp).later hn
  polling := by
    intro info hp
    obtain ⟨hknown, hhandler⟩ := h.polling info hp
    exact ⟨hknown.later hn, hhandler.later hknown.object hn⟩
  checking := by
    intro info m hp
    obtain ⟨hknown, hsettled⟩ := h.checking info m hp
    exact ⟨hknown.later hn, hsettled.later hknown.object hn⟩

/-- A step of the handler matters only while `processReq` waits for it. -/
theorem ProcPast.handler {c : Call ε ν α ρ} (h : ProcPast es n i c) {x : Handler ρ}
    (hx : ∀ info, c.proc = .polling info → HandlerPast es n i info c.handler →
      HandlerPast es n i info x) (b : Bool) :
    ProcPast es n i { c with handler := x, drain := b } where
  accepted := h.accepted
  polling := fun info hp => ⟨(h.polling info hp).1, hx info hp (h.polling info hp).2⟩
  checking := h.checking

theorem Good.snoc {m : ReplyMsg ρ} (h : Good es i m) : Good (es ++ [l]) i m := by
  intro hok
  obtain ⟨name, o, r, hr, hread, hstart, hend⟩ := h hok
  exact ⟨name, o, r, hr, hread.snoc, hstart.snoc, hend.snoc⟩

/-- The call keeps what is known of it when another goroutine takes a step. -/
theorem CallInv.later {c : Call ε ν α ρ} (h : CallInv es n i c) (hn : Later n n')
    (hs : l.starts i = false) (hf : l.finishes i = false) : CallInv (es ++ [l]) n' i c where
  shape := h.shape
  starts := by simp [h.starts, hs]
  finishes := by simp [h.finishes, hf]
  past := h.past.later hn
  good := fun m hm => (h.good m hm).snoc

omit [DecidableEq ε] [DecidableEq ν] in
theorem countP_starts_act (es : List (Label ε ν α ρ)) (i : ℕ) (a : Act ρ) :
    (es ++ [Label.act i a]).countP (Label.starts i) = es.countP (Label.starts i) + a.starts := by
  cases a <;> simp [Label.starts, Act.starts]

omit [DecidableEq ε] [DecidableEq ν] in
theorem countP_finishes_act (es : List (Label ε ν α ρ)) (i : ℕ) (a : Act ρ) :
    (es ++ [Label.act i a]).countP (Label.finishes i) =
      es.countP (Label.finishes i) + a.finishes := by
  cases a <;> simp [Label.finishes, Act.finishes]

omit [DecidableEq ε] [DecidableEq ν] in
/-- A message that a step lets through is a failure, or the result of a handler whose server
has just been found alive. -/
theorem holds_act {c d : Call ε ν α ρ} {a : Act ρ} {m : ReplyMsg ρ} (h : Acts n c a d)
    (hm : d.Holds m) :
    c.Holds m ∨ m = .failure ∨
      ∃ info, c.proc = .checking info (some m) ∧ n.servers info.servername = some info.server := by
  unfold Call.Holds at *
  cases h <;> grind [Call.offer]

/-- The servers that the table names have been made. -/
def NetOk (n : Net ε ν) : Prop := ∀ name o, n.servers name = some o → o < n.objects.length

omit [DecidableEq ε] [DecidableEq ν] in
theorem readEndnameInfo_eq_some {e : ε} {info : Info ν} (h : n.readEndnameInfo e = some info) :
    n.connections e = some info.servername ∧ n.servers info.servername = some info.server := by
  unfold Net.readEndnameInfo at h
  split at h
  · next name _ hname =>
    obtain ⟨o, ho, rfl⟩ := Option.map_eq_some_iff.mp h
    exact ⟨hname, ho⟩
  · cases h

variable {s t : Network ε ν α ρ} {c d : Call ε ν α ρ} {a : Act ρ}

theorem procPast_act (hr : (network ε ν α ρ).Run es s)
    (hs : (network ε ν α ρ).step s (.act i a) = some t) (hn : NetOk s.net)
    (hc : s.calls[i]? = some c) (hpast : ProcPast es s.net i c) (h : Acts s.net c a d) :
    ProcPast (es ++ [.act i a]) s.net i d := by
  have hlater : ProcPast (es ++ [.act i a]) s.net i c := hpast.later (later_refl _)
  cases h with
  | accept hp hinfo =>
    obtain ⟨hconn, hserver⟩ := readEndnameInfo_eq_some hinfo
    refine ⟨?_, nofun, nofun⟩
    intro info hinfo
    cases hinfo
    refine ⟨?_, hn _ _ hserver⟩
    exact (System.did_snoc hr hs).mpr (Or.inr ⟨rfl, c, hc, hconn, hserver⟩)
  | spawn hp =>
    refine ⟨nofun, ?_, nofun⟩
    intro info hinfo
    cases hinfo
    exact ⟨hlater.accepted _ hp, rfl⟩
  | start hh =>
    refine hlater.handler ?_ c.drain
    intro info hp ho
    rw [hh] at ho
    exact ⟨ho, (System.did_snoc hr hs).mpr (Or.inr ⟨rfl, c, hc, hh⟩)⟩
  | finish hh =>
    refine hlater.handler ?_ c.drain
    intro info hp ho
    rw [hh] at ho
    obtain ⟨rfl, hstart⟩ := ho
    refine ⟨_, rfl, hstart, ?_⟩
    by_cases halive : s.net.servers info.servername = some info.server
    · exact Or.inl ((System.did_snoc hr hs).mpr (Or.inr ⟨rfl, ⟨c, hc, hh⟩, halive⟩))
    · exact Or.inr halive
  | crash =>
    refine hlater.handler ?_ c.drain
    intro info _ _
    trivial
  | drain =>
    refine hlater.handler ?_ false
    intro info _ _
    trivial
  | receive hp hh =>
    refine ⟨nofun, nofun, ?_⟩
    intro info m hinfo
    cases hinfo
    obtain ⟨hknown, hhandler⟩ := hlater.polling _ hp
    rw [hh] at hhandler
    exact ⟨hknown, hhandler⟩
  | giveUp | poll | fire | replyLate => exact ⟨hlater.accepted, hlater.polling, hlater.checking⟩
  | take | reject | arm | drop | abandon | refuse | delay | answer | reply =>
    exact ⟨nofun, nofun, nofun⟩

theorem good_act (hpast : ProcPast es s.net i c) (hgood : ∀ m, c.Holds m → Good es i m)
    (h : Acts s.net c a d) {m : ReplyMsg ρ} (hm : d.Holds m) : Good es i m := by
  rcases holds_act h hm with hm | rfl | ⟨info, hp, halive⟩
  · exact hgood m hm
  · intro hok
    cases hok
  · obtain ⟨hknown, r, rfl, hstart, hend⟩ := hpast.checking info m hp
    intro _
    exact ⟨info.servername, info.server, r, rfl, hknown.read, hstart, hend.resolve_right
      (not_not.mpr halive)⟩

theorem callInv_act (hr : (network ε ν α ρ).Run es s)
    (hs : (network ε ν α ρ).step s (.act i a) = some t) (hn : NetOk s.net)
    (hc : s.calls[i]? = some c) (hinv : CallInv es s.net i c) (h : Acts s.net c a d) :
    CallInv (es ++ [.act i a]) s.net i d where
  shape := shape_act hinv.shape h
  starts := by rw [countP_starts_act, hinv.starts, starts_act hinv.shape h]
  finishes := by rw [countP_finishes_act, hinv.finishes, finishes_act hinv.shape h]
  past := procPast_act hr hs hn hc hinv.past h
  good := fun m hm => (good_act hinv.past hinv.good h hm).snoc

theorem netOk_apply {ev : NetEvent ε ν} (hn : NetOk n) (h : n.apply ev = some n') : NetOk n' := by
  intro x o hx
  rcases apply_servers h with ⟨hs, ho⟩ | ⟨name, rs, hs, ho⟩ | ⟨name, hs, ho⟩
  · rw [hs] at hx
    rw [ho]
    exact hn x o hx
  · rw [hs, Function.update_apply] at hx
    rw [ho, List.length_append, List.length_singleton]
    split at hx
    · cases hx
      omega
    · have hlt := hn x o hx
      omega
  · rw [hs, Function.update_apply] at hx
    rw [ho]
    split at hx
    · cases hx
    · exact hn x o hx

/-- The invariant of the network. No step names a call that has not been made. -/
structure NetworkInv (es : List (Label ε ν α ρ)) (s : Network ε ν α ρ) : Prop where
  net : NetOk s.net
  calls : ∀ i c, s.calls[i]? = some c → CallInv es s.net i c
  fresh : ∀ i, s.calls.length ≤ i →
    es.countP (Label.starts i) = 0 ∧ es.countP (Label.finishes i) = 0

theorem networkInv_init : NetworkInv [] (network ε ν α ρ).init where
  net := by
    intro name o h
    cases h
  calls := by
    intro i c h
    cases h
  fresh := fun i _ => ⟨rfl, rfl⟩

theorem callInv_make (h : es.countP (Label.starts i) = 0 ∧ es.countP (Label.finishes i) = 0)
    (req : ReqMsg ε α) : CallInv es n i (Call.make req) where
  shape := shape_make req
  starts := h.1
  finishes := h.2
  past := ⟨nofun, nofun, nofun⟩
  good := by
    intro m hm
    simp [Call.Holds, Call.make] at hm

theorem networkInv_step (hr : (network ε ν α ρ).Run es s) (hinv : NetworkInv es s)
    (hs : (network ε ν α ρ).step s l = some t) : NetworkInv (es ++ [l]) t := by
  have hstep : s.Step l t := Network.step_of hs
  cases hstep with
  | net hn =>
    refine ⟨netOk_apply hinv.net hn, ?_, ?_⟩
    · intro i c hc
      exact (hinv.calls i c hc).later (later_apply hn) rfl rfl
    · intro i hi
      simpa [Label.starts, Label.finishes] using hinv.fresh i hi
  | call req =>
    refine ⟨hinv.net, ?_, ?_⟩
    · intro i c hc
      rw [List.getElem?_append] at hc
      split at hc
      · exact (hinv.calls i c hc).later (later_refl _) rfl rfl
      · next hi =>
        have hmade : c = Call.make req := by
          have hmem := List.mem_of_getElem? hc
          simpa using hmem
        rw [hmade]
        refine callInv_make ?_ req
        simpa [Label.starts, Label.finishes] using hinv.fresh i (by omega)
    · intro i hi
      rw [List.length_append] at hi
      simpa [Label.starts, Label.finishes] using hinv.fresh i (by omega)
  | @act j a c d hc hacts =>
    have hj : j < s.calls.length := (List.getElem?_eq_some_iff.mp hc).1
    have hother : ∀ i, i ≠ j → (Label.act j a : Label ε ν α ρ).starts i = false ∧
        (Label.act j a : Label ε ν α ρ).finishes i = false := by
      intro i hij
      cases a <;> simp [Label.starts, Label.finishes, Ne.symm hij]
    refine ⟨hinv.net, ?_, ?_⟩
    · intro i e he
      by_cases hij : i = j
      · subst hij
        have hed : e = d := by
          rw [List.getElem?_set_self hj] at he
          exact (Option.some.inj he).symm
        rw [hed]
        show CallInv _ s.net _ _
        exact callInv_act hr hs hinv.net hc (hinv.calls i c hc) hacts
      · rw [List.getElem?_set_ne (Ne.symm hij)] at he
        exact (hinv.calls i e he).later (later_refl _) (hother i hij).1 (hother i hij).2
    · intro i hi
      rw [List.length_set] at hi
      have hij : i ≠ j := by omega
      simpa [hother i hij] using hinv.fresh i hi

theorem networkInv (h : (network ε ν α ρ).Run es s) : NetworkInv es s :=
  h.invariant' (I := NetworkInv) networkInv_init
    fun _ _ _ _ hr hinv hs => networkInv_step hr hinv hs

theorem StartedOn.countP_pos {o : ℕ} (h : StartedOn es i o) : 0 < es.countP (Label.starts i) := by
  refine System.countP_pos_of_did ?_ h
  rintro s l t ⟨rfl, -⟩
  exact decide_eq_true rfl

theorem FinishedOn.countP_pos {name : ν} {o : ℕ} {r : ρ} (h : FinishedOn es i name o r) :
    0 < es.countP (Label.finishes i) := by
  refine System.countP_pos_of_did ?_ h
  rintro s l t ⟨rfl, -⟩
  exact decide_eq_true rfl

end

/-- Of every call, the handler is started at most once and at most one message is sent. If
the call returns true, the handler was started exactly once, on the server that was registered
when the request was read, and ended exactly once, with the reply of the call, while that
server was still registered. -/
theorem call_semantics {es : List (Label ε ν α ρ)} {s : Network ε ν α ρ}
    (h : (network ε ν α ρ).Run es s) {i : ℕ} {c : Call ε ν α ρ} (hc : s.calls[i]? = some c) :
    es.countP (Label.starts i) ≤ 1 ∧ c.sent.length ≤ 1 ∧
    ∀ reply, c.caller = .returned ⟨true, reply⟩ →
      ∃ name o r, reply = some r ∧ ReadFrom es i name o ∧
        es.countP (Label.starts i) = 1 ∧ StartedOn es i o ∧
        es.countP (Label.finishes i) = 1 ∧ FinishedOn es i name o r := by
  have hinv := (networkInv h).calls i c hc
  have hstarts : es.countP (Label.starts i) ≤ 1 := by
    rw [hinv.starts]
    cases c.handler <;> simp [Handler.starts]
  have hfinishes : es.countP (Label.finishes i) ≤ 1 := by
    rw [hinv.finishes]
    cases c.handler <;> simp [Handler.finishes]
  refine ⟨hstarts, ?_, ?_⟩
  · have hmessages := hinv.shape.message
    unfold Call.messages at hmessages
    omega
  · intro reply hreply
    have hholds : c.Holds ⟨true, reply⟩ := Or.inr (Or.inr (Or.inr hreply))
    obtain ⟨name, o, r, hr, hread, hstart, hend⟩ := hinv.good _ hholds rfl
    have hs := hstart.countP_pos
    have hf := hend.countP_pos
    exact ⟨name, o, r, hr, hread, by omega, hstart, by omega, hend⟩

/-- A server with one service of one method. -/
def junkServer : Server where
  services name := if name = "JunkServer" then some ["Handler1"] else none

/-- A call that succeeds although its server is deleted: the deletion comes after the check
that follows the handler. -/
def lateDelete : List (Label String String ℕ ℕ) :=
  [.net (.makeEnd "end1"), .net (.addServer "server99" junkServer),
    .net (.connect "end1" "server99"), .net (.enable "end1" true),
    .call ⟨"end1", "JunkServer.Handler1", 99⟩, .act 0 .take, .act 0 .read, .act 0 .spawn,
    .act 0 .start, .act 0 (.finish 7), .act 0 .receive, .act 0 (.decide false false),
    .net (.deleteServer "server99"), .act 0 .reply]

theorem lateDelete_semantics :
    ∃ name o, ReadFrom lateDelete 0 name o ∧ StartedOn lateDelete 0 o ∧
      FinishedOn lateDelete 0 name o 7 := by
  obtain ⟨s, hrun, hret⟩ := System.exists_run (network String String ℕ ℕ) lateDelete
    (fun s => (s.calls[0]?).any fun c => c.caller = .returned ⟨true, some 7⟩) (by decide +kernel)
  obtain ⟨c, hc, hcaller⟩ := (Option.any_eq_true _ _).mp hret
  obtain ⟨-, -, hsuccess⟩ := call_semantics hrun hc
  obtain ⟨name, o, r, hr, hread, -, hstart, -, hend⟩ := hsuccess _ (of_decide_eq_true hcaller)
  cases hr
  exact ⟨name, o, hread, hstart, hend⟩

end Labrpc
