import DistributedLabs.Labrpc.Network

/-! The goroutines of one `Call`: the steps they can take, the one message they have to send
and the one run of the handler. -/
namespace Labrpc
open Runs
variable {ε ν α ρ : Type*}

/-- The steps of the goroutines of a call. -/
inductive Acts (n : Net ε ν) (c : Call ε ν α ρ) : Act ρ → Call ε ν α ρ → Prop
  | giveUp : c.caller = .sending → Acts n c .giveUp { c with caller := .gaveUp }
  | take : c.caller = .sending → Acts n c .take { c with caller := .waiting, proc := .started }
  | accept {i : Info ν} : c.proc = .started → n.readEndnameInfo c.req.endname = some i →
      Acts n c .read { c with proc := .accepted i }
  | reject : c.proc = .started → Acts n c .read { c with proc := .unreachable }
  | arm : c.proc = .unreachable →
      Acts n c .arm { c with proc := .returned, timer := .pending .failure }
  | drop {i : Info ν} : c.proc = .accepted i → Acts n c .drop (c.offer .failure)
  | spawn {i : Info ν} : c.proc = .accepted i →
      Acts n c .spawn { c with proc := .polling i, handler := .spawned i.server }
  | start {o : ℕ} : c.handler = .spawned o → Acts n c .start { c with handler := .running o }
  | crash {o : ℕ} : c.handler = .spawned o → Acts n c .start { c with handler := .crashed }
  | finish {o : ℕ} {r : ρ} : c.handler = .running o →
      Acts n c (.finish r) { c with handler := .finished o ⟨true, some r⟩ }
  | receive {i : Info ν} {o : ℕ} {m : ReplyMsg ρ} : c.proc = .polling i →
      c.handler = .finished o m →
      Acts n c .receive { c with proc := .checking i (some m), handler := .ended }
  | abandon {i : Info ν} : c.proc = .polling i →
      Acts n c .poll { c with proc := .checking i none, drain := true }
  | poll : Acts n c .poll c
  | drain {o : ℕ} {m : ReplyMsg ρ} : c.handler = .finished o m →
      Acts n c .drain { c with drain := false, handler := .ended }
  | refuse {i : Info ν} {reply : Option (ReplyMsg ρ)} {drop late : Bool} :
      c.proc = .checking i reply → Acts n c (.decide drop late) (c.offer .failure)
  | delay {i : Info ν} {m : ReplyMsg ρ} {drop late : Bool} : c.proc = .checking i (some m) →
      n.servers i.servername = some i.server →
      Acts n c (.decide drop late) { c with proc := .returned, timer := .pending m }
  | answer {i : Info ν} {m : ReplyMsg ρ} {drop late : Bool} : c.proc = .checking i (some m) →
      n.servers i.servername = some i.server → Acts n c (.decide drop late) (c.offer m)
  | fire {m : ReplyMsg ρ} : c.timer = .pending m →
      Acts n c .fire { c with timer := .sending m, sent := c.sent ++ [m] }
  | reply {m : ReplyMsg ρ} : c.proc = .sending m →
      Acts n c .reply { c with proc := .returned, caller := .returned m }
  | replyLate {m : ReplyMsg ρ} : c.timer = .sending m →
      Acts n c .replyLate { c with timer := .ended, caller := .returned m }

section
variable {n : Net ε ν} {c d : Call ε ν α ρ} {a : Act ρ}

theorem acts_conclude [DecidableEq ν] {i : Info ν} {reply : Option (ReplyMsg ρ)} (drop late : Bool)
    (hp : c.proc = .checking i reply) :
    Acts n c (.decide drop late) (c.conclude n i reply drop late) := by
  unfold Call.conclude
  cases reply with
  | none => exact .refuse hp
  | some m =>
    by_cases hdead : n.isServerDead c.req.endname i
    · simp only [hdead, if_true]
      exact .refuse hp
    · have halive : n.servers i.servername = some i.server := by
        simp only [Net.isServerDead, decide_eq_true_eq, not_or, not_not] at hdead
        exact hdead.2
      simp only [hdead, Bool.false_eq_true, if_false]
      split
      · exact .refuse hp
      · split
        · exact .delay hp halive
        · exact .answer hp halive

theorem acts_of [DecidableEq ν] (h : c.act n a = some d) : Acts n c a d := by
  cases a <;> simp only [Call.act] at h <;> repeat' split at h
  all_goals cases h
  · exact .giveUp ‹_›
  · exact .take ‹_›
  · exact .accept ‹_› ‹_›
  · exact .reject ‹_›
  · exact .arm ‹_›
  · exact .drop ‹_›
  · exact .spawn ‹_›
  · exact .start ‹_›
  · exact .crash ‹_›
  · exact .finish ‹_›
  · exact .receive ‹_› ‹_›
  · exact .abandon ‹_›
  · exact .poll
  · exact .drain ‹_›
  · exact acts_conclude _ _ ‹_›
  · exact .fire ‹_›
  · exact .reply ‹_›
  · exact .replyLate ‹_›

/-- `processReq` has not come to the call of the handler. -/
def Proc.Early : Proc ν ρ → Prop
  | .absent | .started | .unreachable | .accepted _ => True
  | _ => False

/-- The messages that `processReq` has yet to send or to leave to a timer. -/
def Proc.owed : Proc ν ρ → ℕ
  | .sending _ | .returned => 0
  | _ => 1

def Timer.owed : Timer ρ → ℕ
  | .pending _ => 1
  | _ => 0

/-- The messages of a call that are sent or owed. -/
def Call.messages (c : Call ε ν α ρ) : ℕ := c.sent.length + c.proc.owed + c.timer.owed

/-- There is one message for each call: sent, or owed by one goroutine. -/
structure Call.Shape (c : Call ε ν α ρ) : Prop where
  unsent : c.caller = .sending → c.proc = .absent
  early : c.proc.Early → c.handler = .absent
  message : c.messages = 1

theorem shape_make (req : ReqMsg ε α) : (Call.make req : Call ε ν α ρ).Shape :=
  ⟨fun _ => rfl, fun _ => rfl, rfl⟩

theorem messages_offer (hc : c.messages = 1) (hp : c.proc.owed = 1) (m : ReplyMsg ρ) :
    (c.offer m).messages = 1 := by
  unfold Call.messages at *
  simp only [Call.offer, List.length_append, List.length_singleton, Proc.owed]
  omega

theorem messages_pending (hc : c.messages = 1) (hp : c.proc.owed = 1) (m : ReplyMsg ρ) :
    ({ c with proc := .returned, timer := .pending m } : Call ε ν α ρ).messages = 1 := by
  unfold Call.messages at *
  simp only [Proc.owed, Timer.owed]
  omega

/-- A change of `processReq` that leaves it with the message to send. -/
theorem messages_proc (hc : c.messages = 1) (hd : d.sent = c.sent ∧ d.timer = c.timer)
    (hp : d.proc.owed = c.proc.owed) : d.messages = 1 := by
  unfold Call.messages at *
  rw [hd.1, hd.2, hp]
  exact hc

theorem messages_act (hc : c.messages = 1) (hs : c.caller = .sending → c.proc = .absent)
    (h : Acts n c a d) : d.messages = 1 := by
  cases h with
  | giveUp | start | crash | finish | poll | drain => exact hc
  | take hcaller => exact messages_proc hc ⟨rfl, rfl⟩ (by rw [hs hcaller]; rfl)
  | accept hp | reject hp | spawn hp | receive hp | abandon hp =>
    exact messages_proc hc ⟨rfl, rfl⟩ (by rw [hp]; rfl)
  | drop hp | refuse hp | answer hp => exact messages_offer hc (by rw [hp]; rfl) _
  | arm hp | delay hp => exact messages_pending hc (by rw [hp]; rfl) _
  | fire ht =>
    unfold Call.messages at *
    rw [ht] at hc
    simp only [List.length_append, List.length_singleton, Timer.owed] at *
    omega
  | reply hp =>
    exact messages_proc hc ⟨rfl, rfl⟩ (by rw [hp]; rfl)
  | replyLate ht =>
    unfold Call.messages at *
    rw [ht] at hc
    exact hc

theorem shape_act (hc : c.Shape) (h : Acts n c a d) : d.Shape := by
  obtain ⟨hunsent, hearly, hmsg⟩ := hc
  refine ⟨?_, ?_, messages_act hmsg hunsent h⟩
  · cases h <;> simp_all [Call.offer]
  · cases h <;> simp_all [Call.offer, Proc.Early]

/-- The calls of the handler that a handler in this state has had, and those that ended. -/
def Handler.starts : Handler ρ → ℕ
  | .absent | .spawned _ => 0
  | _ => 1

def Handler.finishes : Handler ρ → ℕ
  | .finished _ _ | .ended => 1
  | _ => 0

def Act.starts : Act ρ → ℕ
  | .start => 1
  | _ => 0

def Act.finishes : Act ρ → ℕ
  | .finish _ => 1
  | _ => 0

theorem starts_act (hc : c.Shape) (h : Acts n c a d) :
    d.handler.starts = c.handler.starts + a.starts := by
  cases h with
  | spawn hp =>
    have habs := hc.early (by rw [hp]; trivial)
    simp [habs, Handler.starts, Act.starts]
  | start hh | crash hh | finish hh | receive _ hh | drain hh =>
    simp [hh, Handler.starts, Act.starts]
  | _ => rfl

theorem finishes_act (hc : c.Shape) (h : Acts n c a d) :
    d.handler.finishes = c.handler.finishes + a.finishes := by
  cases h with
  | spawn hp =>
    have habs := hc.early (by rw [hp]; trivial)
    simp [habs, Handler.finishes, Act.finishes]
  | start hh | crash hh | finish hh | receive _ hh | drain hh =>
    simp [hh, Handler.finishes, Act.finishes]
  | _ => rfl

end

end Labrpc
