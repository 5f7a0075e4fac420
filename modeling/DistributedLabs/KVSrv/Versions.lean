import DistributedLabs.KVSrv.Server
import DistributedLabs.Runs.Records
import Mathlib.Data.List.Basic
import Mathlib.Tactic.Common

/-! The log of handler runs. As long as a key has fewer than 2^64 successful `Put`s, its
version on the server is their number, and a version is used by one successful `Put` only. -/
namespace KVSrv
open Runs

/-- One run of a handler: for which attempt of which operation, when, and the outcome. -/
structure Exec where
  attempt : ℕ
  op : ℕ
  time : ℕ
  req : Request
  reply : Reply
  deriving DecidableEq, Repr

/-- The run was a successful `Put` to the key `x`. -/
def Exec.appliedTo (x : String) (r : Exec) : Bool :=
  match r.req, r.reply with
  | .put args, .put ⟨.ok⟩ => args.key = x
  | _, _ => false

theorem Exec.appliedTo_iff (x : String) (r : Exec) :
    r.appliedTo x = true ↔
      ∃ args, r.req = .put args ∧ args.key = x ∧ r.reply = .put ⟨.ok⟩ := by
  obtain ⟨k, i, t, req, reply⟩ := r
  cases req with
  | get args => simp [appliedTo]
  | put args =>
    cases reply with
    | get g => simp [appliedTo]
    | put p =>
      obtain ⟨err⟩ := p
      cases err <;> simp [appliedTo]

/-- The run was a successful `Put`. -/
def Exec.Applied (r : Exec) : Prop := ∃ x, r.appliedTo x = true

/-- The number of successful `Put`s to the key `x`. -/
def version (log : List Exec) (x : String) : ℕ := log.countP (Exec.appliedTo x)

@[simp] theorem version_nil (x : String) : version [] x = 0 := rfl

theorem version_snoc (log : List Exec) (r : Exec) (x : String) :
    version (log ++ [r]) x = version log x + if r.appliedTo x then 1 else 0 := by
  simp [version, List.countP_append, List.countP_singleton]

theorem version_snoc_of_applied {log : List Exec} {r : Exec} {x : String}
    (h : r.appliedTo x = true) : version (log ++ [r]) x = version log x + 1 := by
  rw [version_snoc, if_pos h]

theorem version_snoc_of_not_applied {log : List Exec} {r : Exec} {x : String}
    (h : ¬ r.appliedTo x = true) : version (log ++ [r]) x = version log x := by
  rw [version_snoc, if_neg h, Nat.add_zero]

theorem version_eq_zero {log : List Exec} {x : String} :
    version log x = 0 ↔ ∀ r ∈ log, ¬ r.appliedTo x = true := List.countP_eq_zero

theorem version_le_append (log more : List Exec) (x : String) :
    version log x ≤ version (log ++ more) x := by
  simp [version, List.countP_append]

theorem version_lt {log : List Exec} (h : log.length < 2 ^ 64) (x : String) :
    version log x < 2 ^ 64 :=
  List.countP_le_length.trans_lt h

theorem version_take_lt {log : List Exec} {i j : ℕ} {r : Exec} {x : String}
    (hr : log[i]? = some r) (happ : r.appliedTo x = true) (hij : i < j) :
    version (log.take i) x < version (log.take j) x := by
  have hsucc : log.take (i + 1) = log.take i ++ [r] := by
    rw [List.take_add_one, hr, Option.toList_some]
  have hle : version (log.take (i + 1)) x ≤ version (log.take j) x :=
    (List.take_sublist_take_left hij).countP_le
  rw [hsucc, version_snoc_of_applied happ] at hle
  omega

/-- The server has served the runs of the log, in this order, starting empty. -/
inductive Replays : List Exec → KVServer → Prop
  | nil : Replays [] makeKVServer
  | snoc {log : List Exec} {s : KVServer} (r : Exec) (h : Replays log s)
      (hr : r.reply = (s.handle r.req).2) : Replays (log ++ [r]) (s.handle r.req).1

/-- What a handler run does to one key: either it is a successful `Put` to it, with the
version stored before, or it leaves the key alone. -/
theorem handle_key (s : KVServer) (r : Exec) (x : String) (hr : r.reply = (s.handle r.req).2) :
    (∃ args, r.req = .put args ∧ args.key = x ∧ r.appliedTo x = true ∧
      args.version = (s.versionMap x).getD 0 ∧
      (s.handle r.req).1.kv x = some args.value ∧
      (s.handle r.req).1.versionMap x = some (args.version + 1)) ∨
    (¬ r.appliedTo x = true ∧ (s.handle r.req).1.kv x = s.kv x ∧
      (s.handle r.req).1.versionMap x = s.versionMap x) := by
  obtain ⟨k, i, t, req, reply⟩ := r
  obtain rfl : reply = (s.handle req).2 := hr
  cases req with
  | get args => exact .inr ⟨by simp [Exec.appliedTo], rfl, rfl⟩
  | put args =>
    rcases s.put_cases args with ⟨hm, h⟩ | ⟨hm, -, h⟩ | ⟨hm, -, h⟩
    · by_cases hx : args.key = x
      · subst hx
        exact .inl ⟨args, rfl, rfl, by simp [Exec.appliedTo, KVServer.handle, h], hm,
          by simp [KVServer.handle, h], by simp [KVServer.handle, h]⟩
      · refine .inr ⟨by simp [Exec.appliedTo, KVServer.handle, h, hx], ?_, ?_⟩
        · simp only [KVServer.handle, h, KVServer.install_kv_of_ne s args (Ne.symm hx)]
        · simp only [KVServer.handle, h, KVServer.install_versionMap_of_ne s args (Ne.symm hx)]
    · exact .inr ⟨by simp [Exec.appliedTo, KVServer.handle, h], by simp [KVServer.handle, h],
        by simp [KVServer.handle, h]⟩
    · exact .inr ⟨by simp [Exec.appliedTo, KVServer.handle, h], by simp [KVServer.handle, h],
        by simp [KVServer.handle, h]⟩

theorem Replays.exists_handle {log : List Exec} {s : KVServer} (h : Replays log s) {r : Exec}
    (hr : r ∈ log) : ∃ u : KVServer, r.reply = (u.handle r.req).2 := by
  induction h with
  | nil => simp at hr
  | @snoc log s q h hq ih =>
    rw [List.mem_append, List.mem_singleton] at hr
    rcases hr with hr | rfl
    · exact ih hr
    · exact ⟨s, hq⟩

/-- A key is in the version map exactly if it has had a successful `Put`. -/
theorem Replays.versionMap_eq_none {log : List Exec} {s : KVServer} (h : Replays log s)
    (x : String) : s.versionMap x = none ↔ version log x = 0 := by
  induction h with
  | nil => simp [makeKVServer]
  | @snoc log s r h hr ih =>
    rcases handle_key s r x hr with ⟨args, -, -, happ, -, -, hver⟩ | ⟨happ, -, hver⟩
    · simp [hver, version_snoc_of_applied happ]
    · rw [hver, ih, version_snoc_of_not_applied happ]

/-- Before a run that answered `ErrNoKey` no run was applied to its key. -/
theorem Replays.not_applied_before {log : List Exec} {s : KVServer} (h : Replays log s)
    (ht : log.Pairwise fun r q => r.time < q.time) {r q : Exec} (hr : r ∈ log) (hq : q ∈ log)
    (hlt : r.time < q.time) {args : PutArgs} (hreq : q.req = .put args)
    (hreply : q.reply = .put ⟨.errNoKey⟩) : ¬ r.appliedTo args.key = true := by
  induction h with
  | nil => simp at hr
  | @snoc log s p h hp ih =>
    obtain ⟨ht, -, hlast⟩ := List.pairwise_append.mp ht
    rw [List.mem_append, List.mem_singleton] at hr hq
    rcases hq with hq | rfl
    · rcases hr with hr | rfl
      · exact ih ht hr hq
      · have := hlast q hq r (List.mem_singleton_self r)
        omega
    · rcases hr with hr | rfl
      · have hnone : s.versionMap args.key = none := by
          rw [hreply, hreq, KVServer.handle] at hp
          rcases s.put_cases args with ⟨-, he⟩ | ⟨-, hver, -⟩ | ⟨-, -, he⟩
          · simp [he] at hp
          · exact hver
          · simp [he] at hp
        exact version_eq_zero.mp ((h.versionMap_eq_none args.key).mp hnone) r hr
      · omega

/-- The server's entries for the key `x` are those of a key with `n` successful `Put`s. -/
structure Counts (s : KVServer) (x : String) (n : ℕ) : Prop where
  kv_iff : (s.kv x).isSome ↔ 0 < n
  version_iff : (s.versionMap x).isSome ↔ 0 < n
  toNat_eq : ((s.versionMap x).getD 0).toNat = n

theorem toNat_add_one {v : Tversion} {n : ℕ} (h : v.toNat = n) (hn : n + 1 < 2 ^ 64) :
    (v + 1).toNat = n + 1 := by
  rw [UInt64.toNat_add, h, UInt64.toNat_one, Nat.mod_eq_of_lt hn]

theorem Replays.counts {log : List Exec} {s : KVServer} (h : Replays log s) (x : String)
    (hb : version log x < 2 ^ 64) : Counts s x (version log x) := by
  induction h with
  | nil => exact ⟨by simp [makeKVServer], by simp [makeKVServer], by simp [makeKVServer]⟩
  | @snoc log s r h hr ih =>
    have hprev := ih ((version_le_append log [r] x).trans_lt hb)
    rcases handle_key s r x hr with ⟨args, -, -, happ, hv, hkv, hver⟩ | ⟨happ, hkv, hver⟩
    · rw [version_snoc_of_applied happ] at hb ⊢
      have hnat : args.version.toNat = version log x := by rw [hv, hprev.toNat_eq]
      exact ⟨by simp [hkv], by simp [hver], by simp [hver, toNat_add_one hnat hb]⟩
    · rw [version_snoc_of_not_applied happ]
      exact ⟨by rw [hkv, hprev.kv_iff], by rw [hver, hprev.version_iff],
        by rw [hver, hprev.toNat_eq]⟩

/-- A successful `Put` carried the number of successful `Put`s before it. -/
theorem Replays.applied_version {log : List Exec} {s : KVServer} (h : Replays log s)
    {x : String} (hb : version log x < 2 ^ 64) {i : ℕ} {r : Exec} (hi : log[i]? = some r)
    (happ : r.appliedTo x = true) {args : PutArgs} (hargs : r.req = .put args) :
    args.version.toNat = version (log.take i) x := by
  induction h with
  | nil => simp at hi
  | @snoc log s r' h hr ih =>
    have hb' := (version_le_append log [r'] x).trans_lt hb
    rcases getElem?_snoc.mp hi with hi | ⟨rfl, rfl⟩
    · rw [List.take_append_of_le_length (List.getElem?_eq_some_iff.mp hi).1.le]
      exact ih hb' hi
    · rw [List.take_left]
      rcases handle_key s r' x hr with ⟨args', hreq, -, -, hv, -, -⟩ | ⟨hna, -, -⟩
      · obtain rfl : args' = args := by simpa [hreq] using hargs
        rw [hv, (h.counts x hb').toNat_eq]
      · exact absurd happ hna

/-- What an earlier `Get` says about a key: if its version is still the current one, so is its
value. -/
theorem Replays.get_entry {log : List Exec} {s : KVServer} (h : Replays log s) {x : String}
    (hb : version log x < 2 ^ 64) {r : Exec} (hr : r ∈ log) (hreq : r.req = .get ⟨x⟩) :
    ∃ g, r.reply = .get g ∧ (g = { err := .errNoKey } ∨ (g.err = .ok ∧
      g.version.toNat ≤ version log x ∧
        (g.version.toNat = version log x → s.kv x = some g.value))) := by
  induction h with
  | nil => simp at hr
  | @snoc log s q h hq ih =>
    have hb' := (version_le_append log [q] x).trans_lt hb
    have hkey := handle_key s q x hq
    rw [List.mem_append, List.mem_singleton] at hr
    rcases hr with hr | rfl
    · obtain ⟨g, hg, hcase⟩ := ih hb' hr
      refine ⟨g, hg, hcase.imp_right ?_⟩
      rintro ⟨hok, hle, hval⟩
      rcases hkey with ⟨args, -, -, happ, -⟩ | ⟨happ, hkv, -⟩
      · rw [version_snoc_of_applied happ]
        exact ⟨hok, by omega, by omega⟩
      · rw [version_snoc_of_not_applied happ, hkv]
        exact ⟨hok, hle, hval⟩
    · rcases hkey with ⟨args, hput, -⟩ | ⟨happ, hkv, -⟩
      · rw [hreq] at hput
        cases hput
      · rw [version_snoc_of_not_applied happ, hkv]
        have hcount := h.counts x hb'
        refine ⟨s.get ⟨x⟩, by rw [hq, hreq]; rfl, ?_⟩
        cases hval : s.kv x with
        | none => exact .inl (by simp [KVServer.get, hval])
        | some value => exact .inr (by simp [KVServer.get, hval, hcount.toNat_eq])

/-- A `Put` whose version is not ahead of the key's either succeeds with the key's version or
has an older one. -/
theorem handle_put_version {s : KVServer} {n : ℕ} {r : Exec} {args : PutArgs} {x : String}
    (hc : Counts s x n) (hreq : r.req = .put args) (hkey : args.key = x)
    (hr : r.reply = (s.handle r.req).2) (hle : args.version.toNat ≤ n) :
    (r.appliedTo x = true ∧ args.version.toNat = n) ∨
    (¬ r.appliedTo x = true ∧ args.version.toNat < n) := by
  rcases handle_key s r x hr with ⟨args', hreq', -, happ, hv, -⟩ | ⟨happ, -⟩
  · obtain rfl : args = args' := by simpa [hreq] using hreq'
    exact .inl ⟨happ, by rw [hv, hc.toNat_eq]⟩
  · refine .inr ⟨happ, lt_of_le_of_ne hle ?_⟩
    intro heq
    have hm : s.Matches args := by
      rw [KVServer.Matches, hkey, ← UInt64.toNat_inj, heq, hc.toNat_eq]
    have hok := (s.put_err_ok_iff args).mpr hm
    refine happ ((Exec.appliedTo_iff _ _).mpr ⟨args, hreq, hkey, ?_⟩)
    rw [hr, hreq, KVServer.handle, ← hok]

/-- Two successful `Put`s to a key with the same version are the same run. -/
theorem Replays.applied_unique {log : List Exec} {s : KVServer} (h : Replays log s)
    {x : String} (hb : version log x < 2 ^ 64) {r q : Exec} (hr : r ∈ log) (hq : q ∈ log)
    (hrx : r.appliedTo x = true) (hqx : q.appliedTo x = true) (hreq : r.req = q.req) : r = q := by
  obtain ⟨args, hargs, -, -⟩ := (Exec.appliedTo_iff x r).mp hrx
  obtain ⟨i, hi⟩ := List.mem_iff_getElem?.mp hr
  obtain ⟨j, hj⟩ := List.mem_iff_getElem?.mp hq
  have hvi := h.applied_version hb hi hrx hargs
  have hvj := h.applied_version hb hj hqx (hreq ▸ hargs)
  rcases lt_trichotomy i j with hlt | rfl | hgt
  · have := version_take_lt hi hrx hlt
    omega
  · exact Option.some.inj (hi.symm.trans hj)
  · have := version_take_lt hj hqx hgt
    omega

end KVSrv
