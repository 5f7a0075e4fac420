import DistributedLabs.KVSrv.Programs

/-! Conditional writers of one key. If no client puts a version ahead of the key's, a `Put`
that has been executed is behind the key, and one that can still be applied belongs to the
operation its clerk is in. -/
namespace KVSrv
variable {ι : Type*} {s t : Service ι} {e : Event ι} {x : String} {k : ℕ} {a : Attempt ι}

structure Conditional (x : String) (s : Service ι) : Prop where
  pending : ∀ a ∈ s.attempts, ∀ args, a.req = .put args → args.key = x →
    args.version.toNat < version s.log x ∨ (args.version.toNat = version s.log x ∧
      ∃ b, (s.clerks a.clerk).current = some (a.op, a.req, b))
  executed : ∀ r ∈ s.log, ∀ args, r.req = .put args → args.key = x →
    args.version.toNat < version s.log x

theorem Conditional.le (hc : Conditional x s) (ha : a ∈ s.attempts) {args : PutArgs}
    (hreq : a.req = .put args) (hkey : args.key = x) :
    args.version.toNat ≤ version s.log x := by
  rcases hc.pending a ha args hreq hkey with hlt | ⟨heq, -⟩
  · exact hlt.le
  · exact heq.le

/-- A `Put` that is applied is of the operation its clerk is in. -/
theorem Conditional.current (hl : LogFacts s) (hb : version s.log x < 2 ^ 64)
    (hc : Conditional x s) (ha : a ∈ s.attempts) {args : PutArgs} (hreq : a.req = .put args)
    (hkey : args.key = x) (hv : args.version = (s.server.versionMap x).getD 0) :
    args.version.toNat = version s.log x ∧
      ∃ b, (s.clerks a.clerk).current = some (a.op, a.req, b) := by
  have hver : args.version.toNat = version s.log x := by
    rw [hv]
    exact (hl.replays.counts x hb).toNat_eq
  rcases hc.pending a ha args hreq hkey with hlt | ⟨-, hcur⟩
  · omega
  · exact ⟨hver, hcur⟩

theorem conditional_exec (hl : LogFacts s) (hb : version s.log x < 2 ^ 64)
    (hc : Conditional x s) (hk : s.attempts[k]? = some a) : Conditional x (s.exec k a) := by
  have hmem := List.mem_of_getElem? hk
  rcases exec_key s k a x with ⟨-, -, -, -, -, hver, -⟩ | ⟨hput, hver, -⟩
  · constructor
    · intro a' ha' args hreq hkey
      have hle := hc.le ha' hreq hkey
      exact .inl (by omega)
    · intro r hr args hreq hkey
      rw [Service.exec_log, List.mem_append, List.mem_singleton] at hr
      rcases hr with hr | rfl
      · have hlt := hc.executed r hr args hreq hkey
        omega
      · have hle := hc.le hmem hreq hkey
        omega
  · constructor
    · rw [hver]
      exact hc.pending
    · rw [hver]
      intro r hr args hreq hkey
      rw [Service.exec_log, List.mem_append, List.mem_singleton] at hr
      rcases hr with hr | rfl
      · exact hc.executed r hr args hreq hkey
      · have hle := hc.le hmem hreq hkey
        rcases handle_put_version (hl.replays.counts x hb) hreq hkey rfl hle with
          ⟨happ, -⟩ | ⟨-, hlt⟩
        · obtain ⟨_, -, -, hok⟩ := (Exec.appliedTo_iff _ _).mp happ
          exact absurd hok (hput args hreq hkey)
        · exact hlt

variable [DecidableEq ι]

/-- A `Put` whose reply is delivered has been executed. -/
theorem Conditional.delivered (hf : ClerkFacts s) (hl : LogFacts s) (hc : Conditional x s)
    {c : ι} {i : ℕ} {args : PutArgs} {b : Bool} (h : Service.Step s (.deliver c) t)
    (hcur : (s.clerks c).current = some (i, .put args, b)) (hkey : args.key = x) :
    args.version.toNat < version s.log x := by
  cases h with
  | deliver _ i' req' b' k reply hw hr =>
    obtain ⟨r, hmem, -, -, hreq, -⟩ := waiting_run hf hl hw hr
    rw [hw] at hcur
    cases hcur
    exact hc.executed r hmem args hreq hkey

theorem conditional_step (hf : ClerkFacts s) (hl : LogFacts s) (hb : version s.log x < 2 ^ 64)
    (hc : Conditional x s)
    (hput : ∀ c i args b, s.clerks c = .ready i (.put args) b → args.key = x →
      args.version.toNat ≤ version s.log x)
    (h : Service.Step s e t) : Conditional x t := by
  rcases h.log with ⟨hlog, -⟩ | ⟨k, a, rfl, -⟩
  · constructor
    · rw [hlog]
      have hold : ∀ a ∈ s.attempts, ∀ args, a.req = .put args → args.key = x →
          args.version.toNat < version s.log x ∨ (args.version.toNat = version s.log x ∧
            ∃ b, (t.clerks a.clerk).current = some (a.op, a.req, b)) := by
        intro a ha args hreq hkey
        rcases hc.pending a ha args hreq hkey with hlt | ⟨heq, b, hcur⟩
        · exact .inl hlt
        · by_cases he : e = .deliver a.clerk
          · subst he
            exact .inl (hc.delivered hf hl h (hreq ▸ hcur) hkey)
          · exact .inr ⟨heq, h.current_mono he hcur⟩
      intro a ha args hreq hkey
      rcases h.attempts with heq | ⟨c, i, req, b, rfl, hready, hwait, heq⟩
      · exact hold a (heq ▸ ha) args hreq hkey
      · rw [heq, List.mem_append, List.mem_singleton] at ha
        rcases ha with ha | rfl
        · exact hold a ha args hreq hkey
        · obtain rfl : req = .put args := hreq
          rcases (hput c i args b hready hkey).lt_or_eq with hlt | heq
          · exact .inl hlt
          · exact .inr ⟨heq, b, by rw [hwait]; rfl⟩
    · rw [hlog]
      exact hc.executed
  · cases h with
    | exec _ a hk hr => exact conditional_exec hl hb hc hk

/-- Client code that never puts a version ahead of the key's keeps its `Put`s conditional. -/
theorem Program.conditional_step {π : Type*} {P : Program ι π} {s t : Clients ι π}
    (hf : P.ServiceFacts s) (hb : version s.kv.log x < 2 ^ 64) (hc : Conditional x s.kv)
    (hput : ∀ c args, P.calls c (s.pc c) (.put args) = true → args.key = x →
      args.version.toNat ≤ version s.kv.log x)
    (h : P.Step s t) : Conditional x t.kv := by
  rcases h.kv with heq | ⟨e, he⟩
  · rwa [heq]
  · refine KVSrv.conditional_step hf.clerks hf.log hb hc ?_ he
    intro c i args b hready hkey
    exact hput c args (hf.calling c i (.put args) b (by rw [hready]; rfl)) hkey

end KVSrv
