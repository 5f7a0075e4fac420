import DistributedLabs.KVSrv.SoleWriter

/-! A client that makes a `Put` with the version of its key while only its own `Put`s are applied
there. Attempts of others may still run, as long as they are refused. -/
namespace KVSrv
variable {ι : Type*} {s t : Service ι} {e : Event ι} {c : ι} {args : PutArgs}

/-- The client is about to call the `Put`, with the version that the key has, or is in it. -/
inductive Writing (s : Service ι) (c : ι) (args : PutArgs) : Prop
  | about (hc : s.clerks c = .idle)
      (hver : (s.server.versionMap args.key).getD 0 = args.version)
  | calling (i : ℕ) (b : Bool) (hc : (s.clerks c).current = some (i, .put args, b))
      (hcourse : Course i args s)

/-- Running the handler of the attempt leaves the key alone. -/
def Spares (s : Service ι) (a : Attempt ι) (x : String) : Prop :=
  (s.server.handle a.req).1.kv x = s.server.kv x ∧
    (s.server.handle a.req).1.versionMap x = s.server.versionMap x

/-- What is not applied to a key spares it. -/
theorem spares_or_applied (s : Service ι) (a : Attempt ι) (x : String) :
    Spares s a x ∨ ∃ args, a.req = .put args ∧ args.key = x ∧
      args.version = (s.server.versionMap x).getD 0 := by
  rcases handle_key s.server ⟨0, 0, 0, a.req, (s.server.handle a.req).2⟩ x rfl with
    ⟨args, hreq, hkey, -, hver, -⟩ | ⟨-, hkeep⟩
  · exact .inr ⟨args, hreq, hkey, hver⟩
  · exact .inl hkeep

/-- The version that is put is the key's, or the one before it. -/
theorem Writing.version_le (hl : LogFacts s) (hb : version s.log args.key < 2 ^ 64)
    (hw : Writing s c args) : args.version.toNat ≤ version s.log args.key := by
  have hcount := hl.replays.counts args.key hb
  have hcurrent : (s.server.versionMap args.key).getD 0 = args.version →
      args.version.toNat ≤ version s.log args.key := by
    intro hver
    rw [← hver, hcount.toNat_eq]
  cases hw with
  | about hc hver => exact hcurrent hver
  | calling i b hc hcourse =>
    cases hcourse with
    | before hnone hver => exact hcurrent hver
    | after hkv hver hok hreply =>
      have hpos := hcount.version_iff.mp (by rw [hver]; rfl)
      have hnat := hcount.toNat_eq
      rw [hver, Option.getD_some, UInt64.toNat_add, UInt64.toNat_one] at hnat
      have hlt := args.version.toNat_lt
      omega

theorem Writing.exec (hc : ClerkFacts s) {k : ℕ} {a : Attempt ι} (hk : s.attempts[k]? = some a)
    (hexec : (∃ b, (s.clerks c).current = some (a.op, .put args, b)) ∨ Spares s a args.key)
    (hw : Writing s c args) : Writing (s.exec k a) c args := by
  cases hw with
  | about hidle hver =>
    rcases hexec with ⟨b, hb⟩ | ⟨-, hkeep⟩
    · rw [hidle] at hb
      cases hb
    · exact .about hidle ((congrArg (fun v => Option.getD v 0) hkeep).trans hver)
  | calling i b hcur hcourse =>
    refine .calling i b hcur ?_
    by_cases hop : a.op = i
    · obtain ⟨o, ho, hin, -⟩ := hc.current c i (.put args) b hcur
      obtain ⟨o', ho', hin'⟩ := hc.attempt a (List.mem_of_getElem? hk)
      obtain rfl : o = o' := Option.some.inj (ho.symm.trans (hop ▸ ho'))
      exact course_exec_own hop (hin'.symm.trans hin) hcourse
    · rcases hexec with ⟨b', hb'⟩ | ⟨hkv, hver⟩
      · rw [hcur] at hb'
        cases hb'
        exact absurd rfl hop
      · exact course_exec_kept hop hkv hver hcourse

variable [DecidableEq ι]

theorem course_invoke (hc : ClerkFacts s) (hl : LogFacts s) {d : ι} {req : Request}
    (hver : (s.server.versionMap args.key).getD 0 = args.version) :
    Course s.ops.length args (s.invoke d req) := by
  refine .before ?_ hver
  intro r hr hop
  obtain ⟨o, ho, -⟩ := logged_op hc hl hr
  have hlt := (List.getElem?_eq_some_iff.mp ho).1
  omega

/-- A step that is no delivery to the client keeps it at its `Put`, if only handlers of its own
are applied. -/
theorem Writing.step (hc : ClerkFacts s) (hl : LogFacts s) (h : Service.Step s e t)
    (he : e ≠ .deliver c) (hinv : ∀ req, e = .invoke c req → req = .put args)
    (hexec : ∀ k a, e = .exec k → s.attempts[k]? = some a →
      (∃ b, (s.clerks c).current = some (a.op, .put args, b)) ∨ Spares s a args.key)
    (hw : Writing s c args) : Writing t c args := by
  have hsame : t.log = s.log → t.server = s.server → Writing t c args := by
    intro hlog hserver
    cases hw with
    | about hidle hver =>
      cases hcur : (t.clerks c).current with
      | none =>
        refine .about ?_ (by rw [hserver, hver])
        cases hclerk : t.clerks c with
        | idle => rfl
        | ready | waiting => simp [hclerk] at hcur
      | some op =>
        obtain ⟨i, req, b⟩ := op
        rcases h.current hcur with ⟨rfl, rfl⟩ | ⟨-, b', hb'⟩
        · obtain rfl := hinv req rfl
          refine .calling _ b hcur ?_
          cases h with
          | invoke => exact course_invoke hc hl hver
        · rw [hidle] at hb'
          cases hb'
    | calling i b hcur hcourse =>
      obtain ⟨b', hcur'⟩ := h.current_mono he hcur
      refine .calling i b' hcur' ?_
      cases hcourse with
      | before hnone hver => exact .before (by rwa [hlog]) (by rwa [hserver])
      | after hkv hver hok hreply =>
        exact .after (by rwa [hserver]) (by rwa [hserver]) (by rwa [hlog]) (by rwa [hlog])
  cases h with
  | exec k a hk hr => exact hw.exec hc hk (hexec k a rfl hk)
  | invoke | send | deliver | fail => exact hsame rfl rfl

/-- The `Put` returns `OK` or `ErrMaybe`, and its value is in place. -/
theorem Writing.returned (hc : ClerkFacts s) (hl : LogFacts s) (ho : OpFacts s) {i k : ℕ}
    {req : Request} {b : Bool} {reply : Reply} (hw : Writing s c args)
    (hwait : s.clerks c = .waiting i req b k) (hr : s.reply? k = some reply) :
    (clerkResult b reply = .put ⟨.ok⟩ ∨ clerkResult b reply = .put ⟨.errMaybe⟩) ∧
      s.server.kv args.key = some args.value ∧
      s.server.versionMap args.key = some (args.version + 1) := by
  have hstep := Service.Step.deliver c i req b k reply hwait hr
  cases hw with
  | about hidle hver =>
    rw [hidle] at hwait
    cases hwait
  | calling j b' hcur hcourse =>
    rw [hwait] at hcur
    cases hcur
    obtain ⟨o, hop, -⟩ := hc.current c i (.put args) b (by rw [hwait]; rfl)
    have hcourse' : Course i args (s.deliver c i (clerkResult b reply)) := by
      cases hcourse with
      | before hnone hver => exact .before hnone hver
      | after hkv hver hok hreply => exact .after hkv hver hok hreply
    have hret := course_returned (logFacts_step hl hstep) (opFacts_step hc hl ho hstep) hcourse'
      (o := { o with ret := some (s.now, clerkResult b reply) }) (by simp [hop]) rfl
    exact ⟨hret.1, hret.2.1, hret.2.2.1⟩

end KVSrv
