import DistributedLabs.Labgob.CheckType

/-! The check of `labgob` for variables that are not empty when they are decoded into, and whole
sequences of calls of the package. Both checks share one counter of errors. -/
namespace Labgob

structure FieldValue (ν : Type*) where
  name : String
  embedded : Bool
  value : ν
  deriving DecidableEq, Repr

/-- What `reflect` tells about a value. The basic kinds are those whose values `checkDefault1`
compares with the zero value; it does not look into the kinds that are `other`. -/
inductive ValueInfo (ν : Type*) where
  | struct (fields : List (FieldValue ν))
  | ptr (elem : Option ν)
  | basic (type : String) (isZero : Bool)
  | other
  deriving DecidableEq, Repr

/-- The flags by which `reflect` knows that a value came from a field that is not exported. -/
structure ReadOnly where
  sticky : Bool
  embed : Bool
  deriving DecidableEq, Repr

def defaultWarning (what : String) : String :=
  "labgob warning: Decoding into a non-default variable/field " ++ what ++ " may not work\n"

/-- The name of a field under the name of what it is a field of. -/
def fieldName (name field : String) : String := if name = "" then field else name ++ "." ++ field

/-- The counting of a value that is not the zero value. -/
def warn {τ : Type*} (s : State τ) (what : String) : State τ :=
  { s with
    output := if s.errorCount < 1 then s.output ++ [defaultWarning what] else s.output
    errorCount := s.errorCount + 1 }

section Model
variable {τ ν : Type*} (isUpper : Char → Bool) (values : ν → ValueInfo ν)

def ReadOnly.field (ro : ReadOnly) (f : FieldValue ν) : ReadOnly :=
  let exported := isUpper (decodeRuneInString f.name)
  ⟨ro.sticky || (!exported && !f.embedded), !exported && f.embedded⟩

/-- The first argument is the number of levels left, which is 3 at depth 1. `Interface` panics on a
value that came from a field that is not exported; then there is no next state. -/
def checkDefault1 : ℕ → ReadOnly → ν → String → State τ → Option (State τ)
  | 0, _, _, _, s => some s
  | left + 1, ro, v, name, s =>
    match values v with
    | .struct fields =>
        fields.foldlM (fun s f =>
          checkDefault1 left (ro.field isUpper f) f.value (fieldName name f.name) s) s
    | .ptr none => some s
    | .ptr (some elem) => checkDefault1 left ro elem name s
    | .basic type isZero =>
        if ro.sticky || ro.embed then none
        else if isZero then some s
        else some (warn s (if name = "" then type else name))
    | .other => some s

/-- A value that is `nil` is not looked at. -/
def checkDefault (s : State τ) : Option ν → Option (State τ)
  | none => some s
  | some v => checkDefault1 isUpper values 3 ⟨false, false⟩ v "" s

/-- A value of a basic kind that is looked at, with the name by which it is reported. -/
structure Leaf where
  what : String
  isZero : Bool
  exported : Bool
  deriving DecidableEq, Repr

/-- The values of basic kinds within some levels, in the order in which they are looked at. -/
def leaves : ℕ → ReadOnly → ν → String → List Leaf
  | 0, _, _, _ => []
  | left + 1, ro, v, name =>
    match values v with
    | .struct fields =>
        fields.flatMap fun f => leaves left (ro.field isUpper f) f.value (fieldName name f.name)
    | .ptr none => []
    | .ptr (some elem) => leaves left ro elem name
    | .basic type isZero =>
        [⟨if name = "" then type else name, isZero, !(ro.sticky || ro.embed)⟩]
    | .other => []

def visitLeaf (s : State τ) (l : Leaf) : Option (State τ) :=
  if l.exported then if l.isZero then some s else some (warn s l.what) else none

/-- The leaves of a value that is decoded into. -/
def leavesOf (v : ν) : List Leaf := leaves isUpper values 3 ⟨false, false⟩ v ""

/-- The leaves that are not zero. -/
def nonDefault (v : ν) : List Leaf := (leavesOf isUpper values v).filter fun l => !l.isZero

end Model

section Leaves
variable {τ ν : Type*} {isUpper : Char → Bool} {values : ν → ValueInfo ν} {s : State τ}

theorem foldlM_flatMap {β γ : Type*} (step : State τ → γ → Option (State τ)) (f : β → List γ)
    (l : List β) (s : State τ) :
    (l.flatMap f).foldlM step s = l.foldlM (fun s x => (f x).foldlM step s) s := by
  induction l generalizing s with
  | nil => rfl
  | cons x l ih =>
    rw [List.flatMap_cons, List.foldlM_append, List.foldlM_cons]
    congr 1
    funext t
    exact ih t

/-- If whether a step fails depends on its input only, a fold fails at the first input that
fails. -/
theorem foldlM_eq_none_iff {γ : Type*} {step : State τ → γ → Option (State τ)} {Bad : γ → Prop}
    (hstep : ∀ s x, step s x = none ↔ Bad x) (l : List γ) (s : State τ) :
    l.foldlM step s = none ↔ ∃ x ∈ l, Bad x := by
  induction l generalizing s with
  | nil => simp
  | cons x l ih =>
    rw [List.foldlM_cons, List.exists_mem_cons_iff, ← hstep s x]
    cases step s x with
    | none => simp
    | some u => simpa using ih u

theorem checkDefault1_eq (left : ℕ) (ro : ReadOnly) (v : ν) (name : String) (s : State τ) :
    checkDefault1 isUpper values left ro v name s =
      (leaves isUpper values left ro v name).foldlM visitLeaf s := by
  induction left generalizing ro v name s with
  | zero => rfl
  | succ left ih =>
    unfold checkDefault1 leaves
    cases values v with
    | struct fields =>
      simp only [foldlM_flatMap, ih]
    | ptr elem =>
      cases elem with
      | none => rfl
      | some elem => exact ih ro elem name s
    | basic type isZero =>
      cases hro : ro.sticky || ro.embed <;> cases isZero <;> rfl
    | other => rfl

/-- The value can be decoded into without a panic. -/
def Readable (isUpper : Char → Bool) (values : ν → ValueInfo ν) (v : ν) : Prop :=
  ∀ l ∈ leavesOf isUpper values v, l.exported = true

theorem checkDefault_eq_none_iff (s : State τ) (v : ν) :
    checkDefault isUpper values s (some v) = none ↔ ¬ Readable isUpper values v := by
  have hvisit : ∀ (s : State τ) l, visitLeaf s l = none ↔ l.exported = false := by
    intro s l
    unfold visitLeaf
    cases l.exported <;> cases l.isZero <;> simp
  rw [checkDefault, Readable, checkDefault1_eq, foldlM_eq_none_iff hvisit]
  simp [leavesOf]

/-- The first of the values that are not zero is reported if nothing was counted before. -/
theorem foldlM_visitLeaf {ls : List Leaf} (h : ∀ l ∈ ls, l.exported = true) :
    ls.foldlM visitLeaf s = some { s with
      output := s.output ++
        if s.errorCount = 0 then ((ls.filter fun l => !l.isZero).head?.map fun l =>
          defaultWarning l.what).toList else []
      errorCount := s.errorCount + (ls.filter fun l => !l.isZero).length } := by
  induction ls generalizing s with
  | nil => cases s; simp
  | cons l ls ih =>
    obtain ⟨hl, hls⟩ := List.forall_mem_cons.mp h
    rw [List.foldlM_cons]
    cases hz : l.isZero with
    | true =>
      have hstep : visitLeaf s l = some s := by simp [visitLeaf, hl, hz]
      rw [hstep]
      simpa [hz] using ih hls
    | false =>
      have hstep : visitLeaf s l = some (warn s l.what) := by simp [visitLeaf, hl, hz]
      rw [hstep]
      show ls.foldlM visitLeaf (warn s l.what) = _
      rw [ih hls]
      by_cases hs : s.errorCount = 0
      · simp [warn, hs, hz]
        omega
      · simp [warn, hs, hz]
        omega

end Leaves

/-- The calls of the package: an argument is given by its type, for `Decode` with the value behind
the interface, and `nil` has none. `RegisterName` checks what `Register` checks. -/
inductive Call (τ ν : Type*) where
  | encode (t : Option τ)
  | register (t : Option τ)
  | decode (e : Option (τ × ν))

/-- The type of the argument, as `reflect.TypeOf` returns it. -/
def Call.type? {τ ν : Type*} : Call τ ν → Option τ
  | .encode t => t
  | .register t => t
  | .decode e => e.map Prod.fst

/-- The number of values that are not zero and that the call decodes into. -/
def counted {τ ν : Type*} (isUpper : Char → Bool) (values : ν → ValueInfo ν) : Call τ ν → ℕ
  | .decode (some (_, v)) => (nonDefault isUpper values v).length
  | _ => 0

section Calls
variable {τ ν : Type*} [DecidableEq τ] (isUpper : Char → Bool) (types : τ → TypeInfo τ)
  (values : ν → ValueInfo ν)

/-- The type of a `nil` argument is `nil`, and on it `Kind` panics. -/
def checkValue (fuel : ℕ) (s : State τ) : Option τ → Option (State τ)
  | none => none
  | some t => checkType isUpper types fuel s t

/-- The checks of a call. What `gob` does afterwards is not part of the model. -/
def call (fuel : ℕ) (s : State τ) : Call τ ν → Option (State τ)
  | .encode t => checkValue isUpper types fuel s t
  | .register t => checkValue isUpper types fuel s t
  | .decode e => (checkValue isUpper types fuel s (e.map Prod.fst)).bind fun s =>
      checkDefault isUpper values s (e.map Prod.snd)

end Calls

section Once
variable {τ ν : Type*} {isUpper : Char → Bool} {types : τ → TypeInfo τ} {values : ν → ValueInfo ν}
variable {s s' : State τ}

/-- Lines about lower-case fields were added and counted. -/
def Complains (s s' : State τ) : Prop :=
  ∃ lines : List String, s'.output = s.output ++ lines ∧
    s'.errorCount = s.errorCount + lines.length ∧ ∀ x ∈ lines, ∃ f n, x = lowerCaseError f n

theorem Complains.refl (s : State τ) : Complains s s := ⟨[], by simp, rfl, by simp⟩

theorem Complains.trans {u : State τ} (h : Complains s u) (h' : Complains u s') :
    Complains s s' := by
  obtain ⟨lines, hout, hcount, hall⟩ := h
  obtain ⟨lines', hout', hcount', hall'⟩ := h'
  refine ⟨lines ++ lines', ?_, ?_, List.forall_mem_append.mpr ⟨hall, hall'⟩⟩
  · rw [hout', hout, List.append_assoc]
  · rw [hcount', hcount, List.length_append]
    omega

theorem complains_checkName (name : String) (s : State τ) (f : Field τ) :
    Complains s (checkName isUpper name s f) := by
  unfold checkName
  split
  next => exact ⟨[lowerCaseError f.name name], rfl, rfl, by simp⟩
  next => exact .refl s

theorem complains_foldlM {β : Type*} {step : State τ → β → Option (State τ)}
    (hstep : ∀ s x s', step s x = some s' → Complains s s') {l : List β}
    (h : l.foldlM step s = some s') : Complains s s' := by
  induction l generalizing s with
  | nil =>
    obtain rfl : s = s' := by simpa using h
    exact .refl s
  | cons x l ih =>
    rw [List.foldlM_cons] at h
    obtain ⟨u, hu, hrest⟩ := Option.bind_eq_some_iff.mp h
    exact (hstep s x u hu).trans (ih hrest)

theorem complains_checkKind {check : State τ → τ → Option (State τ)}
    (hcheck : ∀ s t s', check s t = some s' → Complains s s') {info : TypeInfo τ}
    (h : checkKind isUpper check s info = some s') : Complains s s' := by
  cases info with
  | struct name fields =>
    refine complains_foldlM ?_ h
    intro s f s' hf
    exact (complains_checkName name s f).trans (hcheck _ _ _ hf)
  | slice elem | array elem | ptr elem => exact hcheck _ _ _ h
  | map key elem =>
    obtain ⟨u, hu, hkey⟩ := Option.bind_eq_some_iff.mp h
    exact (hcheck _ _ _ hu).trans (hcheck _ _ _ hkey)
  | other =>
    cases h
    exact .refl s

/-- The output and the counter after some calls: at most one warning about a value that was not
empty, and only as the first line. -/
structure Counted (isUpper : Char → Bool) (values : ν → ValueInfo ν) (cs : List (Call τ ν))
    (s : State τ) (first lower : List String) : Prop where
  output : s.output = first ++ lower
  once : first.length ≤ 1
  default : ∀ x ∈ first, ∃ t v, .decode (some (t, v)) ∈ cs ∧
    ∃ l ∈ nonDefault isUpper values v, x = defaultWarning l.what
  lowerCase : ∀ x ∈ lower, ∃ f n, x = lowerCaseError f n
  errorCount : s.errorCount = lower.length + (cs.map (counted isUpper values)).sum
  silent : s.output = [] ↔ s.errorCount = 0

variable {cs : List (Call τ ν)} {first lower : List String}

/-- A check of a type after some calls. -/
theorem Counted.complain (h : Counted isUpper values cs s first lower) (hc : Complains s s') :
    ∃ lower', Counted isUpper values cs s' first lower' := by
  obtain ⟨lines, hout, hcount, hall⟩ := hc
  refine ⟨lower ++ lines, ?_, h.once, h.default, List.forall_mem_append.mpr ⟨h.lowerCase, hall⟩, ?_,
    ?_⟩
  · rw [hout, h.output, List.append_assoc]
  · rw [hcount, h.errorCount, List.length_append]
    omega
  · rw [hout, hcount, List.append_eq_nil_iff, h.silent]
    simp

theorem Counted.weaken (h : Counted isUpper values cs s first lower) {c : Call τ ν}
    (hc : counted isUpper values c = 0) : Counted isUpper values (cs ++ [c]) s first lower where
  output := h.output
  once := h.once
  default := by
    intro x hx
    obtain ⟨t, v, hmem, hl⟩ := h.default x hx
    exact ⟨t, v, List.mem_append_left _ hmem, hl⟩
  lowerCase := h.lowerCase
  errorCount := by simpa [hc] using h.errorCount
  silent := h.silent

/-- The check of the value that is decoded into. -/
theorem Counted.decode (h : Counted isUpper values cs s first lower) (t : τ) {v : ν}
    (hv : Readable isUpper values v) :
    ∃ s' first', checkDefault isUpper values s (some v) = some s' ∧
      Counted isUpper values (cs ++ [.decode (some (t, v))]) s' first' lower := by
  have hdef : checkDefault isUpper values s (some v) = _ :=
    (checkDefault1_eq 3 ⟨false, false⟩ v "" s).trans (foldlM_visitLeaf hv)
  have hsum : ((cs ++ [Call.decode (some (t, v))]).map (counted isUpper values)).sum =
      (cs.map (counted isUpper values)).sum + (nonDefault isUpper values v).length := by
    simp [counted]
  by_cases hs : s.errorCount = 0
  · have hnil := h.silent.mpr hs
    obtain ⟨rfl, rfl⟩ : first = [] ∧ lower = [] := by
      rw [h.output, List.append_eq_nil_iff] at hnil
      exact hnil
    have hzero : (cs.map (counted isUpper values)).sum = 0 := by
      have hcount := h.errorCount
      rw [hs] at hcount
      simpa using hcount.symm
    refine ⟨_, ((nonDefault isUpper values v).head?.map fun l => defaultWarning l.what).toList,
      hdef, ?_, ?_, ?_, by simp, ?_, ?_⟩
    · simp only [hnil, hs, if_true, List.nil_append, List.append_nil]
      rfl
    · cases (nonDefault isUpper values v).head? <;> simp
    · intro x hx
      cases hhead : (nonDefault isUpper values v).head? with
      | none => simp [hhead] at hx
      | some l =>
        rw [hhead] at hx
        exact ⟨t, v, by simp, l, List.mem_of_mem_head? hhead, by simpa using hx⟩
    · rw [hsum, hzero]
      simp [hs, nonDefault, leavesOf]
    · simp only [hnil, hs, if_true, List.nil_append, Nat.zero_add, List.length_eq_zero_iff,
        Option.toList_eq_nil_iff, Option.map_eq_none_iff, List.head?_eq_none_iff]
  · refine ⟨_, first, hdef, ?_, h.once, ?_, h.lowerCase, ?_, ?_⟩
    · simp [hs, h.output]
    · intro x hx
      obtain ⟨t', v', hmem, hl⟩ := h.default x hx
      exact ⟨t', v', List.mem_append_left _ hmem, hl⟩
    · rw [hsum, ← Nat.add_assoc, ← h.errorCount]
      rfl
    · have hne : s.output ≠ [] := fun hnil => hs (h.silent.mp hnil)
      simp [hs, hne]

variable [DecidableEq τ]

theorem complains_checkType {fuel : ℕ} {t : τ} (h : checkType isUpper types fuel s t = some s') :
    Complains s s' := by
  induction fuel generalizing s t s' with
  | zero => cases h
  | succ fuel ih =>
    unfold checkType at h
    split at h
    next =>
      cases h
      exact .refl s
    next =>
      have hkind := complains_checkKind (fun s t s' hs => ih hs) h
      exact hkind

/-- A check of a type returns, and complains about lower-case fields only. -/
theorem exists_checkType [Fintype τ] (isUpper : Char → Bool) (types : τ → TypeInfo τ) {fuel : ℕ}
    (hfuel : Fintype.card τ < fuel) (s : State τ) (t : τ) :
    ∃ s', checkType isUpper types fuel s t = some s' ∧ Complains s s' := by
  have hleft : s.checkedᶜ.card < fuel := (Finset.card_le_univ _).trans_lt hfuel
  have hreturns : ∃ s', checkType isUpper types fuel s t = some s' ∧
      Checks isUpper types s [t] [] s' := Checks.of_checkType t hleft
  obtain ⟨s', hs', -⟩ := hreturns
  exact ⟨s', hs', complains_checkType hs'⟩

theorem counted_call [Fintype τ] (types : τ → TypeInfo τ) {fuel : ℕ} (hfuel : Fintype.card τ < fuel)
    (h : Counted isUpper values cs s first lower) (c : Call τ ν) (hnil : c.type? ≠ none)
    (hread : ∀ t v, c = .decode (some (t, v)) → Readable isUpper values v) :
    ∃ s' first' lower', call isUpper types values fuel s c = some s' ∧
      Counted isUpper values (cs ++ [c]) s' first' lower' := by
  obtain ⟨t, ht⟩ := Option.ne_none_iff_exists'.mp hnil
  obtain ⟨u, hu, hcomplains⟩ := exists_checkType isUpper types hfuel s t
  obtain ⟨lower', hcounted⟩ := h.complain hcomplains
  cases c with
  | encode t' | register t' =>
    obtain rfl : t' = some t := ht
    exact ⟨u, first, lower', hu, hcounted.weaken rfl⟩
  | decode e =>
    obtain ⟨⟨t', v⟩, rfl, rfl⟩ := Option.map_eq_some_iff.mp ht
    obtain ⟨s', first', hs', hcounted'⟩ := hcounted.decode t' (hread t' v rfl)
    refine ⟨s', first', lower', ?_, hcounted'⟩
    rw [call, Option.map_some, checkValue, hu, Option.bind_some, Option.map_some, hs']

/-- Any calls of the package on arguments that are not `nil`, of which no `Decode` meets a value
from a field that is not exported: all checks return, the output has at most one warning about a
value that was not empty, as its first line, and all other lines are about lower-case fields; every
value that was not empty is counted. -/
theorem calls_warn_once [Fintype τ] (isUpper : Char → Bool) (types : τ → TypeInfo τ)
    (values : ν → ValueInfo ν) (cs : List (Call τ ν)) (fuel : ℕ) (hfuel : Fintype.card τ < fuel)
    (hnil : ∀ c ∈ cs, c.type? ≠ none)
    (hread : ∀ t v, .decode (some (t, v)) ∈ cs → Readable isUpper values v) :
    ∃ s first lower, cs.foldlM (call isUpper types values fuel) ⟨∅, 0, []⟩ = some s ∧
      Counted isUpper values cs s first lower := by
  induction cs using List.reverseRecOn with
  | nil =>
    refine ⟨⟨∅, 0, []⟩, [], [], rfl, ?_⟩
    constructor <;> simp
  | append_singleton cs c ih =>
    rw [List.forall_mem_append] at hnil
    obtain ⟨s, first, lower, hs, hcounted⟩ :=
      ih hnil.1 fun t v hmem => hread t v (List.mem_append_left _ hmem)
    obtain ⟨s', first', lower', hs', hcounted'⟩ := counted_call types hfuel hcounted c
      (hnil.2 c (List.mem_singleton_self c)) fun t v hc => hread t v (by simp [hc])
    refine ⟨s', first', lower', ?_, hcounted'⟩
    rw [List.foldlM_append, hs]
    simpa using hs'

/-- A reply with one field, which is not empty. -/
def replyTypes : Bool → TypeInfo Bool
  | true => .struct "Reply" [⟨"Value", false⟩]
  | false => .other

def replyValues : Bool → ValueInfo Bool
  | true => .struct [⟨"Value", false, false⟩]
  | false => .basic "int" false

/-- The reply is used for two calls. -/
theorem reusedReply_warned_once : ∃ s first lower,
    [Call.decode (some (true, true)), .decode (some (true, true))].foldlM
      (call Char.isUpper replyTypes replyValues 3) ⟨∅, 0, []⟩ = some s ∧
    s.output = [defaultWarning "Value"] ∧ s.errorCount = 2 ∧
    Counted Char.isUpper replyValues
      [.decode (some (true, true)), .decode (some (true, true))] s first lower := by
  have hread : Readable Char.isUpper replyValues true := by
    unfold Readable
    decide +kernel
  obtain ⟨s, first, lower, hs, hcounted⟩ := calls_warn_once Char.isUpper replyTypes replyValues
    [.decode (some (true, true)), .decode (some (true, true))] 3 (by decide)
    (by simp [Call.type?]) (by simp [hread])
  have hresult : ([Call.decode (some (true, true)), .decode (some (true, true))].foldlM
      (call Char.isUpper replyTypes replyValues 3) ⟨∅, 0, []⟩).map
        (fun s => (s.output, s.errorCount)) = some ([defaultWarning "Value"], 2) := by
    decide +kernel
  rw [hs, Option.map_some, Option.some.injEq, Prod.mk.injEq] at hresult
  exact ⟨s, first, lower, hs, hresult.1, hresult.2, hcounted⟩

/-- The checks of calls of the package panic exactly if one of them has the argument `nil` or
decodes into a value that has, within three levels, a basic value in a field that is not exported,
whatever was called before. -/
theorem calls_panic_iff [Fintype τ] (isUpper : Char → Bool) (types : τ → TypeInfo τ)
    (values : ν → ValueInfo ν) (cs : List (Call τ ν)) (fuel : ℕ) (hfuel : Fintype.card τ < fuel)
    (s : State τ) :
    cs.foldlM (call isUpper types values fuel) s = none ↔
      ∃ c ∈ cs, c.type? = none ∨
        ∃ t v, c = .decode (some (t, v)) ∧ ¬ Readable isUpper values v := by
  refine foldlM_eq_none_iff ?_ cs s
  intro s c
  cases c with
  | encode t | register t =>
    cases t with
    | none => simp [call, checkValue, Call.type?]
    | some t =>
      obtain ⟨s', hs', -⟩ := exists_checkType isUpper types hfuel s t
      simp [call, checkValue, Call.type?, hs']
  | decode e =>
    cases e with
    | none => simp [call, checkValue, Call.type?]
    | some e =>
      obtain ⟨t, v⟩ := e
      obtain ⟨u, hu, -⟩ := exists_checkType isUpper types hfuel s t
      simp [call, checkValue, Call.type?, hu, checkDefault_eq_none_iff]

/-- A reply whose only field is not exported. -/
def hiddenValues : Bool → ValueInfo Bool
  | true => .struct [⟨"value", false, false⟩]
  | false => .basic "int" true

theorem hiddenField_panics :
    [Call.encode (some true), .decode (some (true, true))].foldlM
      (call Char.isUpper replyTypes hiddenValues 3) ⟨∅, 0, []⟩ = none ∧
    [Call.encode (some true), .encode none].foldlM
      (call Char.isUpper replyTypes hiddenValues 3) ⟨∅, 0, []⟩ = none := by
  constructor
  · refine (calls_panic_iff Char.isUpper replyTypes hiddenValues _ 3 (by decide) _).mpr
      ⟨.decode (some (true, true)), by simp, .inr ⟨true, true, rfl, ?_⟩⟩
    unfold Readable
    decide +kernel
  · exact (calls_panic_iff Char.isUpper replyTypes hiddenValues _ 3 (by decide) _).mpr
      ⟨.encode none, by simp, .inl rfl⟩

end Once

end Labgob
