import Mathlib.Algebra.BigOperators.Group.Finset.Basic
import Mathlib.Algebra.Order.Group.Multiset
import Mathlib.Tactic.Abel
import DistributedLabs.Search.Marked

/-! The check of `labgob` for lower-case field names: `checkType` walks the types a value is made
of, with the package's table of types that were checked already. -/
namespace Labgob
open Search

structure Field (τ : Type*) where
  name : String
  type : τ
  deriving DecidableEq, Repr

/-- What `reflect` tells about a type: its kind with the types it is made of. The kinds that
`checkType` does not look into are `other`. -/
inductive TypeInfo (τ : Type*) where
  | struct (name : String) (fields : List (Field τ))
  | slice (elem : τ)
  | array (elem : τ)
  | ptr (elem : τ)
  | map (key elem : τ)
  | other
  deriving DecidableEq, Repr

/-- The variables of the package, with the lines it has printed. -/
structure State (τ : Type*) where
  checked : Finset τ
  errorCount : ℕ
  output : List String
  deriving DecidableEq

/-- The rune that `utf8.DecodeRuneInString` returns, which is `RuneError` for an empty string. -/
def decodeRuneInString (s : String) : Char :=
  s.toList.head?.getD '\uFFFD'

def lowerCaseError (field type : String) : String :=
  "labgob error: lower-case field " ++ field ++ " of " ++ type ++
    " in RPC or persist/snapshot will break your Raft\n"

section Model
variable {τ : Type*} (isUpper : Char → Bool) (types : τ → TypeInfo τ)

/-- The part of the loop over the fields that comes before the recursive call. -/
def checkName (name : String) (s : State τ) (f : Field τ) : State τ :=
  if isUpper (decodeRuneInString f.name) = false then
    { s with
      output := s.output ++ [lowerCaseError f.name name]
      errorCount := s.errorCount + 1 }
  else s

/-- The switch on the kind, with the recursive call as a parameter. -/
def checkKind (check : State τ → τ → Option (State τ)) (s : State τ) :
    TypeInfo τ → Option (State τ)
  | .struct name fields =>
    fields.foldlM (fun s f => check (checkName isUpper name s f) f.type) s
  | .slice elem => check s elem
  | .array elem => check s elem
  | .ptr elem => check s elem
  | .map key elem => do
    let s ← check s elem
    check s key
  | .other => some s

/-- `isUpper` stands for `unicode.IsUpper`. The first argument bounds the depth of the recursion;
a call that would go deeper gives `none`. -/
def checkType [DecidableEq τ] : ℕ → State τ → τ → Option (State τ)
  | 0, _, _ => none
  | fuel + 1, s, t =>
    if t ∈ s.checked then some s
    else checkKind isUpper (checkType fuel) { s with checked := insert t s.checked } (types t)

/-- The types that a type is made of, in the order in which they are checked. -/
def components : TypeInfo τ → List τ
  | .struct _ fields => fields.map Field.type
  | .slice elem => [elem]
  | .array elem => [elem]
  | .ptr elem => [elem]
  | .map key elem => [elem, key]
  | .other => []

/-- The fields of a struct type whose first letter is not upper-case. -/
def badFields : TypeInfo τ → List (Field τ)
  | .struct _ fields => fields.filter fun f => isUpper (decodeRuneInString f.name) = false
  | _ => []

/-- The lines that a struct type deserves, one for each of its bad fields. -/
def complaints (info : TypeInfo τ) : List String :=
  match info with
  | .struct name _ => (badFields isUpper info).map fun f => lowerCaseError f.name name
  | _ => []

theorem length_complaints (info : TypeInfo τ) :
    (complaints isUpper info).length = (badFields isUpper info).length := by
  cases info with
  | struct name fields => simp [complaints]
  | _ => rfl

theorem complaints_struct (name : String) (fields : List (Field τ)) :
    complaints isUpper (.struct name fields) = fields.flatMap fun f =>
      if isUpper (decodeRuneInString f.name) = false then [lowerCaseError f.name name] else [] := by
  unfold complaints badFields
  induction fields with
  | nil => rfl
  | cons f fields ih =>
    rw [List.flatMap_cons, ← ih]
    by_cases hf : isUpper (decodeRuneInString f.name) = false
    · simp [hf]
    · simp [hf]

end Model

section Fuel
variable {τ : Type*} {isUpper : Char → Bool} {types : τ → TypeInfo τ}

theorem checkKind_of_imp {f g : State τ → τ → Option (State τ)}
    (h : ∀ s t s', f s t = some s' → g s t = some s') {info : TypeInfo τ} {s s' : State τ}
    (hf : checkKind isUpper f s info = some s') : checkKind isUpper g s info = some s' := by
  cases info with
  | struct name fields => exact foldlM_of_imp (fun s f s' => h _ _ s') hf
  | slice elem => exact h s elem s' hf
  | array elem => exact h s elem s' hf
  | ptr elem => exact h s elem s' hf
  | map key elem =>
    obtain ⟨u, hu, hkey⟩ := Option.bind_eq_some_iff.mp hf
    exact Option.bind_eq_some_iff.mpr ⟨u, h s elem u hu, h u key s' hkey⟩
  | other => exact hf

variable [DecidableEq τ]

theorem checkType_succ {fuel : ℕ} {s s' : State τ} {t : τ}
    (h : checkType isUpper types fuel s t = some s') :
    checkType isUpper types (fuel + 1) s t = some s' := by
  induction fuel generalizing s t s' with
  | zero => cases h
  | succ fuel ih =>
    unfold checkType at h ⊢
    split at h
    next ht => rw [if_pos ht, h]
    next ht =>
      rw [if_neg ht]
      exact checkKind_of_imp (fun s t s' => ih) h

/-- A call that returns does so with every larger bound on the depth, and with the same result. -/
theorem checkType_le {fuel fuel' : ℕ} (hle : fuel ≤ fuel') {s s' : State τ} {t : τ}
    (h : checkType isUpper types fuel s t = some s') :
    checkType isUpper types fuel' s t = some s' := by
  induction hle with
  | refl => exact h
  | step _ ih => exact checkType_succ ih

end Fuel

section Spec
variable {τ : Type*} (isUpper : Char → Bool) (types : τ → TypeInfo τ)

/-- The lines that are due for the types of a set. -/
def due (V : Finset τ) : Multiset String :=
  ∑ t ∈ V, (complaints isUpper (types t) : Multiset String)

/-- What checking the roots does to the package. The types checked on the way are paid for in
full; `lines` are those printed for a type that was marked before. -/
structure Checks (s : State τ) (roots : List τ) (lines : List String) (s' : State τ) : Prop where
  marked : Marked (fun t => components (types t)) s.checked roots s'.checked
  output : (s'.output : Multiset String) + due isUpper types s.checked =
    s.output + lines + due isUpper types s'.checked
  errorCount : s'.errorCount + s.output.length = s.errorCount + s'.output.length

end Spec

namespace Checks
variable {τ : Type*} {isUpper : Char → Bool} {types : τ → TypeInfo τ}
variable {s u s' : State τ} {roots roots' : List τ} {lines lines' : List String} {t : τ}

theorem nil : Checks isUpper types s [] [] s where
  marked := .nil
  output := by simp
  errorCount := rfl

theorem again (ht : t ∈ s.checked) : Checks isUpper types s [t] [] s where
  marked := .again ht
  output := by simp
  errorCount := rfl

theorem append (h : Checks isUpper types s roots lines u)
    (h' : Checks isUpper types u roots' lines' s') :
    Checks isUpper types s (roots ++ roots') (lines ++ lines') s' where
  marked := h.marked.append h'.marked
  output := by
    rw [← Multiset.coe_add]
    apply add_right_cancel (b := (u.output : Multiset String) + due isUpper types u.checked)
    calc (s'.output : Multiset String) + due isUpper types s.checked +
          (u.output + due isUpper types u.checked)
        = (u.output + due isUpper types s.checked) +
          (s'.output + due isUpper types u.checked) := by abel
      _ = (s.output + lines + due isUpper types u.checked) +
          (u.output + lines' + due isUpper types s'.checked) := by rw [h.output, h'.output]
      _ = s.output + (lines + lines') + due isUpper types s'.checked +
          (u.output + due isUpper types u.checked) := by abel
  errorCount := by
    have hfirst := h.errorCount
    have hsecond := h'.errorCount
    omega

/-- A type is marked before its own lines are printed and its components checked. -/
theorem visit [DecidableEq τ] (ht : t ∉ s.checked)
    (h : Checks isUpper types { s with checked := insert t s.checked } (components (types t))
      (complaints isUpper (types t)) s') : Checks isUpper types s [t] [] s' where
  marked := .visit h.marked
  output := by
    have hall := h.output
    have hdue : due isUpper types (insert t s.checked) =
        complaints isUpper (types t) + due isUpper types s.checked :=
      Finset.sum_insert ht
    rw [hdue] at hall
    rw [Multiset.coe_nil, add_zero]
    apply add_right_cancel (b := (complaints isUpper (types t) : Multiset String))
    calc (s'.output : Multiset String) + due isUpper types s.checked +
          complaints isUpper (types t)
        = s'.output + (complaints isUpper (types t) + due isUpper types s.checked) := by abel
      _ = s.output + complaints isUpper (types t) + due isUpper types s'.checked := hall
      _ = s.output + due isUpper types s'.checked + complaints isUpper (types t) := by abel
  errorCount := h.errorCount

theorem of_checkName (name : String) (s : State τ) (f : Field τ) :
    Checks isUpper types s []
      (if isUpper (decodeRuneInString f.name) = false then [lowerCaseError f.name name] else [])
      (checkName isUpper name s f) := by
  unfold checkName
  split
  next =>
    constructor
    · exact .nil
    · simp only [Multiset.coe_add]
    · simp only [List.length_append, List.length_singleton]
      omega
  next => exact .nil

variable [Fintype τ] [DecidableEq τ]

/-- A loop of checks, each of which returns as long as fewer than `n` types are left. -/
theorem foldlM {β : Type*} {step : State τ → β → Option (State τ)} {node : β → τ}
    {lines : β → List String} {n : ℕ}
    (hstep : ∀ s x, s.checkedᶜ.card < n →
      ∃ s', step s x = some s' ∧ Checks isUpper types s [node x] (lines x) s')
    (l : List β) (hs : s.checkedᶜ.card < n) :
    ∃ s', l.foldlM step s = some s' ∧
      Checks isUpper types s (l.map node) (l.flatMap lines) s' := by
  induction l generalizing s with
  | nil => exact ⟨s, rfl, .nil⟩
  | cons x l ih =>
    obtain ⟨u, hu, hfirst⟩ := hstep s x hs
    obtain ⟨s', hs', hrest⟩ := ih (hfirst.marked.card_compl_le.trans_lt hs)
    exact ⟨s', by rw [List.foldlM_cons, hu]; exact hs', hfirst.append hrest⟩

/-- The switch checks the components of a type and prints what is due for the type itself. -/
theorem of_checkKind {check : State τ → τ → Option (State τ)} {n : ℕ}
    (hcheck : ∀ s t, s.checkedᶜ.card < n →
      ∃ s', check s t = some s' ∧ Checks isUpper types s [t] [] s')
    (info : TypeInfo τ) (hs : s.checkedᶜ.card < n) :
    ∃ s', checkKind isUpper check s info = some s' ∧
      Checks isUpper types s (components info) (complaints isUpper info) s' := by
  cases info with
  | struct name fields =>
    rw [complaints_struct]
    apply foldlM _ fields hs
    intro s f hs
    have hname : Checks isUpper types s [] _ (checkName isUpper name s f) := of_checkName name s f
    obtain ⟨s', hs', htype⟩ := hcheck _ f.type (hname.marked.card_compl_le.trans_lt hs)
    have hboth := hname.append htype
    rw [List.append_nil] at hboth
    exact ⟨s', hs', hboth⟩
  | slice elem => exact hcheck s elem hs
  | array elem => exact hcheck s elem hs
  | ptr elem => exact hcheck s elem hs
  | map key elem =>
    obtain ⟨u, hu, helem⟩ := hcheck s elem hs
    obtain ⟨s', hs', hkey⟩ := hcheck u key (helem.marked.card_compl_le.trans_lt hs)
    exact ⟨s', Option.bind_eq_some_iff.mpr ⟨u, hu, hs'⟩, helem.append hkey⟩
  | other => exact ⟨s, rfl, .nil⟩

/-- A call returns, because every nested call has marked a type that was not marked before. -/
theorem of_checkType {fuel : ℕ} (t : τ) (hs : s.checkedᶜ.card < fuel) :
    ∃ s', checkType isUpper types fuel s t = some s' ∧ Checks isUpper types s [t] [] s' := by
  induction fuel generalizing s t with
  | zero => omega
  | succ fuel ih =>
    unfold checkType
    by_cases ht : t ∈ s.checked
    · exact ⟨s, if_pos ht, .again ht⟩
    · have hless := card_compl_insert_lt ht
      have hmark : (insert t s.checked)ᶜ.card < fuel := by omega
      obtain ⟨s', hs', hkind⟩ := of_checkKind (s := { s with checked := insert t s.checked })
        (fun s t hs => ih t hs) (types t) hmark
      exact ⟨s', by rw [if_neg ht, hs'], .visit ht hkind⟩

theorem of_calls {fuel : ℕ} (ts : List τ) (hs : s.checkedᶜ.card < fuel) :
    ∃ s', ts.foldlM (checkType isUpper types fuel) s = some s' ∧
      Checks isUpper types s ts [] s' := by
  obtain ⟨s', hs', hall⟩ : ∃ s', ts.foldlM (checkType isUpper types fuel) s = some s' ∧
      Checks isUpper types s (ts.map fun t => t) (ts.flatMap fun _ => []) s' :=
    foldlM (fun s t hs => of_checkType t hs) ts hs
  have hnone : (ts.flatMap fun _ => ([] : List String)) = [] := by simp
  rw [List.map_id', hnone] at hall
  exact ⟨s', hs', hall⟩

end Checks

section Calls
variable {τ : Type*}

theorem card_due (isUpper : Char → Bool) (types : τ → TypeInfo τ) (V : Finset τ) :
    (due isUpper types V).card = ∑ t ∈ V, (badFields isUpper (types t)).length := by
  unfold due
  rw [Multiset.card_sum]
  exact Finset.sum_congr rfl fun t _ => length_complaints isUpper (types t)

/-- Any calls of `checkType`, one after the other from an empty table, all return. The table then
holds what the arguments reach, and every bad field of a struct type in it was counted and
printed once. -/
theorem checkType_calls_exact [Fintype τ] [DecidableEq τ] (isUpper : Char → Bool)
    (types : τ → TypeInfo τ) (ts : List τ) (errorCount : ℕ) (output : List String) :
    ∃ s : State τ,
      (∀ fuel, Fintype.card τ < fuel →
        ts.foldlM (checkType isUpper types fuel) ⟨∅, errorCount, output⟩ = some s) ∧
      (∀ t, t ∈ s.checked ↔ Reachable (fun t => components (types t)) ts t) ∧
      s.errorCount = errorCount + ∑ t ∈ s.checked, (badFields isUpper (types t)).length ∧
      (s.output : Multiset String) =
        output + ∑ t ∈ s.checked, (complaints isUpper (types t) : Multiset String) := by
  have hstart : (∅ᶜ : Finset τ).card < Fintype.card τ + 1 := by simp
  obtain ⟨s, hs, hall⟩ : ∃ s,
      ts.foldlM (checkType isUpper types (Fintype.card τ + 1)) ⟨∅, errorCount, output⟩ = some s ∧
      Checks isUpper types ⟨∅, errorCount, output⟩ ts [] s := Checks.of_calls ts hstart
  have houtput : (s.output : Multiset String) = output + due isUpper types s.checked := by
    have hlines := hall.output
    simpa [due] using hlines
  have hcount : s.errorCount = errorCount + (due isUpper types s.checked).card := by
    have hcounted := hall.errorCount
    have hlength := congrArg Multiset.card houtput
    rw [Multiset.card_add, Multiset.coe_card, Multiset.coe_card] at hlength
    simp only at hcounted
    omega
  refine ⟨s, ?_, ?_, ?_, houtput⟩
  · intro fuel hfuel
    exact foldlM_of_imp (fun s t s' => checkType_le hfuel) hs
  · intro t
    exact hall.marked.mem_iff
  · rw [hcount, card_due]

/-- The types of `TestCapital`: what is encoded is of type 0, what is decoded into of type 5. -/
def capitalTypes : Fin 8 → TypeInfo (Fin 8)
  | 0 => .slice 1
  | 1 => .map 2 4
  | 2 => .ptr 3
  | 3 => .struct "T4" [⟨"Yes", 4⟩, ⟨"no", 4⟩]
  | 4 => .other
  | 5 => .ptr 6
  | 6 => .slice 7
  | 7 => .map 3 4

/-- Encoding and decoding complain once about the field `no` of `T4`. -/
theorem capitalTypes_complaint : ∃ s : State (Fin 8),
    (∀ fuel, 8 < fuel →
      [0, 5].foldlM (checkType Char.isUpper capitalTypes fuel) ⟨∅, 0, []⟩ = some s) ∧
    s.errorCount = 1 ∧ s.output = [lowerCaseError "no" "T4"] := by
  obtain ⟨s, hs, -⟩ := checkType_calls_exact Char.isUpper capitalTypes [0, 5] 0 []
  rw [Fintype.card_fin] at hs
  have hresult : ([0, 5].foldlM (checkType Char.isUpper capitalTypes 9) ⟨∅, 0, []⟩).map
      (fun s => (s.errorCount, s.output)) = some (1, [lowerCaseError "no" "T4"]) := by
    decide +kernel
  rw [hs 9 (by decide), Option.map_some, Option.some.injEq, Prod.mk.injEq] at hresult
  exact ⟨s, hs, hresult.1, hresult.2⟩

end Calls

end Labgob
