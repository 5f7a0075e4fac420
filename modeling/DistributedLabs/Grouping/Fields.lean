import Mathlib.Data.List.Basic
import Mathlib.Data.List.Range
import Mathlib.Tactic.Common

/-! Splitting a text into fields: a loop that closes the open field at each separator finds, in
order, the longest stretches without a separator. -/
namespace Grouping
variable {α : Type*} (sep : α → Bool)

/-- The loop, with the open field, which is empty if none is open. -/
def fieldsFrom : List α → List α → List (List α)
  | field, [] => if field = [] then [] else [field]
  | field, a :: s =>
      if sep a then
        if field = [] then fieldsFrom [] s else field :: fieldsFrom [] s
      else fieldsFrom (field ++ [a]) s

def fieldsFunc (s : List α) : List (List α) := fieldsFrom sep [] s

/-- A field starts at a position that has no separator, at the beginning or after a separator. -/
def starts (s : List α) (i : ℕ) : Bool :=
  (s[i]?).any (fun a => !sep a) && (i == 0 || (s[i - 1]?).any sep)

/-- The stretch without a separator from a position on. -/
def fieldAt (s : List α) (i : ℕ) : List α := (s.drop i).takeWhile fun a => !sep a

/-- The stretches from all positions at which a field starts. -/
def stretches (s : List α) : List (List α) :=
  ((List.range s.length).filter (starts sep s)).map (fieldAt sep s)

variable {sep} {field s : List α} {a : α}

/-- In a text that begins with an open field, no other field starts within it. -/
theorem filter_starts_field (hf : ∀ b ∈ field, sep b = false) :
    (List.range field.length).filter (starts sep (field ++ s)) =
      if field = [] then [] else [0] := by
  cases field with
  | nil => rfl
  | cons b field =>
    have hinside : (List.range field.length).filter
        (starts sep (b :: field ++ s) ∘ Nat.succ) = [] := by
      rw [List.filter_eq_nil_iff]
      intro i hi
      have hlt : i < (b :: field).length := by
        rw [List.length_cons]
        exact (List.mem_range.mp hi).trans (Nat.lt_succ_self _)
      have hprev := hf _ (List.getElem_mem hlt)
      have hget : (b :: field ++ s)[i]? = some (b :: field)[i] := by
        rw [List.getElem?_append_left hlt, List.getElem?_eq_getElem hlt]
      simp only [Function.comp_apply, starts, Nat.succ_eq_add_one, Nat.add_sub_cancel, hget,
        Option.any_some, hprev]
      simp
    have hfirst : starts sep (b :: field ++ s) 0 = true := by
      simp [starts, hf b (by simp)]
    rw [List.length_cons, List.range_succ_eq_map, List.filter_cons_of_pos hfirst, List.filter_map,
      hinside]
    rfl

theorem fieldAt_field (hf : ∀ b ∈ field, sep b = false) (hs : ∀ b ∈ s.head?, sep b = true) :
    fieldAt sep (field ++ s) 0 = field := by
  have hall : ∀ b ∈ field, (!sep b) = true := fun b hb => by simp [hf b hb]
  rw [fieldAt, List.drop_zero, List.takeWhile_append_of_pos hall]
  cases s with
  | nil => simp
  | cons b s => simp [hs b rfl]

theorem getElem?_after (i : ℕ) : (field ++ a :: s)[field.length + (i + 1)]? = s[i]? := by
  rw [List.getElem?_append_right (Nat.le_add_right _ _), Nat.add_sub_cancel_left,
    List.getElem?_cons_succ]

theorem starts_after (ha : sep a = true) (i : ℕ) :
    starts sep (field ++ a :: s) (field.length + (i + 1)) = starts sep s i := by
  cases i with
  | zero =>
    have hprev : (field ++ a :: s)[field.length + (0 + 1) - 1]? = some a := by simp
    simp only [starts, getElem?_after, hprev, Option.any_some, ha]
    simp
  | succ i =>
    have hprev : field.length + (i + 1 + 1) - 1 = field.length + (i + 1) := by omega
    have hpos : (field.length + (i + 1 + 1) == 0) = false := beq_eq_false_iff_ne.mpr (by omega)
    simp only [starts, hprev, hpos, getElem?_after, Nat.add_sub_cancel]
    simp

theorem fieldAt_after (i : ℕ) :
    fieldAt sep (field ++ a :: s) (field.length + (i + 1)) = fieldAt sep s i := by
  rw [fieldAt, List.drop_append, List.drop_eq_nil_of_le (Nat.le_add_right _ _), List.nil_append,
    Nat.add_sub_cancel_left, List.drop_succ_cons, fieldAt]

/-- A separator closes the open field, and the rest of the text is split by itself. -/
theorem stretches_separator (hf : ∀ b ∈ field, sep b = false) (ha : sep a = true) :
    stretches sep (field ++ a :: s) =
      (if field = [] then [] else [field]) ++ stretches sep s := by
  have hsep : starts sep (field ++ a :: s) field.length = false := by simp [starts, ha]
  have hfield := fieldAt_field (s := a :: s) hf (by simpa using ha)
  have hrest : (((List.range (s.length + 1)).map (field.length + ·)).filter
      (starts sep (field ++ a :: s))).map (fieldAt sep (field ++ a :: s)) = stretches sep s := by
    rw [List.range_succ_eq_map, List.map_cons, List.filter_cons_of_neg (by simp [hsep]),
      List.map_map, List.filter_map, List.map_map, stretches]
    congr 1
    · funext i
      exact fieldAt_after i
    · congr 1
      funext i
      exact starts_after ha i
  rw [stretches, List.length_append, List.length_cons, List.range_add, List.filter_append,
    List.map_append, hrest, filter_starts_field hf]
  split
  next => rfl
  next => simp [hfield]

theorem stretches_field (hf : ∀ b ∈ field, sep b = false) :
    stretches sep field = if field = [] then [] else [field] := by
  have hstarts := filter_starts_field (s := []) hf
  have hfield := fieldAt_field (s := []) hf (by simp)
  rw [List.append_nil] at hstarts hfield
  rw [stretches, hstarts]
  split
  next => rfl
  next => simp [hfield]

theorem fieldsFrom_eq (hf : ∀ b ∈ field, sep b = false) :
    fieldsFrom sep field s = stretches sep (field ++ s) := by
  induction s generalizing field with
  | nil => rw [fieldsFrom, List.append_nil, stretches_field hf]
  | cons a s ih =>
    rw [fieldsFrom]
    split
    next ha =>
      rw [stretches_separator hf ha, ih (by simp)]
      split <;> rfl
    next ha =>
      have hopen : ∀ b ∈ field ++ [a], sep b = false := by
        intro b hb
        rcases List.mem_append.mp hb with hb | hb
        · exact hf b hb
        · rw [List.mem_singleton.mp hb]
          exact Bool.eq_false_iff.mpr ha
      rw [ih hopen, List.append_assoc, List.singleton_append]

/-- The fields are the stretches from the positions at which a field starts, in order. -/
theorem fieldsFunc_eq (s : List α) : fieldsFunc sep s = stretches sep s :=
  fieldsFrom_eq (by simp)

/-- A field occurs as often as there are positions at which it starts. -/
theorem count_fieldsFunc [DecidableEq α] (w s : List α) :
    (fieldsFunc sep s).count w =
      (List.range s.length).countP fun i => fieldAt sep s i == w && starts sep s i := by
  rw [fieldsFunc_eq, stretches, List.count, List.countP_map, List.countP_filter]
  rfl

end Grouping
