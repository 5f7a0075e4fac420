import Mathlib.Data.List.Basic

/-! The names of the files of a job. The text of a name determines it, so that files may be
kept by structured names. -/
namespace MR

/-- The names of the files that workers write. Temporary files get fresh numbers. -/
inductive FileName where
  | inter (i r : ℕ)
  | out (r : ℕ)
  | mapTmp (n : ℕ)
  | outTmp (n : ℕ)
  deriving DecidableEq, Repr

/-- The name in the working directory. -/
def FileName.text : FileName → String
  | .inter i r => "mr-" ++ toString i ++ "-" ++ toString r
  | .out r => "mr-out-" ++ toString r
  | .mapTmp n => "mr-tmp-" ++ toString n
  | .outTmp n => "mr-out-tmp-" ++ toString n

theorem toDigits_injective {m n : ℕ} (h : Nat.toDigits 10 m = Nat.toDigits 10 n) : m = n := by
  have hback := congrArg (Nat.ofDigitChars 10 · 0) h
  simpa only [Nat.ofDigitChars_ten_toDigits] using hback

/-- A number begins with a digit. -/
theorem toDigits_append_ne {n : ℕ} {c : Char} (l l' : List Char) (hc : c.isDigit = false) :
    Nat.toDigits 10 n ++ l ≠ c :: l' := by
  intro h
  cases hn : Nat.toDigits 10 n with
  | nil => exact Nat.toDigits_ne_nil hn
  | cons d ds =>
    rw [hn, List.cons_append, List.cons.injEq] at h
    have hd : d.isDigit :=
      Nat.isDigit_of_mem_toDigits (by decide) (by decide) (hn ▸ List.mem_cons_self)
    rw [h.1, hc] at hd
    cases hd

theorem toDigits_ne_cons {n : ℕ} {c : Char} (l : List Char) (hc : c.isDigit = false) :
    Nat.toDigits 10 n ≠ c :: l := by
  rw [← List.append_nil (Nat.toDigits 10 n)]
  exact toDigits_append_ne [] l hc

theorem dash_not_mem_toDigits (n : ℕ) : '-' ∉ Nat.toDigits 10 n := by
  intro h
  have hd := Nat.isDigit_of_mem_toDigits (by decide) (by decide) h
  cases hd

/-- The characters of a name after the common `mr-`. -/
def FileName.suffix : FileName → List Char
  | .inter i r => Nat.toDigits 10 i ++ '-' :: Nat.toDigits 10 r
  | .out r => 'o' :: 'u' :: 't' :: '-' :: Nat.toDigits 10 r
  | .mapTmp n => 't' :: 'm' :: 'p' :: '-' :: Nat.toDigits 10 n
  | .outTmp n => 'o' :: 'u' :: 't' :: '-' :: 't' :: 'm' :: 'p' :: '-' :: Nat.toDigits 10 n

theorem FileName.toList_text (f : FileName) : f.text.toList = 'm' :: 'r' :: '-' :: f.suffix := by
  cases f <;> simp [FileName.text, FileName.suffix]

/-- Different files have different names in the directory. -/
theorem FileName.text_injective : Function.Injective FileName.text := by
  intro f g h
  have hs : f.suffix = g.suffix := by
    have hlist := congrArg String.toList h
    simpa only [FileName.toList_text, List.cons.injEq, true_and] using hlist
  cases f with
  | inter i r =>
    cases g with
    | inter i' r' =>
      obtain ⟨hi, -, hr⟩ := (List.append_cons_inj_of_notMem (dash_not_mem_toDigits i)
        (dash_not_mem_toDigits r)).mp hs
      rw [toDigits_injective hi, toDigits_injective hr]
    | out | mapTmp | outTmp => exact absurd hs (toDigits_append_ne _ _ (by decide))
  | out r =>
    cases g with
    | inter => exact absurd hs.symm (toDigits_append_ne _ _ (by decide))
    | out r' =>
      simp only [FileName.suffix, List.cons.injEq, true_and] at hs
      rw [toDigits_injective hs]
    | mapTmp => simp [FileName.suffix] at hs
    | outTmp =>
      simp only [FileName.suffix, List.cons.injEq, true_and] at hs
      exact absurd hs (toDigits_ne_cons _ (by decide))
  | mapTmp n =>
    cases g with
    | inter => exact absurd hs.symm (toDigits_append_ne _ _ (by decide))
    | mapTmp n' =>
      simp only [FileName.suffix, List.cons.injEq, true_and] at hs
      rw [toDigits_injective hs]
    | out | outTmp => simp [FileName.suffix] at hs
  | outTmp n =>
    cases g with
    | inter => exact absurd hs.symm (toDigits_append_ne _ _ (by decide))
    | out r =>
      simp only [FileName.suffix, List.cons.injEq, true_and] at hs
      exact absurd hs.symm (toDigits_ne_cons _ (by decide))
    | mapTmp => simp [FileName.suffix] at hs
    | outTmp n' =>
      simp only [FileName.suffix, List.cons.injEq, true_and] at hs
      rw [toDigits_injective hs]

end MR
