import CategorizedIndex.Text.Digits
import Mathlib.Data.List.Basic
import Mathlib.Data.Nat.Digits.Defs

/-! # Written numbers

Decimal digits as they are written: with no zero in front, or with as many as fill a width.
-/
namespace CategorizedIndex.Text

variable {n width : Nat} {c : Char} {s rest front back : List Char}

theorem toNat_of_isDigit (h : c.isDigit = true) : 48 ≤ c.toNat ∧ c.toNat ≤ 57 := by
  simp only [Char.isDigit, Bool.and_eq_true, decide_eq_true_eq, ge_iff_le, UInt32.le_iff_toNat_le]
    at h
  exact h

theorem ne_of_all {p : Char → Bool} {marks : List Char} (hc : p c = true)
    (hmarks : (marks.all fun mark => !p mark) = true) : ∀ mark ∈ marks, c ≠ mark := by
  rintro mark hmark rfl
  have hout := List.all_eq_true.mp hmarks c hmark
  rw [hc] at hout
  cases hout

/-- One digit or more, and nothing else. -/
structure IsDigits (s : List Char) : Prop where
  ne_nil : s ≠ []
  isDigit : ∀ c ∈ s, c.isDigit = true

namespace IsDigits

theorem append_left (hfront : ∀ c ∈ front, c.isDigit = true) (hback : IsDigits back) :
    IsDigits (front ++ back) :=
  ⟨List.append_ne_nil_of_right_ne_nil front hback.ne_nil, fun c hc =>
    (List.mem_append.mp hc).elim (hfront c) (hback.isDigit c)⟩

theorem append_right (hfront : IsDigits front) (hback : ∀ c ∈ back, c.isDigit = true) :
    IsDigits (front ++ back) :=
  ⟨List.append_ne_nil_of_left_ne_nil hfront.ne_nil back, fun c hc =>
    (List.mem_append.mp hc).elim (hfront.isDigit c) (hback c)⟩

/-- No sign or mark stands where digits do. -/
theorem append_ne_cons (hs : IsDigits s) (hc : c.isDigit = false) (rest more : List Char) :
    s ++ rest ≠ c :: more := by
  intro h
  have hhead := congrArg List.head? h
  rw [List.head?_append_of_ne_nil _ hs.ne_nil, List.head?_cons] at hhead
  rw [hs.isDigit c (List.mem_of_mem_head? hhead)] at hc
  cases hc

theorem takeWhile_append (hs : IsDigits s) (hrest : ∀ c ∈ rest.head?, c.isDigit = false) :
    (s ++ rest).takeWhile Char.isDigit = s := by
  rw [List.takeWhile_append_of_pos hs.isDigit]
  cases rest with
  | nil => simp
  | cons c rest => simp [hrest c rfl]

theorem dropWhile_append (hs : IsDigits s) (hrest : ∀ c ∈ rest.head?, c.isDigit = false) :
    (s ++ rest).dropWhile Char.isDigit = rest := by
  rw [List.dropWhile_append_of_pos hs.isDigit]
  cases rest with
  | nil => rfl
  | cons c rest => simp [hrest c rfl]

end IsDigits

theorem isDigit_of_mem_replicate_zero {k : Nat} (h : c ∈ List.replicate k '0') :
    c.isDigit = true := by
  rw [List.eq_of_mem_replicate h]
  decide

theorem isDigits_decimal (n : Nat) : IsDigits (decimal n) :=
  ⟨Nat.toDigits_ne_nil, fun _ => Nat.isDigit_of_mem_toDigits (by decide) (by decide)⟩

theorem isDigits_padded (width n : Nat) : IsDigits (padded width n) :=
  .append_left (fun _ => isDigit_of_mem_replicate_zero) (isDigits_decimal n)

/-- No zero stands in front of other digits. -/
theorem eq_zero_of_head?_decimal (h : (decimal n).head? = some '0') : n = 0 := by
  induction n using Nat.strongRecOn with
  | _ n ih =>
    rcases Nat.lt_or_ge n 10 with hsmall | hlarge
    · rw [decimal, Nat.toDigits_of_lt_base hsmall, List.head?_singleton, Option.some_inj,
        Nat.digitChar_eq_zero] at h
      exact h
    · rw [decimal, Nat.toDigits_of_base_le (by decide) hlarge,
        List.head?_append_of_ne_nil _ Nat.toDigits_ne_nil] at h
      have hzero : n / 10 = 0 := ih (n / 10) (by omega) h
      omega

theorem length_padded (hwidth : 0 < width) (h : n < 10 ^ width) :
    (padded width n).length = width := by
  have hlength : (decimal n).length ≤ width :=
    (Nat.length_toDigits_le_iff (by decide) hwidth).mpr h
  rw [padded, filled, List.length_append, List.length_replicate]
  omega

theorem digitsValue_append (front back : List Char) :
    digitsValue (front ++ back) = 10 ^ back.length * digitsValue front + digitsValue back :=
  (Nat.ofDigitChars_append 0).trans Nat.ofDigitChars_eq_ofDigitChars_zero

theorem digitsValue_padded (width n : Nat) : digitsValue (padded width n) = n := by
  have hzeros : digitsValue (List.replicate (width - (decimal n).length) '0') = 0 :=
    Nat.ofDigitChars_replicate_zero
  rw [padded, filled, digitsValue_append, hzeros, Nat.mul_zero, Nat.zero_add, digitsValue_decimal]

theorem digitsValue_eq_ofDigits (s : List Char) :
    digitsValue s = Nat.ofDigits 10 (s.map fun c => c.toNat - '0'.toNat).reverse := by
  rw [Nat.ofDigits_eq_foldr, List.foldr_reverse, List.foldl_map, digitsValue]
  congr 1
  funext total c
  exact Nat.add_comm _ _

end CategorizedIndex.Text
