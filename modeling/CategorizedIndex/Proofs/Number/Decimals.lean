import CategorizedIndex.Number.Layout
import CategorizedIndex.Proofs.Text.Digits

/-! # Shortest decimals and their layout

A decimal that rounds to a number other than zero is not zero, so a decimal without digits is the
one for zero. Set with a point, it has digits on both sides of the point and no zero in front of
other digits.
-/
namespace CategorizedIndex
open Text (IsDigits)

namespace Number

variable {x : Number} {tie : Tie}

theorem significand_pos (h : x.magnitude ≠ 0) : 0 < x.significand := by
  unfold significand
  have hbits : 0 < Nat.pow 2 fractionBits := by decide
  split
  · next hsmall => rwa [Nat.mod_eq_of_lt hsmall, Nat.pos_iff_ne_zero]
  · exact Nat.add_pos_left hbits _

theorem low_pos (h : x.magnitude ≠ 0) : 0 < x.rounding.low := by
  have hsignificand := significand_pos h
  refine Nat.mul_pos ?_ (Nat.pow_pos (by decide))
  split <;> omega

namespace Rounding

variable {r : Rounding} {scale : Int} {digits : Nat}

theorem pos_of_holds (hlow : 0 < r.low) (h : r.holds scale digits = true) : 0 < digits := by
  have hpoint : 0 < r.low * scaleUp scale := Nat.mul_pos hlow (Nat.pow_pos (by decide))
  rw [Nat.pos_iff_ne_zero]
  rintro rfl
  simp only [holds, Nat.zero_mul] at h
  split at h
  · rw [Bool.and_eq_true, decide_eq_true_eq] at h
    omega
  · rw [Bool.and_eq_true, decide_eq_true_eq] at h
    omega

theorem pos_of_onGrid (hlow : 0 < r.low) (h : r.onGrid tie scale = some digits) :
    0 < digits := by
  unfold onGrid at h
  simp only at h
  split at h
  · cases h
  · next hfloor _ =>
    cases h
    exact pos_of_holds hlow hfloor
  · cases h
    exact Nat.succ_pos _
  · next hfloor _ =>
    have hpos := pos_of_holds hlow hfloor
    split at h
    · cases h
      exact hpos
    · cases h
      exact Nat.succ_pos _
    · cases h
      split
      · exact hpos
      · exact Nat.succ_pos _

theorem scale_eq_zero (hlow : 0 < r.low) (h : (r.shortest tie).digits = 0) :
    (r.shortest tie).scale = 0 := by
  unfold shortest at h ⊢
  simp only at h ⊢
  split at h
  · next decimal hfound =>
    obtain ⟨scale, -, hscale⟩ := List.exists_of_findSome?_eq_some hfound
    obtain ⟨digits, hgrid, rfl⟩ := Option.map_eq_some_iff.mp hscale
    exact absurd h (pos_of_onGrid hlow hgrid).ne'
  · rfl

end Rounding

end Number

namespace Decimal

variable {d : Decimal}

/-- Only the zero of scale zero is without digits. -/
def Proper (d : Decimal) : Prop := d.digits = 0 → d.scale = 0

theorem Proper.stripped (hd : d.Proper) (fuel : Nat) : (d.stripped fuel).Proper := by
  induction fuel generalizing d with
  | zero => exact hd
  | succ fuel ih =>
    rw [Decimal.stripped]
    split
    · next h =>
      rw [Bool.and_eq_true, decide_eq_true_eq, decide_eq_true_eq] at h
      refine ih fun hzero => ?_
      change d.digits / 10 = 0 at hzero
      exact absurd hzero (by omega)
    · exact hd

theorem proper_shortest (x : Number) (tie : Tie) : (x.shortest tie).Proper := by
  unfold Number.shortest
  split
  · exact fun _ => rfl
  · next h => exact Proper.stripped (Number.Rounding.scale_eq_zero (Number.low_pos h)) 17

theorem head?_digitChars (h : d.digitChars.head? = some '0') : d.digits = 0 :=
  Text.eq_zero_of_head?_decimal h

/-- A decimal set with a point: digits, the point, and digits. -/
theorem Proper.exists_setPositional (hd : d.Proper) : ∃ whole fraction,
    d.setPositional true = whole ++ '.' :: fraction ∧ IsDigits whole ∧ IsDigits fraction ∧
      (whole.head? = some '0' → whole = ['0']) := by
  have hdigits : IsDigits d.digitChars := Text.isDigits_decimal d.digits
  unfold setPositional
  simp only
  split
  · exact ⟨['0'], List.replicate (-d.pointPlace).toNat '0' ++ d.digitChars, by simp,
      ⟨by simp, by simp⟩, .append_left (fun _ => Text.isDigit_of_mem_replicate_zero) hdigits,
      fun _ => rfl⟩
  · next hplace =>
    split
    · next hlength =>
      refine ⟨d.digitChars ++ List.replicate (d.pointPlace.toNat - d.digitChars.length) '0', ['0'],
        by simp, hdigits.append_right fun _ => Text.isDigit_of_mem_replicate_zero,
        ⟨by simp, by simp⟩, fun hhead => ?_⟩
      rw [List.head?_append_of_ne_nil _ hdigits.ne_nil] at hhead
      have hzero := head?_digitChars hhead
      have hscale := hd hzero
      simp [pointPlace, digitChars, hzero, hscale, Text.decimal]
    · next hlength =>
      have hwhole : d.digitChars.take d.pointPlace.toNat ≠ [] := by
        rw [Ne, List.take_eq_nil_iff, not_or]
        exact ⟨by omega, hdigits.ne_nil⟩
      refine ⟨d.digitChars.take d.pointPlace.toNat, d.digitChars.drop d.pointPlace.toNat, rfl,
        ⟨hwhole, fun c hc => hdigits.isDigit c (List.mem_of_mem_take hc)⟩,
        ⟨?_, fun c hc => hdigits.isDigit c (List.mem_of_mem_drop hc)⟩, fun hhead => ?_⟩
      · rw [Ne, List.drop_eq_nil_iff]
        omega
      · rw [List.head?_take, if_neg (by omega)] at hhead
        have hzero := head?_digitChars hhead
        have hscale := hd hzero
        simp [pointPlace, digitChars, hzero, hscale, Text.decimal] at hlength

end Decimal

end CategorizedIndex
