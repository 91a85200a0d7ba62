import CategorizedIndex.Time.Calendar
import Mathlib.Tactic.IntervalCases

/-! # The calendar

Every day has a valid date, and its date is that of no other day. A cycle of 400 years consists
of centuries, these of spans of four years and these of years; all of a kind have one length but
the last one of a longer unit.
-/
namespace CategorizedIndex.Date

variable {century span year dayOfYear : Nat}

def yearOf (dayOfCycle : Nat) : Nat :=
  (dayOfCycle - dayOfCycle / 1460 + dayOfCycle / 36524 - dayOfCycle / 146096) / 365

def yearStart (year : Nat) : Nat := year * 365 + year / 4 - year / 100

def ofMarch (year : Int) (dayOfYear : Nat) : Date :=
  let marchMonth := (5 * dayOfYear + 2) / 153
  let month := if marchMonth < 10 then marchMonth + 3 else marchMonth - 9
  ⟨year + (if month ≤ 2 then 1 else 0), month, dayOfYear - daysBeforeMonth marchMonth + 1⟩

/-- The quotients of a day split along its century, its span and its day of the span. -/
theorem yearOf_eq (century span dayOfSpan : Nat) (hcentury : century ≤ 3) (hspan : dayOfSpan < 1461)
    (hday : 1461 * span + dayOfSpan < 36524) :
    yearOf (36524 * century + (1461 * span + dayOfSpan)) =
      100 * century + 4 * span + min (dayOfSpan / 365) 3 := by
  generalize hdoc : 36524 * century + (1461 * span + dayOfSpan) = doc
  have hcenturies : doc / 36524 = century := by omega
  have hcycles : doc / 146096 = 0 := by omega
  have hspans : doc / 1460 =
      25 * century + span + (24 * century + span + dayOfSpan) / 1460 := by omega
  have hyears : yearOf doc = 100 * century + 4 * span +
      (dayOfSpan - (24 * century + span + dayOfSpan) / 1460) / 365 := by
    rw [yearOf, hspans, hcenturies, hcycles]
    omega
  rw [hyears]
  omega

/-- A day of the cycle in its century, span and year. Only a leap year, which ends a span of four
years but then a century only if it ends the cycle, has the 366th day. -/
theorem exists_yearOf (dayOfCycle : Nat) (h : dayOfCycle < daysPerCycle) :
    ∃ century span year dayOfYear, century ≤ 3 ∧ span ≤ 24 ∧ year ≤ 3 ∧ dayOfYear ≤ 365 ∧
      (dayOfYear = 365 → year = 3 ∧ (span < 24 ∨ century = 3)) ∧
      dayOfCycle = 36524 * century + 1461 * span + 365 * year + dayOfYear ∧
      yearOf dayOfCycle = 100 * century + 4 * span + year := by
  change dayOfCycle < 146097 at h
  rcases Nat.lt_or_eq_of_le (Nat.le_of_lt_succ h) with h | rfl
  · have hyear := yearOf_eq (dayOfCycle / 36524) (dayOfCycle % 36524 / 1461)
      (dayOfCycle % 36524 % 1461) (by omega) (by omega) (by omega)
    rw [Nat.div_add_mod, Nat.div_add_mod] at hyear
    refine ⟨_, _, _, dayOfCycle % 36524 % 1461 - 365 * min (dayOfCycle % 36524 % 1461 / 365) 3,
      ?_, ?_, ?_, ?_, ?_, ?_, hyear⟩ <;> omega
  · exact ⟨3, 24, 3, 365, by decide, by decide, by decide, by decide, by decide, by decide,
      by decide⟩

theorem yearStart_eq (century : Nat) (hspan : span ≤ 24) (hyear : year ≤ 3) :
    yearStart (100 * century + 4 * span + year) = 36524 * century + 1461 * span + 365 * year := by
  have hspans : (100 * century + 4 * span + year) / 4 = 25 * century + span := by omega
  have hcenturies : (100 * century + 4 * span + year) / 100 = century := by omega
  rw [yearStart, hspans, hcenturies]
  omega

theorem isLeap_of_last (cycle : Int) (hlast : span < 24 ∨ century = 3) (hspan : span ≤ 24) :
    isLeap ((100 * century + 4 * span + 3 : Nat) + cycle * 400 + 1) = true := by
  rw [isLeap, Bool.and_eq_true, Bool.or_eq_true, beq_iff_eq, bne_iff_ne, beq_iff_eq]
  omega

/-- The month and the day of the month are found in the year from March on. -/
theorem daysBeforeMonth_le (h : dayOfYear ≤ 365) :
    (5 * dayOfYear + 2) / 153 ≤ 11 ∧
      daysBeforeMonth ((5 * dayOfYear + 2) / 153) ≤ dayOfYear ∧
      dayOfYear < daysBeforeMonth ((5 * dayOfYear + 2) / 153 + 1) := by
  unfold daysBeforeMonth
  omega

theorem isValid_ofMarch {year : Int} (h : dayOfYear ≤ 365)
    (hleap : dayOfYear = 365 → isLeap (year + 1) = true) :
    (ofMarch year dayOfYear).isValid = true := by
  obtain ⟨hmonth, hfirst, hlast⟩ := daysBeforeMonth_le h
  unfold ofMarch
  generalize (5 * dayOfYear + 2) / 153 = marchMonth at hmonth hfirst hlast
  simp only [daysBeforeMonth] at hfirst hlast
  simp only [isValid, monthLength, daysBeforeMonth, Bool.and_eq_true, decide_eq_true_eq]
  rcases Nat.lt_or_eq_of_le hmonth with hother | rfl
  · interval_cases marchMonth <;>
    · simp
      omega
  -- The length of the last month, February, is the only one that depends on the year.
  · simp only [Nat.reduceLT, if_false, Nat.reduceSub, Nat.reduceLeDiff, if_true]
    cases hyear : isLeap (year + 1) with
    | false =>
      rw [hyear] at hleap
      simp at hleap ⊢
      omega
    | true =>
      simp
      omega

theorem toDays_ofMarch {yearOfCycle : Nat} (hyear : yearOfCycle < 400) (cycle : Int)
    (h : dayOfYear ≤ 365) : (ofMarch (yearOfCycle + cycle * 400) dayOfYear).toDays =
      cycle * daysPerCycle + (yearStart yearOfCycle + dayOfYear : Nat) - epochShift := by
  obtain ⟨hmonth, hfirst, -⟩ := daysBeforeMonth_le h
  unfold ofMarch
  generalize (5 * dayOfYear + 2) / 153 = marchMonth at hmonth hfirst
  have hcycle : ((yearOfCycle : Int) + cycle * 400) / 400 = cycle := by omega
  have hrest : (((yearOfCycle : Int) + cycle * 400) % 400).toNat = yearOfCycle := by omega
  have hday : daysBeforeMonth marchMonth + (dayOfYear - daysBeforeMonth marchMonth + 1) - 1 =
    dayOfYear := by omega
  unfold toDays
  by_cases hearly : marchMonth < 10
  · have hnumber : (marchMonth + 3 + 9) % 12 = marchMonth := by omega
    have hyears : ¬marchMonth + 3 ≤ 2 := by omega
    simp only [if_pos hearly, if_neg hyears, hnumber, add_zero, hcycle, hrest, hday]
    rfl
  · have hnumber : (marchMonth - 9 + 9) % 12 = marchMonth := by omega
    have hyears : marchMonth - 9 ≤ 2 := by omega
    simp only [if_neg hearly, if_pos hyears, hnumber, add_sub_cancel_right, hcycle, hrest, hday]
    rfl

theorem ofDays_eq (days : Int) : ∃ (cycle : Int) (yearOfCycle dayOfYear : Nat),
    ofDays days = ofMarch (yearOfCycle + cycle * 400) dayOfYear ∧ yearOfCycle < 400 ∧
      dayOfYear ≤ 365 ∧
      (dayOfYear = 365 → isLeap (yearOfCycle + cycle * 400 + 1) = true) ∧
      days = cycle * daysPerCycle + (yearStart yearOfCycle + dayOfYear : Nat) - epochShift := by
  have hpositive : (0 : Int) < daysPerCycle := by decide
  have hbelow := Int.emod_lt_of_pos (days + epochShift) hpositive
  have hnonneg := Int.emod_nonneg (days + epochShift) hpositive.ne'
  have hsplit := Int.ediv_mul_add_emod (days + epochShift) daysPerCycle
  obtain ⟨century, span, year, dayOfYear, hcentury, hspan, hyear, hday, hlast, hdoc, hyearOf⟩ :=
    exists_yearOf ((days + epochShift) % daysPerCycle).toNat (by omega)
  have hstart := yearStart_eq century hspan hyear
  refine ⟨(days + epochShift) / daysPerCycle, 100 * century + 4 * span + year, dayOfYear, ?_,
    by omega, hday, fun h => ?_, ?_⟩
  · have hofYear : ((days + epochShift) % daysPerCycle).toNat -
        yearStart (100 * century + 4 * span + year) = dayOfYear := by omega
    rw [← hofYear, ← hyearOf]
    unfold yearStart
    rw [Nat.mul_comm _ 365]
    rfl
  · obtain ⟨rfl, hend⟩ := hlast h
    exact isLeap_of_last _ hend hspan
  · rw [hstart]
    omega

theorem isValid_ofDays (days : Int) : (ofDays days).isValid = true := by
  obtain ⟨cycle, yearOfCycle, dayOfYear, hdate, -, hday, hleap, -⟩ := ofDays_eq days
  rw [hdate]
  exact isValid_ofMarch hday hleap

theorem toDays_ofDays (days : Int) : (ofDays days).toDays = days := by
  obtain ⟨cycle, yearOfCycle, dayOfYear, hdate, hyear, hday, -, hdays⟩ := ofDays_eq days
  rw [hdate, toDays_ofMarch hyear cycle hday, ← hdays]

end CategorizedIndex.Date
