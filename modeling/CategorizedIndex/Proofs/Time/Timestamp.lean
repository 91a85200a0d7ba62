import CategorizedIndex.Proofs.Text.Blank
import CategorizedIndex.Proofs.Text.Digits
import CategorizedIndex.Proofs.Time.Calendar
import CategorizedIndex.Time.Read

/-! # Timestamps as data

A timestamp that is stored is read back: years of any length with their sign, fractions down to
the nanosecond in groups of three digits, and leap seconds, which show as second 60.
-/
namespace CategorizedIndex.Timestamp
open Text (IsDigits padded)

variable {s rest : List Char} {n width : Nat}

theorem trimLeft_digits (hs : IsDigits s) (rest : List Char) :
    Text.trimLeft (s ++ rest) = s ++ rest := by
  refine Text.trimLeft_eq_self fun c hc => ?_
  rw [List.head?_append_of_ne_nil _ hs.ne_nil] at hc
  exact Text.isBlank_of_isDigit (hs.isDigit c (List.mem_of_mem_head? hc))

theorem digits?_some (hs : IsDigits s) (rest : List Char) :
    digits? (some s.length) (s ++ rest) = some (s, rest) := by
  have htake : ((s ++ rest).takeWhile Char.isDigit).take s.length = s := by
    rw [List.takeWhile_append_of_pos hs.isDigit, List.take_left]
  simp [digits?, htake, hs.ne_nil]

theorem digits?_none (hs : IsDigits s) (hrest : ∀ c ∈ rest.head?, c.isDigit = false) :
    digits? none (s ++ rest) = some (s, rest) := by
  simp [digits?, hs.takeWhile_append hrest, hs.ne_nil]

theorem digits?_padded (hwidth : 0 < width) (h : n < 10 ^ width) (rest : List Char) :
    digits? (some width) (padded width n ++ rest) = some (padded width n, rest) := by
  have hread := digits?_some (Text.isDigits_padded width n) rest
  rwa [Text.length_padded hwidth h] at hread

theorem number?_padded (hwidth : 0 < width) (h : n < 10 ^ width) (rest : List Char) :
    number? width (padded width n ++ rest) = some (n, rest) := by
  rw [number?, trimLeft_digits (Text.isDigits_padded width n), digits?_padded hwidth h]
  simp only [Option.map_some, Text.digitsValue_padded]

theorem bounded?_padded {low high : Nat} (hlow : low ≤ n) (hhigh : n ≤ high) (hwidth : n < 100)
    (rest : List Char) : bounded? low high (padded 2 n ++ rest) = some (n, rest) := by
  simp [bounded?, number?_padded (by decide : 0 < 2) hwidth, hlow, hhigh]

theorem mark?_cons {mark : Char} (h : Text.isBlank mark = false) (rest : List Char) :
    mark? mark (mark :: rest) = some rest := by
  rw [mark?, Text.trimLeft_eq_self (by rintro _ ⟨⟩; exact h)]
  simp

theorem year?_digits (hs : IsDigits s) (hlength : s.length = 4) (rest : List Char) :
    year? (s ++ rest) = some ((Text.digitsValue s : Int), rest) := by
  have hread := digits?_some hs rest
  rw [hlength] at hread
  rw [year?, trimLeft_digits hs]
  split
  · next heq => exact absurd heq (hs.append_ne_cons (by decide) _ _)
  · next heq => exact absurd heq (hs.append_ne_cons (by decide) _ _)
  · rw [hread]
    rfl

theorem year?_minus (hs : IsDigits s) (hrest : ∀ c ∈ rest.head?, c.isDigit = false) :
    year? ('-' :: (s ++ rest)) = some (-(Text.digitsValue s : Int), rest) := by
  rw [year?, Text.trimLeft_eq_self (by rintro _ ⟨⟩; decide)]
  simp only [digits?_none hs hrest, Option.map_some]

theorem year?_plus (hs : IsDigits s) (hrest : ∀ c ∈ rest.head?, c.isDigit = false) :
    year? ('+' :: (s ++ rest)) = some ((Text.digitsValue s : Int), rest) := by
  rw [year?, Text.trimLeft_eq_self (by rintro _ ⟨⟩; decide)]
  simp only [digits?_none hs hrest, Option.map_some]

/-- A year is read up to the hyphen behind it, whether it carries a sign or not. -/
theorem year?_yearText (year : Int) (rest : List Char) :
    year? (yearText year ++ '-' :: rest) = some (year, '-' :: rest) := by
  have hhyphen : ∀ c ∈ ('-' :: rest).head?, c.isDigit = false := by
    rintro _ ⟨⟩
    decide
  unfold yearText
  split
  · next h =>
    rw [Bool.and_eq_true, decide_eq_true_eq, decide_eq_true_eq] at h
    rw [year?_digits (Text.isDigits_padded 4 _) (Text.length_padded (by decide) (by omega)),
      Text.digitsValue_padded, Int.toNat_of_nonneg h.1]
  · next h =>
    rw [Bool.and_eq_true, decide_eq_true_eq, decide_eq_true_eq] at h
    split
    · next hnegative =>
      rw [List.cons_append, year?_minus (Text.isDigits_padded 4 _) hhyphen,
        Text.digitsValue_padded, Int.ofNat_natAbs_of_nonpos hnegative.le, neg_neg]
    · next hnegative =>
      rw [List.cons_append, year?_plus (Text.isDigits_padded 4 _) hhyphen,
        Text.digitsValue_padded, Int.natAbs_of_nonneg (not_lt.mp hnegative)]

theorem monthLength_le (year : Int) (month : Nat) : Date.monthLength year month ≤ 31 := by
  unfold Date.monthLength
  split
  · split <;> decide
  · split <;> decide

theorem date?_append {d : Date} (hd : d.isValid = true) (rest : List Char) :
    date? (yearText d.year ++ '-' :: (padded 2 d.month ++ '-' :: (padded 2 d.day ++ rest))) =
      some (d, rest) := by
  have hlength := monthLength_le d.year d.month
  have hbounds : (1 ≤ d.month ∧ d.month ≤ 12) ∧ 1 ≤ d.day ∧
      d.day ≤ Date.monthLength d.year d.month := by
    simpa [Date.isValid, and_assoc] using hd
  obtain ⟨⟨hmonth, hyear⟩, hday, hlast⟩ := hbounds
  have hhyphen : Text.isBlank '-' = false := by decide
  simp [date?, year?_yearText, mark?_cons hhyphen, bounded?_padded hmonth hyear (by omega),
    bounded?_padded hday (hlast.trans hlength) (by omega), hd]

theorem fraction?_padded {part : Nat} (hwidth : 0 < width) (hnine : width ≤ 9)
    (hpart : part < 10 ^ width) (hrest : ∀ c ∈ rest.head?, c.isDigit = false) :
    fraction? ('.' :: (padded width part ++ rest)) = some (part * 10 ^ (9 - width), rest) := by
  have hdigits := Text.isDigits_padded width part
  have hlength := Text.length_padded hwidth hpart
  have hrun : (padded width part).take 9 = padded width part :=
    List.take_of_length_le (hlength.trans_le hnine)
  have hread : digits? (some 9) (padded width part ++ rest) = some (padded width part, rest) := by
    simp [digits?, hdigits.takeWhile_append hrest, hrun, hdigits.ne_nil]
  simp [fraction?, hread, hdigits.dropWhile_append hrest, hlength, Text.digitsValue_padded]

/-- A fraction is read whatever its width. -/
theorem fraction?_append (h : n < billion)
    (hrest : ∀ c ∈ rest.head?, c.isDigit = false ∧ c ≠ '.') :
    fraction? (fractionText n ++ rest) = some (n, rest) := by
  have hdigit : ∀ c ∈ rest.head?, c.isDigit = false := fun c hc => (hrest c hc).1
  change n < 1000000000 at h
  unfold fractionText
  split
  · next hzero =>
    rw [hzero, List.nil_append, fraction?.eq_2]
    rintro rest rfl
    exact (hrest '.' rfl).2 rfl
  split
  · rw [List.cons_append, fraction?_padded (by decide) (by decide) (by omega) hdigit]
    congr 2
    omega
  split
  · rw [List.cons_append, fraction?_padded (by decide) (by decide) (by omega) hdigit]
    congr 2
    omega
  · rw [List.cons_append, fraction?_padded (by decide) (by decide) (by omega) hdigit]
    congr 2
    omega

/-- Hours, minutes and seconds of a day; in a leap second the count of seconds stays at 59. -/
theorem timeOfDay?_append {seconds nanos : Nat} (hseconds : seconds < secondsPerDay)
    (hnanos : nanos < billion ∨ nanos < 2 * billion ∧ seconds % 60 = 59)
    (hrest : ∀ c ∈ rest.head?, c.isDigit = false ∧ c ≠ '.') :
    timeOfDay? (padded 2 (seconds / 3600) ++ ':' :: (padded 2 (seconds / 60 % 60) ++ ':' ::
      (padded 2 (seconds % 60 + if billion ≤ nanos then 1 else 0) ++
        (fractionText (nanos % billion) ++ rest)))) = some ((seconds, nanos), rest) := by
  change seconds < 86400 at hseconds
  have hcolon : Text.isBlank ':' = false := by decide
  have hfraction := fraction?_append (Nat.mod_lt nanos (by decide : 0 < billion)) hrest
  have hleap : (if billion ≤ nanos then 1 else 0) ≤ 1 := by split <;> decide
  have hhour : seconds / 3600 ≤ 23 := by omega
  have hminute : seconds / 60 % 60 ≤ 59 := by omega
  have hsecond : seconds % 60 + (if billion ≤ nanos then 1 else 0) ≤ 60 := by omega
  simp only [timeOfDay?, bounded?_padded (Nat.zero_le _) hhour (by omega),
    bounded?_padded (Nat.zero_le _) hminute (by omega),
    bounded?_padded (Nat.zero_le _) hsecond (by omega), mark?_cons hcolon, hfraction,
    Option.bind_eq_bind, Option.bind_some]
  rcases Nat.lt_or_ge nanos billion with hbelow | hover
  · simp only [if_neg (Nat.not_le.mpr hbelow), Nat.add_zero, if_neg (by omega : ¬seconds % 60 = 60),
      Nat.mod_eq_of_lt hbelow, Option.some_inj, Prod.mk.injEq, and_true]
    omega
  · obtain ⟨htwice, hlast⟩ := hnanos.resolve_left (Nat.not_lt.mpr hover)
    have hrest : nanos % billion = nanos - billion := by
      rw [Nat.mod_eq_sub_mod hover, Nat.mod_eq_of_lt (by omega)]
    simp only [if_pos hover, hlast, hrest, if_true, Option.some_inj, Prod.mk.injEq, and_true]
    omega

theorem localText_eq (t : Timestamp) (rest : List Char) : t.localText ++ rest =
    yearText t.date.year ++ '-' :: (padded 2 t.date.month ++ '-' :: (padded 2 t.date.day ++ 'T' ::
      (padded 2 (t.secondOfDay / 3600) ++ ':' :: (padded 2 (t.secondOfDay / 60 % 60) ++ ':' ::
        (padded 2 (t.secondOfDay % 60 + if billion ≤ t.nanos then 1 else 0) ++
          (fractionText (t.nanos % billion) ++ rest)))))) := by
  simp [localText]

theorem secondOfDay_lt (t : Timestamp) : t.secondOfDay < secondsPerDay := by
  have hpositive : (0 : Int) < secondsPerDay := by decide
  have hbelow := Int.emod_lt_of_pos t.seconds hpositive
  rw [secondOfDay]
  omega

/-- The day and the second of the day make up the seconds. -/
theorem toDays_date (t : Timestamp) :
    t.date.toDays * secondsPerDay + t.secondOfDay = t.seconds := by
  have hnonneg := Int.emod_nonneg t.seconds (by decide : (secondsPerDay : Int) ≠ 0)
  rw [date, Date.toDays_ofDays, secondOfDay, Int.toNat_of_nonneg hnonneg]
  exact Int.ediv_mul_add_emod t.seconds secondsPerDay

theorem leap_second (t : Timestamp) :
    t.nanos < billion ∨ t.nanos < 2 * billion ∧ t.secondOfDay % 60 = 59 := by
  refine t.admissible.2.imp_right fun h => ⟨h.1, ?_⟩
  have hday : (secondsPerDay : Int) = 86400 := rfl
  have hlast := h.2
  rw [secondOfDay, hday]
  omega

/-- A stored timestamp is read back. -/
theorem ofText?_toData (t : Timestamp) : ofText? t.toData = some t := by
  have hvalid : t.date.isValid = true := Date.isValid_ofDays _
  have hmark : ∀ c ∈ ['Z'].head?, c.isDigit = false ∧ c ≠ '.' := by
    rintro _ ⟨⟩
    decide
  have htime := timeOfDay?_append t.secondOfDay_lt t.leap_second hmark
  have hoffset : offset? (Text.trimLeft ['Z']) = some (0, []) := rfl
  have hrange : ¬(t.seconds < earliest ∨ latest < t.seconds) := by
    rw [not_or, not_lt, not_lt]
    exact t.admissible.1
  rw [ofText?, toData, String.toList_ofList, localText_eq, date?_append hvalid]
  simp only [Option.bind_eq_bind, Option.bind_some, decide_true, Bool.true_or, if_true, htime,
    hoffset]
  simp [Text.trimLeft, t.toDays_date, hrange, ofUnix?, t.admissible]
  decide

end CategorizedIndex.Timestamp
