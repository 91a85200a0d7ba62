import CategorizedIndex.Json.Number
import CategorizedIndex.Json.Read
import CategorizedIndex.Proofs.Number.Decimals

/-! # Numbers of JSON

What the written form of a number has to be so that a reader takes it, and no more than it, off
a text. The forms in which words and finite numbers are written are such forms.
-/
namespace CategorizedIndex
open Text (IsDigits)

variable {n : JsonNumber} {s rest front back : List Char}

/-- Digits everywhere that digits are expected, with no zero in front of others. -/
structure JsonNumber.WellFormed (n : JsonNumber) : Prop where
  whole : IsDigits n.whole
  leading : n.whole.head? = some '0' → n.whole = ['0']
  fraction : ∀ digits ∈ n.fraction, IsDigits digits
  exponent : ∀ power ∈ n.exponent, IsDigits power.2

namespace JsonNumber

def fractionChars : Option (List Char) → List Char
  | some digits => '.' :: digits
  | none => []

def exponentChars : Option (Bool × List Char) → List Char
  | some (negative, digits) => 'e' :: (if negative then '-' else '+') :: digits
  | none => []

theorem toChars_eq (n : JsonNumber) : n.toChars = (if n.negative then ['-'] else []) ++
    (n.whole ++ (fractionChars n.fraction ++ exponentChars n.exponent)) := by
  obtain ⟨_, _, _ | _, _ | _⟩ := n <;> simp [toChars, fractionChars, exponentChars]

end JsonNumber

namespace Json

/-- What follows does not go on with the number before it. -/
def Ends (rest : List Char) : Prop :=
  ∀ c ∈ rest.head?, c.isDigit = false ∧ c ≠ '.' ∧ c ≠ 'e' ∧ c ≠ 'E'

theorem digits_append (hdigits : IsDigits s) (hrest : ∀ c ∈ rest.head?, c.isDigit = false) :
    digits (s ++ rest) = (s, rest) := by
  rw [digits, hdigits.takeWhile_append hrest, hdigits.dropWhile_append hrest]

theorem whole?_append (hdigits : IsDigits s) (hleading : s.head? = some '0' → s = ['0'])
    (hrest : ∀ c ∈ rest.head?, c.isDigit = false) : whole? (s ++ rest) = some (s, rest) := by
  rw [whole?, digits_append hdigits hrest]
  split
  · next heq => exact absurd (congrArg Prod.fst heq) hdigits.ne_nil
  · next heq =>
    obtain rfl := congrArg Prod.fst heq
    cases hleading rfl
  · next heq =>
    cases heq
    rfl

theorem fraction?_append {fraction : Option (List Char)} (h : ∀ digits ∈ fraction, IsDigits digits)
    (hrest : ∀ c ∈ rest.head?, c.isDigit = false ∧ c ≠ '.') :
    fraction? (JsonNumber.fractionChars fraction ++ rest) = some (fraction, rest) := by
  cases fraction with
  | none =>
    rw [JsonNumber.fractionChars, List.nil_append, fraction?.eq_2]
    rintro rest rfl
    exact (hrest '.' rfl).2 rfl
  | some digits =>
    rw [JsonNumber.fractionChars, List.cons_append, fraction?.eq_1,
      digits_append (h digits rfl) fun c hc => (hrest c hc).1]
    split
    · next heq => exact absurd (congrArg Prod.fst heq) (h digits rfl).ne_nil
    · next heq =>
      cases heq
      rfl

theorem exponent?_append {exponent : Option (Bool × List Char)}
    (h : ∀ power ∈ exponent, IsDigits power.2) (hrest : Ends rest) :
    exponent? (JsonNumber.exponentChars exponent ++ rest) = some (exponent, rest) := by
  obtain _ | ⟨negative, digits⟩ := exponent
  · cases rest with
    | nil => rfl
    | cons c rest => simp [JsonNumber.exponentChars, exponent?, hrest c rfl]
  · cases negative <;>
    · simp only [JsonNumber.exponentChars, List.cons_append, exponent?, decide_true, Bool.true_or,
        if_true, Bool.false_eq_true, if_false,
        digits_append (h _ rfl) fun c hc => (hrest c hc).1]
      split
      · next heq => exact absurd (congrArg Prod.fst heq) (h _ rfl).ne_nil
      · next heq =>
        cases heq
        rfl

theorem head_exponent_append (exponent : Option (Bool × List Char)) (hrest : Ends rest) :
    ∀ c ∈ (JsonNumber.exponentChars exponent ++ rest).head?, c.isDigit = false ∧ c ≠ '.' := by
  cases exponent with
  | none => exact fun c hc => ⟨(hrest c hc).1, (hrest c hc).2.1⟩
  | some power =>
    rintro _ ⟨⟩
    decide

theorem head_fraction_append (fraction : Option (List Char))
    (hrest : ∀ c ∈ rest.head?, c.isDigit = false ∧ c ≠ '.') :
    ∀ c ∈ (JsonNumber.fractionChars fraction ++ rest).head?, c.isDigit = false := by
  cases fraction with
  | none => exact fun c hc => (hrest c hc).1
  | some digits =>
    rintro _ ⟨⟩
    decide

/-- A well-formed number is read, and nothing of what follows it. -/
theorem number?_append (hn : n.WellFormed) (hrest : Ends rest) :
    number? (n.toChars ++ rest) = some (n, rest) := by
  have hexponent := exponent?_append hn.exponent hrest
  have hdot := head_exponent_append n.exponent hrest
  have hfraction := fraction?_append hn.fraction hdot
  have hwhole := whole?_append hn.whole hn.leading (head_fraction_append n.fraction hdot)
  rw [n.toChars_eq]
  obtain ⟨negative, whole, fraction, exponent⟩ := n
  simp only [List.append_assoc] at hwhole hfraction hexponent ⊢
  cases negative with
  | true => simp [number?, hwhole, hfraction, hexponent]
  | false =>
    obtain ⟨c, digits, rfl⟩ := List.exists_cons_of_ne_nil hn.whole.ne_nil
    have hsign : c ≠ '-' := by
      rintro rfl
      exact absurd (hn.whole.isDigit '-' List.mem_cons_self) (by decide)
    rw [List.cons_append] at hwhole
    simp [number?, hsign, hwhole, hfraction, hexponent]

theorem number?_toChars (hn : n.WellFormed) : number? n.toChars = some (n, []) := by
  have hread := number?_append hn (fun _ hc => nomatch hc : Ends [])
  rwa [List.append_nil] at hread

end Json

namespace JsonNumber

theorem wellFormed_ofNat (word : Nat) : (ofNat word).WellFormed where
  whole := Text.isDigits_decimal word
  leading h := by
    change (Text.decimal word).head? = some '0' at h
    rw [Text.eq_zero_of_head?_decimal h]
    rfl
  fraction _ h := nomatch h
  exponent _ h := nomatch h

theorem gather_eq (s : List Char) (word : Nat) (h : Nat.ofDigitChars 10 s word ≤ maxWord) :
    gather word s = (Nat.ofDigitChars 10 s word, []) := by
  induction s generalizing word with
  | nil => rfl
  | cons c rest ih =>
    rw [Nat.ofDigitChars_cons, Nat.mul_comm] at h ⊢
    have hroom : word * 10 + digitOf c ≤ Nat.ofDigitChars 10 rest (word * 10 + digitOf c) := by
      rw [Nat.ofDigitChars_eq_ofDigitChars_zero]
      exact (Nat.le_mul_of_pos_left _ (by positivity)).trans (Nat.le_add_right _ _)
    rw [gather]
    simp only [if_neg (Nat.not_lt.mpr (hroom.trans h))]
    exact ih _ h

theorem toNat?_ofNat {word : Nat} (h : word ≤ maxWord) : (ofNat word).toNat? = some word := by
  have hdigits : Nat.ofDigitChars 10 (Text.decimal word) 0 = word := Text.digitsValue_decimal word
  have hgather := gather_eq (Text.decimal word) 0 (by rwa [hdigits])
  rw [hdigits] at hgather
  simp [toNat?, ofNat, hgather]

/-- The parts around the point are the digits before and after it. -/
theorem takeWhile_point {whole : List Char} (hwhole : IsDigits whole) (fraction : List Char) :
    (whole ++ '.' :: fraction).takeWhile (· ≠ '.') = whole ∧
      ((whole ++ '.' :: fraction).dropWhile (· ≠ '.')).drop 1 = fraction := by
  have hpoint : ∀ c ∈ whole, (decide (c ≠ '.')) = true := by
    intro c hc
    rw [decide_eq_true_eq]
    rintro rfl
    exact absurd (hwhole.isDigit '.' hc) (by decide)
  rw [List.takeWhile_append_of_pos hpoint, List.dropWhile_append_of_pos hpoint]
  simp

theorem wellFormed_ofNumber (x : Number) : (ofNumber x).WellFormed := by
  have hproper := Decimal.proper_shortest x .toEven
  unfold ofNumber
  simp only
  generalize x.shortest .toEven = d at hproper
  split
  · obtain ⟨whole, fraction, hset, hwhole, hfraction, hleading⟩ := hproper.exists_setPositional
    obtain ⟨hbefore, hafter⟩ := takeWhile_point hwhole fraction
    simp only [hset, hbefore, hafter]
    refine ⟨hwhole, hleading, ?_, fun _ h => nomatch h⟩
    rintro _ ⟨⟩
    exact hfraction
  · next hscientific =>
    have hdigits : IsDigits d.digitChars := Text.isDigits_decimal d.digits
    obtain ⟨c, rest, hchars⟩ := List.exists_cons_of_ne_nil hdigits.ne_nil
    have hmem : ∀ b ∈ c :: rest, b.isDigit = true := hchars ▸ hdigits.isDigit
    simp only [hchars, List.take_succ_cons, List.take_zero, List.drop_succ_cons, List.drop_zero]
    refine ⟨⟨List.cons_ne_nil _ _, ?_⟩, fun hhead => ?_, fun digits hfraction => ?_, ?_⟩
    · rintro b hb
      rw [List.mem_singleton.mp hb]
      exact hmem c List.mem_cons_self
    · rw [Option.some_inj.mp hhead]
    · split at hfraction
      · cases hfraction
      · next hsome =>
        cases hfraction
        exact ⟨by simpa using hsome, fun b hb => hmem b (List.mem_cons_of_mem c hb)⟩
    · rintro _ ⟨⟩
      exact Text.isDigits_decimal _

end JsonNumber

end CategorizedIndex
