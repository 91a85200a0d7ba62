import CategorizedIndex.Position
import CategorizedIndex.Proofs.Text.Blank
import CategorizedIndex.Proofs.Text.Digits

/-! # Positions as text

A written position is read back, whatever separates its ranks, as long as this is not a digit.
What else is read is given by a grammar of the parts between separators: each of them names a
rank. A rank that no machine word holds and the rank zero are refused.
-/
namespace CategorizedIndex.Position
open Text (isBlank)

/-- Between blanks and after an optional plus sign, the digits of a positive machine word. -/
inductive Names : List Char → Nat → Prop
  | intro {before sign digits after : List Char}
      (hbefore : ∀ c ∈ before, isBlank c = true) (hafter : ∀ c ∈ after, isBlank c = true)
      (hsign : sign = [] ∨ sign = ['+']) (hdigits : Text.IsDigits digits)
      (hpositive : 0 < Nat.ofDigits 10 (digits.map fun c => c.toNat - '0'.toNat).reverse)
      (hword : Nat.ofDigits 10 (digits.map fun c => c.toNat - '0'.toNat).reverse < 2 ^ 64) :
      Names (before ++ (sign ++ digits) ++ after)
        (Nat.ofDigits 10 (digits.map fun c => c.toNat - '0'.toNat).reverse)

variable {part sign digits : List Char} {text : String} {separator : Char} {p : Position}
  {n : Nat}

theorem Names.pos (h : Names part n) : 0 < n := by
  cases h
  assumption

theorem Names.lt (h : Names part n) : n < 2 ^ 64 := by
  cases h
  assumption

def unsigned : List Char → List Char
  | '+' :: digits => digits
  | digits => digits

theorem readRank?_eq_unsigned (part : List Char) : readRank? part =
    if (unsigned (Text.trim part)).isEmpty || !(unsigned (Text.trim part)).all Char.isDigit then
      none
    else if Text.digitsValue (unsigned (Text.trim part)) = 0 ||
        maxRank < Text.digitsValue (unsigned (Text.trim part)) then none
    else some (Text.digitsValue (unsigned (Text.trim part))) := rfl

theorem unsigned_append (hsign : sign = [] ∨ sign = ['+']) (hdigits : Text.IsDigits digits) :
    unsigned (sign ++ digits) = digits := by
  rcases hsign with rfl | rfl
  · rw [List.nil_append, unsigned.eq_2]
    intro rest h
    rw [← List.append_nil digits] at h
    exact hdigits.append_ne_cons (c := '+') (by decide) [] rest h
  · rfl

theorem exists_unsigned (s : List Char) :
    ∃ sign, (sign = [] ∨ sign = ['+']) ∧ s = sign ++ unsigned s := by
  unfold unsigned
  split
  · exact ⟨['+'], Or.inr rfl, rfl⟩
  · exact ⟨[], Or.inl rfl, rfl⟩

theorem isBlank_of_mem_signed (hsign : sign = [] ∨ sign = ['+'])
    (hdigits : Text.IsDigits digits) : ∀ c ∈ sign ++ digits, isBlank c = false := by
  intro c hc
  rcases List.mem_append.mp hc with hc | hc
  · rcases hsign with rfl | rfl
    · cases hc
    · rw [List.mem_singleton.mp hc]
      decide
  · exact Text.isBlank_of_isDigit (hdigits.isDigit c hc)

theorem readRank?_eq {before after : List Char} (hbefore : ∀ c ∈ before, isBlank c = true)
    (hafter : ∀ c ∈ after, isBlank c = true) (hsign : sign = [] ∨ sign = ['+'])
    (hdigits : Text.IsDigits digits) :
    readRank? (before ++ (sign ++ digits) ++ after) =
      if Text.digitsValue digits = 0 || maxRank < Text.digitsValue digits then none
      else some (Text.digitsValue digits) := by
  have hblank := isBlank_of_mem_signed hsign hdigits
  have htrim : Text.trim (before ++ (sign ++ digits) ++ after) = sign ++ digits :=
    Text.trim_eq hbefore hafter (fun c hc => hblank c (List.mem_of_mem_head? hc))
      fun c hc => hblank c (List.mem_of_getLast? hc)
  have hread : (digits.isEmpty || !digits.all Char.isDigit) = false := by
    rw [List.isEmpty_eq_false_iff.mpr hdigits.ne_nil, List.all_eq_true.mpr hdigits.isDigit]
    rfl
  rw [readRank?_eq_unsigned, htrim, unsigned_append hsign hdigits, hread]
  rfl

theorem readRank?_eq_some_iff : readRank? part = some n ↔ Names part n := by
  constructor
  · intro h
    obtain ⟨before, after, hbefore, hafter, hpart⟩ := Text.exists_trim part
    obtain ⟨sign, hsign, htrim⟩ := exists_unsigned (Text.trim part)
    rw [readRank?_eq_unsigned] at h
    generalize unsigned (Text.trim part) = digits at h htrim
    split at h
    · cases h
    · next hread =>
      rw [Bool.or_eq_true, not_or, List.isEmpty_iff, Bool.not_eq_true', Bool.not_eq_false,
        List.all_eq_true] at hread
      split at h
      · cases h
      · next hrange =>
        rw [Bool.or_eq_true, not_or, decide_eq_true_eq, decide_eq_true_eq, not_lt] at hrange
        cases h
        rw [Text.digitsValue_eq_ofDigits] at hrange ⊢
        rw [hpart, htrim]
        exact .intro hbefore hafter hsign ⟨hread.1, hread.2⟩ (Nat.pos_of_ne_zero hrange.1)
          (Nat.lt_succ_of_le hrange.2)
  · rintro ⟨hbefore, hafter, hsign, hdigits, hpositive, hword⟩
    rw [readRank?_eq hbefore hafter hsign hdigits, Text.digitsValue_eq_ofDigits, if_neg]
    rw [Bool.or_eq_true, not_or, decide_eq_true_eq, decide_eq_true_eq, not_lt]
    exact ⟨hpositive.ne', Nat.le_of_lt_succ hword⟩

theorem names_decimal (hpositive : 0 < n) (hword : n < 2 ^ 64) : Names (Text.decimal n) n := by
  rw [← readRank?_eq_some_iff]
  have hnone : ∀ c ∈ ([] : List Char), isBlank c = true := fun _ hc => nomatch hc
  have hread := readRank?_eq hnone hnone (Or.inl rfl) (Text.isDigits_decimal n)
  rw [List.nil_append, List.nil_append, List.append_nil, Text.digitsValue_decimal, if_neg] at hread
  · exact hread
  · rw [Bool.or_eq_true, not_or, decide_eq_true_eq, decide_eq_true_eq, not_lt]
    exact ⟨hpositive.ne', Nat.le_of_lt_succ hword⟩

theorem ofText?_eq_some_iff : ofText? text separator = some p ↔
    (∃ c ∈ text.toList, isBlank c = false) ∧
      List.Forall₂ Names (text.toList.splitOn separator) p := by
  have hparts : (text.toList.splitOn separator).mapM readRank? = some p ↔
      List.Forall₂ Names (text.toList.splitOn separator) p := by
    simp only [Text.mapM_eq_some, readRank?_eq_some_iff]
  have hblank : text.toList.all isBlank = false ↔ ∃ c ∈ text.toList, isBlank c = false := by simp
  rw [ofText?, Text.fields_eq_splitOn, ← hparts, ← hblank]
  cases text.toList.all isBlank <;> simp

theorem exists_not_blank_toText (hp : p ≠ []) :
    ∃ c ∈ (p.toText separator).toList, isBlank c = false := by
  obtain ⟨n, rest, rfl⟩ := List.exists_cons_of_ne_nil hp
  obtain ⟨c, digits, hdecimal⟩ := List.exists_cons_of_ne_nil (Text.isDigits_decimal n).ne_nil
  have hc : c ∈ Text.decimal n := hdecimal ▸ List.mem_cons_self
  refine ⟨c, ?_, Text.isBlank_of_isDigit ((Text.isDigits_decimal n).isDigit c hc)⟩
  rw [toText, String.toList_ofList, Text.joined, List.map_cons]
  cases rest with
  | nil => simpa using hc
  | cons next rest =>
    rw [List.map_cons, List.intercalate_cons_cons]
    exact List.mem_append_left _ (List.mem_append_left _ hc)

theorem splitOn_toText (hp : p ≠ []) (hseparator : separator.isDigit = false) :
    (p.toText separator).toList.splitOn separator = p.map Text.decimal := by
  rw [toText, String.toList_ofList, Text.joined]
  refine List.splitOn_intercalate separator ?_ (by simpa using hp)
  intro part hpart hmem
  obtain ⟨n, -, rfl⟩ := List.mem_map.mp hpart
  rw [(Text.isDigits_decimal n).isDigit _ hmem] at hseparator
  cases hseparator

/-- What is written is read back. What is read is a text with something in it, all of whose parts
name a rank; the position has these ranks in the order of the parts. -/
theorem text_read_back (separator : Char) :
    (∀ p : Position, p ≠ [] → (∀ n ∈ p, 0 < n ∧ n < 2 ^ 64) → separator.isDigit = false →
      ofText? (p.toText separator) separator = some p) ∧
    ∀ text : String,
      ((∃ p, ofText? text separator = some p) ↔ (∃ c ∈ text.toList, isBlank c = false) ∧
        ∀ part ∈ text.toList.splitOn separator, ∃ n, Names part n) ∧
      ∀ p, ofText? text separator = some p →
        List.Forall₂ Names (text.toList.splitOn separator) p ∧ p ≠ [] ∧
          ∀ n ∈ p, 0 < n ∧ n < 2 ^ 64 := by
  refine ⟨fun p hp hranks hseparator => ?_, fun text => ⟨?_, fun p hread => ?_⟩⟩
  · rw [ofText?_eq_some_iff, splitOn_toText hp hseparator, List.forall₂_map_left_iff,
      List.forall₂_same]
    exact ⟨exists_not_blank_toText hp, fun n hn => names_decimal (hranks n hn).1 (hranks n hn).2⟩
  · simp only [ofText?_eq_some_iff, exists_and_left, Text.exists_forall₂_iff]
  · have hnames := (ofText?_eq_some_iff.mp hread).2
    have hranks : List.Forall₂ (fun n part => (0 < n ∧ n < 2 ^ 64) ∧ Names part n) p
        (text.toList.splitOn separator) := hnames.flip.imp fun _ _ h => ⟨⟨h.pos, h.lt⟩, h⟩
    refine ⟨hnames, ?_, ((List.forall₂_and_left p _).mp hranks).1⟩
    rintro rfl
    exact List.splitOn_ne_nil _ _ (List.forall₂_nil_right_iff.mp hnames)

/-- The largest rank behind a plus sign that separates, and a plus sign that belongs to a part. -/
theorem text_read_back_plus :
    ofText? "12+18446744073709551615" '+' = some [12, 18446744073709551615] ∧
      List.Forall₂ Names (" +007. 3".toList.splitOn '.') [7, 3] := by
  have htext : toText [12, 18446744073709551615] '+' = "12+18446744073709551615" := by
    decide +kernel
  have hread : ofText? " +007. 3" '.' = some [7, 3] := by decide +kernel
  rw [← htext]
  exact ⟨(text_read_back '+').1 _ (by decide) (by decide) (by decide),
    (((text_read_back '.').2 _).2 _ hread).1⟩

end CategorizedIndex.Position
