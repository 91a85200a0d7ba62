import CategorizedIndex.Json.Read
import CategorizedIndex.Proofs.Text.Digits

/-! # Texts of JSON

A text that is written with its escapes is read up to its closing quote. It keeps the characters
between the quotes, and what they denote is the text that was written.
-/
namespace CategorizedIndex

variable {c : Char}

namespace Json

theorem hexUnit?_filled : ∀ n < 0x20,
    Text.filled 4 (Text.hexDigits n) = ['0', '0', (n / 16).digitChar, (n % 16).digitChar] ∧
      hexUnit? '0' '0' (n / 16).digitChar (n % 16).digitChar = some n := by
  decide +kernel

theorem text?_short {unit : Nat} (hu : c ≠ 'u') (h : shortEscape? c = some unit)
    (rest : List Char) : text? ('\\' :: c :: rest) =
      (text? rest).map fun (t, rest) => (⟨'\\' :: c :: t.raw, unit :: t.units⟩, rest) := by
  rw [text?.eq_4 _ _ fun _ _ _ _ _ hc => absurd hc hu, h]
  cases text? rest <;> rfl

theorem text?_unit {a b c d : Char} {unit : Nat} (h : hexUnit? a b c d = some unit)
    (rest : List Char) : text? ('\\' :: 'u' :: a :: b :: c :: d :: rest) =
      (text? rest).map fun (t, rest) =>
        (⟨'\\' :: 'u' :: a :: b :: c :: d :: t.raw, unit :: t.units⟩, rest) := by
  rw [text?.eq_3, h]
  cases text? rest <;> rfl

theorem text?_plain (hquote : c ≠ '"') (hslash : c ≠ '\\') (hcontrol : ¬c.toNat < 0x20)
    (rest : List Char) : text? (c :: rest) =
      (text? rest).map fun (t, rest) => (⟨c :: t.raw, c.toNat :: t.units⟩, rest) := by
  rw [text?.eq_5 _ _ hquote (fun _ _ _ _ _ hc => absurd hc hslash)
    fun _ _ hc => absurd hc hslash, if_neg hcontrol]
  cases text? rest <;> rfl

/-- Whatever way a character is escaped, it is read as itself. -/
theorem text?_escape (c : Char) (rest : List Char) : text? (JsonText.escape c ++ rest) =
    (text? rest).map fun (t, rest) =>
      (⟨JsonText.escape c ++ t.raw, c.toNat :: t.units⟩, rest) := by
  unfold JsonText.escape
  split
  · next h =>
    rw [Bool.or_eq_true, decide_eq_true_eq, decide_eq_true_eq] at h
    rcases h with rfl | rfl
    · exact text?_short (by decide) rfl rest
    · exact text?_short (by decide) rfl rest
  iterate 5
    split
    · next h => exact h ▸ text?_short (by decide) rfl rest
  split
  · next h =>
    obtain ⟨hdigits, hunit⟩ := hexUnit?_filled c.toNat h
    rw [hdigits]
    exact text?_unit hunit rest
  · next hspecial _ _ _ _ _ hcontrol =>
    rw [Bool.or_eq_true, not_or, decide_eq_true_eq, decide_eq_true_eq] at hspecial
    exact text?_plain hspecial.1 hspecial.2 hcontrol rest

theorem text?_ofString (s : String) (rest : List Char) :
    text? ((JsonText.ofString s).raw ++ '"' :: rest) = some (.ofString s, rest) := by
  unfold JsonText.ofString
  induction s.toList with
  | nil => rfl
  | cons c chars ih =>
    rw [List.flatMap_cons, List.append_assoc, text?_escape, ih]
    rfl

end Json

namespace JsonText

theorem not_half (c : Char) : isHigh c.toNat = false ∧ isLow c.toNat = false := by
  have hvalid : c.toNat < 0xd800 ∨ 0xdfff < c.toNat ∧ c.toNat < 0x110000 := c.valid
  constructor
  · rw [isHigh, Bool.and_eq_false_iff, decide_eq_false_iff_not, decide_eq_false_iff_not]
    omega
  · rw [isLow, Bool.and_eq_false_iff, decide_eq_false_iff_not, decide_eq_false_iff_not]
    omega

theorem charsOf?_map_toNat (chars : List Char) : charsOf? (chars.map Char.toNat) = some chars := by
  induction chars with
  | nil => rfl
  | cons c rest ih =>
    rw [List.map_cons, charsOf?.eq_def]
    simp only [(not_half c).1, (not_half c).2, ih, Char.ofNat_toNat]
    rfl

theorem escape_digit (h : c.isDigit = true) : escape c = [c] := by
  have hmarks : (['"', '\\', '\x08', '\x0c', '\n', '\r', '\t'].all fun mark => !mark.isDigit) =
    true := by decide
  have hother := Text.ne_of_all h hmarks
  simp only [List.forall_mem_cons] at hother
  have hcontrol : ¬c.toNat < 0x20 := by
    have hrange := Text.toNat_of_isDigit h
    omega
  simp [escape, hother, hcontrol]

/-- Digits stand between the quotes as they are. -/
theorem raw_ofString_digits {s : List Char} (h : Text.IsDigits s) :
    (ofString (String.ofList s)).raw = s := by
  rw [ofString, String.toList_ofList]
  exact (List.flatMap_congr fun c hc => escape_digit (h.isDigit c hc)).trans
    (List.flatMap_singleton' s)

@[simp]
theorem toString?_ofString (s : String) : (ofString s).toString? = some s := by
  rw [toString?, ofString, charsOf?_map_toNat, Option.map_some, String.ofList_toList]

end JsonText

end CategorizedIndex
