import CategorizedIndex.Proofs.Yaml.Block
import CategorizedIndex.Proofs.Yaml.Plain
import CategorizedIndex.Proofs.Yaml.Quoted

/-! # Styles of scalars

Which texts are read back from a style, and the characters that stand for them: all of them
printable, the first of them part of a word.
-/
namespace CategorizedIndex.Yaml.Written

variable {c : Char} {cs : List Char}

/-- All characters stand as they are. -/
def Printable (cs : List Char) : Prop := ∀ c ∈ cs, isPrintable c = true

@[simp]
theorem printable_nil : Printable [] := by simp [Printable]

@[simp]
theorem printable_cons : Printable (c :: cs) ↔ isPrintable c = true ∧ Printable cs :=
  List.forall_mem_cons

@[simp]
theorem printable_append {back : List Char} :
    Printable (cs ++ back) ↔ Printable cs ∧ Printable back :=
  List.forall_mem_append

@[simp]
theorem printable_spaces (n : Nat) : Printable (spaces n) := by
  intro c hc
  rw [List.eq_of_mem_replicate hc]
  decide

theorem printable_doubleQuotedChar (c : Char) : Printable (doubleQuotedChar c) := by
  unfold doubleQuotedChar
  split
  · next hspecial =>
    have hread : ReadBack c (escape c) := by
      refine readBack_escape ?_
      simpa [or_assoc] using hspecial
    have hslash : isPrintable '\\' = true := by decide
    rcases hread with ⟨letter, heq, hprintable, -, -⟩ | ⟨letter, digits, heq, -, hdigits, -, -, -⟩
    · simp [heq, hslash, hprintable]
    · rw [heq]
      exact printable_cons.mpr ⟨hslash, fun d hd => (hdigits d hd).1⟩
  · next hspecial =>
    simp only [Bool.or_eq_true, Bool.not_eq_true', not_or, Bool.not_eq_false] at hspecial
    simp [hspecial.1.1.1]

theorem Printable.singleQuotedChars (h : Printable cs) (indent : Nat) (broken : Bool) :
    Printable (singleQuotedChars indent broken cs) := by
  have hfeed : isPrintable '\n' = true := by decide
  induction cs generalizing broken with
  | nil => cases broken <;> simp [Written.singleQuotedChars]
  | cons c cs ih =>
    rw [printable_cons] at h
    unfold Written.singleQuotedChars
    split
    · split <;> simp [hfeed, h, ih]
    · split <;> split <;> simp [h, ih]

theorem Printable.blockChars (h : Printable cs) (indent : Nat) (broken : Bool) :
    Printable (blockChars indent broken cs) := by
  induction cs generalizing broken with
  | nil => simp [Written.blockChars]
  | cons c cs ih =>
    rw [printable_cons] at h
    unfold Written.blockChars
    split
    · simp [h, ih]
    · split <;> simp [h, ih]

theorem printable_marks (cs : List Char) :
    Printable (indentMark cs) ∧ Printable (chompingMark cs) := by
  have hmarks : isPrintable '2' = true ∧ isPrintable '-' = true ∧ isPrintable '+' = true := by
    decide
  constructor
  · unfold indentMark
    split <;> simp [hmarks]
  · unfold chompingMark
    split
    all_goals (repeat' split) <;> simp [hmarks]

/-! ## Texts that suit a style -/

/-- A text that is read back from a style. -/
def Suits (style : Style) (text : List Char) : Prop :=
  match style with
  | .plain => text ≠ [] ∧ fitsPlain text = true
  | .singleQuoted => fitsSingleQuotes text = true ∧ '\n' ∉ text
  | .doubleQuoted => True
  | .literal => text ≠ [] ∧ fitsBlock text = true
  | .folded => False

theorem suits_quoteStyle (h : '\n' ∉ cs) : Suits (quoteStyle cs) cs := by
  unfold quoteStyle
  split
  · next hfits => exact ⟨hfits, h⟩
  · exact trivial

theorem suits_styleOf (text : String) : Suits (styleOf text) text.toList := by
  simp only [styleOf]
  split
  · next hfeed =>
    split
    · next hfits =>
      refine ⟨fun hnil => ?_, hfits⟩
      rw [hnil] at hfeed
      cases hfeed
    · exact trivial
  · next hfeed =>
    split
    · next hplain =>
      obtain ⟨htext, hfits⟩ := Bool.and_eq_true_iff.mp hplain
      refine ⟨fun hnil => ?_, hfits⟩
      rw [String.toList_eq_nil_iff.mp hnil] at htext
      cases htext
    · exact suits_quoteStyle (by simpa using hfeed)

/-- A scalar starts with a word. -/
theorem startsWord_scalarLine {style : Style} (h : Suits style cs) (indent : Nat)
    (rest : List Char) : ∃ c more, scalarLine indent style cs ++ rest = c :: more ∧
      StartsWord (c :: more) := by
  have hword : ∀ {c : Char} {more : List Char}, isPrintable c = true → isBreak c = false →
      isSpace c = false → c ≠ '#' → StartsWord (c :: more) := by
    intro c more hc hbreak hspace hmark d hd
    obtain rfl : c = d := by simpa using hd
    exact ⟨hc, hbreak, hspace, hmark⟩
  cases style with
  | plain =>
    obtain ⟨hne, hfits⟩ := h
    cases cs with
    | nil => exact absurd rfl hne
    | cons c cs =>
      obtain ⟨hc, hbreak, hspace, hmark⟩ := startsWord_of_fitsPlain hfits c rfl
      exact ⟨c, _, rfl, hword hc hbreak hspace hmark⟩
  | singleQuoted | doubleQuoted | literal =>
    exact ⟨_, _, rfl, hword (by decide) (by decide) (by decide) (by decide)⟩
  | folded => exact h.elim

theorem Suits.printable {style : Style} (h : Suits style cs) (indent : Nat) :
    Printable (scalarLine indent style cs) := by
  have hfeed : isPrintable '\n' = true := by decide
  have hchars : Printable (scalarChars indent style cs) := by
    cases style with
    | plain => exact (inside_of_fitsPlain h.2).1.printable
    | singleQuoted =>
      have hquote : isPrintable '\x27' = true := by decide
      have hfits := h.1
      simp only [fitsSingleQuotes, Bool.and_eq_true, Bool.not_eq_true'] at hfits
      have hcs : Printable cs := (needsEscape_eq_false_iff.mp hfits.1).1
      simp [scalarChars, hquote, hcs.singleQuotedChars]
    | doubleQuoted =>
      have hquote : isPrintable '"' = true := by decide
      have hcs : Printable (cs.flatMap doubleQuotedChar) := by
        intro d hd
        obtain ⟨c, -, hc⟩ := List.mem_flatMap.mp hd
        exact printable_doubleQuotedChar c d hc
      simp [scalarChars, hquote, hcs]
    | literal =>
      have hbar : isPrintable '|' = true := by decide
      have hfits := h.2
      simp only [fitsBlock, Bool.and_eq_true, Bool.not_eq_true'] at hfits
      have hcs : Printable cs := (needsEscape_eq_false_iff.mp hfits.1).1
      simp [scalarChars, hbar, hfeed, hcs.blockChars, printable_marks]
    | folded => exact h.elim
  refine printable_append.mpr ⟨hchars, ?_⟩
  split <;> simp [hfeed]

end CategorizedIndex.Yaml.Written
