import CategorizedIndex.Yaml.Token.Scalar
import CategorizedIndex.Yaml.Written
import Mathlib.Data.List.Forall2

/-! # Sources of written text

What is written consists of characters that stand in a source as they are. A source shows
such characters from a column on, wherever it starts.
-/
namespace CategorizedIndex.Yaml

variable {c d : Char} {cs rest : List Char} {s : Source} {column n : Nat}

namespace Written

theorem ne_of_apply {p : Char → Bool} (hc : p c = true) (hd : p d = false) : c ≠ d := by
  rintro rfl
  rw [hc] at hd
  cases hd

theorem isAllowed_of_printable (h : isPrintable c = true) : isAllowed c = true := by
  simp only [isPrintable, isAllowed, Bool.or_eq_true, Bool.and_eq_true, decide_eq_true_eq] at h ⊢
  rcases h with ((h | h) | h) | h
  · simp [h]
  all_goals omega

/-- The only blank that stands as it is. -/
theorem isBlank_of_printable (h : isPrintable c = true) : isBlank c = isSpace c := by
  have htab : c ≠ '\t' := ne_of_apply h (by decide)
  simp [isBlank, isSpace, htab]

theorem needsEscape_eq_false_iff : needsEscape cs = false ↔
    (∀ c ∈ cs, isPrintable c = true) ∧ hasPair isSpace isBreak cs = false := by
  simp [needsEscape]

theorem hasPair_cons {p q : Char → Bool} (h : hasPair p q (c :: cs) = false) :
    (p c = true → ∀ d ∈ cs.head?, q d = false) ∧ hasPair p q cs = false := by
  cases cs with
  | nil => simp [hasPair]
  | cons d cs =>
    simp only [hasPair, List.tail_cons, List.zip_cons_cons, List.any_cons,
      Bool.or_eq_false_iff] at h ⊢
    refine ⟨fun hp e he => ?_, h.2⟩
    obtain rfl : d = e := by simpa using he
    simpa [hp] using h.1

/-- What may stand behind the indentation of a line: a word, or nothing at the end of the text. -/
def StartsWord (cs : List Char) : Prop :=
  ∀ c ∈ cs.head?, isPrintable c = true ∧ isBreak c = false ∧ isSpace c = false ∧ c ≠ '#'

end Written

namespace Source

open Written

theorem place_cons (hc : isPrintable c = true) (index line column : Nat) (rest : List Char) :
    place index line column (c :: rest) = ⟨c, index, line, column⟩ ::
      if isBreak c then place (index + c.utf8Size) (line + 1) 0 rest
      else place (index + c.utf8Size) line (column + 1) rest := by
  have hreturn : c ≠ '\r' := ne_of_apply hc (by decide)
  have hnext : c ≠ '\x85' := ne_of_apply hc (by decide)
  rw [place]
  · simp [hreturn, hnext]
  · intro _ heq
    exact absurd heq hreturn

/-- A source shows the rest of a text from a column on. -/
def Shows (s : Source) (column : Nat) (cs : List Char) : Prop :=
  ∃ index line, s = place index line column cs

theorem Shows.exists_char (h : s.Shows column (c :: cs)) (hc : isPrintable c = true)
    (hbreak : isBreak c = false) : ∃ index line, ∃ s' : Source,
      s = ⟨c, index, line, column⟩ :: s' ∧ s'.Shows (column + 1) cs := by
  obtain ⟨index, line, rfl⟩ := h
  rw [place_cons hc, hbreak]
  exact ⟨index, line, _, rfl, _, _, rfl⟩

theorem Shows.exists_break (h : s.Shows column (c :: cs)) (hc : isPrintable c = true)
    (hbreak : isBreak c = true) : ∃ index line, ∃ s' : Source,
      s = ⟨c, index, line, column⟩ :: s' ∧ s'.Shows 0 cs := by
  obtain ⟨index, line, rfl⟩ := h
  rw [place_cons hc, hbreak]
  exact ⟨index, line, _, rfl, _, _, rfl⟩

theorem Shows.exists_nil (h : s.Shows column []) :
    ∃ index line, s = [⟨endChar, index, line, column⟩] := by
  obtain ⟨index, line, rfl⟩ := h
  exact ⟨index, line, rfl⟩

theorem exists_place (index line column : Nat) (cs : List Char) :
    ∃ c, ∃ s : Source, place index line column cs = ⟨c, index, line, column⟩ :: s := by
  unfold place
  split
  · exact ⟨_, _, rfl⟩
  · exact ⟨_, _, rfl⟩
  · dsimp only
    split <;> exact ⟨_, _, rfl⟩

theorem Shows.column_eq (h : s.Shows column cs) : s.column = column := by
  obtain ⟨index, line, rfl⟩ := h
  obtain ⟨c, s, hplace⟩ := exists_place index line column cs
  rw [hplace]
  rfl

theorem Shows.head_ne_end (h : s.Shows column (c :: cs)) (hc : isPrintable c = true) :
    s.head ≠ endChar := by
  obtain ⟨index, line, rfl⟩ := h
  rw [place_cons hc]
  exact ne_of_apply hc (by decide)

theorem length_place (h : ∀ c ∈ cs, isPrintable c = true) (index line column : Nat) :
    (place index line column cs).length = cs.length + 1 := by
  induction cs generalizing index line column with
  | nil => rfl
  | cons c rest ih =>
    obtain ⟨hc, hrest⟩ := List.forall_mem_cons.mp h
    rw [place_cons hc]
    split <;> simp [ih hrest]

theorem atMarker_of_pos {g : Glyph} (h : 0 < g.column) : atMarker (g :: s) = false := by
  have hne : g.column ≠ 0 := Nat.ne_of_gt h
  simp [atMarker, startsWith3, Source.column, hne]

end Source

/-- A piece that stands for a character of its line. -/
inductive Piece.Shows : Piece → Char → Prop
  | char (c : Char) : Shows (.char c) c
  | blank (c : Char) : Shows (.blank c) c

theorem folded_shows {ps : List Piece} {cs : List Char} (h : List.Forall₂ Piece.Shows ps cs)
    (blanks : List Char) : folded (.blanks blanks) ps = blanks ++ cs := by
  induction h generalizing blanks with
  | nil => simp [folded, Gap.text]
  | cons hp _ ih =>
    cases hp with
    | char c => simp [folded, Gap.text, Gap.empty, ih]
    | blank c => simp [folded, Gap.addBlank, ih]

theorem Piece.shows_ofChar (h : isBreak c = false) : Shows (.ofChar c) c := by
  unfold ofChar
  split
  · exact .blank c
  · simp [h, Shows.char]

end CategorizedIndex.Yaml
