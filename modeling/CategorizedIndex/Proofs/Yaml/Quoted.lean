import CategorizedIndex.Proofs.Yaml.Source
import Mathlib.Data.Nat.Digits.Defs

/-! # Scalars in quotes

A text in quotes is read up to its closing quote. In double quotes every character is read as
itself, escaped or not. In single quotes breaks may stand as they are, with the words behind
them indented, as long as no blanks stand around them.
-/
namespace CategorizedIndex.Yaml

variable {c : Char} {cs rest : List Char} {s : Source} {column n : Nat}

namespace Source

open Written

def hexValue (value : Nat) (digits : List Char) : Option Nat :=
  digits.foldlM (fun value c => (Text.hexValue? c).map (value * 16 + ·)) value

theorem doublePieces?_digits {value code : Nat} {digits : List Char} (hdigits : digits ≠ [])
    (h : s.Shows column (digits ++ rest)) (hprintable : ∀ c ∈ digits, isPrintable c = true)
    (hbreak : ∀ c ∈ digits, isBreak c = false)
    (hcode : hexValue value digits = some code) (hc : charOf? code = some c) :
    ∃ s' : Source, s'.Shows (column + digits.length) rest ∧
      s.doublePieces? (some (digits.length, value)) =
        addPiece (.char c) (s'.doublePieces? none) := by
  induction digits generalizing s column value with
  | nil => exact absurd rfl hdigits
  | cons d more ih =>
    obtain ⟨hd, hmore⟩ := List.forall_mem_cons.mp hprintable
    obtain ⟨hdb, hmoreb⟩ := List.forall_mem_cons.mp hbreak
    obtain ⟨i, l, s', rfl, hs'⟩ := h.exists_char hd hdb
    cases hv : Text.hexValue? d with
    | none => simp [hexValue, hv] at hcode
    | some digit =>
      have hrest : hexValue (value * 16 + digit) more = some code := by
        simpa [hexValue, hv] using hcode
      cases more with
      | nil =>
        obtain rfl : value * 16 + digit = code := by simpa [hexValue] using hrest
        refine ⟨s', by simpa using hs', ?_⟩
        simp [doublePieces?, hv, hc]
      | cons e more =>
        obtain ⟨s'', hs'', heq⟩ := ih (List.cons_ne_nil _ _) hs' hmore hmoreb hrest
        refine ⟨s'', by simpa [Nat.add_assoc, Nat.add_comm] using hs'', ?_⟩
        rw [← heq, doublePieces?]
        simp [hv]

theorem charOf?_toNat (c : Char) : charOf? c.toNat = some c := by
  have hvalid : c.toNat.isValidChar := c.valid
  have hsame : Char.ofNat c.toNat = Char.ofNatAux c.toNat hvalid := by
    unfold Char.ofNat
    exact dif_pos hvalid
  rw [charOf?, dif_pos hvalid, ← hsame, Char.ofNat_toNat]

end Source

namespace Written

def ReadBack (c : Char) (escaped : List Char) : Prop :=
  (∃ letter, escaped = ['\\', letter] ∧ isPrintable letter = true ∧ isBreak letter = false ∧
    Source.escaped? letter = some c) ∨
  ∃ letter digits, escaped = '\\' :: letter :: digits ∧ digits ≠ [] ∧
    (∀ d ∈ letter :: digits, isPrintable d = true ∧ isBreak d = false) ∧
    Source.escaped? letter = none ∧ Source.escapeDigits? letter = some digits.length ∧
    Source.hexValue 0 digits = some c.toNat

theorem hexValue?_digitChar : ∀ n < 16, Text.hexValue? n.digitChar.toUpper = some n ∧
    isPrintable n.digitChar.toUpper = true ∧ isBreak n.digitChar.toUpper = false := by
  decide +kernel

theorem hexValue_append (value : Nat) (front back : List Char) :
    Source.hexValue value (front ++ back) =
      (Source.hexValue value front).bind (Source.hexValue · back) :=
  List.foldlM_append

theorem hexValue_hexDigits (n : Nat) :
    Source.hexValue 0 ((Text.hexDigits n).map Char.toUpper) = some n ∧
      ∀ d ∈ (Text.hexDigits n).map Char.toUpper, isPrintable d = true ∧ isBreak d = false := by
  induction n using Nat.strongRecOn with
  | _ n ih =>
    rcases Nat.lt_or_ge n 16 with hsmall | hlarge
    · obtain ⟨hvalue, hstands⟩ := hexValue?_digitChar n hsmall
      simp [Text.hexDigits, Nat.toDigits_of_lt_base hsmall, Source.hexValue, hvalue, hstands]
    · obtain ⟨hvalue, hstands⟩ := hexValue?_digitChar (n % 16) (Nat.mod_lt _ (by decide))
      obtain ⟨ihvalue, ihstands⟩ := ih (n / 16) (by omega)
      rw [Text.hexDigits, Nat.toDigits_of_base_le (by decide) hlarge, List.map_append,
        hexValue_append]
      refine ⟨?_, List.forall_mem_append.mpr ⟨ihstands, by simpa using hstands⟩⟩
      rw [show Source.hexValue 0 ((Nat.toDigits 16 (n / 16)).map Char.toUpper) = some (n / 16)
        from ihvalue]
      simp [Source.hexValue, hvalue]
      omega

theorem hexValue_filled (width n : Nat) :
    Source.hexValue 0 (Text.filled width ((Text.hexDigits n).map Char.toUpper)) = some n ∧
      ∀ d ∈ Text.filled width ((Text.hexDigits n).map Char.toUpper),
        isPrintable d = true ∧ isBreak d = false := by
  obtain ⟨hvalue, hstands⟩ := hexValue_hexDigits n
  have hzeros : ∀ k, Source.hexValue 0 (List.replicate k '0') = some 0 := by
    intro k
    induction k with
    | zero => rfl
    | succ k ih =>
      have hzero : Text.hexValue? '0' = some 0 := by decide
      simpa [List.replicate_succ, Source.hexValue, hzero] using ih
  rw [Text.filled, hexValue_append, hzeros]
  refine ⟨hvalue, List.forall_mem_append.mpr ⟨fun d hd => ?_, hstands⟩⟩
  rw [List.eq_of_mem_replicate hd]
  decide

theorem length_filled {width n : Nat} (hwidth : 0 < width) (h : n < 16 ^ width) :
    (Text.filled width ((Text.hexDigits n).map Char.toUpper)).length = width := by
  have hlength := (Nat.length_toDigits_le_iff (by decide) hwidth).mpr h
  simp only [Text.filled, Text.hexDigits, List.length_append, List.length_replicate,
    List.length_map]
  omega

theorem readBack_escape (h : isPrintable c = false ∨ isBreak c = true ∨ c = '"' ∨ c = '\\') :
    ReadBack c (escape c) := by
  unfold escape
  simp only
  split
  · next letter hletter =>
    obtain ⟨before, after, htable, -⟩ := List.lookup_eq_some_iff.mp hletter
    have hmem := htable ▸ List.mem_append_right before (List.mem_cons_self (l := after))
    have hall : ∀ p ∈ ([ ('\x00', '0'), ('\x07', 'a'), ('\x08', 'b'), ('\t', 't'), ('\n', 'n'),
        ('\x0b', 'v'), ('\x0c', 'f'), ('\r', 'r'), ('\x1b', 'e'), ('"', '"'), ('\\', '\\'),
        ('\x85', 'N'), ('\xa0', '_'), ('\u2028', 'L'), ('\u2029', 'P') ] : List (Char × Char)),
        isPrintable p.2 = true ∧ isBreak p.2 = false ∧ Source.escaped? p.2 = some p.1 := by
      decide +kernel
    obtain ⟨hprintable, hbreak, hescaped⟩ := hall _ hmem
    exact Or.inl ⟨letter, rfl, hprintable, hbreak, hescaped⟩
  · next hnone =>
    have hne : c ≠ '\n' ∧ c ≠ '"' ∧ c ≠ '\\' ∧ c ≠ '\u2028' ∧ c ≠ '\u2029' := by
      have hall := List.lookup_eq_none_iff.mp hnone
      simp at hall
      simp [hall]
    have hunprintable : isPrintable c = false := by
      simpa [isBreak, hne] using h
    have hdigits : ∀ width letter, 0 < width → c.toNat < 16 ^ width →
        isPrintable letter = true ∧ isBreak letter = false → Source.escaped? letter = none →
        Source.escapeDigits? letter = some width → ReadBack c
          ('\\' :: letter :: Text.filled width ((Text.hexDigits c.toNat).map Char.toUpper)) := by
      intro width letter hwidth hlt hletter hescaped hwidths
      obtain ⟨hvalue, hstands⟩ := hexValue_filled width c.toNat
      have hlength := length_filled hwidth hlt
      refine Or.inr ⟨letter, _, rfl, ?_, List.forall_mem_cons.mpr ⟨hletter, hstands⟩, hescaped,
        ?_, hvalue⟩
      · exact List.ne_nil_of_length_pos (hlength.symm ▸ hwidth)
      · rw [hlength, hwidths]
    split
    · next hsmall =>
      exact hdigits 2 'x' (by decide) (Nat.lt_succ_of_le hsmall) (by decide) rfl rfl
    · refine hdigits 4 'u' (by decide) ?_ (by decide) rfl rfl
      simp only [isPrintable, Bool.or_eq_false_iff, decide_eq_false_iff_not] at hunprintable
      omega

end Written

namespace Source

open Written

/-- A character in double quotes is read as itself, escaped or not. -/
theorem doublePieces?_char (h : s.Shows column (doubleQuotedChar c ++ rest)) (hpos : 0 < column) :
    ∃ p column' s', Piece.Shows p c ∧ column < column' ∧ Shows s' column' rest ∧
      s.doublePieces? none = addPiece p (s'.doublePieces? none) := by
  unfold doubleQuotedChar at h
  split at h
  · next hspecial =>
    have hread : ReadBack c (escape c) := by
      refine readBack_escape ?_
      simpa [or_assoc] using hspecial
    rcases hread with ⟨letter, heq, hprintable, hbreak, hescaped⟩ |
      ⟨letter, digits, heq, hne, hdigits, hescaped, hlength, hvalue⟩
    · rw [heq] at h
      obtain ⟨i, l, s₁, rfl, h₁⟩ := h.exists_char (by decide) (by decide)
      obtain ⟨j, m, s₂, rfl, h₂⟩ := h₁.exists_char hprintable hbreak
      refine ⟨.char c, _, s₂, .char c, ?_, h₂, ?_⟩
      · exact Nat.lt_succ_of_lt (Nat.lt_succ_self _)
      · rw [doublePieces?.eq_def]
        simp [atMarker_of_pos (g := ⟨'\\', i, l, column⟩) hpos, endChar, hbreak, hescaped]
    · rw [heq] at h
      obtain ⟨⟨hletter, hletterBreak⟩, hdigits⟩ := List.forall_mem_cons.mp hdigits
      obtain ⟨i, l, s₁, rfl, h₁⟩ := h.exists_char (by decide) (by decide)
      obtain ⟨j, m, s₂, rfl, h₂⟩ := h₁.exists_char hletter hletterBreak
      obtain ⟨s', hs', hread⟩ := doublePieces?_digits hne h₂ (fun d hd => (hdigits d hd).1)
        (fun d hd => (hdigits d hd).2) hvalue (charOf?_toNat c)
      refine ⟨.char c, _, s', .char c, ?_, hs', ?_⟩
      · exact Nat.lt_add_right _ (Nat.lt_succ_of_lt (Nat.lt_succ_self _))
      · rw [doublePieces?.eq_def]
        simp [atMarker_of_pos (g := ⟨'\\', i, l, column⟩) hpos, endChar, hletterBreak, hescaped,
          hlength, hread]
  · next hspecial =>
    simp only [Bool.or_eq_true, Bool.not_eq_true', not_or, Bool.not_eq_false, decide_eq_true_eq,
      Bool.not_eq_true] at hspecial
    obtain ⟨⟨⟨hprintable, hbreak⟩, hquote⟩, hslash⟩ := hspecial
    obtain ⟨i, l, s', rfl, hs'⟩ := h.exists_char hprintable hbreak
    have hend : c ≠ endChar := ne_of_apply hprintable (by decide)
    refine ⟨.ofChar c, _, s', Piece.shows_ofChar hbreak, Nat.lt_succ_self _, hs', ?_⟩
    rw [doublePieces?.eq_def]
    simp [atMarker_of_pos (g := ⟨c, i, l, column⟩) hpos, hend, hquote, hslash]

theorem doublePieces?_chars
    (h : s.Shows column (cs.flatMap doubleQuotedChar ++ '"' :: rest)) (hpos : 0 < column) :
    ∃ ps column' s', List.Forall₂ Piece.Shows ps cs ∧ column < column' ∧ Shows s' column' rest ∧
      s.doublePieces? none = some (ps, s') := by
  induction cs generalizing s column with
  | nil =>
    obtain ⟨i, l, s', rfl, hs'⟩ := h.exists_char (by decide) (by decide)
    refine ⟨[], _, s', .nil, Nat.lt_succ_self _, hs', ?_⟩
    rw [doublePieces?.eq_def]
    simp [atMarker_of_pos (g := ⟨'"', i, l, column⟩) hpos, endChar]
  | cons c cs ih =>
    rw [List.flatMap_cons, List.append_assoc] at h
    obtain ⟨p, column', s', hp, hlt, hs', hread⟩ := doublePieces?_char h hpos
    obtain ⟨ps, column'', s'', hps, hlt', hs'', hrest⟩ := ih hs' (Nat.lt_trans hpos hlt)
    refine ⟨p :: ps, column'', s'', .cons hp hps, Nat.lt_trans hlt hlt', hs'', ?_⟩
    simp [hread, hrest, addPiece]

theorem doubleQuoted?_chars
    (h : s.Shows column (cs.flatMap doubleQuotedChar ++ '"' :: rest)) (hpos : 0 < column) :
    ∃ column' s', column < column' ∧ Shows s' column' rest ∧
      s.doubleQuoted? = some (String.ofList cs, s') := by
  obtain ⟨ps, column', s', hps, hlt, hs', hread⟩ := doublePieces?_chars h hpos
  refine ⟨column', s', hlt, hs', ?_⟩
  have hfolded := folded_shows hps []
  simp [doubleQuoted?, hread, quotedText, Gap.empty, hfolded]

/-! ## Single quotes -/

/-- The gap in front of a text whose breaks stand as they are: blanks, unless a break follows, or
breaks that are no line feeds, unless a blank follows. -/
inductive Before : Bool → Gap → List Char → Prop
  | blanks (blanks : List Char) {cs : List Char} :
      (blanks ≠ [] → ∀ c ∈ cs.head?, isBreak c = false) → Before false (.blanks blanks) cs
  | breaks {c : Char} (more : List Char) {cs : List Char} :
      c ≠ '\n' → (∀ c ∈ cs.head?, isSpace c = false) → Before true (.breaks (some c) more) cs

theorem text_breaks (h : c ≠ '\n') (more : List Char) :
    (Gap.breaks (some c) more).text = c :: more := by
  cases more <;> simp [Gap.text, h]

theorem Before.addBreak {broken : Bool} {gap : Gap} (h : Before broken gap (c :: cs))
    (hc : isBreak c = true) (hfeed : c ≠ '\n') (hnext : ∀ d ∈ cs.head?, isSpace d = false) :
    Before true (gap.addBreak c) cs ∧ (gap.addBreak c).text = gap.text ++ [c] := by
  cases h with
  | blanks blanks hblanks =>
    have hnil : blanks = [] := by
      by_contra hne
      have hcb := hblanks hne c (by simp)
      rw [hc] at hcb
      cases hcb
    subst hnil
    exact ⟨.breaks [] hfeed hnext, text_breaks hfeed []⟩
  | breaks more hd _ =>
    refine ⟨.breaks _ hd hnext, ?_⟩
    rw [Gap.addBreak, text_breaks hd, text_breaks hd, List.cons_append]

theorem Before.addBlank {broken : Bool} {gap : Gap} (h : Before broken gap (c :: cs))
    (hc : isSpace c = true) (hnext : ∀ d ∈ cs.head?, isBreak d = false) :
    Before false (gap.addBlank c) cs ∧ (gap.addBlank c).text = gap.text ++ [c] := by
  cases h with
  | blanks blanks _ => exact ⟨.blanks _ fun _ => hnext, rfl⟩
  | breaks more _ hspace =>
    have hcs := hspace c (by simp)
    rw [hc] at hcs
    cases hcs

theorem singlePieces?_spaces (h : s.Shows column (spaces n ++ rest)) :
    ∃ s', Shows s' (column + n) rest ∧
      s.singlePieces? = (s'.singlePieces?).map fun r => (List.replicate n (.blank ' ') ++ r.1, r.2) := by
  induction n generalizing s column with
  | zero =>
    refine ⟨s, h, ?_⟩
    cases s.singlePieces? <;> simp
  | succ n ih =>
    obtain ⟨i, l, s₁, rfl, h₁⟩ := h.exists_char (by decide) (by decide)
    obtain ⟨s', hs', hread⟩ := ih h₁
    refine ⟨s', by simpa [isBreak, Nat.add_assoc, Nat.add_comm 1] using hs', ?_⟩
    rw [singlePieces?.eq_def]
    have hmarker : atMarker (⟨' ', i, l, column⟩ :: s₁) = false := by
      simp [atMarker, startsWith3, Source.head]
    have hblank : Piece.ofChar ' ' = .blank ' ' := rfl
    simp only [hmarker, endChar, hread, hblank]
    cases s'.singlePieces? <;> simp [addPiece, List.replicate_succ]

theorem folded_breaks_blanks (first : Option Char) (more : List Char) (ps : List Piece) :
    folded (.breaks first more) (List.replicate n (.blank ' ') ++ ps) =
      folded (.breaks first more) ps := by
  induction n with
  | zero => rfl
  | succ n ih => simp [List.replicate_succ, folded, Gap.addBlank, ih]

/-- The blanks in front of a word behind a break do not count. -/
theorem singlePieces?_indent {broken : Bool} {gap : Gap} {indent : Nat}
    (hgap : Before broken gap cs) (hindent : 0 < indent) (hcolumn : broken = false → 0 < column)
    (h : s.Shows column ((if broken then spaces indent else []) ++ rest)) :
    ∃ column' s', 0 < column' ∧ Shows s' column' rest ∧ ∀ ps left,
      s'.singlePieces? = some (ps, left) → ∃ ps', s.singlePieces? = some (ps', left) ∧
        folded gap ps' = folded gap ps := by
  cases hgap with
  | blanks blanks _ => exact ⟨column, s, hcolumn rfl, h, fun ps left hread => ⟨ps, hread, rfl⟩⟩
  | breaks more _ _ =>
    obtain ⟨s', hs', hread⟩ := singlePieces?_spaces h
    refine ⟨column + indent, s', Nat.lt_add_left column hindent, hs', fun ps left hrest => ?_⟩
    exact ⟨_, by rw [hread, hrest]; rfl, folded_breaks_blanks _ _ _⟩

/-- A quote stands twice and is read once. -/
theorem singlePieces?_char (hc : isPrintable c = true) (hbreak : isBreak c = false)
    (h : s.Shows column ((if c = '\x27' then [c, c] else [c]) ++ rest)) (hpos : 0 < column) :
    ∃ column' s', 0 < column' ∧ Shows s' column' rest ∧
      s.singlePieces? = addPiece (.ofChar c) s'.singlePieces? := by
  have hend : c ≠ endChar := ne_of_apply hc (by decide)
  by_cases hquote : c = '\x27'
  · subst hquote
    obtain ⟨i, l, s₁, rfl, h₁⟩ := h.exists_char hc hbreak
    obtain ⟨j, m, s₂, rfl, h₂⟩ := h₁.exists_char hc hbreak
    refine ⟨_, s₂, Nat.succ_pos _, h₂, ?_⟩
    rw [singlePieces?.eq_def]
    simp [atMarker_of_pos (g := ⟨'\x27', i, l, column⟩) hpos, endChar, Piece.ofChar, isBlank,
      isBreak]
  · rw [if_neg hquote] at h
    obtain ⟨i, l, s₁, rfl, h₁⟩ := h.exists_char hc hbreak
    refine ⟨_, s₁, Nat.succ_pos _, h₁, ?_⟩
    rw [singlePieces?.eq_def]
    simp [atMarker_of_pos (g := ⟨c, i, l, column⟩) hpos, hend, hquote]

theorem singlePieces?_break (hc : isPrintable c = true) (hbreak : isBreak c = true)
    (h : s.Shows column (c :: rest)) :
    ∃ s', Shows s' 0 rest ∧ s.singlePieces? = addPiece (.lineBreak c) s'.singlePieces? := by
  obtain ⟨i, l, s', rfl, hs'⟩ := h.exists_break hc hbreak
  have hblank : isBlank c = false := by
    have hspace : c ≠ ' ' := ne_of_apply hbreak (by decide)
    simp [isBlank_of_printable hc, isSpace, hspace]
  have hquote : c ≠ '\x27' := ne_of_apply hbreak (by decide)
  have hend : c ≠ endChar := ne_of_apply hc (by decide)
  have hmarker : atMarker (⟨c, i, l, column⟩ :: s') = false := by
    have hdash : c ≠ '-' := ne_of_apply hbreak (by decide)
    have hdot : c ≠ '.' := ne_of_apply hbreak (by decide)
    simp [atMarker, startsWith3, Source.head, hdash, hdot]
  refine ⟨s', hs', ?_⟩
  rw [singlePieces?.eq_def]
  simp [hmarker, hend, hquote, Piece.ofChar, hblank, hbreak]

theorem singlePieces?_close (h : s.Shows column ('\x27' :: '\n' :: rest)) (hpos : 0 < column) :
    ∃ column' s', Shows s' column' ('\n' :: rest) ∧ s.singlePieces? = some ([], s') := by
  obtain ⟨i, l, s₁, rfl, h₁⟩ := h.exists_char (by decide) (by decide)
  obtain ⟨j, m, s₂, rfl, -⟩ := h₁.exists_break (by decide) (by decide)
  refine ⟨_, _, h₁, ?_⟩
  rw [singlePieces?.eq_def]
  simp [atMarker_of_pos (g := ⟨'\x27', i, l, column⟩) hpos, endChar]

theorem singlePieces?_chars {broken : Bool} {gap : Gap} {indent : Nat}
    (hgap : Before broken gap cs) (hindent : 0 < indent) (hcolumn : broken = false → 0 < column)
    (h : s.Shows column (singleQuotedChars indent broken cs ++ '\x27' :: '\n' :: rest))
    (hprintable : ∀ c ∈ cs, isPrintable c = true) (hfeed : '\n' ∉ cs)
    (hspace : hasPair isSpace isBreak cs = false) (hbreak : hasPair isBreak isSpace cs = false) :
    ∃ ps column' s', Shows s' column' ('\n' :: rest) ∧ s.singlePieces? = some (ps, s') ∧
      folded gap ps = gap.text ++ cs := by
  induction cs generalizing broken gap s column with
  | nil =>
    obtain ⟨column₁, s₁, hpos, h₁, hindented⟩ :=
      singlePieces?_indent hgap hindent hcolumn (by simpa [singleQuotedChars] using h)
    obtain ⟨column', s', hs', hend⟩ := singlePieces?_close h₁ hpos
    obtain ⟨ps, hps, hfolded⟩ := hindented _ _ hend
    exact ⟨ps, column', s', hs', hps, by rw [hfolded]; simp [folded]⟩
  | cons c cs ih =>
    obtain ⟨hc, hcs⟩ := List.forall_mem_cons.mp hprintable
    obtain ⟨hfeedc, hfeeds⟩ := not_or.mp (mt List.mem_cons.mpr hfeed)
    obtain ⟨hspacec, hspaces⟩ := hasPair_cons hspace
    obtain ⟨hbreakc, hbreaks⟩ := hasPair_cons hbreak
    cases hcb : isBreak c with
    | true =>
      have hne : ¬ (!broken && c = '\n') = true := by simp [Ne.symm hfeedc]
      rw [singleQuotedChars, if_pos hcb, if_neg hne, List.nil_append] at h
      obtain ⟨s₁, h₁, hstep⟩ := singlePieces?_break hc hcb h
      obtain ⟨hbefore, htext⟩ := hgap.addBreak hcb (Ne.symm hfeedc) (hbreakc hcb)
      obtain ⟨ps, column', s', hs', hread, hfolded⟩ :=
        ih hbefore (fun hf => Bool.noConfusion hf) h₁ hcs hfeeds hspaces hbreaks
      refine ⟨.lineBreak c :: ps, column', s', hs', by simp [hstep, hread, addPiece], ?_⟩
      rw [folded, hfolded, htext]
      simp
    | false =>
      rw [singleQuotedChars, if_neg (by simp [hcb]), List.append_assoc, List.append_assoc] at h
      obtain ⟨column₁, s₁, hpos₁, h₁, hindented⟩ := singlePieces?_indent hgap hindent hcolumn h
      obtain ⟨column₂, s₂, hpos₂, h₂, hchar⟩ := singlePieces?_char hc hcb h₁ hpos₁
      have hblank : isBlank c = isSpace c := isBlank_of_printable hc
      cases hsp : isSpace c with
      | true =>
        obtain ⟨hbefore, htext⟩ := hgap.addBlank hsp (hspacec hsp)
        obtain ⟨ps, column', s', hs', hread, hfolded⟩ :=
          ih hbefore (fun _ => hpos₂) h₂ hcs hfeeds hspaces hbreaks
        obtain ⟨ps', hread', hfolded'⟩ := hindented _ _
          (show s₁.singlePieces? = some (.blank c :: ps, s') by
            simp [hchar, hread, addPiece, Piece.ofChar, hblank, hsp])
        refine ⟨ps', column', s', hs', hread', ?_⟩
        rw [hfolded', folded, hfolded, htext]
        simp
      | false =>
        obtain ⟨ps, column', s', hs', hread, hfolded⟩ :=
          ih (.blanks [] fun hne => absurd rfl hne) (fun _ => hpos₂) h₂ hcs hfeeds hspaces hbreaks
        obtain ⟨ps', hread', hfolded'⟩ := hindented _ _
          (show s₁.singlePieces? = some (.char c :: ps, s') by
            simp [hchar, hread, addPiece, Piece.ofChar, hblank, hsp, hcb])
        refine ⟨ps', column', s', hs', hread', ?_⟩
        rw [hfolded', folded, Gap.empty, hfolded]
        simp [Gap.text]

/-- Between single quotes a text without line feeds is read as it was. -/
theorem singleQuoted?_chars {indent : Nat} (hindent : 0 < indent) (hpos : 0 < column)
    (h : s.Shows column (singleQuotedChars indent false cs ++ '\x27' :: '\n' :: rest))
    (hfits : fitsSingleQuotes cs = true) (hfeed : '\n' ∉ cs) :
    ∃ column' s', Shows s' column' ('\n' :: rest) ∧
      s.singleQuoted? = some (String.ofList cs, s') := by
  simp only [fitsSingleQuotes, Bool.and_eq_true, Bool.not_eq_true'] at hfits
  obtain ⟨hescape, hbreak⟩ := hfits
  obtain ⟨hprintable, hspace⟩ := needsEscape_eq_false_iff.mp hescape
  obtain ⟨ps, column', s', hs', hread, hfolded⟩ :=
    singlePieces?_chars (.blanks [] fun hne => absurd rfl hne) hindent (fun _ => hpos) h hprintable
      hfeed hspace hbreak
  refine ⟨column', s', hs', ?_⟩
  simp [singleQuoted?, hread, quotedText, Gap.empty, hfolded, Gap.text]

end Source

end CategorizedIndex.Yaml
