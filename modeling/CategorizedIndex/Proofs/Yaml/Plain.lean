import CategorizedIndex.Proofs.Yaml.Source

/-! # Plain scalars

A text that fits without quotes is read up to the end of its line, or up to the colon that makes
a key of it.
-/
namespace CategorizedIndex.Yaml

variable {c : Char} {cs rest : List Char} {s : Source} {column indent n : Nat}

namespace Written

/-- How many octets are written. -/
def octets (cs : List Char) : Nat := cs.foldr (·.utf8Size + ·) 0

structure Inside (between : Bool) (cs : List Char) : Prop where
  printable : ∀ c ∈ cs, isPrintable c = true
  unbroken : ∀ c ∈ cs, isBreak c = false
  colon : hasPair (· = ':') isSpace cs = false
  comment : hasPair isSpace (· = '#') cs = false
  last : cs.getLast? ≠ some ':'
  first : between = true → ∀ c ∈ cs.head?, c ≠ '#'

theorem Inside.tail {between : Bool} (h : Inside between (c :: cs)) :
    Inside (isSpace c) cs where
  printable := (List.forall_mem_cons.mp h.printable).2
  unbroken := (List.forall_mem_cons.mp h.unbroken).2
  colon := (hasPair_cons h.colon).2
  comment := (hasPair_cons h.comment).2
  last hlast := h.last (by
    cases cs with
    | nil => cases hlast
    | cons d cs => simpa using hlast)
  first hspace d hd := by simpa using (hasPair_cons h.comment).1 hspace d hd

theorem inside_of_fitsPlain (h : fitsPlain cs = true) :
    Inside false cs ∧ cs.getLast? ≠ some ' ' := by
  simp only [fitsPlain, holdsMark, Bool.and_eq_true, Bool.not_eq_true', Bool.or_eq_false_iff,
    decide_eq_true_eq, decide_eq_false_iff_not, List.any_eq_false, Bool.not_eq_true] at h
  obtain ⟨⟨⟨⟨⟨hescape, hbreak⟩, -⟩, hlast⟩, -⟩, ⟨⟨-, hcolon⟩, hcomment⟩, hend⟩ := h
  refine ⟨⟨(needsEscape_eq_false_iff.mp hescape).1, hbreak, hcolon, hcomment, hend, ?_⟩, hlast⟩
  exact fun hf => Bool.noConfusion hf

theorem startsWord_of_fitsPlain (h : fitsPlain cs = true) : StartsWord cs := by
  obtain ⟨hinside, -⟩ := inside_of_fitsPlain h
  intro c hc
  have hmem := List.mem_of_mem_head? hc
  cases cs with
  | nil => cases hc
  | cons d cs =>
    obtain rfl : d = c := by simpa using hc
    simp only [fitsPlain, startsAsMark, Bool.and_eq_true, Bool.not_eq_true',
      Bool.or_eq_false_iff, List.head?_cons, ne_eq, Option.some.injEq, decide_eq_true_eq,
      List.contains_cons, beq_eq_false_iff_ne] at h
    exact ⟨hinside.printable d hmem, hinside.unbroken d hmem, by simpa [isSpace] using h.1.1.1.2,
      h.1.2.1.1⟩

end Written

namespace Source

open Written

theorem endsWord_of_printable (hc : isPrintable c = true) (hbreak : isBreak c = false) :
    endsWord c = isSpace c := by
  have hend : c ≠ endChar := ne_of_apply hc (by decide)
  simp [endsWord, isBlank_of_printable hc, hbreak, hend]

theorem plainPieces?_char {between : Bool} (h : Inside between (c :: cs)) (index line : Nat)
    (hcolumn : between = true → 0 < column ∧ indent ≤ column) :
    (place index line column (c :: (cs ++ rest))).plainPieces? false indent between false =
      addPiece (.ofChar c) ((place (index + c.utf8Size) line (column + 1) (cs ++ rest)).plainPieces?
        false indent (isSpace c) false) := by
  have hc := h.printable c List.mem_cons_self
  have hbreak := h.unbroken c List.mem_cons_self
  have hblank : isBlank c = isSpace c := isBlank_of_printable hc
  rw [place_cons hc, hbreak]
  cases hsp : isSpace c with
  | true =>
    rw [plainPieces?]
    simp [hblank, hsp, Piece.ofChar]
  | false =>
    have hend : c ≠ endChar := ne_of_apply hc (by decide)
    have hgoes : (between && endsPlain false indent
        (⟨c, index, line, column⟩ :: place (index + c.utf8Size) line (column + 1) (cs ++ rest))) =
          false := by
      cases between with
      | false => rfl
      | true =>
        obtain ⟨hpos, hle⟩ := hcolumn rfl
        have hmark := h.first rfl c (by simp)
        have hdeep : ¬ column < indent := Nat.not_lt.mpr hle
        simp [endsPlain, atMarker_of_pos (g := ⟨c, index, line, column⟩) hpos, Source.head, hmark,
          Source.column, hdeep]
    have hcolon : (c = ':' && endsWord (head
        (place (index + c.utf8Size) line (column + 1) (cs ++ rest)))) = false := by
      by_cases hc' : c = ':'
      · subst hc'
        cases cs with
        | nil => exact absurd rfl h.last
        | cons d ds =>
          have hd := h.printable d (by simp)
          have hspace := (hasPair_cons h.colon).1 rfl d rfl
          have hword := endsWord_of_printable hd (h.unbroken d (by simp))
          rw [List.cons_append, place_cons hd]
          simp [Source.head, hword, hspace]
      · simp [hc']
    rw [plainPieces?]
    simp [hblank, hsp, hbreak, hend, hgoes, hcolon, Piece.ofChar]

theorem plainPieces?_chars {between : Bool} (h : Inside between cs) (rest : List Char)
    (index line : Nat)
    (hcolumn : between = true → 0 < column ∧ indent ≤ column) (hindent : indent ≤ column + 1) :
    ∃ between', (place index line column (cs ++ rest)).plainPieces? false indent between false =
      ((place (index + octets cs) line (column + cs.length) rest).plainPieces? false indent between'
        false).map fun r => (cs.map .ofChar ++ r.1, r.2) := by
  induction cs generalizing between index column with
  | nil => exact ⟨between, by simp [octets]⟩
  | cons c cs ih =>
    have hcolumn' : isSpace c = true → 0 < column + 1 ∧ indent ≤ column + 1 :=
      fun _ => ⟨Nat.succ_pos _, hindent⟩
    obtain ⟨between', hrest⟩ :=
      ih h.tail (index + c.utf8Size) hcolumn' (Nat.le_succ_of_le hindent)
    refine ⟨between', ?_⟩
    have hplace : place (index + octets (c :: cs)) line (column + (c :: cs).length) rest =
        place (index + c.utf8Size + octets cs) line (column + 1 + cs.length) rest := by
      simp [octets, Nat.add_assoc, Nat.add_comm 1]
    rw [List.cons_append, plainPieces?_char h index line hcolumn, hrest, hplace]
    simp [addPiece]
    rfl

theorem plainPieces?_spaces (h : s.Shows column (spaces n ++ rest)) (hrest : StartsWord rest)
    (hdeep : column + n < indent) : ∃ s' : Source, s'.Shows (column + n) rest ∧
      s.plainPieces? false indent true true = some (List.replicate n (.blank ' '), s') := by
  induction n generalizing s column with
  | zero =>
    refine ⟨s, h, ?_⟩
    cases rest with
    | nil =>
      obtain ⟨i, l, rfl⟩ := h.exists_nil
      rw [plainPieces?]
      simp [isBlank, isBreak, endChar]
    | cons c rest =>
      obtain ⟨hc, hbreak, hspace, -⟩ := hrest c rfl
      obtain ⟨i, l, s', rfl, -⟩ := h.exists_char hc hbreak
      have hblank : isBlank c = isSpace c := isBlank_of_printable hc
      have hless : column < indent := hdeep
      rw [plainPieces?]
      simp [hblank, hspace, hbreak, endsPlain, Source.column, hless]
  | succ n ih =>
    obtain ⟨i, l, s₁, rfl, h₁⟩ := h.exists_char (by decide) (by decide)
    obtain ⟨s', hs', hread⟩ := ih h₁ (by omega)
    refine ⟨s', by rwa [Nat.add_right_comm] at hs', ?_⟩
    rw [plainPieces?]
    simp [isBlank, hread, addPiece, List.replicate_succ]

/-- The gap behind a plain text does not belong to it. -/
theorem gap_behind (hprintable : ∀ c ∈ cs, isPrintable c = true)
    (hbreak : ∀ c ∈ cs, isBreak c = false) (hlast : cs.getLast? ≠ some ' ') {gap : List Piece}
    (hgap : ∀ p ∈ gap, p.isGap = true) :
    (cs.map Piece.ofChar ++ gap).reverse.takeWhile Piece.isGap = gap.reverse ∧
      (cs.map Piece.ofChar ++ gap).reverse.dropWhile Piece.isGap =
        (cs.map Piece.ofChar).reverse := by
  have hgap' : ∀ p ∈ gap.reverse, p.isGap = true := fun p hp => hgap p (List.mem_reverse.mp hp)
  have hword : ∀ p ∈ (cs.map Piece.ofChar).reverse.head?, p.isGap = false := by
    intro p hp
    rw [List.head?_reverse, List.getLast?_map] at hp
    obtain ⟨c, hc, rfl⟩ := Option.map_eq_some_iff.mp hp
    have hmem := List.mem_of_getLast? hc
    have hspace : c ≠ ' ' := fun heq => hlast (heq ▸ hc)
    have hblank : isBlank c = false := by
      simp [isBlank_of_printable (hprintable c hmem), isSpace, hspace]
    simp [Piece.ofChar, hblank, hbreak c hmem, Piece.isGap]
  rw [List.reverse_append, List.takeWhile_append_of_pos hgap', List.dropWhile_append_of_pos hgap']
  cases hpieces : (cs.map Piece.ofChar).reverse with
  | nil => simp
  | cons p more =>
    have hp := hword p (by simp [hpieces])
    simp [hp]

theorem plain?_of_pieces (hinside : Inside false cs) (hlast : cs.getLast? ≠ some ' ')
    {gap : List Piece} (hgap : ∀ p ∈ gap, p.isGap = true) {s' : Source}
    (hread : s.plainPieces? false indent false false = some (cs.map .ofChar ++ gap, s')) :
    s.plain? false indent = some ⟨String.ofList cs, gap.any Piece.isLineBreak, s'⟩ := by
  obtain ⟨htake, hdrop⟩ := gap_behind hinside.printable hinside.unbroken hlast hgap
  have hshows : List.Forall₂ Piece.Shows (cs.map Piece.ofChar) cs := by
    rw [List.forall₂_map_left_iff, List.forall₂_same]
    exact fun c hc => Piece.shows_ofChar (hinside.unbroken c hc)
  have hfolded := folded_shows hshows []
  rw [plain?, hread]
  simp only [Option.bind_eq_bind, Option.bind_some, htake, hdrop, List.reverse_reverse, Gap.empty,
    hfolded, List.nil_append, List.any_reverse]

theorem plain?_line (h : s.Shows column (cs ++ '\n' :: (spaces n ++ rest)))
    (hinside : Inside false cs) (hlast : cs.getLast? ≠ some ' ') (hindent : indent ≤ column + 1)
    (hrest : StartsWord rest) (hdeep : n < indent) : ∃ s' : Source, s'.Shows n rest ∧
      s.plain? false indent = some ⟨String.ofList cs, true, s'⟩ := by
  obtain ⟨index, line, rfl⟩ := h
  obtain ⟨between, hread⟩ := plainPieces?_chars hinside ('\n' :: (spaces n ++ rest)) index line
    (fun hf => Bool.noConfusion hf) hindent
  have hend : Shows (place (index + octets cs) line (column + cs.length)
      ('\n' :: (spaces n ++ rest))) _ _ := ⟨_, _, rfl⟩
  obtain ⟨i, l, s₁, heq, h₁⟩ := hend.exists_break (by decide) (by decide)
  obtain ⟨s', hs', hgap⟩ := plainPieces?_spaces h₁ hrest (by rwa [Nat.zero_add])
  have hbreak : plainPieces? false indent between false
      (⟨'\n', i, l, column + cs.length⟩ :: s₁) =
        some (.lineBreak '\n' :: List.replicate n (.blank ' '), s') := by
    rw [plainPieces?]
    simp [isBlank, isBreak, hgap, addPiece]
  have hpieces : ∀ p ∈ Piece.lineBreak '\n' :: List.replicate n (Piece.blank ' '),
      p.isGap = true := by
    refine List.forall_mem_cons.mpr ⟨rfl, fun p hp => ?_⟩
    rw [List.eq_of_mem_replicate hp]
    rfl
  refine ⟨s', by simpa using hs', ?_⟩
  rw [plain?_of_pieces hinside hlast hpieces (by rw [hread, heq, hbreak]; rfl)]
  simp [Piece.isLineBreak]

/-- A plain text is read to the colon that makes a key of it. -/
theorem plain?_key (hinside : Inside false cs) (hlast : cs.getLast? ≠ some ' ')
    (hindent : indent ≤ column + 1) (hc : isPrintable c = true) (hword : endsWord c = true)
    (index line : Nat) :
    (place index line column (cs ++ ':' :: c :: rest)).plain? false indent =
      some ⟨String.ofList cs, false,
        place (index + octets cs) line (column + cs.length) (':' :: c :: rest)⟩ := by
  obtain ⟨between, hread⟩ := plainPieces?_chars hinside (':' :: c :: rest) index line
    (fun hf => Bool.noConfusion hf) hindent
  have hcolon : ∀ index column, plainPieces? false indent between false
      (place index line column (':' :: c :: rest)) =
        some ([], place index line column (':' :: c :: rest)) := by
    intro index column
    have hmark : isPrintable ':' = true := by decide
    have hnext : endsWord (head (place (index + (':').utf8Size) line (column + 1) (c :: rest))) =
        true := by
      rw [place_cons hc]
      exact hword
    rw [place_cons hmark, show isBreak ':' = false by decide]
    rw [plainPieces?]
    simp [isBlank, isBreak, hnext]
  rw [hcolon] at hread
  have hgap : ∀ p ∈ ([] : List Piece), p.isGap = true := fun _ => List.not_mem_nil.elim
  exact plain?_of_pieces hinside hlast hgap hread

end Source

end CategorizedIndex.Yaml
