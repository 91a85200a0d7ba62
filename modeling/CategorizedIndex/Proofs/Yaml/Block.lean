import CategorizedIndex.Proofs.Yaml.Source

/-! # Block scalars

A text of several lines is read line by line. The mark of a block tells which breaks at its end
are part of the text, and how far it is indented if its first line does not show it.
-/
namespace CategorizedIndex.Yaml

variable {c : Char} {cs rest : List Char} {s : Source} {column indent n : Nat}

def linesOf (content : List Char) : List Char → List BlockLine
  | [] => if content.isEmpty then [] else [⟨content.reverse, some '\n'⟩]
  | c :: cs =>
    if isBreak c then ⟨content.reverse, some c⟩ :: linesOf [] cs else linesOf (c :: content) cs

def lineEnd (broken : Bool) : List Char → List Char
  | [] => if broken then [] else ['\n']
  | c :: cs => lineEnd (isBreak c) cs

theorem lineEnd_of_ne_nil (broken : Bool) (h : cs ≠ []) :
    lineEnd broken cs = if cs.getLast?.any isBreak then [] else ['\n'] := by
  induction cs generalizing broken with
  | nil => exact absurd rfl h
  | cons c cs ih =>
    cases cs with
    | nil => rfl
    | cons d cs =>
      rw [lineEnd, ih _ (List.cons_ne_nil _ _), List.getLast?_cons_cons]

/-! ## The text of the lines -/

theorem blockText_line {content : List Char} (h : content ≠ []) (seam : Seam) :
    ∃ blank, ∀ chomping lineBreak lines,
      blockText .literal chomping seam (⟨content, lineBreak⟩ :: lines) =
        seam.lineBreak.toList ++ seam.emptyLines ++ content ++
          blockText .literal chomping ⟨lineBreak, [], blank⟩ lines := by
  cases content with
  | nil => exact absurd rfl h
  | cons c content => exact ⟨isBlank c, fun _ _ _ => by simp [blockText, Seam.text]⟩

theorem blockText_keep (seam : Seam) (content cs : List Char) :
    blockText .literal .keep seam (linesOf content cs) =
      seam.lineBreak.toList ++ seam.emptyLines ++ content.reverse ++ cs ++
        lineEnd content.isEmpty cs := by
  induction cs generalizing seam content with
  | nil =>
    cases content with
    | nil => simp [linesOf, lineEnd, blockText, Seam.chomped]
    | cons d content =>
      have hcontent : (d :: content).reverse ≠ [] := by simp
      obtain ⟨blank, hline⟩ := blockText_line hcontent seam
      rw [linesOf, if_neg (by simp), hline]
      simp [lineEnd, blockText, Seam.chomped]
  | cons c cs ih =>
    cases hbreak : isBreak c with
    | false => simp [linesOf, hbreak, ih, lineEnd]
    | true =>
      cases content with
      | nil => simp [linesOf, hbreak, blockText, ih, lineEnd]
      | cons d content =>
        have hcontent : (d :: content).reverse ≠ [] := by simp
        obtain ⟨blank, hline⟩ := blockText_line hcontent seam
        rw [linesOf, if_pos hbreak, hline, ih]
        simp [lineEnd, hbreak]

/-- Of a last line with content the break belongs to the text unless it is stripped. -/
theorem blockText_concat (lines : List BlockLine) {content : List Char} (h : content ≠ [])
    (seam : Seam) : ∃ body, ∀ chomping lineBreak,
      blockText .literal chomping seam (lines ++ [⟨content, lineBreak⟩]) =
        body ++ if chomping = .strip then [] else lineBreak.toList := by
  induction lines generalizing seam with
  | nil =>
    obtain ⟨blank, hline⟩ := blockText_line h seam
    refine ⟨seam.lineBreak.toList ++ seam.emptyLines ++ content, fun chomping lineBreak => ?_⟩
    rw [List.nil_append, hline]
    cases chomping <;> simp [blockText, Seam.chomped]
  | cons line lines ih =>
    obtain ⟨front, lineBreak'⟩ := line
    cases front with
    | nil =>
      obtain ⟨body, hbody⟩ := ih { seam with emptyLines := seam.emptyLines ++ lineBreak'.toList }
      exact ⟨body, fun chomping lineBreak => by simp [blockText, hbody]⟩
    | cons c front =>
      obtain ⟨blank, hline⟩ := blockText_line (List.cons_ne_nil c front) seam
      obtain ⟨body, hbody⟩ := ih ⟨lineBreak', [], blank⟩
      refine ⟨seam.lineBreak.toList ++ seam.emptyLines ++ (c :: front) ++ body,
        fun chomping lineBreak => ?_⟩
      rw [List.cons_append, hline, hbody]
      simp

theorem linesOf_concat (content front : List Char) (hc : isBreak c = false) :
    ∃ lines last, last ≠ [] ∧ linesOf content (front ++ [c]) = lines ++ [⟨last, some '\n'⟩] ∧
      ∀ d, isBreak d = true → linesOf content (front ++ [c, d]) = lines ++ [⟨last, some d⟩] := by
  induction front generalizing content with
  | nil =>
    refine ⟨[], (c :: content).reverse, by simp, by simp [linesOf, hc], fun d hd => ?_⟩
    simp [linesOf, hc, hd]
  | cons d front ih =>
    cases hd : isBreak d with
    | true =>
      obtain ⟨lines, last, hne, hlast, hbreak⟩ := ih []
      refine ⟨⟨content.reverse, some d⟩ :: lines, last, hne, ?_, fun e he => ?_⟩
      · simp [linesOf, hd, hlast]
      · simp [linesOf, hd, hbreak e he]
    | false =>
      obtain ⟨lines, last, hne, hlast, hbreak⟩ := ih (d :: content)
      refine ⟨lines, last, hne, ?_, fun e he => ?_⟩
      · simp [linesOf, hd, hlast]
      · simp [linesOf, hd, hbreak e he]

def markOf (cs : List Char) : Chomping :=
  match cs.reverse with
  | a :: b :: _ => if !isBreak a then .strip else if isBreak b then .keep else .clip
  | [a] => if isBreak a then .keep else .strip
  | [] => .strip

theorem lineEnd_concat (broken : Bool) (front : List Char) :
    lineEnd broken (front ++ [c]) = if isBreak c then [] else ['\n'] := by
  rw [lineEnd_of_ne_nil broken (by simp)]
  simp

theorem blockText_linesOf (h : cs ≠ []) :
    blockText .literal (markOf cs) .start (linesOf [] cs) = cs := by
  have hkeep := blockText_keep .start [] cs
  obtain ⟨front, a, rfl⟩ := (List.eq_nil_or_concat' cs).resolve_left h
  cases ha : isBreak a with
  | false =>
    obtain ⟨lines, last, hne, hlast, -⟩ := linesOf_concat [] front ha
    obtain ⟨body, hbody⟩ := blockText_concat lines hne .start
    have hmark : markOf (front ++ [a]) = .strip := by
      cases hfront : front.reverse <;> simp [markOf, hfront, ha]
    rw [hlast, hbody, lineEnd_concat, ha] at hkeep
    rw [hmark, hlast, hbody, if_pos rfl, List.append_nil]
    have hsame : body ++ ['\n'] = front ++ [a] ++ ['\n'] := by simpa [Seam.start] using hkeep
    exact List.append_cancel_right hsame
  | true =>
    rw [lineEnd_concat, ha] at hkeep
    rcases List.eq_nil_or_concat' front with rfl | ⟨front, b, rfl⟩
    · have hmark : markOf ([] ++ [a]) = .keep := by simp [markOf, ha]
      rw [hmark, hkeep]
      simp [Seam.start]
    cases hb : isBreak b with
    | true =>
      have hmark : markOf (front ++ [b] ++ [a]) = .keep := by simp [markOf, ha, hb]
      rw [hmark, hkeep]
      simp [Seam.start]
    | false =>
      obtain ⟨lines, last, hne, -, hlast⟩ := linesOf_concat [] front hb
      obtain ⟨body, hbody⟩ := blockText_concat lines hne .start
      have hmark : markOf (front ++ [b] ++ [a]) = .clip := by simp [markOf, ha, hb]
      rw [List.append_assoc, List.singleton_append, hlast a ha, hbody] at hkeep
      rw [hmark, List.append_assoc, List.singleton_append, hlast a ha, hbody]
      simpa [Seam.start] using hkeep

namespace Source

open Written

/-! ## Reading the lines -/

theorem blockLines?_spaces (h : s.Shows column (spaces n ++ rest)) (hn : column + n ≤ indent) :
    ∃ s' : Source, s'.Shows (column + n) rest ∧
      s.blockLines? indent none = s'.blockLines? indent none := by
  induction n generalizing s column with
  | zero => exact ⟨s, h, rfl⟩
  | succ n ih =>
    obtain ⟨i, l, s₁, rfl, h₁⟩ := h.exists_char (by decide) (by decide)
    obtain ⟨s', hs', hread⟩ := ih h₁ (by omega)
    have hless : column < indent := by omega
    refine ⟨s', by rwa [Nat.add_right_comm] at hs', ?_⟩
    rw [blockLines?]
    simp [hless, hread]

theorem blockLines?_end (h : s.Shows column rest) (hrest : StartsWord rest)
    (hless : column < indent) : s.blockLines? indent none = some ([], s) := by
  cases rest with
  | nil =>
    obtain ⟨i, l, rfl⟩ := h.exists_nil
    rw [blockLines?]
    simp [endChar, isBreak, Nat.ne_of_lt hless]
  | cons c rest =>
    obtain ⟨hc, hbreak, hspace, -⟩ := hrest c rfl
    obtain ⟨i, l, s', rfl, -⟩ := h.exists_char hc hbreak
    have hblank : c ≠ ' ' := by simpa [isSpace] using hspace
    have htab : c ≠ '\t' := ne_of_apply hc (by decide)
    rw [blockLines?]
    simp [hblank, htab, hbreak, Nat.ne_of_lt hless]

def lineSoFar (content : List Char) : Option (List Char) :=
  if content.isEmpty then none else some content

/-- A break ends a line. -/
theorem blockLines?_break (content : List Char) (hc : isPrintable c = true)
    (hbreak : isBreak c = true) (h : s.Shows column (c :: rest)) :
    ∃ s' : Source, s'.Shows 0 rest ∧ s.blockLines? indent (lineSoFar content) =
      (s'.blockLines? indent none).map fun (lines, left) =>
        (⟨content.reverse, some c⟩ :: lines, left) := by
  obtain ⟨i, l, s', rfl, hs'⟩ := h.exists_break hc hbreak
  refine ⟨s', hs', ?_⟩
  rw [blockLines?.eq_def]
  cases content with
  | nil =>
    have hspace : c ≠ ' ' := ne_of_apply hbreak (by decide)
    have htab : c ≠ '\t' := ne_of_apply hc (by decide)
    simp [lineSoFar, hspace, htab, hbreak]
  | cons d content =>
    simp [lineSoFar, hbreak]

/-- The first character of a line stands behind its indentation. -/
theorem blockLines?_char (content : List Char) (hc : isPrintable c = true)
    (hbreak : isBreak c = false) (hcolumn : content = [] → column = 0)
    (h : s.Shows column ((if content.isEmpty then spaces indent else []) ++ c :: rest)) :
    ∃ column', ∃ s' : Source, s'.Shows column' rest ∧
      s.blockLines? indent (lineSoFar content) = s'.blockLines? indent (some (c :: content)) := by
  have hend : c ≠ endChar := ne_of_apply hc (by decide)
  cases content with
  | nil =>
    have htab : c ≠ '\t' := ne_of_apply hc (by decide)
    obtain rfl := hcolumn rfl
    obtain ⟨s₀, h₀, hread⟩ := blockLines?_spaces h (Nat.le_of_eq (Nat.zero_add indent))
    obtain ⟨i, l, s', rfl, hs'⟩ := h₀.exists_char hc hbreak
    refine ⟨_, s', hs', hread.trans ?_⟩
    rw [Nat.zero_add, blockLines?.eq_def]
    simp [htab, hbreak, hend]
  | cons d content =>
    obtain ⟨i, l, s', rfl, hs'⟩ := h.exists_char hc hbreak
    refine ⟨_, s', hs', ?_⟩
    rw [lineSoFar, List.isEmpty_cons, blockLines?.eq_def]
    simp [hbreak, hend]

theorem blockLines?_chars (content : List Char) (hprintable : ∀ c ∈ cs, isPrintable c = true)
    (h : s.Shows column
      (blockChars indent content.isEmpty cs ++ (lineEnd content.isEmpty cs ++ (spaces n ++ rest))))
    (hcolumn : content = [] → column = 0) (hrest : StartsWord rest) (hless : n < indent) :
    ∃ s' : Source, s'.Shows n rest ∧
      s.blockLines? indent (lineSoFar content) = some (linesOf content cs, s') := by
  have hend : ∀ {s : Source}, s.Shows 0 (spaces n ++ rest) → ∃ s' : Source, s'.Shows n rest ∧
      s.blockLines? indent none = some ([], s') := by
    intro s hs
    obtain ⟨s', hs', hread⟩ := blockLines?_spaces hs (show 0 + n ≤ indent by omega)
    rw [Nat.zero_add] at hs'
    exact ⟨s', hs', hread.trans (blockLines?_end hs' hrest hless)⟩
  induction cs generalizing s column content with
  | nil =>
    cases content with
    | nil =>
      obtain rfl := hcolumn rfl
      exact hend h
    | cons d content =>
      obtain ⟨s₁, h₁, hline⟩ := blockLines?_break (d :: content) (by decide) (by decide) h
      obtain ⟨s', hs', hread⟩ := hend h₁
      exact ⟨s', hs', by rw [hline, hread]; simp [linesOf]⟩
  | cons c cs ih =>
    obtain ⟨hc, hcs⟩ := List.forall_mem_cons.mp hprintable
    cases hbreak : isBreak c with
    | true =>
      rw [blockChars, if_pos hbreak, lineEnd, hbreak] at h
      obtain ⟨s₁, h₁, hline⟩ := blockLines?_break content hc hbreak h
      obtain ⟨s', hs', hread⟩ := ih [] hcs h₁ fun _ => rfl
      rw [lineSoFar, List.isEmpty_nil, if_pos rfl] at hread
      exact ⟨s', hs', by rw [hline, hread, linesOf, if_pos hbreak]; rfl⟩
    | false =>
      rw [blockChars, if_neg (by simp [hbreak]), lineEnd, hbreak, List.append_assoc] at h
      obtain ⟨column', s₁, h₁, hstep⟩ := blockLines?_char content hc hbreak hcolumn h
      obtain ⟨s', hs', hread⟩ := ih (c :: content) hcs h₁ fun hnil => by cases hnil
      refine ⟨s', hs', hstep.trans ?_⟩
      rw [linesOf, if_neg (by simp [hbreak])]
      exact hread

/-! ## The header -/

theorem chompingMark_eq (cs : List Char) : chompingMark cs =
    match markOf cs with
    | .strip => ['-']
    | .keep => ['+']
    | .clip => [] := by
  unfold chompingMark markOf
  cases cs.reverse with
  | nil => rfl
  | cons a more =>
    cases more with
    | nil => cases ha : isBreak a <;> simp [ha]
    | cons b more => cases ha : isBreak a <;> cases hb : isBreak b <;> simp [ha, hb]

theorem blockMarks_marks
    (h : s.Shows column (indentMark cs ++ (chompingMark cs ++ '\n' :: rest))) :
    ∃ column' s', Shows s' column' ('\n' :: rest) ∧ s.blockMarks =
      ⟨markOf cs, if (indentMark cs).isEmpty then none else some 2, s'⟩ := by
  have hbare : indentMark cs = [] ∨ indentMark cs = ['2'] := by
    unfold indentMark
    split <;> simp
  rw [chompingMark_eq] at h
  rcases hbare with hindent | hindent
  · rw [hindent] at h ⊢
    cases hmark : markOf cs with
    | clip =>
      rw [hmark] at h
      obtain ⟨i, l, s₁, rfl, -⟩ := h.exists_break (by decide) (by decide)
      exact ⟨_, _, h, rfl⟩
    | strip | keep =>
      rw [hmark] at h
      obtain ⟨i, l, s₁, rfl, h₁⟩ := h.exists_char (by decide) (by decide)
      obtain ⟨j, m, s₂, rfl, -⟩ := h₁.exists_break (by decide) (by decide)
      exact ⟨_, _, h₁, rfl⟩
  · rw [hindent] at h ⊢
    obtain ⟨i, l, s₁, rfl, h₁⟩ := h.exists_char (by decide) (by decide)
    cases hmark : markOf cs with
    | clip =>
      rw [hmark] at h₁
      obtain ⟨j, m, s₂, rfl, -⟩ := h₁.exists_break (by decide) (by decide)
      exact ⟨_, _, h₁, rfl⟩
    | strip | keep =>
      rw [hmark] at h₁
      obtain ⟨j, m, s₂, rfl, h₂⟩ := h₁.exists_char (by decide) (by decide)
      exact ⟨_, _, h₂, rfl⟩

theorem widestIndent?_word (hc : isPrintable c = true) (hbreak : isBreak c = false)
    (hspace : isSpace c = false) (h : s.Shows column (spaces n ++ c :: rest)) :
    s.widestIndent? 0 = some (column + n) := by
  induction n generalizing s column with
  | zero =>
    obtain ⟨i, l, s', rfl, -⟩ := h.exists_char hc hbreak
    have hblank : c ≠ ' ' := by simpa [isSpace] using hspace
    have htab : c ≠ '\t' := ne_of_apply hc (by decide)
    rw [widestIndent?]
    simp [hblank, htab, hbreak]
  | succ n ih =>
    obtain ⟨i, l, s', rfl, hs'⟩ := h.exists_char (by decide) (by decide)
    rw [widestIndent?]
    simp [ih hs', Nat.add_comm 1, Nat.add_assoc]

/-- A block is read up to the word of the next line, which is less indented. -/
theorem block?_chars {parent : Nat} (hne : cs ≠ []) (hfits : fitsBlock cs = true)
    (h : s.Shows column (indentMark cs ++ (chompingMark cs ++ '\n' ::
      (blockChars (parent + 2) true cs ++ (lineEnd true cs ++ (spaces n ++ rest))))))
    (hrest : StartsWord rest) (hless : n ≤ parent) :
    ∃ s' : Source, s'.Shows n rest ∧
      s.block? .literal (some parent) = some (String.ofList cs, s') := by
  obtain ⟨column', s₁, h₁, hmarks⟩ := blockMarks_marks h
  obtain ⟨i, l, s₂, rfl, h₂⟩ := h₁.exists_break (by decide) (by decide)
  have hescape : needsEscape cs = false := by
    simpa using (Bool.and_eq_true_iff.mp hfits).1
  obtain ⟨hprintable, -⟩ := needsEscape_eq_false_iff.mp hescape
  obtain ⟨s', hs', hlines⟩ := blockLines?_chars [] hprintable h₂ (fun _ => rfl) hrest
    (show n < parent + 2 by omega)
  have hskip : restOfLine? (⟨'\n', i, l, column'⟩ :: s₂) = some s₂ := rfl
  have hwidest : (indentMark cs).isEmpty = true → s₂.widestIndent? 0 = some (parent + 2) := by
    intro hmark
    cases cs with
    | nil => exact absurd rfl hne
    | cons c cs =>
      have hword : isSpace c = false ∧ isBreak c = false := by
        simpa [indentMark] using hmark
      rw [blockChars, if_neg (by simp [hword]), if_pos rfl, List.append_assoc,
        List.cons_append] at h₂
      have hc := hprintable c List.mem_cons_self
      simpa using widestIndent?_word hc hword.2 hword.1 h₂
  refine ⟨s', hs', ?_⟩
  rw [lineSoFar, List.isEmpty_nil, if_pos rfl] at hlines
  cases hmark : (indentMark cs).isEmpty with
  | true => simp [block?, hmarks, hmark, hskip, hwidest hmark, hlines, blockText_linesOf hne]
  | false => simp [block?, hmarks, hmark, hskip, hlines, blockText_linesOf hne]

end Source

end CategorizedIndex.Yaml
