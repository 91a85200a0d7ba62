import CategorizedIndex.Proofs.Yaml.Styles
import CategorizedIndex.Yaml.Token.Lexer

/-! # Tokens of written words

How the lexer gets over what is written on one line: a dash, a name with its colon, a scalar or
empty brackets. In front of each it stands at a word, with the collections closed that end
before it, and it stands so again in front of the word of the next line.
-/
namespace CategorizedIndex.Yaml

open Written

variable {c d : Char} {cs rest : List Char} {s : Source} {column n : Nat} {toks : List Token}
  {indents : List Nat}

namespace Lexer

def ready? (x : Lexer) : Option Lexer :=
  x.skipGap.dropPastKeys?.map fun x => x.closeTo x.source.column

theorem run_succ (steps : Nat) (x : Lexer) : run (steps + 1) x = x.ready?.bind fun y =>
    if y.source.head = endChar then y.betweenDocuments?.map (·.tokens.reverse)
    else y.token?.bind (run steps) := by
  rw [run, ready?]
  cases x.skipGap.dropPastKeys? with
  | none => rfl
  | some y =>
    simp only [Option.bind_eq_bind, Option.bind_some, Option.map_some]
    split
    · cases (y.closeTo y.source.column).betweenDocuments? <;> rfl
    · rfl

/-- At most so many tokens lead from one state to another. -/
def Leads (count : Nat) (x y : Lexer) : Prop :=
  ∃ k ≤ count, ∀ steps, run (k + steps) x = run steps y

theorem Leads.trans {x y z : Lexer} {j k : Nat} (h : Leads j x y) (h' : Leads k y z) :
    Leads (j + k) x z := by
  obtain ⟨m, hm, hmxy⟩ := h
  obtain ⟨m', hm', hyz⟩ := h'
  refine ⟨m + m', Nat.add_le_add hm hm', fun steps => ?_⟩
  rw [Nat.add_assoc, hmxy, hyz]

theorem Leads.mono {x y : Lexer} {j k : Nat} (h : Leads j x y) (hle : j ≤ k) : Leads k x y := by
  obtain ⟨m, hm, hxy⟩ := h
  exact ⟨m, hm.trans hle, hxy⟩

theorem Leads.token {x y z : Lexer} (hready : x.ready? = some y) (hmore : y.source.head ≠ endChar)
    (htoken : y.token? = some z) : Leads 1 x z := by
  refine ⟨1, Nat.le_refl 1, fun steps => ?_⟩
  rw [Nat.add_comm, run_succ, hready, Option.bind_some, if_neg hmore, htoken, Option.bind_some]

/-! ## Gaps -/

/-- The ends of the collections that do not reach a column. -/
def closed (column : Nat) (indents : List Nat) : List Token :=
  (indents.takeWhile (column < ·)).map fun _ => .blockEnd

theorem gap_word (h : s.Shows column rest) (hrest : StartsWord rest) (allowed : Bool) :
    gap false false allowed s = (s, allowed) := by
  cases rest with
  | nil =>
    obtain ⟨i, l, rfl⟩ := h.exists_nil
    rw [gap]
    simp [endChar, isBreak]
  | cons c rest =>
    obtain ⟨hc, hbreak, hspace, hmark⟩ := hrest c rfl
    obtain ⟨i, l, s', rfl, -⟩ := h.exists_char hc hbreak
    have hend : c ≠ endChar := ne_of_apply hc (by decide)
    have horder : c ≠ byteOrderMark := ne_of_apply hc (by decide)
    have hblank : c ≠ ' ' := by simpa [isSpace] using hspace
    have htab : c ≠ '\t' := ne_of_apply hc (by decide)
    rw [gap]
    simp [hbreak, hend, horder, hblank, htab, hmark]

theorem gap_spaces (h : s.Shows column (spaces n ++ rest)) (hrest : StartsWord rest)
    (allowed : Bool) :
    ∃ s' : Source, s'.Shows (column + n) rest ∧ gap false false allowed s = (s', allowed) := by
  induction n generalizing s column with
  | zero => exact ⟨s, h, gap_word h hrest allowed⟩
  | succ n ih =>
    obtain ⟨i, l, s₁, rfl, h₁⟩ := h.exists_char (by decide) (by decide)
    obtain ⟨s', hs', hgap⟩ := ih h₁
    refine ⟨s', by rwa [Nat.add_right_comm] at hs', ?_⟩
    rw [gap]
    simp [isBreak, endChar, byteOrderMark, hgap]

theorem ready?_of_gap {s' : Source} {allowed allowed' : Bool} (h : s'.Shows column rest)
    (hgap : gap false false allowed s = (s', allowed')) :
    ready? ⟨s, toks, indents, allowed, none, []⟩ =
      some ⟨s', closed column indents ++ toks, indents.dropWhile (column < ·), allowed', none, []⟩ := by
  have hskip : skipGap ⟨s, toks, indents, allowed, none, []⟩ =
      ⟨s', toks, indents, allowed', none, []⟩ := by
    simp [skipGap, inFlow, hgap]
  have hcolumn : (⟨s', toks, indents, allowed', none, []⟩ : Lexer).source.column = column :=
    h.column_eq
  rw [ready?, hskip]
  simp [dropPastKeys?, closeTo, inFlow, h.column_eq, closed]

/-- A lexer in front of a word at a column, where a key may start. -/
def Stands (x : Lexer) (column : Nat) (rest : List Char) (toks : List Token)
    (indents : List Nat) : Prop :=
  ∃ s : Source, s.Shows column rest ∧ x.ready? = some ⟨s, toks, indents, true, none, []⟩

theorem stands_of_spaces (h : s.Shows column (spaces n ++ rest)) (hrest : StartsWord rest) :
    Stands ⟨s, toks, indents, true, none, []⟩ (column + n) rest
      (closed (column + n) indents ++ toks) (indents.dropWhile (column + n < ·)) := by
  obtain ⟨s', hs', hgap⟩ := gap_spaces h hrest true
  exact ⟨s', hs', ready?_of_gap hs' hgap⟩

theorem stands_of_break (h : s.Shows column ('\n' :: (spaces n ++ rest))) (hrest : StartsWord rest)
    (allowed : Bool) :
    Stands ⟨s, toks, indents, allowed, none, []⟩ n rest (closed n indents ++ toks)
      (indents.dropWhile (n < ·)) := by
  obtain ⟨i, l, s₁, rfl, h₁⟩ := h.exists_break (by decide) (by decide)
  obtain ⟨s', hs', hgap⟩ := gap_spaces h₁ hrest true
  rw [Nat.zero_add] at hs'
  refine ⟨s', hs', ready?_of_gap hs' ?_⟩
  rw [gap]
  simp [isBreak, hgap]

/-! ## Items -/

theorem leads_dash {x : Lexer} (h : x.Stands column ('-' :: ' ' :: rest) toks (column :: indents))
    (hrest : StartsWord rest) :
    ∃ y, Leads 1 x y ∧ y.Stands (column + 2) rest (.blockEntry :: toks) (column :: indents) := by
  obtain ⟨s, hs, hready⟩ := h
  obtain ⟨i, l, s₁, rfl, h₁⟩ := hs.exists_char (by decide) (by decide)
  have hnext : s₁.head = ' ' := by
    obtain ⟨j, m, s₂, rfl, -⟩ := h₁.exists_char (by decide) (by decide)
    rfl
  have htoken : token? ⟨⟨'-', i, l, column⟩ :: s₁, toks, column :: indents, true, none, []⟩ =
      some ⟨s₁, .blockEntry :: toks, column :: indents, true, none, []⟩ := by
    have hahead : Source.ahead (⟨'-', i, l, column⟩ :: s₁) 1 = ' ' := hnext
    have hmarker : Source.startsWith3 '-' (⟨'-', i, l, column⟩ :: s₁) = false := by
      simp [Source.startsWith3, hahead]
    have hdash : dash? ⟨⟨'-', i, l, column⟩ :: s₁, toks, column :: indents, true, none, []⟩ =
        some ⟨s₁, .blockEntry :: toks, column :: indents, true, none, []⟩ := by
      simp [dash?, mayStart, openHere, openAt, inFlow, Source.column, dropKey?, emit, allowKey,
        advance, Source.skip]
    have hword : endsWord ' ' = true := by decide
    rw [token?, hahead, hword, hmarker]
    simp [Source.head, Source.startsWith3, hdash]
  refine ⟨_, .token hready (by simp [Source.head, endChar]) htoken, ?_⟩
  have hspaces : s₁.Shows (column + 1) (spaces 1 ++ rest) := h₁
  have hstands : Stands ⟨s₁, .blockEntry :: toks, column :: indents, true, none, []⟩
      (column + 1 + 1) rest _ _ := stands_of_spaces hspaces hrest
  have hdeep : ¬ column + 1 + 1 < column := by omega
  simpa [closed, hdeep] using hstands

/-! ## Plain words -/

structure Opens (c : Char) (next : Char) : Prop where
  printable : isPrintable c = true
  inWord : endsWord c = false
  marks : [ '#', ',', '[', ']', '\x7b', '\x7d', '&', '*', '!', '|', '>', '\x27', '"', '%', '@',
    '\x60' ].contains c = false
  next : c = '?' ∨ c = ':' ∨ c = '-' → endsWord next = false ∧ isBlank next = false

theorem opens_of_fitsPlain (h : fitsPlain (c :: cs) = true)
    (hs : s.Shows column (cs ++ d :: rest)) : Opens c s.head := by
  have hprintable := (inside_of_fitsPlain h).1.printable
  have hbreak := (inside_of_fitsPlain h).1.unbroken
  have hc := hprintable c List.mem_cons_self
  simp only [fitsPlain, startsAsMark, Bool.and_eq_true, Bool.not_eq_true', Bool.or_eq_false_iff,
    List.head?_cons, ne_eq, Option.some.injEq, decide_eq_true_eq, Bool.and_eq_false_iff] at h
  obtain ⟨⟨⟨⟨-, hspace⟩, -⟩, hmarks, hindicator⟩, -⟩ := h
  refine ⟨hc, ?_, hmarks, fun hmark => ?_⟩
  · rw [Source.endsWord_of_printable hc (hbreak c List.mem_cons_self)]
    simpa [isSpace] using hspace
  · simp only [List.contains_cons, List.contains_nil, Bool.or_false, Bool.or_eq_false_iff,
      beq_eq_false_iff_ne, ne_eq] at hindicator
    have hall : cs.head?.all isSpace = false := hindicator.resolve_left (by tauto)
    cases cs with
    | nil => cases hall
    | cons b cs =>
      have hb := hprintable b (by simp)
      have hbb := hbreak b (by simp)
      obtain ⟨j, m, s', rfl, -⟩ := hs.exists_char hb hbb
      have hword : isSpace b = false := by simpa using hall
      exact ⟨(Source.endsWord_of_printable hb hbb).trans hword,
        (isBlank_of_printable hb).trans hword⟩

theorem Opens.startsPlain {index line : Nat} {allowed : Bool} (h : Opens c s.head) :
    startsPlain ⟨⟨c, index, line, column⟩ :: s, toks, indents, allowed, none, []⟩ = true := by
  have hmarks := h.marks
  simp only [List.contains_cons, List.contains_nil, Bool.or_false, Bool.or_eq_false_iff,
    beq_eq_false_iff_ne, ne_eq] at hmarks
  have hhead : Source.head (⟨c, index, line, column⟩ :: s) = c := rfl
  have hahead : Source.ahead (⟨c, index, line, column⟩ :: s) 1 = s.head := rfl
  rw [Lexer.startsPlain, hhead, hahead, h.inWord]
  by_cases hmark : c = '?' ∨ c = ':' ∨ c = '-'
  · obtain ⟨hword, hblank⟩ := h.next hmark
    rcases hmark with rfl | rfl | rfl <;> simp [inFlow, hword, hblank]
  · rw [not_or, not_or] at hmark
    simp [isIndicator, isFlowIndicator, hmarks, hmark]

theorem token?_plain {allowed : Bool} (h : s.Shows column (cs ++ d :: rest)) (hne : cs ≠ [])
    (hfits : fitsPlain cs = true)
    (hfirst : 0 < column ∨ ∀ c ∈ cs.head?, c ≠ '-' ∧ c ≠ '.') :
    token? ⟨s, toks, indents, allowed, none, []⟩ =
      plain? ⟨s, toks, indents, allowed, none, []⟩ := by
  obtain ⟨c, cs, rfl⟩ := List.exists_cons_of_ne_nil hne
  have hinside := (inside_of_fitsPlain hfits).1
  obtain ⟨i, l, s', rfl, hs'⟩ := h.exists_char (hinside.printable c List.mem_cons_self)
    (hinside.unbroken c List.mem_cons_self)
  have hopens := opens_of_fitsPlain hfits hs'
  have hmarks := hopens.marks
  simp only [List.contains_cons, List.contains_nil, Bool.or_false, Bool.or_eq_false_iff,
    beq_eq_false_iff_ne, ne_eq] at hmarks
  have hmarker : ∀ m, m = '-' ∨ m = '.' →
      Source.startsWith3 m (⟨c, i, l, column⟩ :: s') = false := by
    intro m hm
    rcases hfirst with hpos | hfirst
    · simp [Source.startsWith3, Source.column, Nat.ne_of_gt hpos]
    · obtain ⟨hdash, hdot⟩ := hfirst c rfl
      have hne : c ≠ m := by rcases hm with rfl | rfl <;> assumption
      simp [Source.startsWith3, Source.head, hne]
  have halone : ∀ m, m = '?' ∨ m = ':' ∨ m = '-' → (c = m && endsWord s'.head) = false := by
    intro m hm
    by_cases hmark : c = m
    · simp [hopens.next (hmark ▸ hm)]
    · simp [hmark]
  have hhead : Source.head (⟨c, i, l, column⟩ :: s') = c := rfl
  have hahead : Source.ahead (⟨c, i, l, column⟩ :: s') 1 = s'.head := rfl
  rw [token?, hmarker '-' (Or.inl rfl), hmarker '.' (Or.inr rfl), hhead, hahead,
    hopens.startsPlain, halone '-' (by simp)]
  simp [hmarks, inFlow, halone '?' (by simp), halone ':' (by simp)]

/-! ## Keys -/

theorem closed_of_le (h : ∀ k ∈ indents.head?, k ≤ column) :
    closed column indents = [] ∧ indents.dropWhile (column < ·) = indents := by
  cases indents with
  | nil => exact ⟨rfl, rfl⟩
  | cons k indents =>
    have hk : ¬ column < k := Nat.not_lt.mpr (h k rfl)
    simp [closed, hk]

theorem closed_of_lt {k : Nat} (h : n < k) :
    closed n (k :: indents) = closed n indents ++ [.blockEnd] := by
  simp [closed, h, ← List.replicate_succ, List.replicate_succ']

def opened (column : Nat) (indents : List Nat) : List Nat :=
  if indents.head?.all (· < column) then column :: indents else indents

def opening (column : Nat) (indents : List Nat) : List Token :=
  if indents.head?.all (· < column) then [.blockMappingStart] else []

theorem exists_opened (h : ∀ k ∈ indents.head?, k ≤ column) :
    ∃ outer, opened column indents = column :: outer := by
  unfold opened
  split
  · exact ⟨indents, rfl⟩
  · next hopen =>
    cases indents with
    | nil => exact absurd rfl hopen
    | cons k outer =>
      have hk := h k rfl
      obtain rfl : k = column := by
        simp at hopen
        omega
      exact ⟨outer, rfl⟩

/-- A word that may be a key is marked as one. -/
theorem token?_name {key : List Char} (index line : Nat) (hne : key ≠ [])
    (hfits : fitsPlain key = true) (hfirst : ∀ a ∈ key.head?, a ≠ '-' ∧ a ≠ '.')
    (hd : isPrintable d = true) (hword : endsWord d = true)
    (hindents : ∀ k ∈ indents.head?, k ≤ column) :
    token? ⟨Source.place index line column (key ++ ':' :: d :: rest), toks, indents, true, none,
        []⟩ =
      some ⟨Source.place (index + octets key) line (column + key.length) (':' :: d :: rest),
        .scalar .plain (String.ofList key) :: toks, indents, false,
        some ⟨index, line, column, toks.length, indents.head? = some column⟩, []⟩ := by
  obtain ⟨hinside, hlast⟩ := inside_of_fitsPlain hfits
  obtain ⟨a, s₀, hstart⟩ := Source.exists_place index line column (key ++ ':' :: d :: rest)
  have hindent : (indents.head?.map (· + 1)).getD 0 ≤ column + 1 := by
    cases indents with
    | nil => exact Nat.zero_le _
    | cons k indents => exact Nat.succ_le_succ (hindents k rfl)
  have hread : Source.plain? false _ (Source.place index line column (key ++ ':' :: d :: rest)) =
      some ⟨_, false, _⟩ := Source.plain?_key hinside hlast hindent hd hword index line
  rw [token?_plain ⟨index, line, rfl⟩ hne hfits (Or.inr hfirst), plain?, markKey?]
  simp [dropKey?, inFlow, hread, emit, allowKey]
  simp only [hstart]
  exact ⟨rfl, rfl, rfl, Iff.rfl⟩

/-- A key on the line of a lexer is not past. -/
theorem ready?_key {required : Bool} {index line count start : Nat}
    (hs : StartsWord rest) (hindents : ∀ k ∈ indents.head?, k ≤ column) (hshort : n ≤ 1024) :
    ready? ⟨Source.place (index + n) line column rest, toks, indents, false,
        some ⟨index, line, start, count, required⟩, []⟩ =
      some ⟨Source.place (index + n) line column rest, toks, indents, false,
        some ⟨index, line, start, count, required⟩, []⟩ := by
  have hshows : (Source.place (index + n) line column rest).Shows column rest := ⟨_, _, rfl⟩
  have hgap := gap_word hshows hs false
  obtain ⟨a, s, hplace⟩ := Source.exists_place (index + n) line column rest
  have hpast : PossibleKey.isPast (Source.place (index + n) line column rest)
      ⟨index, line, start, count, required⟩ = false := by
    have hnear : ¬ index + 1024 < index + n := by omega
    rw [hplace]
    simp [PossibleKey.isPast, Source.line, Source.index, hnear]
  obtain ⟨hclosed, hdrop⟩ := closed_of_le hindents
  have htake : indents.takeWhile (fun k => decide (column < k)) = [] := by
    simpa [closed] using hclosed
  rw [ready?, skipGap]
  simp only [inFlow, List.isEmpty_nil, Bool.not_true, hgap, dropPastKeys?]
  simp [closeTo, inFlow, hshows.column_eq, htake, hdrop, hpast]

/-- A colon makes a key of the word in front of it. -/
theorem token?_colon {word : Token} {required : Bool} {index line start : Nat}
    (h : s.Shows column (':' :: d :: rest)) (hd : isPrintable d = true) (hword : endsWord d = true) :
    ∃ s', Source.Shows s' (column + 1) (d :: rest) ∧
      token? ⟨s, word :: toks, indents, false, some ⟨index, line, start, toks.length, required⟩,
          []⟩ =
        some ⟨s', .value :: word :: .key :: (opening start indents ++ toks), opened start indents,
          false, none, []⟩ := by
  obtain ⟨i, l, s', rfl, hs'⟩ := h.exists_char (by decide) (by decide)
  refine ⟨s', hs', ?_⟩
  have hahead : endsWord (Source.ahead (⟨':', i, l, column⟩ :: s') 1) = true := by
    obtain ⟨index, line, rfl⟩ := hs'
    rw [Source.place_cons hd]
    exact hword
  have hvalue : value? ⟨⟨':', i, l, column⟩ :: s', word :: toks, indents, false,
      some ⟨index, line, start, toks.length, required⟩, []⟩ =
        some ⟨s', .value :: word :: .key :: (opening start indents ++ toks), opened start indents,
          false, none, []⟩ := by
    have hone : toks.length + 1 - toks.length = 1 := by omega
    have htwo : toks.length + 1 + 1 - toks.length = 2 := by omega
    unfold opening opened
    by_cases hopens : indents.head?.all (· < start) = true
    · simp [value?, insert, openAt, inFlow, hone, htwo, hopens, emit, allowKey, advance, Source.skip]
    · simp [value?, insert, openAt, inFlow, hone, hopens, emit, allowKey, advance, Source.skip]
  rw [token?, hahead]
  simp [Source.head, Source.startsWith3, inFlow, hvalue]

/-- A name with its colon starts a mapping, unless it stands as deep as the one around it. -/
theorem leads_key {x : Lexer} {key : List Char}
    (h : x.Stands column (key ++ ':' :: d :: rest) toks indents) (hne : key ≠ [])
    (hfits : fitsPlain key = true) (hfirst : ∀ a ∈ key.head?, a ≠ '-' ∧ a ≠ '.')
    (hshort : octets key ≤ 1024) (hd : isPrintable d = true) (hword : endsWord d = true)
    (hindents : ∀ k ∈ indents.head?, k ≤ column) :
    ∃ column' s, column < column' ∧ Source.Shows s column' (d :: rest) ∧ Leads 2 x
      ⟨s, .value :: .scalar .plain (String.ofList key) :: .key :: (opening column indents ++ toks),
        opened column indents, false, none, []⟩ := by
  obtain ⟨s, ⟨index, line, rfl⟩, hready⟩ := h
  have hcolon : StartsWord (':' :: d :: rest) := by
    intro c hc
    obtain rfl : ':' = c := by simpa using hc
    decide
  have hdeep : ∀ k ∈ indents.head?, k ≤ column + key.length := fun k hk =>
    (hindents k hk).trans (Nat.le_add_right column key.length)
  have hshows : Source.Shows (Source.place (index + octets key) line (column + key.length)
      (':' :: d :: rest)) _ _ := ⟨_, _, rfl⟩
  obtain ⟨s', hs', htoken⟩ := token?_colon hshows hd hword
  have hmore : (Source.place index line column (key ++ ':' :: d :: rest)).head ≠ endChar := by
    cases key with
    | nil => exact absurd rfl hne
    | cons a key =>
      have ha := (inside_of_fitsPlain hfits).1.printable a List.mem_cons_self
      exact Source.Shows.head_ne_end ⟨_, _, rfl⟩ ha
  refine ⟨_, s', ?_, hs', .trans
    (.token hready hmore (token?_name index line hne hfits hfirst hd hword hindents))
    (.token (ready?_key hcolon hdeep hshort) (hshows.head_ne_end (by decide)) htoken)⟩
  exact Nat.lt_succ_of_le (Nat.le_add_right column key.length)

/-! ## Scalars -/

variable {parent : Nat}

def Takes (x : Lexer) (t : Token) (n : Nat) (rest : List Char) : Prop :=
  ∃ y, x.token? = some y ∧
    y.Stands n rest (closed n x.indents ++ t :: x.tokens) (x.indents.dropWhile (n < ·))

theorem takes_plain (hsuits : Suits .plain cs) (hpos : 0 < column) (hcolumn : parent ≤ column)
    (hrest : StartsWord rest) (hn : n ≤ parent)
    (h : s.Shows column (cs ++ '\n' :: (spaces n ++ rest))) :
    Takes ⟨s, toks, parent :: indents, false, none, []⟩ (.scalar .plain (String.ofList cs)) n
      rest := by
  obtain ⟨hne, hfits⟩ := hsuits
  obtain ⟨hinside, hlast⟩ := inside_of_fitsPlain hfits
  have htoken : token? ⟨s, toks, parent :: indents, false, none, []⟩ = plain? _ :=
    token?_plain h hne hfits (Or.inl hpos)
  obtain ⟨s', hs', hread⟩ := Source.plain?_line h hinside hlast
    (show parent + 1 ≤ column + 1 by omega) hrest (by omega)
  refine ⟨⟨s', .scalar .plain (String.ofList cs) :: toks, parent :: indents, true, none, []⟩,
    ?_, ?_⟩
  · rw [htoken]
    simp [plain?, markKey?, inFlow, hread, emit, allowKey]
  · simpa using stands_of_spaces (n := 0) (by simpa [spaces] using hs') hrest

theorem takes_singleQuoted (hsuits : Suits .singleQuoted cs) (hrest : StartsWord rest)
    (h : s.Shows column ('\x27' :: (singleQuotedChars (parent + 2) false cs ++
      '\x27' :: '\n' :: (spaces n ++ rest)))) :
    Takes ⟨s, toks, parent :: indents, false, none, []⟩ (.scalar .singleQuoted (String.ofList cs))
      n rest := by
  obtain ⟨hfits, hfeed⟩ := hsuits
  obtain ⟨i, l, s₁, rfl, h₁⟩ := h.exists_char (by decide) (by decide)
  obtain ⟨column', s', hs', hread⟩ :=
    Source.singleQuoted?_chars (Nat.succ_pos _) (Nat.succ_pos _) h₁ hfits hfeed
  refine ⟨⟨s', .scalar .singleQuoted (String.ofList cs) :: toks, parent :: indents, false, none,
    []⟩, ?_, stands_of_break hs' hrest false⟩
  simp [token?, Source.head, Source.startsWith3, inFlow, word?, markKey?, single?, Source.skip,
    hread, allowKey, emit]

theorem takes_doubleQuoted (hrest : StartsWord rest)
    (h : s.Shows column ('"' :: (cs.flatMap doubleQuotedChar ++
      '"' :: '\n' :: (spaces n ++ rest)))) :
    Takes ⟨s, toks, parent :: indents, false, none, []⟩ (.scalar .doubleQuoted (String.ofList cs))
      n rest := by
  obtain ⟨i, l, s₁, rfl, h₁⟩ := h.exists_char (by decide) (by decide)
  obtain ⟨column', s', -, hs', hread⟩ := Source.doubleQuoted?_chars h₁ (Nat.succ_pos _)
  refine ⟨⟨s', .scalar .doubleQuoted (String.ofList cs) :: toks, parent :: indents, false, none,
    []⟩, ?_, stands_of_break hs' hrest false⟩
  simp [token?, Source.head, Source.startsWith3, inFlow, word?, markKey?, double?, Source.skip,
    hread, allowKey, emit]

theorem takes_literal (hsuits : Suits .literal cs) (hrest : StartsWord rest) (hn : n ≤ parent)
    (h : s.Shows column ('|' :: (indentMark cs ++ (chompingMark cs ++ '\n' ::
      (blockChars (parent + 2) true cs ++ (lineEnd true cs ++ (spaces n ++ rest))))))) :
    Takes ⟨s, toks, parent :: indents, false, none, []⟩ (.scalar .literal (String.ofList cs)) n
      rest := by
  obtain ⟨hne, hfits⟩ := hsuits
  obtain ⟨i, l, s₁, rfl, h₁⟩ := h.exists_char (by decide) (by decide)
  obtain ⟨s', hs', hread⟩ := Source.block?_chars hne hfits h₁ hrest hn
  refine ⟨⟨s', .scalar .literal (String.ofList cs) :: toks, parent :: indents, true, none, []⟩,
    ?_, ?_⟩
  · simp [token?, Source.head, Source.startsWith3, inFlow, block?, dropKey?, Source.skip, hread,
      allowKey, emit]
  · simpa using stands_of_spaces (n := 0) (by simpa [spaces] using hs') hrest

theorem takes_scalar {style : Style} (hsuits : Suits style cs) (hpos : 0 < column)
    (hcolumn : parent ≤ column) (hrest : StartsWord rest) (hn : n ≤ parent)
    (h : s.Shows column (scalarLine (parent + 2) style cs ++ (spaces n ++ rest))) :
    Takes ⟨s, toks, parent :: indents, false, none, []⟩ (.scalar style (String.ofList cs)) n
      rest := by
  cases style with
  | folded => exact hsuits.elim
  | plain =>
    exact takes_plain hsuits hpos hcolumn hrest hn (by simpa [scalarLine, scalarChars] using h)
  | singleQuoted =>
    exact takes_singleQuoted hsuits hrest (by simpa [scalarLine, scalarChars] using h)
  | doubleQuoted => exact takes_doubleQuoted hrest (by simpa [scalarLine, scalarChars] using h)
  | literal =>
    have hend := lineEnd_of_ne_nil true hsuits.1
    exact takes_literal hsuits hrest hn (by simpa [scalarLine, scalarChars, hend] using h)

theorem leads_scalar {style : Style} (hsuits : Suits style cs) (hcolumn : parent < column)
    (hrest : StartsWord rest) (hn : n ≤ parent)
    (h : s.Shows column (' ' :: (scalarLine (parent + 2) style cs ++ (spaces n ++ rest)))) :
    ∃ y, Leads 1 ⟨s, toks, parent :: indents, false, none, []⟩ y ∧ y.Stands n rest
      (closed n (parent :: indents) ++ .scalar style (String.ofList cs) :: toks)
      ((parent :: indents).dropWhile (n < ·)) := by
  obtain ⟨c, more, hscalar, hword⟩ :=
    startsWord_scalarLine hsuits (parent + 2) (spaces n ++ rest)
  rw [hscalar] at h
  have hspaces : s.Shows column (spaces 1 ++ c :: more) := h
  obtain ⟨s', hs', hgap⟩ := gap_spaces hspaces hword false
  have hready : ready? ⟨s, toks, parent :: indents, false, none, []⟩ = some _ :=
    ready?_of_gap hs' hgap
  have hdeep : ∀ k ∈ (parent :: indents).head?, k ≤ column + 1 := by
    simp
    omega
  obtain ⟨hclosed, hdrop⟩ := closed_of_le hdeep
  rw [hclosed, hdrop, List.nil_append] at hready
  have hmore := hs'.head_ne_end (hword c rfl).1
  rw [← hscalar] at hs'
  obtain ⟨y, htoken, hy⟩ := takes_scalar hsuits (Nat.succ_pos _) (by omega) hrest hn hs'
  exact ⟨y, .token hready hmore htoken, hy⟩

/-- Brackets with nothing between them. -/
theorem leads_brackets (hcolumn : parent < column) (hrest : StartsWord rest)
    (h : s.Shows column (' ' :: '[' :: ']' :: '\n' :: (spaces n ++ rest))) :
    ∃ y, Leads 2 ⟨s, toks, parent :: indents, false, none, []⟩ y ∧ y.Stands n rest
      (closed n (parent :: indents) ++ .flowSequenceEnd :: .flowSequenceStart :: toks)
      ((parent :: indents).dropWhile (n < ·)) := by
  have hword : StartsWord ('[' :: ']' :: '\n' :: (spaces n ++ rest)) := by
    intro c hc
    obtain rfl : '[' = c := by simpa using hc
    decide
  have hspaces : s.Shows column (spaces 1 ++ '[' :: ']' :: '\n' :: (spaces n ++ rest)) := h
  obtain ⟨s', hs', hgap⟩ := gap_spaces hspaces hword false
  have hready : ready? ⟨s, toks, parent :: indents, false, none, []⟩ = some _ :=
    ready?_of_gap hs' hgap
  have hdeep : ∀ k ∈ (parent :: indents).head?, k ≤ column + 1 := by
    simp
    omega
  obtain ⟨hclosed, hdrop⟩ := closed_of_le hdeep
  rw [hclosed, hdrop, List.nil_append] at hready
  obtain ⟨i, l, s₁, rfl, h₁⟩ := hs'.exists_char (by decide) (by decide)
  have hopen : token? ⟨⟨'[', i, l, column + 1⟩ :: s₁, toks, parent :: indents, false, none, []⟩ =
      some ⟨s₁, .flowSequenceStart :: toks, parent :: indents, true, none, [none]⟩ := by
    simp [token?, Source.head, Source.startsWith3, openFlow?, markKey?, emit, advance, Source.skip]
  obtain ⟨j, m, s₂, rfl, h₂⟩ := h₁.exists_char (by decide) (by decide)
  have hready' : ready? ⟨⟨']', j, m, column + 1 + 1⟩ :: s₂, .flowSequenceStart :: toks,
      parent :: indents, true, none, [none]⟩ = some ⟨⟨']', j, m, column + 1 + 1⟩ :: s₂,
        .flowSequenceStart :: toks, parent :: indents, true, none, [none]⟩ := by
    have hgap : gap true false true (⟨']', j, m, column + 1 + 1⟩ :: s₂) =
        (⟨']', j, m, column + 1 + 1⟩ :: s₂, true) := by
      simp [gap, isBreak, endChar, byteOrderMark]
    simp [ready?, skipGap, inFlow, hgap, dropPastKeys?, closeTo]
  have hclose : token? ⟨⟨']', j, m, column + 1 + 1⟩ :: s₂, .flowSequenceStart :: toks,
      parent :: indents, true, none, [none]⟩ = some ⟨s₂, .flowSequenceEnd :: .flowSequenceStart :: toks,
        parent :: indents, false, none, []⟩ := by
    simp [token?, Source.head, Source.startsWith3, closeFlow?, dropKey?, emit, advance, Source.skip,
      allowKey]
  refine ⟨_, .trans (.token hready ?_ hopen) (.token hready' ?_ hclose), stands_of_break h₂ hrest false⟩
  · simp [Source.head, endChar]
  · simp [Source.head, endChar]

end Lexer

end CategorizedIndex.Yaml
