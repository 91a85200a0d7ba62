import CategorizedIndex.Proofs.Yaml.Lexer
import CategorizedIndex.Yaml.Value

/-! # Tokens of written values

The lexer on a whole text. It gets over a value line by line, however the value is nested, and
at its end it stands in front of the next key, item or end. A mapping at the margin is read
whole.
-/
namespace CategorizedIndex.Yaml

open Written

variable {rest : List Char} {s : Source} {toks : List Token} {indents : List Nat}
  {column parent n : Nat} {value : Value} {entries : List (String × Value)}

/-! ## Values that are read back -/

/-- A key without quotes that no mark starts with. -/
structure Written.IsName (key : String) : Prop where
  style : keyStyle key = .plain
  start : ∀ c ∈ key.toList.head?, c ≠ '-' ∧ c ≠ '.'
  short : octets key.toList ≤ 1024

theorem Written.IsName.suits {key : String} (h : IsName key) : Suits .plain key.toList := by
  have hstyle := h.style
  unfold keyStyle at hstyle
  split at hstyle
  · cases hstyle
  · exact hstyle ▸ suits_styleOf key

namespace Value

/-- Scalars, and sequences of mappings with names as keys. -/
inductive Legible : Value → Prop
  | scalar {style : Style} {text : String} (hsuits : Suits style text.toList) :
      Legible (.scalar style text)
  | sequence {records : List (List (String × Value))} (hsome : ∀ r ∈ records, r ≠ [])
      (hnames : ∀ r ∈ records, ∀ e ∈ r, IsName e.1)
      (hvalues : ∀ r ∈ records, ∀ e ∈ r, Legible e.2) : Legible (.sequence (records.map .mapping))

theorem legible_ofString (s : String) : Legible (.ofString s) := .scalar (suits_styleOf s)

theorem legible_ofChar {c : Char} (h : c ≠ '\n') : Legible (.ofChar c) := by
  have hsuits : Suits (quoteStyle [c]) [c] := suits_quoteStyle (by simpa using h.symm)
  exact .scalar (by simpa using hsuits)

theorem legible_ofBool (b : Bool) : Legible (.ofBool b) := by
  refine .scalar ?_
  cases b with
  | true => exact ⟨by decide, by decide⟩
  | false => exact ⟨by decide, by decide⟩

mutual

/-- The tokens of a value. A sequence that starts no deeper than its key has no start and no
end. -/
def tokens : Value → List Token
  | scalar style text => [.scalar style text]
  | sequence [] => [.flowSequenceStart, .flowSequenceEnd]
  | sequence items => itemTokens items
  | mapping entries => .blockMappingStart :: (entryTokens entries ++ [.blockEnd])

def itemTokens : List Value → List Token
  | [] => []
  | item :: rest => .blockEntry :: (tokens item ++ itemTokens rest)

def entryTokens : List (String × Value) → List Token
  | [] => []
  | (key, value) :: rest =>
    .key :: .scalar (keyStyle key) key :: .value :: (tokens value ++ entryTokens rest)

end

/-! ## The characters of a value -/

theorem entriesChars_false (hsome : entries ≠ []) (indent : Nat) :
    entriesChars indent false entries = spaces indent ++ entriesChars indent true entries := by
  obtain ⟨⟨key, value⟩, others, rfl⟩ := List.exists_cons_of_ne_nil hsome
  simp [entriesChars]

theorem itemsChars_false {items : List Value} (hsome : items ≠ []) (indent : Nat) :
    itemsChars indent false items = spaces indent ++ itemsChars indent true items := by
  obtain ⟨item, others, rfl⟩ := List.exists_cons_of_ne_nil hsome
  simp [itemsChars]

theorem itemChars_mapping (hsome : entries ≠ []) (indent : Nat) :
    itemChars indent (.mapping entries) = entriesChars indent true entries := by
  obtain ⟨entry, others, rfl⟩ := List.exists_cons_of_ne_nil hsome
  rw [itemChars]
  exact hsome

theorem entryChars_sequence {items : List Value} (hsome : items ≠ []) (indent : Nat) :
    entryChars indent (.sequence items) = '\n' :: itemsChars indent false items := by
  obtain ⟨item, others, rfl⟩ := List.exists_cons_of_ne_nil hsome
  rw [entryChars]
  exact hsome

theorem tokens_sequence {items : List Value} (hsome : items ≠ []) :
    tokens (.sequence items) = itemTokens items := by
  obtain ⟨item, others, rfl⟩ := List.exists_cons_of_ne_nil hsome
  rw [tokens]
  exact hsome

theorem exists_entryChars (indent : Nat) (v : Value) : ∃ d more, entryChars indent v = d :: more ∧
    isPrintable d = true ∧ endsWord d = true := by
  cases v with
  | scalar style text => exact ⟨' ', _, by rw [entryChars], by decide, by decide⟩
  | sequence items =>
    cases items with
    | nil => exact ⟨' ', _, by rw [entryChars]; rfl, by decide, by decide⟩
    | cons item rest => exact ⟨'\n', _, by rw [entryChars]; simp, by decide, by decide⟩
  | mapping entries =>
    cases entries with
    | nil => exact ⟨' ', _, by rw [entryChars]; rfl, by decide, by decide⟩
    | cons entry rest => exact ⟨'\n', _, by rw [entryChars]; simp, by decide, by decide⟩

theorem startsWord_entriesChars (hsome : entries ≠ []) (hnames : ∀ e ∈ entries, IsName e.1)
    (rest : List Char) : StartsWord (entriesChars column true entries ++ rest) := by
  obtain ⟨⟨key, value⟩, others, rfl⟩ := List.exists_cons_of_ne_nil hsome
  have hname := hnames _ List.mem_cons_self
  obtain ⟨hne, hfits⟩ := hname.suits
  obtain ⟨c, cs, hkey⟩ := List.exists_cons_of_ne_nil hne
  have hword := startsWord_of_fitsPlain hfits
  intro d hd
  simp only [entriesChars, hname.style, scalarChars, hkey, if_pos, List.nil_append,
    List.cons_append, List.head?_cons] at hd
  exact hword d (by simpa [hkey] using hd)

theorem startsWord_itemsChars {items : List Value} (hsome : items ≠ []) (rest : List Char) :
    StartsWord (itemsChars column true items ++ rest) := by
  obtain ⟨item, others, rfl⟩ := List.exists_cons_of_ne_nil hsome
  intro d hd
  obtain rfl : '-' = d := by simpa [itemsChars] using hd
  decide

/-! ## All characters are printable -/

theorem printable_entriesChars (hnames : ∀ e ∈ entries, IsName e.1)
    (hvalues : ∀ e ∈ entries, ∀ indent, Printable (entryChars indent e.2)) (indent : Nat)
    (inline : Bool) : Printable (entriesChars indent inline entries) := by
  induction entries generalizing inline with
  | nil => simp [entriesChars]
  | cons entry others ih =>
    obtain ⟨key, value⟩ := entry
    obtain ⟨hname, hnames⟩ := List.forall_mem_cons.mp hnames
    obtain ⟨hvalue, hvalues⟩ := List.forall_mem_cons.mp hvalues
    have hkey : Printable key.toList := (inside_of_fitsPlain hname.suits.2).1.printable
    have hcolon : isPrintable ':' = true := by decide
    have hrest := ih hnames hvalues false
    rw [entriesChars, hname.style]
    cases inline <;> simp [scalarChars, hkey, hcolon, hvalue, hrest]

theorem printable_itemsChars {items : List Value}
    (hitems : ∀ v ∈ items, ∀ indent, Printable (itemChars indent v)) (indent : Nat)
    (inline : Bool) : Printable (itemsChars indent inline items) := by
  have hdash : isPrintable '-' = true ∧ isPrintable ' ' = true := by decide
  induction items generalizing inline with
  | nil => simp [itemsChars]
  | cons item others ih =>
    obtain ⟨hitem, hothers⟩ := List.forall_mem_cons.mp hitems
    rw [itemsChars]
    cases inline <;> simp [hdash, hitem, ih hothers]

theorem Legible.printable (h : Legible value) (indent : Nat) :
    Printable (entryChars indent value) := by
  have hfeed : isPrintable '\n' = true ∧ isPrintable ' ' = true := by decide
  induction h generalizing indent with
  | scalar hsuits => simp [entryChars, hfeed, hsuits.printable]
  | @sequence records hsome hnames _ ih =>
    cases records with
    | nil =>
      have hbrackets : isPrintable '[' = true ∧ isPrintable ']' = true := by decide
      simp [entryChars, hfeed, hbrackets]
    | cons first others =>
      rw [entryChars_sequence (by simp)]
      refine printable_cons.mpr ⟨hfeed.1, printable_itemsChars ?_ indent false⟩
      intro item hitem indent
      obtain ⟨r, hr, rfl⟩ := List.mem_map.mp hitem
      rw [itemChars_mapping (hsome r hr)]
      exact printable_entriesChars (hnames r hr) (ih r hr) indent true

/-! ## The lexer on a value -/

def Lexes (v : Value) : Prop :=
  ∀ {s : Source} {column parent n : Nat} {rest : List Char} {toks : List Token}
    {indents : List Nat}, s.Shows column (entryChars parent v ++ (spaces n ++ rest)) →
    parent < column → n ≤ parent → StartsWord rest →
    ∃ y, Lexer.Leads (entryChars parent v).length ⟨s, toks, parent :: indents, false, none, []⟩ y ∧
      y.Stands n rest (Lexer.closed n (parent :: indents) ++ (v.tokens.reverse ++ toks))
        ((parent :: indents).dropWhile (n < ·))

theorem lexes_scalar {style : Style} {text : String} (hsuits : Suits style text.toList) :
    Lexes (.scalar style text) := by
  intro s column parent n rest toks indents h hcolumn hn hrest
  rw [entryChars] at h ⊢
  obtain ⟨y, hleads, hy⟩ := Lexer.leads_scalar hsuits hcolumn hrest hn h
  refine ⟨y, hleads.mono (by simp), ?_⟩
  simpa [tokens] using hy

theorem lexes_brackets : Lexes (.sequence []) := by
  intro s column parent n rest toks indents h hcolumn hn hrest
  rw [entryChars] at h ⊢
  obtain ⟨y, hleads, hy⟩ := Lexer.leads_brackets hcolumn hrest h
  exact ⟨y, hleads.mono (by simp), by simpa [tokens] using hy⟩

/-- The first entry of a mapping opens it, unless it is open. -/
theorem leads_entry {key : String} (hname : IsName key) (hvalue : Lexes value)
    (hindents : ∀ k ∈ indents.head?, k ≤ column) (hn : n ≤ column) (hrest : StartsWord rest)
    {x : Lexer} (h : x.Stands column (entriesChars column true [(key, value)] ++
      (spaces n ++ rest)) toks indents) :
    ∃ y, Lexer.Leads (entriesChars column true [(key, value)]).length x y ∧
      y.Stands n rest (Lexer.closed n (Lexer.opened column indents) ++
        ((entryTokens [(key, value)]).reverse ++ (Lexer.opening column indents ++ toks)))
        ((Lexer.opened column indents).dropWhile (n < ·)) := by
  obtain ⟨hne, hfits⟩ := hname.suits
  obtain ⟨d, more, hchars, hd, hword⟩ := exists_entryChars column value
  obtain ⟨outer, hopened⟩ := Lexer.exists_opened hindents
  have hkey : x.Stands column (key.toList ++ ':' :: d :: (more ++ (spaces n ++ rest))) toks
      indents := by
    simpa [entriesChars, hname.style, scalarChars, hchars] using h
  obtain ⟨column', s, hlt, hs, hleads⟩ :=
    Lexer.leads_key hkey hne hfits hname.start hname.short hd hword hindents
  have hs : s.Shows column' (entryChars column value ++ (spaces n ++ rest)) := by
    rwa [hchars]
  rw [hopened] at hleads ⊢
  obtain ⟨y, hnext, hy⟩ := hvalue hs hlt hn hrest
  refine ⟨y, (hleads.trans hnext).mono ?_, ?_⟩
  · have hpos : 0 < key.toList.length := List.length_pos_iff.mpr hne
    simp only [entriesChars, hname.style, scalarChars, if_pos, List.length_append,
      List.length_cons, List.length_nil]
    omega
  · simpa [entryTokens, hname.style] using hy

/-- Entries are read one after the other. -/
theorem leads_entries (hsome : entries ≠ []) (hnames : ∀ e ∈ entries, IsName e.1)
    (hvalues : ∀ e ∈ entries, Lexes e.2) (hindents : ∀ k ∈ indents.head?, k ≤ column)
    (hn : n ≤ column) (hrest : StartsWord rest) {x : Lexer}
    (h : x.Stands column (entriesChars column true entries ++ (spaces n ++ rest)) toks indents) :
    ∃ y, Lexer.Leads (entriesChars column true entries).length x y ∧
      y.Stands n rest (Lexer.closed n (Lexer.opened column indents) ++
        ((entryTokens entries).reverse ++ (Lexer.opening column indents ++ toks)))
        ((Lexer.opened column indents).dropWhile (n < ·)) := by
  induction entries generalizing x toks indents with
  | nil => exact absurd rfl hsome
  | cons entry others ih =>
    obtain ⟨key, value⟩ := entry
    obtain ⟨hname, hnames⟩ : IsName key ∧ ∀ e ∈ others, IsName e.1 :=
      List.forall_mem_cons.mp hnames
    obtain ⟨hvalue, hvalues⟩ : Lexes value ∧ ∀ e ∈ others, Lexes e.2 :=
      List.forall_mem_cons.mp hvalues
    cases others with
    | nil => exact leads_entry hname hvalue hindents hn hrest h
    | cons other others =>
      have hothers : other :: others ≠ [] := List.cons_ne_nil _ _
      have hchars : entriesChars column true ((key, value) :: other :: others) =
          entriesChars column true [(key, value)] ++
            (spaces column ++ entriesChars column true (other :: others)) := by
        rw [← entriesChars_false hothers]
        simp [entriesChars]
      rw [hchars, List.append_assoc, List.append_assoc] at h
      obtain ⟨y, hentry, hy⟩ := leads_entry hname hvalue hindents (Nat.le_refl column)
        (startsWord_entriesChars hothers hnames _) h
      obtain ⟨outer, hopened⟩ := Lexer.exists_opened hindents
      have hlevel : ∀ k ∈ (column :: outer).head?, k ≤ column := by simp
      obtain ⟨hclosed, hdrop⟩ := Lexer.closed_of_le hlevel
      rw [hopened, hclosed, hdrop, List.nil_append] at hy
      obtain ⟨z, hrun, hz⟩ := ih hothers hnames hvalues hlevel hy
      have hopen : Lexer.opened column (column :: outer) = column :: outer ∧
          Lexer.opening column (column :: outer) = [] := by
        simp [Lexer.opened, Lexer.opening]
      rw [hopen.1, hopen.2] at hz
      rw [hchars, hopened, List.length_append, List.length_append]
      exact ⟨z, (hentry.trans hrun).mono (by omega), by simpa [entryTokens] using hz⟩

theorem leads_record (hsome : entries ≠ []) (hnames : ∀ e ∈ entries, IsName e.1)
    (hvalues : ∀ e ∈ entries, Lexes e.2) (hn : n ≤ column) (hrest : StartsWord rest) {x : Lexer}
    (h : x.Stands (column + 2) (entriesChars (column + 2) true entries ++ (spaces n ++ rest)) toks
      (column :: indents)) :
    ∃ y, Lexer.Leads (entriesChars (column + 2) true entries).length x y ∧
      y.Stands n rest (Lexer.closed n (column :: indents) ++
        ((tokens (.mapping entries)).reverse ++ toks)) ((column :: indents).dropWhile (n < ·)) := by
  have hindents : ∀ k ∈ (column :: indents).head?, k ≤ column + 2 := by simp
  obtain ⟨y, hleads, hy⟩ := leads_entries hsome hnames hvalues hindents (by omega) hrest h
  have hlt : n < column + 2 := by omega
  refine ⟨y, hleads, ?_⟩
  simpa [Lexer.opened, Lexer.opening, Lexer.closed_of_lt hlt, hlt, tokens] using hy

theorem leads_items {records : List (List (String × Value))} (hsome : records ≠ [])
    (hnonempty : ∀ r ∈ records, r ≠ []) (hnames : ∀ r ∈ records, ∀ e ∈ r, IsName e.1)
    (hvalues : ∀ r ∈ records, ∀ e ∈ r, Lexes e.2) (hn : n ≤ column) (hrest : StartsWord rest)
    {x : Lexer} (h : x.Stands column (itemsChars column true (records.map .mapping) ++
      (spaces n ++ rest)) toks (column :: indents)) :
    ∃ y, Lexer.Leads (itemsChars column true (records.map .mapping)).length x y ∧
      y.Stands n rest (Lexer.closed n (column :: indents) ++
        ((itemTokens (records.map .mapping)).reverse ++ toks))
        ((column :: indents).dropWhile (n < ·)) := by
  induction records generalizing x toks with
  | nil => exact absurd rfl hsome
  | cons r others ih =>
    obtain ⟨hr, hnonempty⟩ := List.forall_mem_cons.mp hnonempty
    obtain ⟨hrnames, hnames⟩ := List.forall_mem_cons.mp hnames
    obtain ⟨hrvalues, hvalues⟩ := List.forall_mem_cons.mp hvalues
    have hdash : x.Stands column ('-' :: ' ' :: (entriesChars (column + 2) true r ++
        (itemsChars column false (others.map .mapping) ++ (spaces n ++ rest)))) toks
        (column :: indents) := by
      simpa [itemsChars, itemChars_mapping hr] using h
    obtain ⟨y, hleads, hy⟩ := Lexer.leads_dash hdash (startsWord_entriesChars hr hrnames _)
    have hlength : (itemsChars column true ((r :: others).map .mapping)).length =
        2 + ((entriesChars (column + 2) true r).length +
          (itemsChars column false (others.map .mapping)).length) := by
      simp [itemsChars, itemChars_mapping hr]
      omega
    rw [hlength]
    cases others with
    | nil =>
      obtain ⟨z, hrecord, hz⟩ := leads_record hr hrnames hrvalues hn hrest hy
      refine ⟨z, (hleads.trans hrecord).mono (by omega), ?_⟩
      simpa [itemTokens] using hz
    | cons other others =>
      have hitems : (other :: others).map Value.mapping ≠ [] := List.cons_ne_nil _ _
      rw [itemsChars_false hitems, List.append_assoc] at hy
      obtain ⟨z, hrecord, hz⟩ := leads_record hr hrnames hrvalues (Nat.le_refl column)
        (startsWord_itemsChars hitems _) hy
      obtain ⟨hclosed, hdrop⟩ := Lexer.closed_of_le
        (show ∀ k ∈ (column :: indents).head?, k ≤ column by simp)
      rw [hclosed, hdrop, List.nil_append] at hz
      obtain ⟨z', hothers, hz'⟩ := ih (List.cons_ne_nil _ _) hnonempty hnames hvalues hz
      refine ⟨z', ((hleads.trans hrecord).trans hothers).mono ?_, ?_⟩
      · rw [itemsChars_false hitems, List.length_append]
        omega
      · simpa [itemTokens] using hz'

theorem Legible.lexes (h : Legible value) : Lexes value := by
  induction h with
  | scalar hsuits => exact lexes_scalar hsuits
  | @sequence records hsome hnames _ ih =>
    cases records with
    | nil => exact lexes_brackets
    | cons first others =>
      intro s column parent n rest toks indents h _ hn hrest
      have hitems : (first :: others).map Value.mapping ≠ [] := List.cons_ne_nil _ _
      rw [entryChars_sequence hitems, itemsChars_false hitems, List.cons_append,
        List.append_assoc] at h
      obtain ⟨hclosed, hdrop⟩ := Lexer.closed_of_le
        (show ∀ k ∈ (parent :: indents).head?, k ≤ parent by simp)
      have hstands : Lexer.Stands ⟨s, toks, parent :: indents, false, none, []⟩ _ _ _ _ :=
        Lexer.stands_of_break h (startsWord_itemsChars hitems _) false
      rw [hclosed, hdrop, List.nil_append] at hstands
      obtain ⟨y, hleads, hy⟩ :=
        leads_items (List.cons_ne_nil _ _) hsome hnames ih hn hrest hstands
      rw [entryChars_sequence hitems, itemsChars_false hitems, tokens_sequence hitems,
        List.length_cons, List.length_append]
      exact ⟨y, hleads.mono (by omega), hy⟩

/-- The tokens of a text that a mapping is written as. -/
theorem scan_mapping (hsome : entries ≠ []) (hnames : ∀ e ∈ entries, IsName e.1)
    (hvalues : ∀ e ∈ entries, Legible e.2) :
    (Source.ofText? (toText (.mapping entries))).bind Token.scan =
      some (tokens (.mapping entries)) := by
  have hprintable : Printable (entriesChars 0 true entries) :=
    printable_entriesChars hnames (fun e he => (hvalues e he).printable) 0 true
  have hallowed : (entriesChars 0 true entries).all isAllowed = true :=
    List.all_eq_true.mpr fun c hc => isAllowed_of_printable (hprintable c hc)
  have hshows : (Source.place 0 0 0 (entriesChars 0 true entries)).Shows 0
      (spaces 0 ++ (entriesChars 0 true entries ++ (spaces 0 ++ []))) := by
    simpa [spaces] using ⟨0, 0, rfl⟩
  have hstart : Lexer.Stands (.start (.place 0 0 0 (entriesChars 0 true entries))) 0 _ [] [] :=
    Lexer.stands_of_spaces hshows (startsWord_entriesChars hsome hnames _)
  obtain ⟨y, ⟨k, hk, hrun⟩, s, hs, hready⟩ := leads_entries hsome hnames
    (fun e he => (hvalues e he).lexes) (by simp) (Nat.le_refl 0) (by simp [StartsWord]) hstart
  obtain ⟨index, line, rfl⟩ := hs.exists_nil
  have hend : ∀ steps, Lexer.run (steps + 1) y = some (tokens (.mapping entries)) := by
    intro steps
    rw [Lexer.run_succ, hready]
    simp [Source.head, Lexer.betweenDocuments?, Lexer.closeAll, Lexer.inFlow, Lexer.dropKey?,
      Lexer.allowKey, Lexer.opened, Lexer.opening, Lexer.closed, tokens]
  obtain ⟨steps, hsteps⟩ : ∃ steps, (entriesChars 0 true entries).length + 1 + 1 =
      k + (steps + 1) := ⟨(entriesChars 0 true entries).length + 1 - k, by omega⟩
  rw [toText, itemChars_mapping hsome, Source.ofText?, String.toList_ofList, if_pos hallowed,
    Option.bind_some, Token.scan, Source.length_place hprintable, hsteps, hrun, hend]

end Value

end CategorizedIndex.Yaml
