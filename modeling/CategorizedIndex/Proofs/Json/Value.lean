import CategorizedIndex.Proofs.Json.Number
import CategorizedIndex.Proofs.Json.Text

/-! # Values of JSON

A value written without blanks is read back, and nothing of what follows it. The depth to which
the reader may go is bounded by the length of the text, which is enough, since each level puts a
character around what is inside it.
-/
namespace CategorizedIndex.Json

variable {j : Json} {items : List Json} {members : List (JsonText × Json)} {rest : List Char}
  {fuel : Nat}

/-- Numbers that a reader takes as they are, and texts written with their escapes. -/
inductive Legible : Json → Prop
  | null : Legible null
  | bool (b : Bool) : Legible (bool b)
  | number {n : JsonNumber} (hn : n.WellFormed) : Legible (number n)
  | text (s : String) : Legible (ofString s)
  | array {items : List Json} (hitems : ∀ j ∈ items, Legible j) : Legible (array items)
  | object {members : List (JsonText × Json)}
      (hnames : ∀ m ∈ members, ∃ s, m.1 = JsonText.ofString s)
      (hvalues : ∀ m ∈ members, Legible m.2) : Legible (object members)

/-- What a reader of values and of lists of values relies on. -/
structure Readable (j : Json) : Prop where
  starts : ∃ c chars, j.toChars = c :: chars ∧ isSpace c = false ∧ c ≠ ']'
  reads : ∀ fuel rest, j.toChars.length ≤ fuel → Ends rest →
    value? (fuel + 1) (j.toChars ++ rest) = some (j, rest)

theorem skipSpace_cons {c : Char} (h : isSpace c = false) (rest : List Char) :
    skipSpace (c :: rest) = c :: rest := by
  simp [skipSpace, h]

theorem ends_mark {c : Char} (h : c = ',' ∨ c = ']' ∨ c = '\x7d') (rest : List Char) :
    Ends (c :: rest) := by
  rintro _ ⟨⟩
  rcases h with rfl | rfl | rfl <;> decide

theorem readable_null : Readable null :=
  ⟨⟨'n', _, rfl, by decide, by decide⟩, fun _ _ _ _ => rfl⟩

theorem readable_bool (b : Bool) : Readable (bool b) := by
  cases b with
  | true => exact ⟨⟨'t', _, rfl, by decide, by decide⟩, fun _ _ _ _ => rfl⟩
  | false => exact ⟨⟨'f', _, rfl, by decide, by decide⟩, fun _ _ _ _ => rfl⟩

def startsNumber (c : Char) : Bool := c == '-' || c.isDigit

theorem ne_of_startsNumber {c : Char} (hc : startsNumber c = true) :
    ∀ mark ∈ ['n', 't', 'f', '"', '[', ']', '\x7b', ' ', '\n', '\t', '\r'], c ≠ mark :=
  Text.ne_of_all hc (by decide)

theorem isSpace_of_startsNumber {c : Char} (hc : startsNumber c = true) : isSpace c = false := by
  have hother := ne_of_startsNumber hc
  simp only [List.forall_mem_cons] at hother
  simp [isSpace, hother]

/-- A sign or a digit starts a number and nothing else. -/
theorem value?_number {c : Char} (hc : startsNumber c = true) (rest : List Char) :
    value? (fuel + 1) (c :: rest) =
      (number? (c :: rest)).map fun (n, rest) => (number n, rest) := by
  have hother := ne_of_startsNumber hc
  rw [value?, skipSpace_cons (isSpace_of_startsNumber hc)]
  split
  all_goals first
    | rfl
    | next heq => exact absurd (List.cons.inj heq).1 (hother _ (by decide))

theorem exists_number_start {n : JsonNumber} (hn : n.WellFormed) :
    ∃ c chars, n.toChars = c :: chars ∧ startsNumber c = true := by
  obtain ⟨c, digits, hwhole⟩ := List.exists_cons_of_ne_nil hn.whole.ne_nil
  rw [n.toChars_eq, hwhole]
  cases n.negative with
  | true => exact ⟨'-', _, rfl, rfl⟩
  | false =>
    have hc : c.isDigit = true := hn.whole.isDigit c (hwhole ▸ List.mem_cons_self)
    exact ⟨c, _, rfl, by rw [startsNumber, hc, Bool.or_true]⟩

theorem readable_number {n : JsonNumber} (hn : n.WellFormed) : Readable (number n) := by
  obtain ⟨c, chars, hchars, hc⟩ := exists_number_start hn
  refine ⟨⟨c, chars, by rw [toChars, hchars], isSpace_of_startsNumber hc,
    ne_of_startsNumber hc _ (by decide)⟩, fun fuel rest _ hrest => ?_⟩
  have hread := number?_append hn hrest
  rw [hchars, List.cons_append] at hread
  rw [toChars, hchars, List.cons_append, value?_number hc, hread]
  rfl

theorem readable_ofString (s : String) : Readable (ofString s) where
  starts := ⟨'"', _, rfl, by decide, by decide⟩
  reads fuel rest _ _ := by
    rw [ofString, toChars]
    simp only [List.cons_append, List.append_assoc, List.nil_append, value?,
      skipSpace_cons (c := '"') rfl, text?_ofString]
    rfl

/-- Items are read up to the bracket behind the last one. -/
theorem items?_append (hsome : items ≠ []) (hitems : ∀ j ∈ items, Readable j)
    (hfuel : (itemsToChars items).length ≤ fuel) (rest : List Char) :
    items? (fuel + 2) (itemsToChars items ++ ']' :: rest) = some (items, rest) := by
  induction items generalizing fuel with
  | nil => exact absurd rfl hsome
  | cons item others ih =>
    obtain ⟨hitem, hothers⟩ := List.forall_mem_cons.mp hitems
    cases others with
    | nil =>
      rw [itemsToChars] at hfuel ⊢
      rw [items?, hitem.reads fuel _ hfuel (ends_mark (by decide) rest)]
      rfl
    | cons next others =>
      rw [itemsToChars.eq_3 _ _ (List.cons_ne_nil _ _)] at hfuel ⊢
      rw [List.length_append, List.length_cons] at hfuel
      rw [List.append_assoc, List.cons_append, items?,
        hitem.reads fuel _ (by omega) (ends_mark (by decide) _)]
      -- The comma is the character that pays for one more call.
      obtain _ | fuel := fuel
      · cases hfuel
      have hnext := @ih fuel (List.cons_ne_nil _ _) hothers (by omega)
      simp only [Option.bind_eq_bind, Option.bind_some, skipSpace_cons (c := ',') rfl, hnext]

/-- Members are read up to the brace behind the last one. -/
theorem members?_append (hsome : members ≠ [])
    (hnames : ∀ m ∈ members, ∃ s, m.1 = JsonText.ofString s)
    (hvalues : ∀ m ∈ members, Readable m.2) (hfuel : (membersToChars members).length ≤ fuel)
    (rest : List Char) :
    members? (fuel + 2) (membersToChars members ++ '\x7d' :: rest) = some (members, rest) := by
  induction members generalizing fuel with
  | nil => exact absurd rfl hsome
  | cons m others ih =>
    obtain ⟨⟨s, hname⟩, hnamed⟩ := List.forall_mem_cons.mp hnames
    obtain ⟨hvalue, hothers⟩ := List.forall_mem_cons.mp hvalues
    obtain ⟨name, value⟩ := m
    subst hname
    cases others with
    | nil =>
      rw [membersToChars] at hfuel ⊢
      simp only [List.length_cons, List.length_append] at hfuel
      have hread := hvalue.reads fuel ('\x7d' :: rest) (by simp only; omega)
        (ends_mark (by decide) rest)
      simp only [List.cons_append, List.append_assoc, members?, skipSpace_cons (c := '"') rfl,
        skipSpace_cons (c := ':') rfl, skipSpace_cons (c := '\x7d') rfl, text?_ofString,
        Option.bind_eq_bind, Option.bind_some, hread]
    | cons next others =>
      rw [membersToChars.eq_3 _ _ _ (List.cons_ne_nil _ _)] at hfuel ⊢
      simp only [List.length_cons, List.length_append] at hfuel
      obtain _ | fuel := fuel
      · cases hfuel
      have hread := hvalue.reads (fuel + 1)
        (',' :: (membersToChars (next :: others) ++ '\x7d' :: rest)) (by simp only; omega)
        (ends_mark (by decide) _)
      have hnext := @ih fuel (List.cons_ne_nil _ _) hnamed hothers (by omega)
      rw [List.cons_append, members?]
      simp only [List.cons_append, List.append_assoc, skipSpace_cons (c := '"') rfl,
        skipSpace_cons (c := ':') rfl, skipSpace_cons (c := ',') rfl, text?_ofString,
        Option.bind_eq_bind, Option.bind_some, hread, hnext]

theorem exists_itemsToChars (hitem : Readable j) (others : List Json) :
    ∃ c chars, itemsToChars (j :: others) = c :: chars ∧ isSpace c = false ∧ c ≠ ']' := by
  obtain ⟨c, chars, hchars, hc⟩ := hitem.starts
  cases others with
  | nil => exact ⟨c, chars, by rw [itemsToChars, hchars], hc⟩
  | cons next others =>
    exact ⟨c, _, by rw [itemsToChars.eq_3 _ _ (List.cons_ne_nil _ _), hchars, List.cons_append],
      hc⟩

theorem exists_membersToChars (hsome : members ≠ []) :
    ∃ chars, membersToChars members = '"' :: chars := by
  obtain ⟨⟨name, value⟩, others, rfl⟩ := List.exists_cons_of_ne_nil hsome
  cases others with
  | nil => exact ⟨_, by rw [membersToChars]⟩
  | cons next others => exact ⟨_, membersToChars.eq_3 _ _ _ (List.cons_ne_nil _ _)⟩

theorem readable_array (hitems : ∀ j ∈ items, Readable j) : Readable (array items) where
  starts := ⟨'[', _, by rw [toChars], by decide, by decide⟩
  reads fuel rest hfuel _ := by
    rw [toChars] at hfuel ⊢
    rw [List.length_cons, List.length_append, List.length_singleton] at hfuel
    rw [List.cons_append, List.append_assoc, List.singleton_append, value?,
      skipSpace_cons (c := '[') rfl]
    cases items with
    | nil => rfl
    | cons item others =>
      obtain ⟨room, rfl⟩ : ∃ room, fuel = room + 2 := ⟨fuel - 2, by omega⟩
      have hread := items?_append (List.cons_ne_nil _ _) hitems (by omega : _ ≤ room) rest
      obtain ⟨c, chars, hchars, hspace, hbracket⟩ :=
        exists_itemsToChars (hitems item List.mem_cons_self) others
      rw [hchars, List.cons_append] at hread ⊢
      simp only [skipSpace_cons hspace]
      split
      · next heq => exact absurd (List.cons.inj heq).1 hbracket
      · rw [hread]
        rfl

theorem readable_object (hnames : ∀ m ∈ members, ∃ s, m.1 = JsonText.ofString s)
    (hvalues : ∀ m ∈ members, Readable m.2) : Readable (object members) where
  starts := ⟨'\x7b', _, by rw [toChars], by decide, by decide⟩
  reads fuel rest hfuel _ := by
    rw [toChars] at hfuel ⊢
    rw [List.length_cons, List.length_append, List.length_singleton] at hfuel
    rw [List.cons_append, List.append_assoc, List.singleton_append, value?,
      skipSpace_cons (c := '\x7b') rfl]
    cases members with
    | nil => rfl
    | cons m others =>
      obtain ⟨room, rfl⟩ : ∃ room, fuel = room + 2 := ⟨fuel - 2, by omega⟩
      have hread := members?_append (List.cons_ne_nil _ _) hnames hvalues
        (by omega : _ ≤ room) rest
      obtain ⟨chars, hchars⟩ := exists_membersToChars (List.cons_ne_nil m others)
      rw [hchars, List.cons_append] at hread ⊢
      simp only [skipSpace_cons (c := '"') rfl]
      split
      · next heq => exact absurd (List.cons.inj heq).1 (by decide)
      · rw [hread]
        rfl

theorem Legible.readable (h : Legible j) : Readable j := by
  induction h with
  | null => exact readable_null
  | bool b => exact readable_bool b
  | number hn => exact readable_number hn
  | text s => exact readable_ofString s
  | array _ ih => exact readable_array ih
  | object hnames _ ih => exact readable_object hnames ih

theorem ofText?_toText (h : Legible j) : ofText? j.toText = some j := by
  have hread := h.readable.reads j.toChars.length [] le_rfl fun _ hc => nomatch hc
  rw [List.append_nil] at hread
  rw [ofText?, toText, String.toList_ofList, hread]
  rfl

end CategorizedIndex.Json
