import CategorizedIndex.Proofs.Text.Digits
import CategorizedIndex.Text.Blank
import Mathlib.Data.List.Forall2
import Mathlib.Data.List.Induction
import Mathlib.Data.List.TakeWhile

/-! # Blanks and fields of a text

What trimming takes away, the fields between separators, and a reader that goes through the
fields one after the other.
-/
namespace CategorizedIndex.Text

variable {s before after : List Char}

theorem fields_eq_splitOn (separator : Char) (s : List Char) :
    fields separator s = s.splitOn separator := by
  induction s with
  | nil => rfl
  | cons c rest ih =>
    rw [fields, List.splitOn_cons_eq_if_modifyHead, ← ih]
    by_cases hc : c = separator
    · rw [if_pos hc, if_pos (beq_iff_eq.mpr hc)]
    · rw [if_neg hc, if_neg (mt beq_iff_eq.mp hc)]
      cases hfields : fields separator rest with
      | nil => exact absurd hfields (fields_ne_nil separator rest)
      | cons field more => rfl

theorem isBlank_of_isDigit {c : Char} (h : c.isDigit = true) : isBlank c = false := by
  have hrange := toNat_of_isDigit h
  simp only [isBlank, Bool.or_eq_false_iff, Bool.and_eq_false_iff, decide_eq_false_iff_not,
    beq_eq_false_iff_ne]
  omega

theorem trimLeft_append (h : ∀ c ∈ before, isBlank c = true) :
    trimLeft (before ++ s) = trimLeft s :=
  List.dropWhile_append_of_pos h

theorem trimLeft_eq_self (h : ∀ c ∈ s.head?, isBlank c = false) : trimLeft s = s := by
  rw [trimLeft, List.dropWhile_eq_self_iff]
  intro hlength
  rw [h _ (by rw [List.head?_eq_getElem?]; exact List.getElem?_eq_getElem hlength)]
  exact Bool.false_ne_true

theorem exists_trimLeft (s : List Char) :
    ∃ before, (∀ c ∈ before, isBlank c = true) ∧ s = before ++ trimLeft s :=
  ⟨s.takeWhile isBlank, fun _ => List.mem_takeWhile_imp, List.takeWhile_append_dropWhile.symm⟩

/-- Trimming gives what stands between blanks and has none at its ends. -/
theorem trim_eq (hbefore : ∀ c ∈ before, isBlank c = true) (hafter : ∀ c ∈ after, isBlank c = true)
    (hfirst : ∀ c ∈ s.head?, isBlank c = false) (hlast : ∀ c ∈ s.getLast?, isBlank c = false) :
    trim (before ++ s ++ after) = s := by
  have hback : trimLeft (s ++ after).reverse = s.reverse := by
    rw [List.reverse_append, trimLeft_append fun c hc => hafter c (List.mem_reverse.mp hc)]
    exact trimLeft_eq_self fun c hc => hlast c (by rwa [List.head?_reverse] at hc)
  cases s with
  | nil =>
    have hblank : trimLeft (before ++ [] ++ after) = [] := by
      rw [trimLeft, List.dropWhile_eq_nil_iff, List.append_nil]
      exact fun c hc => (List.mem_append.mp hc).elim (hbefore c) (hafter c)
    rw [trim, hblank]
    rfl
  | cons c rest =>
    have hfront : trimLeft (before ++ (c :: rest) ++ after) = c :: rest ++ after := by
      rw [List.append_assoc, trimLeft_append hbefore]
      exact trimLeft_eq_self hfirst
    rw [trim, hfront, hback, List.reverse_reverse]

theorem exists_trim (s : List Char) : ∃ before after, (∀ c ∈ before, isBlank c = true) ∧
    (∀ c ∈ after, isBlank c = true) ∧ s = before ++ trim s ++ after := by
  obtain ⟨before, hbefore, hs⟩ := exists_trimLeft s
  obtain ⟨behind, hbehind, hback⟩ := exists_trimLeft (trimLeft s).reverse
  refine ⟨before, behind.reverse, hbefore, fun c hc => hbehind c (List.mem_reverse.mp hc), ?_⟩
  rw [trim, List.append_assoc, ← List.reverse_append, ← hback, List.reverse_reverse]
  exact hs

/-- Reading items one after the other. -/
theorem mapM_eq_some {α β : Type} {read? : α → Option β} {items : List α} {values : List β} :
    items.mapM read? = some values ↔
      List.Forall₂ (fun item value => read? item = some value) items values := by
  induction items generalizing values with
  | nil =>
    rw [List.mapM_nil, List.forall₂_nil_left_iff]
    exact Option.some_inj.trans eq_comm
  | cons item rest ih =>
    rw [List.mapM_cons, List.forall₂_cons_left_iff]
    simp only [Option.bind_eq_bind, Option.bind_eq_some_iff, ih, Option.pure_def, Option.some_inj]
    constructor
    · rintro ⟨value, hvalue, others, hothers, rfl⟩
      exact ⟨value, others, hvalue, hothers, rfl⟩
    · rintro ⟨value, others, hvalue, hothers, rfl⟩
      exact ⟨value, hvalue, others, hothers, rfl⟩

theorem exists_forall₂_iff {α β : Type} {r : α → β → Prop} {l : List α} :
    (∃ l', List.Forall₂ r l l') ↔ ∀ a ∈ l, ∃ b, r a b := by
  induction l with
  | nil => simp
  | cons a rest ih =>
    rw [List.forall_mem_cons, ← ih]
    constructor
    · rintro ⟨_, hl⟩
      obtain ⟨b, l', hab, hrest, -⟩ := List.forall₂_cons_left_iff.mp hl
      exact ⟨⟨b, hab⟩, l', hrest⟩
    · rintro ⟨⟨b, hab⟩, l', hrest⟩
      exact ⟨b :: l', .cons hab hrest⟩

end CategorizedIndex.Text
