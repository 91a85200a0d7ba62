import CategorizedIndex.Proofs.Navigator.Ancestors

/-! # What is selected after a choice

Selecting and deselecting change the set of selected ids and nothing else. Selecting with
parents adds the id and the ids of the categories above its placements.

Deselecting with parents takes the categories one after another. What decides about a
category stands strictly below it, none of it comes up later in the list, and ids of
categories tell them apart, so every decision still holds when all have been made.
-/
namespace CategorizedIndex

namespace Navigator

variable {config : Config} {T : Table} {n m : Navigator} {s b : ScopedId} {a x y : EntryId}
  {d e : Entry} {r q : Ancestor} {l : List Ancestor}

def isSelected (n : Navigator) (id : ScopedId) : Bool := n.state.selection.isSelected id

/-- Whether the id of an entry is selected. -/
def selects (n : Navigator) (x : EntryId) : Bool :=
  (n.tree.get? x).any fun e => n.isSelected e.scopedId

theorem selects_eq (hx : n.tree.get? x = some e) : n.selects x = n.isSelected e.scopedId := by
  rw [selects, hx, Option.any_some]

theorem exists_of_selects (hx : n.selects x = true) : ∃ e, n.tree.get? x = some e := by
  cases he : n.tree.get? x with
  | some e => exact ⟨e, rfl⟩
  | none =>
    rw [selects, he] at hx
    cases hx

theorem selects_congr (htree : m.tree = n.tree)
    (hselection : m.state.selection = n.state.selection) : m.selects = n.selects := by
  funext x
  rw [selects, selects, htree]
  simp only [isSelected, hselection]

@[simp] theorem selects_withStack (n : Navigator) (stack : List LevelCursor) :
    (n.withStack stack).selects = n.selects := rfl

theorem hasSelectedBelow_eq (n : Navigator) (a : EntryId) :
    n.hasSelectedBelow a = (n.tree.descendants a).any n.selects := rfl

theorem hasSelectedBelow_eq_true_iff (h : n.tree.Sound config) (ha : n.tree.get? a = some e) :
    n.hasSelectedBelow a = true ↔ ∃ y, n.above y a = true ∧ n.selects y = true := by
  rw [hasSelectedBelow_eq, List.any_eq_true]
  refine exists_congr fun y => ?_
  rw [mem_descendants_iff_above h ha]
  constructor
  · rintro ⟨⟨-, habove⟩, hy⟩
    exact ⟨habove, hy⟩
  · rintro ⟨habove, hy⟩
    exact ⟨⟨exists_of_selects hy, habove⟩, hy⟩

/-! ## Selecting -/

def Reselected (n m : Navigator) : Prop := ∃ selection, m = n.withSelection fun _ => selection

namespace Reselected

theorem refl (n : Navigator) : n.Reselected n := ⟨_, rfl⟩

theorem trans {k : Navigator} (h : n.Reselected m) (h' : m.Reselected k) : n.Reselected k := by
  obtain ⟨_, rfl⟩ := h
  obtain ⟨selection, rfl⟩ := h'
  exact ⟨selection, rfl⟩

theorem tree (h : n.Reselected m) : m.tree = n.tree := by
  obtain ⟨_, rfl⟩ := h
  rfl

theorem foldl {f : Navigator → Ancestor → Navigator} (hf : ∀ n r, Reselected n (f n r))
    (l : List Ancestor) (n : Navigator) : n.Reselected (l.foldl f n) := by
  induction l generalizing n with
  | nil => exact .refl n
  | cons r rest ih => exact (hf n r).trans (ih (f n r))

end Reselected

theorem reselected_select (n : Navigator) (s : ScopedId) : n.Reselected (n.select s true) := by
  rw [select, if_pos rfl]
  exact .trans ⟨_, rfl⟩ (.foldl (fun _ _ => ⟨_, rfl⟩) _ _)

theorem isSelected_selectEntry (n : Navigator) (s b : ScopedId) :
    (n.selectEntry s).isSelected b = if s = b then true else n.isSelected b :=
  ExceptionSet.contains_set ..

theorem isSelected_deselectEntry (n : Navigator) (s b : ScopedId) :
    (n.deselectEntry s).isSelected b = if s = b then false else n.isSelected b :=
  ExceptionSet.contains_set ..

theorem isSelected_foldl_selectEntry : (l.foldl (fun n r => n.selectEntry r.entry.scopedId)
    n).isSelected b = true ↔ n.isSelected b = true ∨ ∃ r ∈ l, r.entry.scopedId = b := by
  induction l generalizing n with
  | nil => simp
  | cons r rest ih =>
    rw [List.foldl_cons, ih, isSelected_selectEntry]
    simp only [List.mem_cons, exists_eq_or_imp]
    split <;> simp [*]

theorem isSelected_select : (n.select s true).isSelected b = true ↔
    n.isSelected b = true ∨ s = b ∨ ∃ r ∈ ancestors n.tree s, r.entry.scopedId = b := by
  rw [select, if_pos rfl, isSelected_foldl_selectEntry, isSelected_selectEntry]
  split <;> simp [*]

/-! ## Deselecting -/

theorem deselectBare_cases (n : Navigator) (r : Ancestor) :
    (n.deselectBare r = n ∧ n.hasSelectedBelow r.handle = true) ∨
      (n.deselectBare r = n.deselectEntry r.entry.scopedId ∧
        n.hasSelectedBelow r.handle = false) := by
  unfold deselectBare
  cases hbelow : n.hasSelectedBelow r.handle with
  | true => exact Or.inl ⟨if_pos rfl, rfl⟩
  | false => exact Or.inr ⟨if_neg Bool.false_ne_true, rfl⟩

theorem reselected_deselectBare (n : Navigator) (r : Ancestor) :
    n.Reselected (n.deselectBare r) := by
  obtain ⟨heq, -⟩ | ⟨heq, -⟩ := deselectBare_cases n r
  · exact heq.symm ▸ .refl n
  · exact ⟨_, heq⟩

theorem isSelected_deselectBare (hb : r.entry.scopedId ≠ b) :
    (n.deselectBare r).isSelected b = n.isSelected b := by
  obtain ⟨heq, -⟩ | ⟨heq, -⟩ := deselectBare_cases n r
  · rw [heq]
  · rw [heq, isSelected_deselectEntry, if_neg hb]

theorem tree_foldl_deselectBare : (l.foldl deselectBare n).tree = n.tree :=
  (Reselected.foldl reselected_deselectBare l n).tree

theorem isSelected_foldl_deselectBare (hb : ∀ r ∈ l, r.entry.scopedId ≠ b) :
    (l.foldl deselectBare n).isSelected b = n.isSelected b := by
  induction l generalizing n with
  | nil => rfl
  | cons r rest ih =>
    obtain ⟨hr, hrest⟩ := List.forall_mem_cons.mp hb
    exact (ih hrest).trans (isSelected_deselectBare hr)

theorem selects_foldl_deselectBare (hx : n.tree.get? x = some e)
    (hne : ∀ r ∈ l, r.entry.scopedId ≠ e.scopedId) :
    (l.foldl deselectBare n).selects x = n.selects x := by
  rw [selects_eq hx, selects_eq (tree_foldl_deselectBare ▸ hx), isSelected_foldl_deselectBare hne]

/-- What is selected below an entry is decided by what stands there. -/
theorem hasSelectedBelow_congr (h : n.tree.Sound config) (ha : n.tree.get? a = some e)
    (htree : m.tree = n.tree) (hsame : ∀ y d, n.tree.get? y = some d → y ≠ a →
      a ∈ n.tree.skeleton.line y → m.selects y = n.selects y) :
    m.hasSelectedBelow a = n.hasSelectedBelow a := by
  rw [hasSelectedBelow_eq, hasSelectedBelow_eq, htree, Bool.eq_iff_iff, List.any_eq_true,
    List.any_eq_true]
  refine exists_congr fun y => and_congr_right fun hy => ?_
  obtain ⟨⟨d, hd⟩, hne, hline⟩ := (h.mem_descendants ha).mp hy
  rw [hsame y d hd hne hline]

section Settled

variable (h : n.tree.Settled config T) (hlast : n.tree.lastCategory < 2 ^ 63)

include h hlast

theorem selects_deselectBare (hr : n.tree.get? r.handle = some r.entry)
    (hcat : r.entry.isCategory = true) (hy : n.tree.get? y = some d) (hne : y ≠ r.handle) :
    (n.deselectBare r).selects y = n.selects y := by
  rw [selects_eq hy, selects_eq ((reselected_deselectBare n r).tree ▸ hy),
    isSelected_deselectBare]
  exact fun hid => hne (h.eq_of_category_id hlast hr hcat hy hid.symm)

omit h hlast in
theorem selects_deselectBare_self (hr : n.tree.get? r.handle = some r.entry) :
    (n.deselectBare r).selects r.handle =
      (n.selects r.handle && n.hasSelectedBelow r.handle) := by
  obtain ⟨heq, hsome⟩ | ⟨heq, hnone⟩ := deselectBare_cases n r
  · rw [heq, hsome, Bool.and_true]
  · rw [heq, hnone, Bool.and_false, selects_eq (n := n.deselectEntry _) hr,
      isSelected_deselectEntry, if_pos rfl]

/-- A category of the list stays selected exactly if something below it does. -/
theorem selects_foldl_deselectBare_mem
    (hl : ∀ r ∈ l, n.tree.get? r.handle = some r.entry ∧ r.entry.isCategory = true)
    (horder : l.Pairwise fun r q => r.handle ∉ n.tree.skeleton.line q.handle) (hr : r ∈ l) :
    (l.foldl deselectBare n).selects r.handle =
      (n.selects r.handle && (l.foldl deselectBare n).hasSelectedBelow r.handle) := by
  induction l generalizing n with
  | nil => exact absurd hr List.not_mem_nil
  | cons q rest ih =>
    obtain ⟨⟨hq, hqcat⟩, hrest⟩ := List.forall_mem_cons.mp hl
    obtain ⟨hlater, horder⟩ := List.pairwise_cons.mp horder
    have htree := (reselected_deselectBare n q).tree
    rw [List.foldl_cons]
    rcases List.mem_cons.mp hr with rfl | hr
    · have hkept : ∀ {y d}, n.tree.get? y = some d → r.handle ∈ n.tree.skeleton.line y →
          (rest.foldl deselectBare (n.deselectBare r)).selects y =
            (n.deselectBare r).selects y := by
        intro y d hy hline
        refine selects_foldl_deselectBare (htree ▸ hy) fun q hq hid => hlater q hq ?_
        obtain ⟨hqe, hcat⟩ := hrest q hq
        rw [← h.eq_of_category_id hlast hqe hcat hy hid.symm]
        exact hline
      have hbelow : (rest.foldl deselectBare (n.deselectBare r)).hasSelectedBelow r.handle =
          n.hasSelectedBelow r.handle := by
        refine hasSelectedBelow_congr h.sound hq (tree_foldl_deselectBare.trans htree) ?_
        intro y d hy hne hline
        exact (hkept hy hline).trans (selects_deselectBare h hlast hq hqcat hy hne)
      rw [hkept hq Skeleton.self_mem_line, hbelow, selects_deselectBare_self hq]
    · have hne : r.handle ≠ q.handle := fun heq =>
        hlater r hr (heq ▸ Skeleton.self_mem_line)
      rw [ih (htree.symm ▸ h) (htree.symm ▸ hlast) (htree.symm ▸ hrest) (htree.symm ▸ horder) hr,
        selects_deselectBare h hlast hq hqcat (hrest r hr).1 hne]

end Settled

/-- Taking categories out selects nothing. -/
theorem isSelected_of_foldl_deselectBare (hb : (l.foldl deselectBare n).isSelected b = true) :
    n.isSelected b = true := by
  induction l generalizing n with
  | nil => exact hb
  | cons r rest ih =>
    have hstep := ih hb
    obtain ⟨heq, -⟩ | ⟨heq, -⟩ := deselectBare_cases n r
    · rwa [heq] at hstep
    · rw [heq, isSelected_deselectEntry] at hstep
      split at hstep
      · cases hstep
      · exact hstep

theorem deselect_eq (n : Navigator) (s : ScopedId) :
    n.deselect s true = (ancestors n.tree s).foldl deselectBare (n.deselectEntry s) := if_pos rfl

theorem reselected_deselect (n : Navigator) (s : ScopedId) : n.Reselected (n.deselect s true) := by
  rw [deselect_eq]
  exact .trans ⟨_, rfl⟩ (.foldl reselected_deselectBare _ _)

/-- What is still selected was selected before and is not the id itself. -/
theorem isSelected_of_deselect (hb : (n.deselect s true).isSelected b = true) :
    n.isSelected b = true ∧ b ≠ s := by
  rw [deselect_eq] at hb
  have hbefore := isSelected_of_foldl_deselectBare hb
  rw [isSelected_deselectEntry] at hbefore
  split at hbefore
  · cases hbefore
  · next hne => exact ⟨hbefore, Ne.symm hne⟩

theorem isSelected_deselect_self (n : Navigator) (s : ScopedId) :
    (n.deselect s true).isSelected s = false :=
  Bool.eq_false_iff.mpr fun hs => (isSelected_of_deselect hs).2 rfl

/-- A category below the root stands above a placement of an id. -/
def AbovePlacement (n : Navigator) (s : ScopedId) (a : EntryId) : Prop :=
  a ≠ Tree.root ∧ ∃ p ∈ n.tree.placementsOf s, n.above p a = true

theorem mem_ancestors_spec (h : n.tree.Sound config) (hr : r ∈ ancestors n.tree s) :
    n.tree.get? r.handle = some r.entry ∧ r.entry.isCategory = true ∧
      n.AbovePlacement s r.handle := by
  obtain ⟨hof, hroot, p, hp, hline⟩ := (mem_ancestors h).mp hr
  obtain ⟨pe, hpe, -⟩ := h.mem_placementsOf.mp hp
  have habove := (above_eq_true_iff h hpe).mpr hline
  obtain ⟨d, hd, hcat⟩ := exists_category_of_above h hpe habove
  obtain rfl := Option.some.inj (hof.entry.symm.trans hd)
  exact ⟨hd, hcat, hroot, p, hp, habove⟩

theorem AbovePlacement.exists_mem (h : n.tree.Sound config) (ha : n.AbovePlacement s a) :
    ∃ r ∈ ancestors n.tree s, r.handle = a := by
  obtain ⟨hroot, p, hp, habove⟩ := ha
  obtain ⟨pe, hpe, -⟩ := h.mem_placementsOf.mp hp
  obtain ⟨d, hd, -⟩ := exists_category_of_above h hpe habove
  exact ⟨⟨a, (n.tree.level? a).getD 0, d⟩, (mem_ancestors h).mpr
    ⟨⟨hd, rfl⟩, hroot, p, hp, (above_eq_true_iff h hpe).mp habove⟩, rfl⟩

/-- Ids other than that one and those of the categories above it are left alone. -/
theorem isSelected_deselect_of_ne (h : n.tree.Sound config) (hb : b ≠ s)
    (hne : ∀ a e, n.AbovePlacement s a → n.tree.get? a = some e → e.scopedId ≠ b) :
    (n.deselect s true).isSelected b = n.isSelected b := by
  rw [deselect_eq, isSelected_foldl_deselectBare, isSelected_deselectEntry, if_neg hb.symm]
  intro r hr
  obtain ⟨hentry, -, habove⟩ := mem_ancestors_spec h hr
  exact hne _ _ habove hentry

/-- Each category above a placement keeps its selection exactly if something below does. -/
theorem selects_deselect (h : n.tree.Settled config T) (hlast : n.tree.lastCategory < 2 ^ 63)
    (ha : n.AbovePlacement s a) : (n.deselect s true).selects a = true ↔
      n.selects a = true ∧ ∃ y, n.above y a = true ∧ (n.deselect s true).selects y = true := by
  obtain ⟨r, hr, rfl⟩ := ha.exists_mem h.sound
  obtain ⟨hentry, hcat, -, p, hp, habove⟩ := mem_ancestors_spec h.sound hr
  obtain ⟨pe, hpe, hid⟩ := h.sound.mem_placementsOf.mp hp
  have htree := (reselected_deselect n s).tree
  have hne : s ≠ r.entry.scopedId := fun heq =>
    ((above_eq_true_iff h.sound hpe).mp habove).2
      (h.eq_of_category_id hlast hentry hcat hpe (hid.trans heq)).symm
  have hbefore : (n.deselectEntry s).selects r.handle = n.selects r.handle := by
    rw [selects_eq (n := n.deselectEntry s) hentry, selects_eq hentry, isSelected_deselectEntry,
      if_neg hne]
  have hstep := selects_foldl_deselectBare_mem (n := n.deselectEntry s) h hlast
    (fun q hq => ⟨(mem_ancestors_spec h.sound hq).1, (mem_ancestors_spec h.sound hq).2.1⟩)
    (pairwise_ancestors h.sound) hr
  rw [← show n.deselect s true = _ from deselect_eq n s, hbefore] at hstep
  rw [hstep, Bool.and_eq_true, hasSelectedBelow_eq_true_iff (htree ▸ h.sound) (htree ▸ hentry)]
  simp only [above, htree]

end Navigator

end CategorizedIndex
