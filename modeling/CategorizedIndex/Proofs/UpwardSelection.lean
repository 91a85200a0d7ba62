import CategorizedIndex.Proofs.Navigator.Screen
import CategorizedIndex.Proofs.Navigator.Selected
import CategorizedIndex.Proofs.Reachable

/-! # What is selected is selected upwards

With parents, every choice leaves a selection in which the categories above an entry are
selected whenever the entry is. A document that is deselected takes a category with it only
if nothing below the category is left, and then nothing below the category is in the way.
Deselecting a category is another matter, since its own entries stay selected.
-/
namespace CategorizedIndex.Navigator

/-- With an entry every category above it is selected, up to the top level. -/
def UpwardClosed (n : Navigator) : Prop :=
  ∀ y a, n.selects y = true → n.above y a = true → a ≠ Tree.root → n.selects a = true

variable {config : Config} {T : Table} {n m : Navigator} {s : ScopedId}

theorem UpwardClosed.congr (hn : n.UpwardClosed) (htree : m.tree = n.tree)
    (hselection : m.state.selection = n.state.selection) : m.UpwardClosed := by
  rw [UpwardClosed, selects_congr htree hselection, above_congr htree]
  exact hn

theorem upwardClosed_of_none (hn : n.state.selection = .none) : n.UpwardClosed := by
  intro y a hy
  obtain ⟨e, he⟩ := exists_of_selects hy
  have hnone : n.isSelected e.scopedId = false := by
    rw [isSelected, hn]
    exact ExceptionSet.contains_all false e.scopedId
  rw [selects_eq he, hnone] at hy
  cases hy

section Step

variable (h : n.tree.Settled config T) (hlast : n.tree.lastCategory < 2 ^ 63)
  (hn : n.UpwardClosed)

include h hlast hn

theorem UpwardClosed.select (s : ScopedId) : (n.select s true).UpwardClosed := by
  intro y a hy habove hroot
  have htree := (reselected_select n s).tree
  obtain ⟨e, he⟩ := exists_of_selects hy
  rw [selects_eq he, isSelected_select] at hy
  rw [above_congr htree] at habove
  rw [htree] at he
  obtain ⟨d, hd, -⟩ := exists_category_of_above h.sound he habove
  rw [selects_eq (htree.symm ▸ hd), isSelected_select]
  have hadded : n.AbovePlacement s a → ∃ r ∈ ancestors n.tree s, r.entry.scopedId = d.scopedId := by
    intro ha
    obtain ⟨r, hr, rfl⟩ := ha.exists_mem h.sound
    obtain ⟨hentry, -⟩ := mem_ancestors_spec h.sound hr
    exact ⟨r, hr, congrArg Entry.scopedId (Option.some.inj (hentry.symm.trans hd))⟩
  rcases hy with hold | hself | ⟨r, hr, hid⟩
  case inl =>
    rw [← selects_eq he] at hold
    rw [← selects_eq hd]
    exact Or.inl (hn y a hold habove hroot)
  case inr.inl =>
    have hplaced := h.sound.mem_placementsOf.mpr ⟨e, he, hself.symm⟩
    exact Or.inr (Or.inr (hadded ⟨hroot, y, hplaced, habove⟩))
  case inr.inr =>
    obtain ⟨hentry, hcat, -, p, hp, hrp⟩ := mem_ancestors_spec h.sound hr
    obtain ⟨pe, hpe, -⟩ := h.sound.mem_placementsOf.mp hp
    obtain rfl := h.eq_of_category_id hlast hentry hcat he hid.symm
    exact Or.inr (Or.inr (hadded ⟨hroot, p, hp, above_trans h.sound hpe hrp habove⟩))

theorem UpwardClosed.deselect (hs : s.isCategory = false) : (n.deselect s true).UpwardClosed := by
  intro y a hy habove hroot
  have htree := (reselected_deselect n s).tree
  obtain ⟨e, he⟩ := exists_of_selects hy
  rw [above_congr htree] at habove
  obtain ⟨d, hd, hcat⟩ := exists_category_of_above h.sound (htree ▸ he) habove
  have hbefore : n.selects a = true := by
    refine hn y a ?_ habove hroot
    rw [selects_eq he] at hy
    rw [selects_eq (htree ▸ he)]
    exact (isSelected_of_deselect hy).1
  by_cases ha : n.AbovePlacement s a
  · exact (selects_deselect h hlast ha).mpr ⟨hbefore, y, habove, hy⟩
  · rw [selects_eq (htree.symm ▸ hd), isSelected_deselect_of_ne h.sound, ← selects_eq hd]
    · exact hbefore
    · rintro rfl
      exact Bool.noConfusion (hcat.symm.trans hs)
    · intro b c hb hc hid
      exact ha (h.eq_of_category_id hlast hd hcat hc hid ▸ hb)

theorem UpwardClosed.choose (choice : Choice) :
    (n.choose choice).tree = n.tree ∧ (n.choose choice).UpwardClosed := by
  cases choice with
  | select s => exact ⟨(reselected_select n s).tree, hn.select h hlast s⟩
  | selectCurrent =>
    rw [Navigator.choose, selectCurrent?]
    cases n.entryHere? with
    | none => exact ⟨rfl, hn⟩
    | some e => exact ⟨(reselected_select n _).tree, hn.select h hlast e.scopedId⟩
  | deselect s hs => exact ⟨(reselected_deselect n s).tree, hn.deselect h hlast hs⟩
  | selectAll =>
    refine ⟨rfl, fun y a hy habove _ => ?_⟩
    obtain ⟨e, he⟩ := exists_of_selects hy
    obtain ⟨d, hd, -⟩ := exists_category_of_above h.sound he habove
    rw [selects_eq (n := n.choose .selectAll) hd]
    exact ExceptionSet.contains_all true d.scopedId
  | deselectAll => exact ⟨rfl, upwardClosed_of_none rfl⟩
  | go move hmove =>
    rw [Navigator.choose]
    cases hm : n.move? move with
    | none => exact ⟨rfl, hn⟩
    | some m =>
      obtain ⟨stack, rfl, -⟩ | ⟨state, heq, -⟩ := move?_moved hm
      · exact ⟨rfl, hn.congr rfl rfl⟩
      · exact absurd heq (hmove state)
  | look expansion visibility => exact ⟨rfl, hn.congr rfl rfl⟩

theorem UpwardClosed.choices (choices : List Choice) :
    (choices.foldl Navigator.choose n).tree = n.tree ∧
      (choices.foldl Navigator.choose n).UpwardClosed := by
  induction choices generalizing n with
  | nil => exact ⟨rfl, hn⟩
  | cons choice rest ih =>
    obtain ⟨htree, hclosed⟩ := hn.choose h hlast choice
    obtain ⟨htree', hclosed'⟩ := ih (htree.symm ▸ h) (htree.symm ▸ hlast) hclosed
    exact ⟨htree'.trans htree, hclosed'⟩

end Step

variable {name : String} {filter : Option RowFilter} {x : Index}

/-- In every index that is reached, as long as category numbers last, and wherever a navigator
stands: choices that begin with nothing selected never leave an entry selected below a category
that is not. -/
theorem upwardClosed_choices (hbuild : Index.build name config filter = .ok x)
    (operations : List Operation) (hlast : (x.run operations).tree.lastCategory < 2 ^ 63)
    (hn : n.tree = (x.run operations).tree) (hnone : n.state.selection = .none)
    (choices : List Choice) :
    let m := choices.foldl choose n
    m.tree = n.tree ∧ m.UpwardClosed := by
  obtain ⟨T, hsettled, -⟩ := Index.exists_settled_run hbuild operations
  rw [← hn] at hsettled hlast
  exact (upwardClosed_of_none hnone).choices hsettled hlast choices

/-- Of two rows in nested groups one is deselected and selected again by its cursor. -/
theorem upwardClosed_nested_rows :
    let t := (Index.grouped.run [.change (Index.filing 1 (.text "a\\b")),
      .change (Index.filing 2 (.text "a"))]).tree
    let n := start t (.start .expanded)
    let choices : List Choice := [.selectAll, .deselect ⟨"desk", 1⟩ (by decide),
      .go .last (fun _ => Move.noConfusion), .deselect ⟨"desk", 2⟩ (by decide), .selectCurrent,
      .select ⟨"desk", 1⟩]
    let m := choices.foldl choose n
    Index.build "grouped" Index.grouped.config none = .ok Index.grouped ∧
      t.lastCategory < 2 ^ 63 ∧ n.tree = t ∧ n.state.selection = .none ∧
      (t.lineage 3).map (·.1) = [3, 2, 1, Tree.root] ∧
      m.tree = t ∧ m.UpwardClosed ∧ m.selects 3 = true ∧ m.selects 2 = true ∧
      m.selects 1 = true := by
  intro t n choices m
  have hlast : t.lastCategory < 2 ^ 63 := by decide +kernel
  have hline : (t.lineage 3).map (·.1) = [3, 2, 1, Tree.root] := by decide +kernel
  obtain ⟨htree, hclosed⟩ : m.tree = t ∧ m.UpwardClosed :=
    upwardClosed_choices Index.build_grouped _ hlast rfl rfl choices
  have hrow : m.selects 3 = true := by
    have hfound : (t.get? 3).map (·.scopedId) = some ⟨"desk", 1⟩ := by decide +kernel
    obtain ⟨e, he, hid⟩ := Option.map_eq_some_iff.mp hfound
    rw [selects_eq (htree ▸ he)]
    exact isSelected_select.mpr (Or.inr (Or.inl hid.symm))
  have habove : m.above 3 2 = true ∧ m.above 3 1 = true := by
    rw [above, above, htree]
    decide +kernel
  exact ⟨Index.build_grouped, hlast, rfl, rfl, hline, htree, hclosed, hrow,
    hclosed 3 2 hrow habove.1 (by decide), hclosed 3 1 hrow habove.2 (by decide)⟩

end CategorizedIndex.Navigator
