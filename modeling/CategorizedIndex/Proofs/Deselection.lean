import CategorizedIndex.Proofs.Navigator.Selected
import CategorizedIndex.Proofs.Reachable

/-! # Deselecting with parents is exact

An id that is deselected takes those categories above its placements with it that are left
without a selected entry below, and no others. It does not matter which placements share a
category, nor whether the set holds the few ids that are selected or the few that are not.
-/
namespace CategorizedIndex.Navigator

instance (n : Navigator) (s : ScopedId) (a : EntryId) : Decidable (n.AbovePlacement s a) :=
  inferInstanceAs (Decidable (_ ∧ _))

/-- The effect of deselecting an id together with its parents. -/
structure Deselects (s : ScopedId) (n m : Navigator) : Prop where
  self : m.isSelected s = false
  /-- As long as category numbers last, a category above a placement stays selected exactly if
  something below it does. -/
  above : n.tree.lastCategory < 2 ^ 63 → ∀ a, n.AbovePlacement s a →
    (m.selects a = true ↔ n.selects a = true ∧ ∃ y, n.above y a = true ∧ m.selects y = true)
  others : ∀ b, b ≠ s → (∀ a e, n.AbovePlacement s a → n.tree.get? a = some e →
    e.scopedId ≠ b) → m.isSelected b = n.isSelected b
  /-- Nothing but the selection changes. -/
  frame : ∃ selection, m = n.withSelection fun _ => selection

variable {name : String} {config : Config} {filter : Option RowFilter} {x : Index}
  {n : Navigator}

/-- In every index that is reached, wherever a navigator stands and whatever is selected. -/
theorem deselects_deselect (hbuild : Index.build name config filter = .ok x)
    (operations : List Operation) (hn : n.tree = (x.run operations).tree) (s : ScopedId) :
    Deselects s n (n.deselect s true) := by
  obtain ⟨T, hsettled, -⟩ := Index.exists_settled_run hbuild operations
  rw [← hn] at hsettled
  exact ⟨isSelected_deselect_self n s, fun hlast a ha => selects_deselect hsettled hlast ha,
    fun b hb hne => isSelected_deselect_of_ne hsettled.sound hb hne, reselected_deselect n s⟩

/-- The inner group loses its only row and goes, the outer one has another row and stays. -/
theorem deselects_nested_row :
    let t := (Index.grouped.run [.change (Index.filing 1 (.text "a\\b")),
      .change (Index.filing 2 (.text "a"))]).tree
    let n := (start t (.start .expanded)).withSelection (·.selectAll)
    let m := n.deselect ⟨"desk", 1⟩ true
    Index.build "grouped" Index.grouped.config none = .ok Index.grouped ∧
      Deselects ⟨"desk", 1⟩ n m ∧ t.lastCategory < 2 ^ 63 ∧
      n.AbovePlacement ⟨"desk", 1⟩ 1 ∧ n.AbovePlacement ⟨"desk", 1⟩ 2 ∧
      t.preorder.filter n.selects = [1, 2, 3, 4] ∧ t.preorder.filter m.selects = [1, 4] := by
  intro t n m
  have hlist : ancestors n.tree ⟨"desk", 1⟩ =
      ((n.tree.placementsOf ⟨"desk", 1⟩).flatMap (ancestorsOf n.tree)).foldl addAncestor [] :=
    List.mergeSort_of_pairwise (by decide +kernel)
  have hm : t.preorder.filter m.selects = [1, 4] := by
    rw [show m = _ from deselect_eq n _, hlist]
    decide +kernel
  exact ⟨Index.build_grouped, deselects_deselect Index.build_grouped _ rfl ⟨"desk", 1⟩,
    by decide +kernel, by decide +kernel, by decide +kernel, by decide +kernel, hm⟩

end CategorizedIndex.Navigator
