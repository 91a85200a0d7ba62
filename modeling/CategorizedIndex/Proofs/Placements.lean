import CategorizedIndex.Proofs.Reachable
import CategorizedIndex.Proofs.Tree.Groups
import CategorizedIndex.Proofs.Tree.Placements

/-! # The index of placements is exact

In every index that is reached the placements of an id are the entries with that id, oldest
first, and no category stands twice below one parent, so a chain of steps leads to one
category at most.
-/
namespace CategorizedIndex

/-- Ids find their entries, and steps find their categories. -/
structure Tree.Indexed (t : Tree) : Prop where
  listed : ∀ s x, x ∈ t.placementsOf s ↔ ∃ e, t.get? x = some e ∧ e.scopedId = s
  ascending : ∀ s, (t.placementsOf s).Pairwise (· < ·)
  /-- No id is indexed without an entry. -/
  used : ∀ s, s ∈ t.placements ↔ ∃ x e, t.get? x = some e ∧ e.scopedId = s
  /-- The placements of a document have different parents. -/
  parents : ∀ s : ScopedId, s.isCategory = false →
    ((t.placementsOf s).map fun x => (t.get? x).bind (·.parent)).Nodup
  /-- Category children of one parent differ by their column or their value. -/
  distinct : ∀ {x y d e}, t.get? x = some d → t.get? y = some e → d.isCategory = true →
    e.isCategory = true → d.parent = e.parent → d.key.step.Equal e.key.step → x = y
  chains : ∀ {chain x y}, t.Denotes chain x → t.Denotes chain y → x = y
  /-- A category has one placement as long as category numbers last. -/
  single : t.lastCategory < 2 ^ 63 → ∀ {x e}, t.get? x = some e → e.isCategory = true →
    t.placementsOf e.scopedId = [x]
  root : t.lastCategory < 2 ^ 63 → t.placementsOf .root = [root]

theorem Tree.Settled.indexed {config : Config} {t : Tree} {T : Table}
    (h : t.Settled config T) : t.Indexed where
  listed _ _ := h.sound.mem_placementsOf
  ascending s := h.sound.pairwise_placementsOf s
  used _ := h.sound.mem_placements
  parents _ hs := h.sound.nodup_parents hs
  distinct hx hy hdcat hecat hparent hstep :=
    eq_of_step_equal h.sound.formed hx hy hdcat hecat hparent hstep
  chains hx hy := hx.eq h.sound.formed hy
  single hlast _ _ hx hcat := h.placementsOf_category hlast hx hcat
  root hlast := h.placementsOf_root hlast

namespace Index

variable {name : String} {config : Config} {filter : Option RowFilter} {x : Index}

theorem indexed_run (hbuild : build name config filter = .ok x) (operations : List Operation) :
    (x.run operations).tree.Indexed := by
  obtain ⟨T, hsettled, -⟩ := exists_settled_run hbuild operations
  exact hsettled.indexed

/-- A row that stands in two groups, one of which it shares with another row. -/
theorem indexed_shared_group :
    let row : Addition := ⟨"unid",
      (∅ : ColumnValues).insert "group" (.list [.text "a", .text "b"])⟩
    let operations : List Operation := [.change ((Change.empty "desk").add 1 row),
      .change (filing 2 (.text "b"))]
    let t := (grouped.run operations).tree
    build "grouped" grouped.config none = .ok grouped ∧ t.Indexed ∧
      (t.placementsOf ⟨"desk", 1⟩).length = 2 ∧ t.arena.size = 6 := by
  intro row operations t
  exact ⟨build_grouped, indexed_run build_grouped operations, by decide +kernel,
    by decide +kernel⟩

end Index

end CategorizedIndex
