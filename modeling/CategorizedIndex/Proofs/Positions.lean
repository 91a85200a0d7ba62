import CategorizedIndex.Proofs.Reachable
import CategorizedIndex.Proofs.Tree.EntryAt
import CategorizedIndex.Proofs.Tree.Placements

/-! # Positions name entries

In every index that is reached the entries below the root and their positions name each
other: an entry stands at its position and nothing stands anywhere else. Positions order
the entries as the tree does, and a search shows the placements of an id in that order.
-/
namespace CategorizedIndex

/-- Positions and the entries below the root are in bijection, in the order of the tree. -/
structure Tree.Positioned (t : Tree) : Prop where
  /-- An entry stands at its position, which has no rank below one. -/
  stands : ∀ {x e}, t.get? x = some e → x ≠ root → t.position x ≠ [] ∧
    (∀ k ∈ t.position x, 1 ≤ k) ∧ t.entryAt? (t.position x) = some x
  /-- What stands at a list of ranks is an entry with that position. -/
  named : ∀ {p x}, t.entryAt? p = some x →
    (∃ e, t.get? x = some e) ∧ x ≠ root ∧ t.position x = p
  nothing : t.entryAt? [] = none
  zero : ∀ {p}, 0 ∈ p → t.entryAt? p = none
  beyond : ∀ {x e k rest}, t.get? x = some e → e.children.size < k →
    t.entryAt? (t.position x ++ k :: rest) = none
  document : ∀ {x e rest}, t.get? x = some e → e.isCategory = false → rest ≠ [] →
    t.entryAt? (t.position x ++ rest) = none
  /-- Only a list that leaves the tree at some rank leads nowhere. -/
  leaves : ∀ {p}, p ≠ [] → t.entryAt? p = none → ∃ x e k rest, t.get? x = some e ∧
    p = t.position x ++ k :: rest ∧ (k = 0 ∨ e.children.size < k)
  level : ∀ {x e}, t.get? x = some e → x ≠ root →
    t.level? x = some ((t.position x).length - 1)
  mem_preorder : ∀ x, x ∈ t.preorder ↔ (∃ e, t.get? x = some e) ∧ x ≠ root
  /-- Positions compare as the places in depth-first order do. -/
  order : ∀ {i j : Nat} {x y}, t.preorder[i]? = some x → t.preorder[j]? = some y →
    Position.cmp (t.position x) (t.position y) = compare i j
  /-- A search shows each placement below the root once. -/
  found : ∀ s, ((t.find s).map some).Perm
    (((t.placementsOf s).filter fun x => x != root).map t.snapshot?)
  placed : ∀ s, ∀ snapshot ∈ t.find s, ∃ x ∈ t.placementsOf s,
    t.snapshot? x = some snapshot ∧ snapshot.position = t.position x
  ascending : ∀ s, (t.find s).Pairwise fun a b => Position.cmp a.position b.position = .lt
  unknown : ∀ s, (∀ x e, t.get? x = some e → e.scopedId ≠ s) → t.find s = []
  /-- The root is not shown. Category ids differ from its own while their numbers last. -/
  hidden : t.lastCategory < 2 ^ 63 → t.find .root = []

namespace Tree.Settled

variable {config : Config} {t : Tree} {T : Table} {x y : EntryId} {e : Entry}

theorem level?_eq_length (h : t.Settled config T) (hx : t.get? x = some e) (hr : x ≠ root) :
    t.level? x = some ((t.position x).length - 1) := by
  have hlength := h.sound.length_position hx
  have hpos : 0 < (t.position x).length :=
    List.length_pos_iff.mpr (mt (h.sound.position_eq_nil_iff hx).mp hr)
  rw [level?_eq h.sound.formed hx, if_pos (by omega)]
  exact congrArg some (by omega)

theorem cmp_position_eq_compare (h : t.Settled config T) {i j : Nat}
    (hi : t.preorder[i]? = some x) (hj : t.preorder[j]? = some y) :
    Position.cmp (t.position x) (t.position y) = compare i j := by
  refine cmp_eq_compare_of_pairwise (List.pairwise_map.mpr h.pairwise_preorder) ?_ ?_
  · rw [List.getElem?_map, hi, Option.map_some]
  · rw [List.getElem?_map, hj, Option.map_some]

theorem positioned (h : t.Settled config T) : t.Positioned where
  stands {x e} hx hr :=
    ⟨mt (h.sound.position_eq_nil_iff hx).mp hr, fun _ hk => h.one_le_of_mem_position hx hk,
      h.entryAt?_eq_some_iff.mpr ⟨⟨e, hx⟩, hr, rfl⟩⟩
  named hx := h.entryAt?_eq_some_iff.mp hx
  nothing := rfl
  zero hp := h.entryAt?_of_zero_mem hp
  beyond hx hk := h.entryAt?_of_size_lt hx hk
  document hx hdoc hrest := h.entryAt?_of_document hx hdoc hrest
  leaves {p} hp hnone := by
    obtain ⟨re, hre, -⟩ := exists_root h.sound.formed
    rw [entryAt?, if_neg hp] at hnone
    obtain ⟨x, e, k, rest, hx, hsplit, hk⟩ := h.exists_of_descend?_eq_none hre hnone
    rw [position_root h.sound.formed, List.nil_append] at hsplit
    exact ⟨x, e, k, rest, hx, hsplit, hk⟩
  level hx hr := h.level?_eq_length hx hr
  mem_preorder _ := h.sound.mem_preorder
  order hi hj := h.cmp_position_eq_compare hi hj
  found s := h.sound.map_find_perm s
  placed s snapshot hmem := by
    obtain ⟨x, hx, hsnapshot⟩ := mem_find.mp hmem
    obtain ⟨_, -, -, -, -, hposition⟩ := snapshot?_eq_some hsnapshot
    exact ⟨x, hx, hsnapshot, hposition⟩
  ascending s := h.pairwise_find_lt s
  unknown s hs := by
    refine h.sound.find_eq_nil_of_placementsOf fun x hx => ?_
    rw [h.sound.placementsOf_eq_nil_iff.mpr hs] at hx
    exact absurd hx List.not_mem_nil
  hidden hlast := by
    refine h.sound.find_eq_nil_of_placementsOf fun x hx => ?_
    rw [h.placementsOf_root hlast] at hx
    exact List.mem_singleton.mp hx

end Tree.Settled

namespace Index

variable {name : String} {config : Config} {filter : Option RowFilter} {x : Index}

theorem positioned_run (hbuild : build name config filter = .ok x)
    (operations : List Operation) : (x.run operations).tree.Positioned := by
  obtain ⟨T, hsettled, -⟩ := exists_settled_run hbuild operations
  exact hsettled.positioned

/-- A row that left its group made the next group the first. -/
theorem positioned_moved_row :
    let operations : List Operation := [.change (filing 1 (.text "a\\b")),
      .change (filing 2 (.text "c")), .change (filing 1 (.text "c\\d"))]
    let t := (grouped.run operations).tree
    build "grouped" grouped.config none = .ok grouped ∧ t.Positioned ∧
      t.preorder.map t.position = [[1], [1, 1], [1, 1, 1], [1, 2]] ∧
      t.entryAt? [1, 1, 1] = t.preorder[2]? := by
  intro operations t
  exact ⟨build_grouped, positioned_run build_grouped operations, by decide +kernel,
    by decide +kernel⟩

end Index

end CategorizedIndex
