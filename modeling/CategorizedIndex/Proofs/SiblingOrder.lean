import CategorizedIndex.Proofs.Reachable
import CategorizedIndex.Proofs.StrictOrder
import CategorizedIndex.Proofs.Tree.EntryAt

/-! # The order of siblings in strict indexes

Siblings of one section and one column declare the same directions, and in a strict index
they have one kind of value at every position. So the strict comparison, which turns down
mixed kinds, mixed directions and open bounds, answers for any two of them, near or far, and
its answer is that of their ranks.
-/
namespace CategorizedIndex

namespace Tree.Settled

variable {config : Config} {t : Tree} {T : Table} {p : EntryId} {parent : Entry}

theorem kind_eq_of_children (h : t.Settled config T) (hone : T.OneKind) {x y : EntryId}
    {c d : Core} (hx : t.skeleton x = some c) (hy : t.skeleton y = some d)
    (hxp : c.parent = some p) (hyp : d.parent = some p)
    (hsection : c.key.isCategory = d.key.isCategory) (hcolumn : c.key.column = d.key.column)
    {i : Nat} {v w : Scalar} (hv : c.key.slots[i]?.bind (·.scalar?) = some v)
    (hw : d.key.slots[i]?.bind (·.scalar?) = some w) : v.kind = w.kind := by
  have hF := h.sound.formed
  obtain ⟨place, hplace, hplace'⟩ := (hF.fits hx (hF.ne_root hx hxp)).exists_place
    (hF.fits hy (hF.ne_root hy hyp)) hsection hcolumn hv hw
  exact hone _ place v w (h.holds_of_child hx hxp hplace) (h.holds_of_child hy hyp hplace')

theorem tryCmp_children (h : t.Settled config T) (hone : T.OneKind)
    (hp : t.get? p = some parent) {a b : SortKey × EntryId} (ha : a ∈ parent.children.toList)
    (hb : b ∈ parent.children.toList) : a.1.tryCmp b.1 = .ok (a.1.cmp b.1) := by
  have hF := h.sound.formed
  obtain ⟨k, x⟩ := a
  obtain ⟨l, y⟩ := b
  obtain ⟨c, hx, hxp, rfl⟩ := (h.sound.children hp k x).mp ha
  obtain ⟨d, hy, hyp, rfl⟩ := (h.sound.children hp l y).mp hb
  have hcfits := hF.fits hx (hF.ne_root hx hxp)
  have hdfits := hF.fits hy (hF.ne_root hy hyp)
  exact SortKey.tryCmp_eq_ok hcfits.follows hdfits.follows hcfits.stored hdfits.stored
    fun hsection hcolumn _ _ _ hv hw =>
      h.kind_eq_of_children hone hx hy hxp hyp hsection hcolumn hv hw

theorem tryCmp_atRank? (h : t.Settled config T) (hone : T.OneKind)
    (hp : t.get? p = some parent) {i j : Nat} {a b : SortKey × EntryId}
    (ha : parent.children.atRank? i = some a) (hb : parent.children.atRank? j = some b) :
    a.1.tryCmp b.1 = .ok (compare i j) := by
  obtain ⟨k, x⟩ := a
  obtain ⟨l, y⟩ := b
  obtain ⟨e, hx, hxp, rfl, rfl⟩ := (h.atRank?_eq_some_iff hp).mp ha
  obtain ⟨d, hy, hyp, rfl, rfl⟩ := (h.atRank?_eq_some_iff hp).mp hb
  have hxmem := (h.sound.children hp e.key x).mpr ⟨e.core, skeleton_eq_some hx, hxp, rfl⟩
  have hymem := (h.sound.children hp d.key y).mpr ⟨d.core, skeleton_eq_some hy, hyp, rfl⟩
  rw [h.tryCmp_children hone hp hxmem hymem, h.cmp_key_eq_compare hx hy hxp hyp]

end Tree.Settled

namespace Index

variable {name : String} {config : Config} {filter : Option RowFilter} {x : Index}

/-- On every strict index that is reached, the children of an entry stand at their ranks under
their keys, and the strict comparison of any two of them succeeds and answers as their ranks
do. -/
theorem tryCmp_siblings (hbuild : build name config filter = .ok x)
    (hstrict : config.strict = true) (operations : List Operation) :
    let t := (x.run operations).tree
    ∀ p parent, t.get? p = some parent →
      (∀ i key y, parent.children.atRank? i = some (key, y) ↔
        ∃ e, t.get? y = some e ∧ e.parent = some p ∧ e.key = key ∧ e.rank = i) ∧
      ∀ i j a b, parent.children.atRank? i = some a → parent.children.atRank? j = some b →
        a.1.tryCmp b.1 = .ok (compare i j) := by
  intro t p parent hp
  obtain ⟨T, hsettled, hone⟩ := exists_settled_run hbuild operations
  exact ⟨fun i key y => hsettled.atRank?_eq_some_iff hp,
    fun i j a b ha hb => hsettled.tryCmp_atRank? (hone hstrict) hp ha hb⟩

/-- A strict index by group, and in each group by kind from the last to the first. -/
def twiceGrouped : Index where
  name := "twice"
  config := ⟨'\\', .expanded, true,
    [⟨"Group", "group", true, some .ascending, none, none⟩,
      ⟨"Kind", "kind", true, some .descending, none, none⟩]⟩
  filter := none
  tree := .empty

theorem build_twiceGrouped : build "twice" twiceGrouped.config none = .ok twiceGrouped :=
  build_of_faultless (by decide +kernel)

/-- A row of a group and a kind. -/
def kindOf (group kind : String) : Addition :=
  ⟨"unid", ((∅ : ColumnValues).insert "group" (.single (.text group))).insert "kind"
    (.single (.text kind))⟩

/-- A group inside a group stands before the kinds there, which descend. -/
theorem tryCmp_group_beside_kinds :
    let change := (((Change.empty "desk").add 1 (kindOf "a\\b" "x")).add 2 (kindOf "a" "y")).add 3
      (kindOf "a" "z")
    let t := (twiceGrouped.run [.change change]).tree
    build "twice" twiceGrouped.config none = .ok twiceGrouped ∧
      twiceGrouped.config.strict = true ∧
      ∃ parent a b c, t.get? 1 = some parent ∧ parent.children.atRank? 1 = some a ∧
        parent.children.atRank? 2 = some b ∧ parent.children.atRank? 3 = some c ∧
        a.1.column ≠ c.1.column ∧ a.1.tryCmp c.1 = .ok .lt ∧ c.1.tryCmp b.1 = .ok .gt := by
  intro change t
  have hranks : ((t.get? 1).bind fun parent => (parent.children.atRank? 1).bind fun a =>
      (parent.children.atRank? 2).bind fun b => (parent.children.atRank? 3).map fun c =>
        a.1.column != c.1.column) = some true := by decide +kernel
  obtain ⟨parent, hparent, hranks⟩ := Option.bind_eq_some_iff.mp hranks
  obtain ⟨a, ha, hranks⟩ := Option.bind_eq_some_iff.mp hranks
  obtain ⟨b, hb, hranks⟩ := Option.bind_eq_some_iff.mp hranks
  obtain ⟨c, hc, hcolumns⟩ := Option.map_eq_some_iff.mp hranks
  have hcmp := (tryCmp_siblings build_twiceGrouped rfl [.change change] 1 parent hparent).2
  exact ⟨build_twiceGrouped, rfl, parent, a, b, c, hparent, ha, hb, hc, bne_iff_ne.mp hcolumns,
    hcmp 1 3 a c ha hc, hcmp 3 2 c b hc hb⟩

end Index

end CategorizedIndex
