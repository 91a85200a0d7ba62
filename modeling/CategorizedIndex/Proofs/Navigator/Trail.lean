import CategorizedIndex.Navigator.Basic
import CategorizedIndex.Proofs.Tree.Preorder

/-! # The trail of a navigator

The trail is the depth-first order of a tree, restricted to the entries that are visible
together with everything above them and whose parents are all expanded.
-/
namespace CategorizedIndex

namespace Tree

variable {config : Config} {t : Tree} {x a : EntryId} {e d : Entry}

theorem Sound.mem_lineage (h : t.Sound config) (hx : t.get? x = some e) :
    (a, d) ∈ t.lineage x ↔ a ∈ t.skeleton.line x ∧ t.get? a = some d := by
  rw [lineage_eq h.formed hx, List.mem_filterMap]
  constructor
  · rintro ⟨b, hb, hpair⟩
    obtain ⟨d', hd', heq⟩ := Option.map_eq_some_iff.mp hpair
    obtain ⟨rfl, rfl⟩ := Prod.mk.inj heq
    exact ⟨hb, hd'⟩
  · rintro ⟨ha, hd⟩
    exact ⟨a, ha, by rw [hd, Option.map_some]⟩

theorem Sound.isRoot_iff (h : t.Sound config) (hx : t.get? x = some e) :
    e.isRoot = true ↔ x = root := by
  rw [h.formed.root_iff (skeleton_eq_some hx), Entry.isRoot, Option.isNone_iff_eq_none]
  rfl

end Tree

namespace Navigator

variable {config : Config} {T : Table} {n : Navigator} {id p x : EntryId} {e d : Entry}

/-- Whether an entry and everything above it below the root is visible, and everything
above it is expanded. -/
def onTrail (n : Navigator) (id : EntryId) : Bool :=
  (n.tree.lineage id).all fun (a, e) =>
    e.isRoot || (n.isVisible a && (a == id || n.state.expansion.isExpanded e.scopedId))

/-- The entries that a walk goes through, in depth-first order. -/
def trail (n : Navigator) : List EntryId := n.tree.preorder.filter n.onTrail

theorem isVisible_eq_true_iff (hx : n.tree.get? x = some e) :
    n.isVisible x = true ↔ ∀ visible, n.state.visibility = some visible → visible e = true := by
  rw [isVisible, hx]
  cases n.state.visibility with
  | none => simp
  | some visible => simp

theorem isOpen_eq_true_iff (hx : n.tree.get? x = some e) :
    n.isOpen x = true ↔ e.isCategory = true ∧ n.state.expansion.isExpanded e.scopedId = true := by
  rw [isOpen, hx, Option.any_some, Bool.and_eq_true]

theorem isOpen_root (h : n.tree.Sound config) : n.isOpen Tree.root = true := by
  obtain ⟨e, he, hid, hcat, -⟩ := Tree.exists_root h.formed
  rw [isOpen_eq_true_iff he, ExpansionSet.isExpanded, hid]
  exact ⟨hcat, rfl⟩

theorem onTrail_eq_true_iff (h : n.tree.Sound config) (hx : n.tree.get? x = some e) :
    n.onTrail x = true ↔ ∀ a d, (a, d) ∈ n.tree.lineage x → a ≠ Tree.root →
      n.isVisible a = true ∧ (a = x ∨ n.state.expansion.isExpanded d.scopedId = true) := by
  rw [onTrail, List.all_eq_true, Prod.forall]
  refine forall₃_congr fun a d hmem => ?_
  have hroot := h.isRoot_iff ((h.mem_lineage hx).mp hmem).2
  simp only [Bool.or_eq_true, Bool.and_eq_true, beq_iff_eq, hroot, or_iff_not_imp_left, ne_eq]

theorem onTrail_root (h : n.tree.Sound config) : n.onTrail Tree.root = true := by
  obtain ⟨e, he, -⟩ := Tree.exists_root h.formed
  rw [onTrail_eq_true_iff h he]
  intro a d hmem hr
  rw [Tree.lineage_root h.formed he, List.mem_singleton] at hmem
  exact absurd (Prod.mk.inj hmem).1 hr

/-- The trail holds every entry but the root that is visible with everything above it and
has only expanded entries above it. -/
theorem mem_trail (h : n.tree.Sound config) :
    x ∈ n.trail ↔ x ≠ Tree.root ∧ ∃ e, n.tree.get? x = some e ∧
      ∀ a d, (a, d) ∈ n.tree.lineage x → a ≠ Tree.root →
        (∀ visible, n.state.visibility = some visible → visible d = true) ∧
          (a = x ∨ n.state.expansion.isExpanded d.scopedId = true) := by
  have hon : ∀ {e}, n.tree.get? x = some e → (n.onTrail x = true ↔
      ∀ a d, (a, d) ∈ n.tree.lineage x → a ≠ Tree.root →
        (∀ visible, n.state.visibility = some visible → visible d = true) ∧
          (a = x ∨ n.state.expansion.isExpanded d.scopedId = true)) := by
    intro e he
    rw [onTrail_eq_true_iff h he]
    refine forall₃_congr fun a d hmem => ?_
    rw [isVisible_eq_true_iff ((h.mem_lineage he).mp hmem).2]
  rw [trail, List.mem_filter, h.mem_preorder]
  constructor
  · rintro ⟨⟨⟨e, he⟩, hr⟩, htrail⟩
    exact ⟨hr, e, he, (hon he).mp htrail⟩
  · rintro ⟨hr, e, he, hall⟩
    exact ⟨⟨⟨e, he⟩, hr⟩, (hon he).mpr hall⟩

theorem pairwise_trail (h : n.tree.Settled config T) : n.trail.Pairwise fun x y =>
    Position.cmp (n.tree.position x) (n.tree.position y) = .lt :=
  h.pairwise_preorder.sublist List.filter_sublist

theorem nodup_trail (h : n.tree.Settled config T) : n.trail.Nodup :=
  h.nodup_preorder.sublist List.filter_sublist

end Navigator

end CategorizedIndex
