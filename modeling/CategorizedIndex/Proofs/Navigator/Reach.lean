import CategorizedIndex.Proofs.Navigator.Trail

/-! # What a walk can get to

A cursor may stand where no walk would have led it: in a collapsed category, or below an
entry that the filter turned down since. Going on from there, the entries above it are
neither looked at nor entered again, and the filter and the expansion decide about all
others. From an entry of the trail this is the trail itself.

An entry is in reach exactly if it counts as visible and its parent is in reach and
entered, so what is in reach falls into the stretches of siblings: an entry, followed by
what is in reach below it.
-/
namespace CategorizedIndex

namespace Skeleton.WellFormed

variable {config : Config} {F : Skeleton} {n a b p q x : EntryId} {c ca cb : Core}

theorem mem_tail_line_iff (h : F.WellFormed config n) (hx : F x = some c) :
    a ∈ (F.line x).tail ↔ a ∈ F.line x ∧ a ≠ x := by
  obtain ⟨rest, hrest⟩ : ∃ rest, F.line x = x :: rest := by
    unfold line
    exact ⟨_, rfl⟩
  have hnodup := h.nodup_line hx
  rw [hrest, List.nodup_cons] at hnodup
  rw [hrest, List.tail_cons, List.mem_cons]
  constructor
  · intro ha
    exact ⟨Or.inr ha, fun hax => hnodup.1 (hax ▸ ha)⟩
  · rintro ⟨rfl | ha, hne⟩
    · exact absurd rfl hne
    · exact ha

theorem mem_line_of_parent (h : F.WellFormed config n) (hx : F x = some c) (ha : a ∈ F.line x)
    (hca : F a = some ca) (hp : ca.parent = some q) : q ∈ F.line x ∧ q ≠ x := by
  refine ⟨h.mem_line_trans hx ha ?_, fun hqx => ?_⟩
  · rw [h.line_eq hca hp]
    exact List.mem_cons_of_mem _ self_mem_line
  · exact absurd (mem_line_le ha) (Nat.not_le.mpr (hqx ▸ h.parent_lt hca hp))

theorem eq_of_mem_line (h : F.WellFormed config n) (hx : F x = some c) (ha : a ∈ F.line x)
    (hb : b ∈ F.line x) (hca : F a = some ca) (hcb : F b = some cb)
    (hparent : ca.parent = cb.parent) : a = b := by
  have hreached := h.reached hx
  clear hx
  induction hreached with
  | root =>
    rw [h.line_root, List.mem_singleton] at ha hb
    exact ha.trans hb.symm
  | @child x c p hc hp _ ih =>
    obtain ⟨pc, hpc, -⟩ := h.parent_category hc hp
    rw [h.line_eq hc hp] at ha hb
    rcases List.mem_cons.mp ha with hax | ha' <;> rcases List.mem_cons.mp hb with hbx | hb'
    · exact hax.trans hbx.symm
    · obtain rfl := Option.some.inj ((hax ▸ hc).symm.trans hca)
      exact absurd rfl (h.mem_line_of_parent hpc hb' hcb (hparent.symm.trans hp)).2
    · obtain rfl := Option.some.inj ((hbx ▸ hc).symm.trans hcb)
      exact absurd rfl (h.mem_line_of_parent hpc ha' hca (hparent.trans hp)).2
    · exact ih ha' hb'

end Skeleton.WellFormed

theorem Tree.Sound.mem_tail_lineage {config : Config} {t : Tree} {x a : EntryId} {e d : Entry}
    (h : t.Sound config) (hx : t.get? x = some e) :
    (a, d) ∈ (t.lineage x).tail ↔ (a, d) ∈ t.lineage x ∧ a ≠ x := by
  have hcore := skeleton_eq_some hx
  have hids : (t.lineage x).tail.map (·.1) = (t.skeleton.line x).tail := by
    rw [List.map_tail, lineage_ids h.formed hx]
  constructor
  · intro hmem
    have ha : a ∈ (t.skeleton.line x).tail := hids ▸ List.mem_map_of_mem hmem
    exact ⟨List.mem_of_mem_tail hmem, ((h.formed.mem_tail_line_iff hcore).mp ha).2⟩
  · rintro ⟨hmem, hax⟩
    have ha := (h.formed.mem_tail_line_iff hcore).mpr ⟨((h.mem_lineage hx).mp hmem).1, hax⟩
    rw [← hids] at ha
    obtain ⟨⟨_, d'⟩, hd', rfl⟩ := List.mem_map.mp ha
    have heq := ((h.mem_lineage hx).mp (List.mem_of_mem_tail hd')).2
    rw [((h.mem_lineage hx).mp hmem).2] at heq
    exact Option.some.inj heq ▸ hd'

namespace Navigator

variable {config : Config} {T : Table} {n : Navigator} {a id p q x : EntryId} {d e pe : Entry}

/-- Whether an entry stands above another. -/
def above (n : Navigator) (p a : EntryId) : Bool := (n.tree.lineage p).tail.any (·.1 == a)

/-- Whether steps from `p` can lead to an entry. What is on the way up from `p` counts as
visible, and what is above it as expanded. -/
def inReach (n : Navigator) (p x : EntryId) : Bool :=
  (n.tree.lineage x).all fun (a, e) =>
    (a == p || n.above p a || n.isVisible a) &&
      (a == x || n.above p a || n.state.expansion.isExpanded e.scopedId)

/-- What is in reach, in depth-first order. -/
def reach (n : Navigator) (p : EntryId) : List EntryId := n.tree.preorder.filter (n.inReach p)

/-- What is in reach below an entry. -/
def inside (n : Navigator) (p id : EntryId) : List EntryId :=
  (n.tree.descendants id).filter (n.inReach p)

def stretch (n : Navigator) (p id : EntryId) : List EntryId :=
  (id :: n.tree.descendants id).filter (n.inReach p)

theorem reach_eq (n : Navigator) (p : EntryId) : n.reach p = n.inside p Tree.root := rfl

theorem above_eq_true_iff (h : n.tree.Sound config) (hp : n.tree.get? p = some pe) :
    n.above p a = true ↔ a ∈ n.tree.skeleton.line p ∧ a ≠ p := by
  rw [← h.formed.mem_tail_line_iff (Tree.skeleton_eq_some hp), ← Tree.lineage_ids h.formed hp,
    ← List.map_tail, above, List.any_eq_true, List.mem_map]
  simp only [beq_iff_eq]

section Viewpoint

variable (h : n.tree.Sound config) (hp : n.tree.get? p = some pe)

include h hp

theorem inReach_eq_true_iff : n.inReach p x = true ↔ ∀ a d, (a, d) ∈ n.tree.lineage x →
    (a ∈ n.tree.skeleton.line p ∨ n.isVisible a = true) ∧
      (a = x ∨ (a ∈ n.tree.skeleton.line p ∧ a ≠ p) ∨
        n.state.expansion.isExpanded d.scopedId = true) := by
  have hway : ∀ a, a = p ∨ (a ∈ n.tree.skeleton.line p ∧ a ≠ p) ↔
      a ∈ n.tree.skeleton.line p := by
    intro a
    by_cases hap : a = p
    · simp [hap, Skeleton.self_mem_line]
    · simp [hap]
  rw [inReach, List.all_eq_true, Prod.forall]
  simp only [Bool.and_eq_true, Bool.or_eq_true, beq_iff_eq, above_eq_true_iff h hp, hway, or_assoc]

/-- An entry is in reach exactly if it counts as visible in a parent that is in reach and
entered. -/
theorem inReach_child (hx : n.tree.get? x = some e) (hq : e.parent = some q) :
    n.inReach p x = true ↔ (x ∈ n.tree.skeleton.line p ∨ n.isVisible x = true) ∧
      n.inReach p q = true ∧
        ((q ∈ n.tree.skeleton.line p ∧ q ≠ p) ∨ n.isOpen q = true) := by
  have hcore := Tree.skeleton_eq_some hx
  obtain ⟨core, hqc, hcategory⟩ := h.formed.parent_category hcore hq
  obtain ⟨d, hd, rfl⟩ := Tree.skeleton_eq_some_iff.mp hqc
  have hself : (q, d) ∈ n.tree.lineage q := (h.mem_lineage hd).mpr ⟨Skeleton.self_mem_line, hd⟩
  have hlineage := Tree.lineage_child h.formed hx hq
  have htail : (n.tree.lineage x).tail = n.tree.lineage q := congrArg List.tail hlineage
  have hne : ∀ {a d}, (a, d) ∈ n.tree.lineage q → a ≠ x := fun hmem =>
    ((h.mem_tail_lineage hx).mp (htail ▸ hmem)).2
  rw [inReach_eq_true_iff h hp, inReach_eq_true_iff h hp, isOpen_eq_true_iff hd, hlineage]
  constructor
  · intro hall
    have habove : ∀ a d, (a, d) ∈ n.tree.lineage q →
        (a ∈ n.tree.skeleton.line p ∨ n.isVisible a = true) ∧
          ((a ∈ n.tree.skeleton.line p ∧ a ≠ p) ∨
            n.state.expansion.isExpanded d.scopedId = true) := by
      intro a d hmem
      obtain ⟨hseen, hentered⟩ := hall a d (List.mem_cons_of_mem _ hmem)
      exact ⟨hseen, hentered.resolve_left (hne hmem)⟩
    exact ⟨(hall x e List.mem_cons_self).1, fun a d hmem => (habove a d hmem).imp_right Or.inr,
      (habove q d hself).2.imp_right fun hexpanded => ⟨hcategory, hexpanded⟩⟩
  · rintro ⟨hseen, habove, hentered⟩ a d' hmem
    rcases List.mem_cons.mp hmem with heq | hmem
    · obtain ⟨rfl, rfl⟩ := Prod.mk.inj heq
      exact ⟨hseen, Or.inl rfl⟩
    · obtain ⟨hs, rfl | he⟩ := habove a d' hmem
      · obtain rfl := Option.some.inj (((h.mem_lineage hd).mp hmem).2.symm.trans hd)
        exact ⟨hs, Or.inr (hentered.imp_right And.right)⟩
      · exact ⟨hs, Or.inr he⟩

theorem inReach_of_mem_line (ha : a ∈ n.tree.skeleton.line p) : n.inReach p a = true := by
  have hcore := Tree.skeleton_eq_some hp
  obtain ⟨c, hc⟩ := h.formed.exists_of_mem_line hcore ha
  obtain ⟨d, hd, rfl⟩ := Tree.skeleton_eq_some_iff.mp hc
  rw [inReach_eq_true_iff h hp]
  intro b e hmem
  have hb := ((h.mem_lineage hd).mp hmem).1
  have hbp := h.formed.mem_line_trans hcore ha hb
  refine ⟨Or.inl hbp, or_iff_not_imp_left.mpr fun hba => Or.inl ⟨hbp, fun heq => hba ?_⟩⟩
  exact Nat.le_antisymm (Skeleton.mem_line_le hb) (heq ▸ Skeleton.mem_line_le ha)

theorem inReach_root : n.inReach p Tree.root = true :=
  inReach_of_mem_line h hp (h.formed.root_mem_line (Tree.skeleton_eq_some hp))

theorem inReach_eq_onTrail (hon : n.onTrail p = true) (hx : n.tree.get? x = some e) :
    n.inReach p x = n.onTrail x := by
  rw [onTrail_eq_true_iff h hp] at hon
  rw [Bool.eq_iff_iff, inReach_eq_true_iff h hp, onTrail_eq_true_iff h hx]
  refine forall₃_congr fun a d hmem => ?_
  have had := ((h.mem_lineage hx).mp hmem).2
  have hway : a ∈ n.tree.skeleton.line p → a ≠ Tree.root → n.isVisible a = true ∧
      (a = p ∨ n.state.expansion.isExpanded d.scopedId = true) := fun ha hr =>
    hon a d ((h.mem_lineage hp).mpr ⟨ha, had⟩) hr
  constructor
  · rintro ⟨hseen, hentered⟩ hr
    refine ⟨hseen.elim (fun ha => (hway ha hr).1) id, hentered.imp_right fun hentered => ?_⟩
    exact hentered.elim (fun ⟨ha, hne⟩ => (hway ha hr).2.resolve_left hne) id
  · intro hall
    by_cases hr : a = Tree.root
    · subst hr
      have hexpanded := ((isOpen_eq_true_iff had).mp (isOpen_root h)).2
      exact ⟨Or.inl (h.formed.root_mem_line (Tree.skeleton_eq_some hp)), Or.inr (Or.inr hexpanded)⟩
    · exact ⟨Or.inr (hall hr).1, (hall hr).2.imp_right Or.inr⟩

theorem reach_eq_trail (hon : n.onTrail p = true) : n.reach p = n.trail := by
  refine List.filter_congr fun x hx => ?_
  obtain ⟨⟨e, he⟩, -⟩ := h.mem_preorder.mp hx
  exact inReach_eq_onTrail h hp hon he

omit h hp in
theorem stretch_eq (hid : n.inReach p id = true) : n.stretch p id = id :: n.inside p id :=
  List.filter_cons_of_pos hid

omit hp in
theorem inside_eq (hid : n.tree.get? id = some e) :
    n.inside p id = e.children.ids.flatMap (n.stretch p) := by
  rw [inside, h.descendants_eq hid, List.filter_flatMap]
  rfl

theorem stretch_eq_nil (hid : n.tree.get? id = some e) (hoff : n.inReach p id = false) :
    n.stretch p id = [] := by
  refine h.rise (motive := fun id => n.inReach p id = false → n.stretch p id = [])
    (fun {id e} hid ih hoff => ?_) hid hoff
  have hstretch : n.stretch p id = n.inside p id := List.filter_cons_of_neg (by simp [hoff])
  rw [hstretch, inside_eq h hid, List.flatMap_eq_nil_iff]
  intro c hc
  refine ih c hc (Bool.eq_false_iff.mpr fun hon => ?_)
  obtain ⟨d, hd, hparent⟩ := (h.mem_ids hid).mp hc
  rw [((inReach_child h hp hd hparent).mp hon).2.1] at hoff
  cases hoff

theorem inside_eq_nil (hid : n.tree.get? id = some e)
    (hout : ¬(id ∈ n.tree.skeleton.line p ∧ id ≠ p)) (hclosed : n.isOpen id = false) :
    n.inside p id = [] := by
  rw [inside_eq h hid, List.flatMap_eq_nil_iff]
  intro c hc
  obtain ⟨d, hd, hparent⟩ := (h.mem_ids hid).mp hc
  refine stretch_eq_nil h hp hd (Bool.eq_false_iff.mpr fun hon => ?_)
  rw [((inReach_child h hp hd hparent).mp hon).2.2.resolve_left hout] at hclosed
  cases hclosed

theorem stretch_eq_nil_of_hidden (hid : n.tree.get? id = some e) (hx : x ∈ e.children.ids)
    (hout : x ∉ n.tree.skeleton.line p) (hhidden : n.isVisible x = false) :
    n.stretch p x = [] := by
  obtain ⟨d, hd, hparent⟩ := (h.mem_ids hid).mp hx
  refine stretch_eq_nil h hp hd (Bool.eq_false_iff.mpr fun hon => ?_)
  rw [((inReach_child h hp hd hparent).mp hon).1.resolve_left hout] at hhidden
  cases hhidden

end Viewpoint

end Navigator

end CategorizedIndex
