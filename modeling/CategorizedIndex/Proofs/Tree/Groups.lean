import CategorizedIndex.Proofs.SiblingValues
import CategorizedIndex.Proofs.Tree.Position

/-! # Chains of steps

A category is known by the steps that lead to it from the root, each a column and a value.
Values count as equal when they compare as equal. Siblings differ by their steps in this
sense, so a chain of steps denotes at most one category, and a document stands at most once
at its end.
-/
namespace CategorizedIndex

namespace CategoryStep

variable {config : Config} {a b c : CategoryStep}

/-- One column and values that compare as equal; null is equal to null. -/
def Equal (a b : CategoryStep) : Prop :=
  a.column = b.column ∧ Slot.compareValues a.value b.value = .eq

theorem equal_iff : a.Equal b ↔ a.column = b.column ∧ a.value = b.value :=
  and_congr_right fun _ => Std.LawfulEqCmp.compare_eq_iff_eq

theorem Equal.refl (a : CategoryStep) : a.Equal a := equal_iff.mpr ⟨rfl, rfl⟩

theorem Fits.eq_of_equal (ha : a.Fits config) (hb : b.Fits config) (hac : a.Equal c)
    (hbc : b.Equal c) : a = b := by
  obtain ⟨hcolumn, hvalue⟩ := equal_iff.mp hac
  obtain ⟨hcolumn', hvalue'⟩ := equal_iff.mp hbc
  exact ha.eq hb (hcolumn.trans hcolumn'.symm) (hvalue.trans hvalue'.symm)

theorem eq_of_forall₂_equal {as bs cs : CategoryPath} (ha : ∀ step ∈ as, step.Fits config)
    (hb : ∀ step ∈ bs, step.Fits config) (hac : List.Forall₂ Equal as cs)
    (hbc : List.Forall₂ Equal bs cs) : as = bs := by
  induction hac generalizing bs with
  | nil =>
    cases hbc
    rfl
  | cons hstep _ ih =>
    cases hbc with
    | cons hstep' hrest' =>
      obtain ⟨hfirst, hrest⟩ := List.forall_mem_cons.mp ha
      obtain ⟨hfirst', hfollowing⟩ := List.forall_mem_cons.mp hb
      rw [hfirst.eq_of_equal hfirst' hstep hstep', ih hrest hfollowing hrest']

end CategoryStep

namespace Tree

/-- The steps of the categories above an entry, and its own if it is a category. -/
def groups (t : Tree) (x : EntryId) : CategoryPath :=
  (((t.lineage x).filter fun (_, e) => e.isCategory && !e.isRoot).map
    fun (_, e) => e.key.step).reverse

/-- The entry is a category, and the steps that lead to it are those of the chain. -/
def Denotes (t : Tree) (chain : CategoryPath) (x : EntryId) : Prop :=
  (∃ e, t.get? x = some e ∧ e.isCategory = true) ∧
    List.Forall₂ CategoryStep.Equal (t.groups x) chain

variable {config : Config} {t : Tree} {n p x y : EntryId} {d e : Entry}

theorem groups_root (h : t.skeleton.WellFormed config n) : t.groups root = [] := by
  obtain ⟨e, he, -, -, hp⟩ := exists_root h
  rw [groups, lineage_root h he]
  simp [Entry.isRoot, hp]

theorem groups_child (h : t.skeleton.WellFormed config n) (hx : t.get? x = some e)
    (hp : e.parent = some p) :
    t.groups x = t.groups p ++ if e.isCategory then [e.key.step] else [] := by
  rw [groups, lineage_child h hx hp]
  cases hcat : e.isCategory <;> simp [hcat, Entry.isRoot, hp, groups]

theorem label_of_category (hcat : e.isCategory = true) : e.core.label = .category e.key.step := by
  rw [Core.label, if_pos (show e.core.isCategory = true from hcat)]
  rfl

theorem address_eq_groups (h : t.skeleton.WellFormed config n) (hx : t.get? x = some e)
    (hcat : e.isCategory = true) : t.skeleton.address x = (t.groups x).map .category := by
  have hreached := h.reached (skeleton_eq_some hx)
  induction hreached generalizing e with
  | root => rw [h.address_root, groups_root h, List.map_nil]
  | @child x c p hc hp _ ih =>
    obtain rfl := Option.some.inj ((skeleton_eq_some hx).symm.trans hc)
    obtain ⟨pc, hpc, hpcat⟩ := h.parent_category hc hp
    obtain ⟨pe, hpe, rfl⟩ := skeleton_eq_some_iff.mp hpc
    rw [h.address_eq hc hp, groups_child h hx hp, if_pos hcat, ih hpe hpcat, List.map_append,
      label_of_category hcat, List.map_singleton]

theorem documentAddress_groups (h : t.skeleton.WellFormed config n) (hx : t.get? x = some e)
    (hcat : e.isCategory = false) :
    t.skeleton.address x = Skeleton.documentAddress (t.groups x) e.scopedId := by
  have hc := skeleton_eq_some hx
  obtain ⟨p, pc, hp, -, hpc, hpcat⟩ := h.parent hc (h.ne_root_of_document hc hcat)
  obtain ⟨pe, hpe, rfl⟩ := skeleton_eq_some_iff.mp hpc
  rw [h.address_eq hc hp, groups_child h hx hp, if_neg (by rw [hcat]; decide), List.append_nil,
    address_eq_groups h hpe hpcat, Core.label_document (c := e.core) hcat]
  rfl

theorem denotes_groups (hx : t.get? x = some e) (hcat : e.isCategory = true) :
    t.Denotes (t.groups x) x :=
  ⟨⟨e, hx, hcat⟩, List.forall₂_same.mpr fun step _ => .refl step⟩

theorem fits_step (h : t.skeleton.WellFormed config n) (hx : t.get? x = some e)
    (hr : x ≠ root) (hcat : e.isCategory = true) : e.key.step.Fits config :=
  ((h.fits (skeleton_eq_some hx) hr).key_of_label (label_of_category hcat)).1

theorem fits_groups (h : t.skeleton.WellFormed config n) (hx : t.get? x = some e) :
    ∀ step ∈ t.groups x, step.Fits config := by
  have hreached := h.reached (skeleton_eq_some hx)
  clear hx
  induction hreached with
  | root =>
    rw [groups_root h]
    exact fun step hstep => absurd hstep List.not_mem_nil
  | @child x c p hc hp _ ih =>
    obtain ⟨d, hd, rfl⟩ := skeleton_eq_some_iff.mp hc
    rw [groups_child h hd hp]
    refine List.forall_mem_append.mpr ⟨ih, fun step hstep => ?_⟩
    split at hstep
    · next hcat =>
      rw [List.mem_singleton.mp hstep]
      exact fits_step h hd (h.ne_root hc hp) hcat
    · exact absurd hstep List.not_mem_nil

theorem eq_of_step_equal (h : t.skeleton.WellFormed config n) (hx : t.get? x = some d)
    (hy : t.get? y = some e) (hdcat : d.isCategory = true) (hecat : e.isCategory = true)
    (hparent : d.parent = e.parent) (hstep : d.key.step.Equal e.key.step) : x = y := by
  have hroot := h.root_iff (skeleton_eq_some hx)
  have hroot' := h.root_iff (skeleton_eq_some hy)
  by_cases hr : x = root
  · exact hr.trans (hroot'.mpr (hparent.symm.trans (hroot.mp hr))).symm
  · have hr' : y ≠ root := fun hy => hr (hroot.mpr (hparent.trans (hroot'.mp hy)))
    have hsame := (fits_step h hx hr hdcat).eq_of_equal (fits_step h hy hr' hecat) hstep (.refl _)
    refine h.distinct (skeleton_eq_some hx) (skeleton_eq_some hy) hr hr' hparent ?_
    rw [label_of_category hdcat, label_of_category hecat, hsame]

/-- A chain denotes at most one category. -/
theorem Denotes.eq (h : t.skeleton.WellFormed config n) {chain : CategoryPath}
    (hx : t.Denotes chain x) (hy : t.Denotes chain y) : x = y := by
  obtain ⟨⟨d, hd, hdcat⟩, hdchain⟩ := hx
  obtain ⟨⟨e, he, hecat⟩, hechain⟩ := hy
  refine h.address_injective (skeleton_eq_some hd) (skeleton_eq_some he) ?_
  rw [address_eq_groups h hd hdcat, address_eq_groups h he hecat,
    CategoryStep.eq_of_forall₂_equal (fits_groups h hd) (fits_groups h he) hdchain hechain]

end Tree

end CategorizedIndex
