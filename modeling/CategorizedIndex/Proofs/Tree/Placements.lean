import CategorizedIndex.Proofs.Tree.Find

/-! # Placements of an id

The index of placements lists the entries of every id in the order of their creation. While
category numbers last, an id of a category has one placement; the root is listed under its
own id and is never shown.
-/
namespace CategorizedIndex.Tree

variable {config : Config} {t : Tree} {T : Table} {s : ScopedId} {x y : EntryId} {d e : Entry}
  {ids : List EntryId}

theorem placementsOf_eq (h : t.placements[s]? = some ids) : t.placementsOf s = ids := by
  rw [placementsOf, Std.ExtTreeMap.getD_eq_getD_getElem?, h, Option.getD_some]

namespace Sound

theorem mem_placementsOf (h : t.Sound config) :
    x ∈ t.placementsOf s ↔ ∃ e, t.get? x = some e ∧ e.scopedId = s := by
  rw [h.placements, Skeleton.mem_placed h.formed]
  constructor
  · rintro ⟨c, hc, rfl⟩
    obtain ⟨e, he, rfl⟩ := skeleton_eq_some_iff.mp hc
    exact ⟨e, he, rfl⟩
  · rintro ⟨e, he, rfl⟩
    exact ⟨e.core, skeleton_eq_some he, rfl⟩

/-- Placements are listed in the order of their creation. -/
theorem pairwise_placementsOf (h : t.Sound config) (s : ScopedId) :
    (t.placementsOf s).Pairwise (· < ·) := by
  rw [h.placements]
  exact List.pairwise_lt_range.filter _

/-- The ids that are indexed are those of entries. -/
theorem mem_placements (h : t.Sound config) :
    s ∈ t.placements ↔ ∃ x e, t.get? x = some e ∧ e.scopedId = s := by
  rw [Std.ExtTreeMap.mem_iff_isSome_getElem?, Option.isSome_iff_exists]
  constructor
  · rintro ⟨ids, hids⟩
    obtain ⟨x, hx⟩ := List.exists_mem_of_ne_nil ids fun hnil => h.indexed s (hnil ▸ hids)
    exact ⟨x, h.mem_placementsOf.mp (placementsOf_eq hids ▸ hx)⟩
  · rintro ⟨x, e, hx, hs⟩
    have hmem := h.mem_placementsOf.mpr ⟨e, hx, hs⟩
    cases hids : t.placements[s]? with
    | some ids => exact ⟨ids, rfl⟩
    | none =>
      rw [placementsOf, Std.ExtTreeMap.getD_eq_getD_getElem?, hids] at hmem
      exact absurd hmem List.not_mem_nil

theorem eq_of_scopedId_eq (h : t.Sound config) (hx : t.get? x = some d) (hy : t.get? y = some e)
    (hdoc : d.isCategory = false) (hid : d.scopedId = e.scopedId) (hparent : d.parent = e.parent) :
    x = y := by
  have hdoc' : e.core.isCategory = false := (congrArg ScopedId.isCategory hid).symm.trans hdoc
  refine h.formed.distinct (skeleton_eq_some hx) (skeleton_eq_some hy)
    (h.formed.ne_root_of_document (skeleton_eq_some hx) hdoc)
    (h.formed.ne_root_of_document (skeleton_eq_some hy) hdoc') hparent ?_
  rw [Core.label_document (show d.core.isCategory = false from hdoc), Core.label_document hdoc']
  exact congrArg Label.document hid

theorem placementsOf_eq_nil_iff (h : t.Sound config) :
    t.placementsOf s = [] ↔ ∀ x e, t.get? x = some e → e.scopedId ≠ s := by
  rw [List.eq_nil_iff_forall_not_mem]
  refine forall_congr' fun x => ?_
  rw [h.mem_placementsOf, not_exists]
  exact forall_congr' fun e => not_and

theorem nodup_parents (h : t.Sound config) (hs : s.isCategory = false) :
    ((t.placementsOf s).map fun x => (t.get? x).bind (·.parent)).Nodup := by
  refine List.Nodup.map_on (fun x hx y hy hxy => ?_)
    ((h.pairwise_placementsOf s).imp Nat.ne_of_lt)
  obtain ⟨d, hd, rfl⟩ := h.mem_placementsOf.mp hx
  obtain ⟨e, he, hid⟩ := h.mem_placementsOf.mp hy
  rw [hd, he, Option.bind_some, Option.bind_some] at hxy
  exact h.eq_of_scopedId_eq hd he hs hid.symm hxy

theorem snapshot?_root (h : t.Sound config) : t.snapshot? root = none := by
  obtain ⟨e, he, -⟩ := exists_root h.formed
  rw [snapshot?_eq, he, level?_eq h.formed he, h.formed.line_root]
  rfl

/-- A search shows every placement once; only the root is not shown. -/
theorem map_find_perm (h : t.Sound config) (s : ScopedId) :
    ((t.find s).map some).Perm
      (((t.placementsOf s).filter fun x => x != root).map t.snapshot?) := by
  refine ((t.find_perm s).map some).trans (List.Perm.of_eq ?_)
  rw [List.map_filterMap_some_eq_filter_map_isSome, List.filter_map]
  refine congrArg _ (List.filter_congr fun x hx => ?_)
  obtain ⟨e, he, -⟩ := h.mem_placementsOf.mp hx
  by_cases hr : x = root
  · rw [hr, Function.comp_apply, h.snapshot?_root]
    rfl
  · obtain ⟨snapshot, hsnapshot⟩ := exists_snapshot h.formed he hr
    rw [Function.comp_apply, hsnapshot, Option.isSome_some, bne_iff_ne.mpr hr]

theorem find_eq_nil_of_placementsOf (h : t.Sound config)
    (hroot : ∀ x ∈ t.placementsOf s, x = root) : t.find s = [] := by
  refine List.eq_nil_iff_forall_not_mem.mpr fun snapshot hmem => ?_
  obtain ⟨x, hx, hsnapshot⟩ := mem_find.mp hmem
  rw [hroot x hx, h.snapshot?_root] at hsnapshot
  cases hsnapshot

end Sound

theorem Settled.eq_of_category_id (h : t.Settled config T) (hlast : t.lastCategory < 2 ^ 63)
    (hx : t.get? x = some e) (hcat : e.isCategory = true) (hy : t.get? y = some d)
    (hid : d.scopedId = e.scopedId) : y = x :=
  ((h.numbered hlast).2 x y _ _ (skeleton_eq_some hx) (skeleton_eq_some hy) hcat hid.symm).symm

theorem Settled.placementsOf_category (h : t.Settled config T) (hlast : t.lastCategory < 2 ^ 63)
    (hx : t.get? x = some e) (hcat : e.isCategory = true) : t.placementsOf e.scopedId = [x] := by
  have hmem : x ∈ t.placementsOf e.scopedId := h.sound.mem_placementsOf.mpr ⟨e, hx, rfl⟩
  refine List.perm_singleton.mp ((List.perm_ext_iff_of_nodup ?_ (List.nodup_singleton x)).mpr ?_)
  · exact (h.sound.pairwise_placementsOf _).imp Nat.ne_of_lt
  · intro y
    rw [List.mem_singleton]
    refine ⟨fun hy => ?_, fun hyx => hyx ▸ hmem⟩
    obtain ⟨d, hd, hds⟩ := h.sound.mem_placementsOf.mp hy
    exact h.eq_of_category_id hlast hx hcat hd hds

theorem Settled.placementsOf_root (h : t.Settled config T) (hlast : t.lastCategory < 2 ^ 63) :
    t.placementsOf .root = [root] := by
  obtain ⟨e, he, hid, hcat, -⟩ := exists_root h.sound.formed
  exact hid ▸ h.placementsOf_category hlast he hcat

end CategorizedIndex.Tree
