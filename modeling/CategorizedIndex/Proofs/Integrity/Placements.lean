import CategorizedIndex.Proofs.Integrity.Equations
import CategorizedIndex.Proofs.Tree.Placements

/-! # The index of placements passes its check

On a sound tree the lists of placements divide the arena: every entry is listed once,
under its own scoped id. A document is listed under distinct parents, because siblings
differ by their labels.
-/
namespace CategorizedIndex.Tree

variable {config : Config} {t : Tree} {s : ScopedId} {ids : List EntryId}

theorem eraseDups_of_nodup {l : List EntryId} (h : l.Nodup) : l.eraseDups = l := by
  induction l with
  | nil => rfl
  | cons a rest ih =>
    obtain ⟨ha, hrest⟩ := List.nodup_cons.mp h
    have hfilter : rest.filter (fun b => !b == a) = rest := by
      refine List.filter_eq_self.mpr fun b hb => ?_
      have hne : b ≠ a := fun heq => ha (heq ▸ hb)
      simpa using hne
    rw [List.eraseDups_cons, hfilter, ih hrest]

theorem Sound.mem_listed (h : t.Sound config) (hs : t.placements[s]? = some ids) {x : EntryId} :
    x ∈ ids ↔ ∃ e, t.get? x = some e ∧ e.scopedId = s := by
  rw [← placementsOf_eq hs, h.mem_placementsOf]

theorem Sound.nodup_listed (h : t.Sound config) (hs : t.placements[s]? = some ids) :
    ids.Nodup := by
  rw [← placementsOf_eq hs, h.placements]
  exact Skeleton.nodup_placed _ _ _

/-- Every placement of a document has a parent, and no two have the same. -/
theorem Sound.parents_of_listed (h : t.Sound config) (hs : s.isCategory = false)
    (hids : t.placements[s]? = some ids) :
    (ids.filterMap fun x => (t.get? x).bind (·.parent)).Nodup ∧
      (ids.filterMap fun x => (t.get? x).bind (·.parent)).length = ids.length := by
  constructor
  · refine List.pairwise_filterMap.mpr (List.Pairwise.imp ?_
      (List.pairwise_map.mp (placementsOf_eq hids ▸ h.nodup_parents hs)))
    exact fun hne p hp q hq hpq => hne (hp.trans (hpq ▸ hq.symm))
  · refine List.filterMap_length_eq_length.mpr fun x hx => ?_
    obtain ⟨e, he, rfl⟩ := (h.mem_listed hids).mp hx
    obtain ⟨p, -, hp, -⟩ := h.formed.parent (skeleton_eq_some he)
      (h.formed.ne_root_of_document (skeleton_eq_some he) hs)
    rw [he, Option.bind_some, show e.parent = some p from hp]
    rfl

theorem Sound.checkPlacements_eq_ok (h : t.Sound config) (hids : t.placements[s]? = some ids) :
    t.checkPlacements s ids = .ok () := by
  rw [checkPlacements_eq]
  simp only [Except.bind_eq_ok, Except.forM_eq_ok, require_eq_ok_iff, exists_const]
  refine ⟨?_, fun x hx => ?_, ?_⟩
  · cases ids with
    | nil => exact absurd hids (h.indexed s)
    | cons x rest => rfl
  · obtain ⟨e, he, hes⟩ := (h.mem_listed hids).mp hx
    rw [he, Option.any_some, hes, beq_self_eq_true]
  · cases hs : s.isCategory with
    | true => rfl
    | false =>
      obtain ⟨hn, hlength⟩ := h.parents_of_listed hs hids
      rw [eraseDups_of_nodup hn, hlength, beq_self_eq_true, Bool.false_or]

/-- Lists that hold entries under their own ids have nothing in common. -/
theorem nodup_listing (hlists : ∀ s ids, t.placements[s]? = some ids →
    ids.Nodup ∧ ∀ x ∈ ids, ∃ e, t.get? x = some e ∧ e.scopedId = s) :
    (t.placements.toList.flatMap (·.2)).Nodup := by
  refine List.nodup_flatMap.mpr ⟨fun a ha => ?_, ?_⟩
  · exact (hlists a.1 a.2 (Std.ExtTreeMap.mem_toList_iff_getElem?_eq_some.mp ha)).1
  · refine List.Pairwise.imp_of_mem (fun {a b} ha hb hab x hxa hxb => ?_)
      Std.ExtTreeMap.distinct_keys_toList
    obtain ⟨e, he, hea⟩ :=
      (hlists a.1 a.2 (Std.ExtTreeMap.mem_toList_iff_getElem?_eq_some.mp ha)).2 x hxa
    obtain ⟨d, hd, hdb⟩ :=
      (hlists b.1 b.2 (Std.ExtTreeMap.mem_toList_iff_getElem?_eq_some.mp hb)).2 x hxb
    obtain rfl := Option.some.inj (he.symm.trans hd)
    exact hab (Std.LawfulEqOrd.compare_eq_iff_eq.mpr (hea.symm.trans hdb))

theorem Sound.length_listed (h : t.Sound config) :
    (t.placements.toList.flatMap (·.2)).length = t.arena.size := by
  have hn : (t.placements.toList.flatMap (·.2)).Nodup :=
    nodup_listing fun s ids hids => ⟨h.nodup_listed hids, fun x hx => (h.mem_listed hids).mp hx⟩
  have hset : (t.placements.toList.flatMap (·.2)).toFinset = t.arena.keys.toFinset := by
    ext x
    rw [List.mem_toFinset, List.mem_toFinset, List.mem_flatMap, mem_keys_iff]
    constructor
    · rintro ⟨a, ha, hx⟩
      obtain ⟨e, he, -⟩ :=
        (h.mem_listed (Std.ExtTreeMap.mem_toList_iff_getElem?_eq_some.mp ha)).mp hx
      exact ⟨e, he⟩
    · rintro ⟨e, he⟩
      have hin : e.scopedId ∈ t.placements := h.mem_placements.mpr ⟨x, e, he, rfl⟩
      obtain ⟨l, hlist⟩ := Option.isSome_iff_exists.mp
        (Std.ExtTreeMap.mem_iff_isSome_getElem?.mp hin)
      exact ⟨(e.scopedId, l), Std.ExtTreeMap.mem_toList_iff_getElem?_eq_some.mpr hlist,
        (h.mem_listed hlist).mpr ⟨e, he, rfl⟩⟩
  rw [← List.toFinset_card_of_nodup hn, hset,
    List.toFinset_card_of_nodup Std.ExtTreeMap.nodup_keys, Std.ExtTreeMap.length_keys]

theorem Sound.checkIndex_eq_ok (h : t.Sound config) : t.checkIndex = .ok () := by
  have hsum : t.placements.toList.foldl (fun count a => count + a.2.length) 0 = t.arena.size := by
    rw [← h.length_listed, List.length_flatMap, List.sum_eq_foldl, List.foldl_map]
  rw [checkIndex_eq]
  simp only [Except.bind_eq_ok, Except.forM_eq_ok, require_eq_ok_iff, exists_const, hsum,
    beq_self_eq_true, and_true]
  intro a ha
  exact h.checkPlacements_eq_ok (Std.ExtTreeMap.mem_toList_iff_getElem?_eq_some.mp ha)

end CategorizedIndex.Tree
