import CategorizedIndex.Proofs.Integrity
import CategorizedIndex.Proofs.Shape.Descent

/-! # What the check of the index proves

The check of integrity looks at every list of placements and adds up their lengths. Only
a document may not be listed twice, so where it passes nothing is listed that is no entry
or has another id, and documents are listed once at most; but the list of a category may
make up for entries that are in no list. Without such a category the index is exact.
-/
namespace CategorizedIndex.Tree

variable {t : Tree} {strict : Bool} {s : ScopedId} {ids : List EntryId}

/-- The placements of every id are the entries with that id, each listed once. -/
def ExactlyPlaced (t : Tree) : Prop :=
  ∀ s, (t.placementsOf s).Nodup ∧
    ∀ x, x ∈ t.placementsOf s ↔ ∃ e, t.get? x = some e ∧ e.scopedId = s

theorem nodup_eraseDups (l : List EntryId) : l.eraseDups.Nodup := by
  cases l with
  | nil => exact List.nodup_nil
  | cons a rest =>
    rw [List.eraseDups_cons]
    refine List.nodup_cons.mpr ⟨fun ha => ?_, nodup_eraseDups (rest.filter fun b => !b == a)⟩
    simpa using (List.mem_filter.mp (List.mem_eraseDups.mp ha)).2
termination_by l.length
decreasing_by exact Nat.lt_succ_of_le (List.length_filter_le _ _)

theorem nodup_of_length_eraseDups {l : List EntryId} (h : l.length ≤ l.eraseDups.length) :
    l.Nodup := by
  have hsub : l.eraseDups ⊆ l := fun a ha => List.mem_eraseDups.mp ha
  have hperm := (List.subperm_of_subset (nodup_eraseDups l) hsub).perm_of_length_le h
  exact hperm.nodup_iff.mp (nodup_eraseDups l)

theorem checkPlacements_eq_ok_inv (h : t.checkPlacements s ids = .ok ()) :
    (∀ x ∈ ids, ∃ e, t.get? x = some e ∧ e.scopedId = s) ∧
      (s.isCategory = false → ids.Nodup) := by
  rw [checkPlacements_eq] at h
  simp only [Except.bind_eq_ok, Except.forM_eq_ok, require_eq_ok_iff, exists_const] at h
  obtain ⟨-, hlisted, hparents⟩ := h
  refine ⟨fun x hx => ?_, fun hs => ?_⟩
  · simpa [Option.any_eq_true] using hlisted x hx
  · rw [hs, Bool.false_or, beq_iff_eq] at hparents
    have hlength := List.length_filterMap_le (fun x => (t.get? x).bind (·.parent)) ids
    have hn := nodup_of_length_eraseDups (hlength.trans_eq hparents.symm)
    rw [eraseDups_of_nodup hn] at hparents
    have hall := List.filterMap_length_eq_length.mp hparents
    refine List.Pairwise.imp_of_mem (fun {x y} hx _ hne hxy => ?_) (List.pairwise_filterMap.mp hn)
    obtain ⟨p, hp⟩ := Option.isSome_iff_exists.mp (hall x hx)
    exact hne p hp p (hxy ▸ hp) rfl

theorem checkIndex_eq_ok_inv (h : t.checkIndex = .ok ()) :
    (∀ s, ∀ x ∈ t.placementsOf s, ∃ e, t.get? x = some e ∧ e.scopedId = s) ∧
      (∀ s, s.isCategory = false → (t.placementsOf s).Nodup) ∧
      (t.placements.toList.flatMap (·.2)).length = t.arena.size := by
  rw [checkIndex_eq] at h
  simp only [Except.bind_eq_ok, Except.forM_eq_ok, require_eq_ok_iff, exists_const,
    beq_iff_eq] at h
  obtain ⟨hlists, hcount⟩ := h
  have hlist : ∀ s, t.placementsOf s = [] ∨ t.checkPlacements s (t.placementsOf s) = .ok () := by
    intro s
    cases hids : t.placements[s]? with
    | none =>
      rw [placementsOf, Std.ExtTreeMap.getD_eq_getD_getElem?, hids]
      exact .inl rfl
    | some ids =>
      rw [placementsOf_eq hids]
      exact .inr (hlists (s, ids) (Std.ExtTreeMap.mem_toList_iff_getElem?_eq_some.mpr hids))
  refine ⟨fun s => ?_, fun s hs => ?_, ?_⟩
  · rcases hlist s with hnil | hpass
    · simp [hnil]
    · exact (checkPlacements_eq_ok_inv hpass).1
  · rcases hlist s with hnil | hpass
    · simp [hnil]
    · exact (checkPlacements_eq_ok_inv hpass).2 hs
  · rw [← hcount, List.length_flatMap, List.sum_eq_foldl, List.foldl_map]

/-- Where the check passes, what is listed under an id are entries with it, documents are
listed once at most, and every entry is listed if no category is listed twice. -/
theorem exactlyPlaced_iff_of_verifyIntegrity (h : t.verifyIntegrity strict = .ok ()) :
    (∀ s, ∀ x ∈ t.placementsOf s, ∃ e, t.get? x = some e ∧ e.scopedId = s) ∧
      (∀ s, s.isCategory = false → (t.placementsOf s).Nodup) ∧
      (t.ExactlyPlaced ↔ ∀ s, s.isCategory = true → (t.placementsOf s).Nodup) := by
  simp only [verifyIntegrity_eq, Except.bind_eq_ok] at h
  obtain ⟨census, -, u, -, v, hindex, -⟩ := h
  obtain ⟨hlisted, hdocuments, hcount⟩ := checkIndex_eq_ok_inv hindex
  refine ⟨hlisted, hdocuments, fun hexact s _ => (hexact s).1, fun hcategories => ?_⟩
  have hn : ∀ s, (t.placementsOf s).Nodup := by
    intro s
    cases hs : s.isCategory with
    | false => exact hdocuments s hs
    | true => exact hcategories s hs
  have hlists : ∀ s ids, t.placements[s]? = some ids →
      ids.Nodup ∧ ∀ x ∈ ids, ∃ e, t.get? x = some e ∧ e.scopedId = s := by
    intro s ids hids
    exact placementsOf_eq hids ▸ ⟨hn s, hlisted s⟩
  refine fun s => ⟨hn s, fun x => ⟨hlisted s x, ?_⟩⟩
  rintro ⟨e, hx, rfl⟩
  have hmem := mem_of_length_eq_size (nodup_listing hlists) (fun y hy => ?_) hcount hx
  · obtain ⟨⟨s, ids⟩, hids, hxids⟩ := List.mem_flatMap.mp hmem
    have hids := Std.ExtTreeMap.mem_toList_iff_getElem?_eq_some.mp hids
    obtain ⟨d, hd, rfl⟩ := (hlists s ids hids).2 x hxids
    obtain rfl := Option.some.inj (hx.symm.trans hd)
    exact placementsOf_eq hids ▸ hxids
  · obtain ⟨⟨s, ids⟩, hids, hy⟩ := List.mem_flatMap.mp hy
    obtain ⟨d, hd, -⟩ :=
      (hlists s ids (Std.ExtTreeMap.mem_toList_iff_getElem?_eq_some.mp hids)).2 y hy
    exact ⟨d, hd⟩

/-- A row that moves between groups. -/
theorem exactlyPlaced_moved_row :
    let t := (Index.grouped.run [.change (Index.filing 1 (.text "a")),
      .change (Index.filing 1 (.text "b"))]).tree
    t.verifyIntegrity true = .ok () ∧ (∀ s, s.isCategory = true → (t.placementsOf s).Nodup) ∧
      t.ExactlyPlaced := by
  intro t
  obtain ⟨T, hsettled, hone⟩ := Index.exists_settled_run Index.build_grouped _
  have hverify : t.verifyIntegrity true = .ok () := hsettled.verifyIntegrity_eq_ok hone
  have hn : ∀ s, s.isCategory = true → (t.placementsOf s).Nodup :=
    fun s _ => (hsettled.sound.pairwise_placementsOf s).imp Nat.ne_of_lt
  exact ⟨hverify, hn, (exactlyPlaced_iff_of_verifyIntegrity hverify).2.2.mpr hn⟩

/-- A tree whose only group is listed twice and whose only row is not listed. -/
def misplaced : Tree :=
  let t := (Index.grouped.run [.change (Index.filing 1 (.text "a"))]).tree
  { t with placements := (t.placements.erase ⟨"desk", 1⟩).insert (.category 1) [1, 1] }

/-- The check passes, although the row cannot be found. -/
theorem verifyIntegrity_misplaced :
    misplaced.verifyIntegrity true = .ok () ∧ misplaced.placementsOf (.category 1) = [1, 1] ∧
      (misplaced.get? 2).map (·.scopedId) = some ⟨"desk", 1⟩ ∧
      misplaced.placementsOf ⟨"desk", 1⟩ = [] ∧ ¬ misplaced.ExactlyPlaced := by
  have hlive : (misplaced.get? 2).map (·.scopedId) = some ⟨"desk", 1⟩ := by decide +kernel
  have hnone : misplaced.placementsOf ⟨"desk", 1⟩ = [] := by decide +kernel
  refine ⟨by decide +kernel, by decide +kernel, hlive, hnone, fun hexact => ?_⟩
  obtain ⟨e, he, hid⟩ := Option.map_eq_some_iff.mp hlive
  have hmem := ((hexact ⟨"desk", 1⟩).2 2).mpr ⟨e, he, hid⟩
  rw [hnone] at hmem
  exact List.not_mem_nil hmem

end CategorizedIndex.Tree
