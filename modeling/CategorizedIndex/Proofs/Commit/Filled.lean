import CategorizedIndex.Proofs.Commit.Books
import CategorizedIndex.Proofs.Replay.Pruned

/-! # What a commit prunes

Once the withdrawals and the rows of a batch are done, some categories may be left without a
document. Pruning takes exactly these away, from candidates in any order and with any
repetition, as long as every category that lost its last child is among them. None of them was
created by the batch itself.
-/
namespace CategorizedIndex

namespace Tree

variable {config : Config} {t u v : Tree} {x : EntryId}

/-- Some document stands below the entry. -/
def Bears (t : Tree) (x : EntryId) : Prop :=
  ∃ y e, t.get? y = some e ∧ e.isCategory = false ∧ x ∈ (t.lineage y).map (·.1)

/-- A category below the root under which a later tree has no document. -/
structure Emptied (t u : Tree) (x : EntryId) : Prop where
  ne_root : x ≠ root
  category : ∃ e, t.get? x = some e ∧ e.isCategory = true
  bare : ¬ u.Bears x

theorem bears_iff (h : u.Sound config) : u.Bears x ↔
    ∃ y d, u.skeleton y = some d ∧ d.isCategory = false ∧ x ∈ u.skeleton.line y := by
  constructor
  · rintro ⟨y, e, hy, hdoc, hmem⟩
    rw [lineage_ids h.formed hy] at hmem
    exact ⟨y, e.core, skeleton_eq_some hy, hdoc, hmem⟩
  · rintro ⟨y, d, hd, hdoc, hmem⟩
    obtain ⟨e, hy, rfl⟩ := skeleton_eq_some_iff.mp hd
    refine ⟨y, e, hy, hdoc, ?_⟩
    rwa [lineage_ids h.formed hy]

theorem exists_category_iff : (∃ e, t.get? x = some e ∧ e.isCategory = true) ↔
    ∃ c, t.skeleton x = some c ∧ c.isCategory = true := by
  constructor
  · rintro ⟨e, hx, hcat⟩
    exact ⟨e.core, skeleton_eq_some hx, hcat⟩
  · rintro ⟨c, hc, hcat⟩
    obtain ⟨e, hx, rfl⟩ := skeleton_eq_some_iff.mp hc
    exact ⟨e, hx, hcat⟩

theorem Thinned.gone_iff (h : Thinned config u v) (hu : u.Sound config)
    (hfull : ∀ x, ¬ v.skeleton.Childless x) :
    (u.get? x).isSome = true ∧ v.get? x = none ↔ u.Emptied u x := by
  have hsome : (u.get? x).isSome = true ↔ ∃ c, u.skeleton x = some c := by
    simp [skeleton, Option.isSome_iff_exists]
  rw [hsome, ← skeleton_eq_none_iff]
  constructor
  · rintro ⟨⟨c, hc⟩, hgone⟩
    have hcat : c.isCategory = true := by
      by_contra hdoc
      have hkept := h.trimmed.documents hc (by simpa using hdoc)
      rw [hgone] at hkept
      cases hkept
    refine ⟨fun hroot => ?_, exists_category_iff.mpr ⟨c, hc, hcat⟩, fun hbears => ?_⟩
    · rw [hroot, h.sound.formed.root] at hgone
      cases hgone
    · obtain ⟨y, d, hy, hdoc, hmem⟩ := (bears_iff hu).mp hbears
      have hvy := h.trimmed.documents hy hdoc
      rw [h.trimmed.kept.line_eq h.sound.formed hvy] at hmem
      obtain ⟨b, hb⟩ := h.sound.formed.exists_of_mem_line hvy hmem
      rw [hgone] at hb
      cases hb
  · rintro ⟨hroot, hcategory, hbare⟩
    obtain ⟨c, hc, -⟩ := exists_category_iff.mp hcategory
    refine ⟨⟨c, hc⟩, ?_⟩
    by_contra hleft
    obtain ⟨b, hb⟩ := Option.ne_none_iff_exists'.mp hleft
    obtain ⟨y, d, hy, hdoc, hmem⟩ := h.sound.formed.exists_document hfull hb hroot
    refine hbare ((bears_iff hu).mpr ⟨y, d, h.trimmed.kept y d hy, hdoc, ?_⟩)
    rwa [h.trimmed.kept.line_eq h.sound.formed hy]

end Tree

namespace Tree

open Work

variable {config : Config} {t : Tree} {T : Table} {batch : Batch} {x : EntryId}
  {candidates : List EntryId}

section Filled

variable (h : t.Settled config T) (hb : batch.Fits config)
include h hb

theorem Settled.emptied_filled_iff (hn : (batch.rows.map (·.scopedId)).Nodup) :
    (filled config t batch).tree.Emptied (filled config t batch).tree x ↔
      t.Emptied (filled config t batch).tree x := by
  have hw := h.shows_filled hb
  have hbooked := h.booked_filled hb hn
  constructor
  · rintro ⟨hroot, hcategory, hbare⟩
    refine ⟨hroot, ?_, hbare⟩
    obtain ⟨c, hc, hcat⟩ := exists_category_iff.mp hcategory
    have hold : x < t.nextEntry := by
      by_contra hnew
      obtain ⟨y, d, hy, hdoc, hmem⟩ := hbooked.borne (Nat.not_lt.mp hnew) hc
      exact hbare ((bears_iff hw.sound).mpr ⟨y, d, hy, hdoc, hmem⟩)
    exact exists_category_iff.mpr ⟨c, hbooked.tallied.old hold hc, hcat⟩
  · rintro ⟨hroot, hcategory, hbare⟩
    refine ⟨hroot, ?_, hbare⟩
    obtain ⟨c, hc, hcat⟩ := exists_category_iff.mp hcategory
    exact exists_category_iff.mpr ⟨c, h.keptBut_filled hb x c hc (Or.inl hcat), hcat⟩

theorem Settled.fruitless_iff : Replay.Fruitless t (batch.table T) x ↔
    t.Emptied (filled config t batch).tree x := by
  have hw := h.shows_filled hb
  have hkept := h.keptBut_filled hb
  have hleads : ∀ c, t.skeleton x = some c → c.isCategory = true →
      ((batch.table T).Leads (t.skeleton.address x) ↔ (filled config t batch).tree.Bears x) := by
    intro c hc hcat
    have hx := hkept x c hc (Or.inl hcat)
    rw [bears_iff hw.sound, ← hkept.address_eq h.sound.formed hc hcat]
    constructor
    · rintro ⟨s, placing, path, hrow, hpath, hstart⟩
      obtain ⟨y, d, hy, rfl, haddress⟩ := hw.rows.complete hrow hpath
      refine ⟨y, d, hy, (hw.fits _ _ hrow).1, ?_⟩
      exact (hw.sound.formed.mem_line_iff_prefix hx hy).mpr (haddress ▸ hstart)
    · rintro ⟨y, d, hy, hdoc, hmem⟩
      obtain ⟨placing, path, hrow, hpath, haddress, -⟩ := hw.rows.documents hy hdoc
      exact ⟨_, placing, path, hrow, hpath, haddress ▸ hw.sound.formed.address_prefix hy hmem⟩
  constructor
  · rintro ⟨hroot, ⟨c, hc, hcat⟩, hnot⟩
    exact ⟨hroot, exists_category_iff.mpr ⟨c, hc, hcat⟩, mt (hleads c hc hcat).mpr hnot⟩
  · rintro ⟨hroot, hcategory, hbare⟩
    obtain ⟨c, hc, hcat⟩ := exists_category_iff.mp hcategory
    exact ⟨hroot, ⟨c, hc, hcat⟩, mt (hleads c hc hcat).mp hbare⟩

theorem Settled.thinned_prune_filled
    (hcandidates : ∀ id ∈ (filled config t batch).emptied, id ∈ candidates) :
    Thinned config (filled config t batch).tree
        ((filled config t batch).tree.prune candidates).2 ∧
      ∀ x, ¬ ((filled config t batch).tree.prune candidates).2.skeleton.Childless x := by
  have hw := h.shows_filled hb
  obtain ⟨hthin, hnone⟩ := thinned_prune hw.sound candidates
  refine ⟨hthin, fun x hx => hnone x (hcandidates x ?_) hx⟩
  exact hw.noted x (hthin.childless x hx)

theorem Settled.gone_prune_iff (hn : (batch.rows.map (·.scopedId)).Nodup)
    (hcandidates : ∀ id ∈ (filled config t batch).emptied, id ∈ candidates) :
    ((filled config t batch).tree.get? x).isSome = true ∧
        ((filled config t batch).tree.prune candidates).2.get? x = none ↔
      t.Emptied (filled config t batch).tree x := by
  obtain ⟨hthin, hfull⟩ := h.thinned_prune_filled hb hcandidates
  rw [hthin.gone_iff (h.shows_filled hb).sound hfull, h.emptied_filled_iff hb hn]

theorem Settled.fst_prune (hn : (batch.rows.map (·.scopedId)).Nodup) :
    ((filled config t batch).tree.prune candidates).1 =
      (t.ofKind true \ ((filled config t batch).tree.prune candidates).2.ofKind true).card :=
  ((h.tallied_prune_filled hb hn candidates).went true).symm

end Filled

end Tree

end CategorizedIndex
