import CategorizedIndex.Proofs.Commit.Place
import Mathlib.Order.Interval.Finset.Nat

/-! # Batches of new rows

A batch that only adds rows whose ids are not in use takes nothing away. The categories
it creates stay, so as many category numbers are given out as categories are there in the
end.
-/
namespace CategorizedIndex

namespace Work

variable {config : Config} {w : Work} {T : Table}

theorem Shows.withdraw_eq_self (h : w.Shows config T) {s : ScopedId} (hs : s.isCategory = false)
    (hT : T s = none) : w.withdraw s = w := by
  have hnone : w.tree.placementsOf s = [] := by
    rw [h.sound.placements]
    refine List.eq_nil_iff_forall_not_mem.mpr fun x hx => ?_
    obtain ⟨c, hc, rfl⟩ := (Skeleton.mem_placed h.sound.formed).mp hx
    obtain ⟨placing, -, hrow, -⟩ := h.rows.documents hc hs
    rw [hT] at hrow
    cases hrow
  rw [Work.withdraw, hnone, List.foldl_nil]

theorem Shows.place_new (h : w.Shows config T) {row : PreparedRow}
    (hs : row.scopedId.isCategory = false) (hfits : ∀ p, row.placing = some p → p.Fits config)
    (hT : T row.scopedId = none) :
    (w.place config row).emptied = w.emptied ∧
      (w.place config row).tree.lastCategory + w.tree.categoryCount =
        w.tree.lastCategory + (w.place config row).tree.categoryCount := by
  obtain ⟨s, placing⟩ := row
  rw [Work.place, h.withdraw_eq_self hs hT]
  cases placing with
  | none => exact ⟨rfl, rfl⟩
  | some placing =>
    have hgather := gathered_resolveAll h.sound h.numbered List.nodup_nil
      (fun _ hid => absurd hid List.not_mem_nil) (hfits placing rfl).steps
    simp only
    generalize resolveAll config [] placing.paths w = r at hgather ⊢
    obtain ⟨parents, v⟩ := r
    simp only at hgather ⊢
    have hattach := attached_foldl hgather.sound hgather.numbered hs (hfits placing rfl)
      hgather.nodup hgather.categories fun _ _ x d hx _ => by
        rcases hgather.created x d hx with hx | ⟨hd, -⟩
        · exact h.label_ne hT hx
        · rw [Core.label, hd]
          intro heq
          cases heq
    refine ⟨hattach.emptied.trans hgather.emptied, ?_⟩
    rw [hattach.lastCategory, hattach.categoryCount]
    exact hgather.spent

theorem Shows.places_new (h : w.Shows config T) {rows : List PreparedRow}
    (hrows : ∀ row ∈ rows, row.scopedId.isCategory = false ∧
      ∀ p, row.placing = some p → p.Fits config)
    (hn : (rows.map (·.scopedId)).Nodup) (hT : ∀ row ∈ rows, T row.scopedId = none) :
    (rows.foldl (Work.place config) w).emptied = w.emptied ∧
      (rows.foldl (Work.place config) w).tree.lastCategory + w.tree.categoryCount =
        w.tree.lastCategory + (rows.foldl (Work.place config) w).tree.categoryCount := by
  induction rows generalizing w T with
  | nil => exact ⟨rfl, rfl⟩
  | cons row rest ih =>
    obtain ⟨hnot, hrest⟩ := List.nodup_cons.mp hn
    obtain ⟨hs, hfits⟩ := hrows row List.mem_cons_self
    obtain ⟨hemptied, hspent⟩ := h.place_new hs hfits (hT row List.mem_cons_self)
    obtain ⟨hemptied', hspent'⟩ := ih (h.place hs hfits)
      (fun r hr => hrows r (List.mem_cons_of_mem _ hr)) hrest fun r hr => by
        have hne : r.scopedId ≠ row.scopedId := fun heq =>
          hnot (List.mem_map.mpr ⟨r, hr, heq⟩)
        rw [Table.set_of_ne T _ hne]
        exact hT r (List.mem_cons_of_mem _ hr)
    exact ⟨hemptied'.trans hemptied, spent_trans hspent hspent'⟩

end Work

namespace Tree

variable {config : Config} {t : Tree} {T : Table}

/-- New rows create no category that is not there afterwards. -/
theorem Settled.spent_commit (h : t.Settled config T) {batch : Batch} (hb : batch.Fits config)
    (hremovals : batch.removals = []) (hn : (batch.rows.map (·.scopedId)).Nodup)
    (hT : ∀ row ∈ batch.rows, T row.scopedId = none) :
    (t.commit config batch).1.lastCategory + t.categoryCount =
      t.lastCategory + (t.commit config batch).1.categoryCount := by
  obtain ⟨hemptied, hspent⟩ := (Work.shows_start h).places_new hb.rows hn hT
  have hcommit : (t.commit config batch).1 =
      (batch.rows.foldl (Work.place config) (.start t)).tree.flush.2 := by
    rw [Tree.commit, hremovals, List.foldl_nil, Work.finish, hemptied]
    rfl
  have hflush := reranked_flush (batch.rows.foldl (Work.place config) (.start t)).tree
  have hcount : (t.commit config batch).1.categoryCount =
      (batch.rows.foldl (Work.place config) (.start t)).tree.categoryCount := by
    rw [hcommit, categoryCount, categoryCount, hflush.skeleton, hflush.nextEntry]
  rw [hcount, hcommit, hflush.lastCategory]
  exact hspent

theorem Settled.categoryCount_le (h : t.Settled config T) (hlast : t.lastCategory < 2 ^ 63) :
    t.categoryCount ≤ t.lastCategory := by
  obtain ⟨hid, hone⟩ := h.numbered hlast
  have hF := h.sound.formed
  let numbers : Finset (Option ScopedId) :=
    (Finset.Icc 1 t.lastCategory).image fun k => some (.category (UInt64.ofNat k))
  have hcategory : ∀ x ∈ t.skeleton.categoriesIn (t.skeleton.below t.nextEntry root),
      ∃ c, t.skeleton x = some c ∧ c.isCategory = true ∧ x ≠ root := by
    intro x hx
    obtain ⟨hbelow, hcat⟩ := Finset.mem_filter.mp hx
    obtain ⟨c, hc, hcat⟩ := Skeleton.isCategoryAt_eq_true.mp hcat
    exact ⟨c, hc, hcat, ((Skeleton.mem_below hF).mp hbelow).2.1⟩
  have hmaps : ∀ x ∈ t.skeleton.categoriesIn (t.skeleton.below t.nextEntry root),
      (t.skeleton x).map (·.scopedId) ∈ numbers := by
    intro x hx
    obtain ⟨c, hc, hcat, hr⟩ := hcategory x hx
    obtain ⟨k, hk, hck⟩ := hid x c hc hcat
    have hk0 : k ≠ 0 := by
      rintro rfl
      exact hr (hone x root c Core.root hc hF.root hcat hck)
    refine Finset.mem_image.mpr ⟨k, Finset.mem_Icc.mpr ⟨Nat.one_le_iff_ne_zero.mpr hk0, hk⟩, ?_⟩
    rw [hc, Option.map_some, hck]
  have hinj : Set.InjOn (fun x => (t.skeleton x).map (·.scopedId))
      ↑(t.skeleton.categoriesIn (t.skeleton.below t.nextEntry root)) := by
    intro x hx y hy hxy
    obtain ⟨c, hc, hcat, -⟩ := hcategory x hx
    obtain ⟨d, hd, -, -⟩ := hcategory y hy
    simp only [hc, hd, Option.map_some, Option.some.injEq] at hxy
    exact hone x y c d hc hd hcat hxy
  calc t.categoryCount ≤ numbers.card := Finset.card_le_card_of_injOn _ hmaps hinj
    _ ≤ (Finset.Icc 1 t.lastCategory).card := Finset.card_image_le
    _ = t.lastCategory := by rw [Nat.card_Icc, Nat.add_sub_cancel]

end Tree

end CategorizedIndex
