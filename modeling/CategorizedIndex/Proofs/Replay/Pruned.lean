import CategorizedIndex.Proofs.Replay.Rows

/-! # Categories that would be pruned

The replay finds the categories that the batch would leave without a document, from
counts of children alone. A category is found once nothing is gained under it and each
of its children is detached or found before; as counts only ever fall, no category that
leads to a document of the new table is found, and none that does not is missed.
-/
namespace CategorizedIndex.Replay

variable {config : Config} {t : Tree} {T U : Table} {batch : Batch} {r : Replay}
  {x y : EntryId} {c : Core}

structure Target (batch : Batch) (T U : Table) : Prop where
  kept : ∀ s, s ∉ batch.removals → s ∉ batch.rows.map (·.scopedId) → U s = T s
  removed : ∀ s ∈ batch.removals, s ∉ batch.rows.map (·.scopedId) → U s = none
  rows : ∀ row ∈ batch.rows, U row.scopedId = row.placing

theorem target_table (hn : (batch.rows.map (·.scopedId)).Nodup) (T : Table) :
    Target batch T (batch.table T) :=
  ⟨fun _ => Batch.table_of_not_mem, fun _ => Batch.table_of_removed,
    fun _ => Batch.table_of_mem hn⟩

theorem Ran.mem_detached_iff (h : t.Settled config T) (hr : Ran config t U batch r)
    (hx : t.skeleton x = some c) :
    x ∈ r.detached ↔ c.scopedId ∈ batch.removals ∨
      c.scopedId ∈ batch.rows.map (·.scopedId) := by
  have hplaced : ∀ s, x ∈ t.placementsOf s ↔ c.scopedId = s := by
    intro s
    rw [h.sound.placements, Skeleton.mem_placed h.sound.formed]
    constructor
    · rintro ⟨d, hd, rfl⟩
      rw [Option.some.inj (hx.symm.trans hd)]
    · rintro rfl
      exact ⟨c, hx, rfl⟩
  rw [hr.detached]
  constructor
  · rintro ⟨s, hs, hmem⟩
    exact (hplaced s).mp hmem ▸ hs
  · intro hs
    exact ⟨c.scopedId, hs, (hplaced _).mpr rfl⟩

theorem Ran.isCategory_of_detached (h : t.Settled config T) (hr : Ran config t U batch r)
    (hb : batch.Fits config) (hx : t.skeleton x = some c) (hdet : x ∈ r.detached) :
    c.isCategory = false := by
  rcases (hr.mem_detached_iff h hx).mp hdet with hs | hs
  · exact hb.removals _ hs
  · obtain ⟨row, hrow, heq⟩ := List.mem_map.mp hs
    rw [Core.isCategory, ← heq]
    exact (hb.rows row hrow).1

theorem Ran.row_of_not_detached (h : t.Settled config T) (hr : Ran config t U batch r)
    (htarget : Target batch T U) (hx : t.skeleton x = some c) (hdet : x ∉ r.detached) :
    U c.scopedId = T c.scopedId := by
  rw [hr.mem_detached_iff h hx, not_or] at hdet
  exact htarget.kept _ hdet.1 hdet.2

theorem leads_of_prefix {A B : List Label} (h : U.Leads B) (hAB : A <+: B) : U.Leads A := by
  obtain ⟨s, placing, path, hrow, hpath, hstart⟩ := h
  exact ⟨s, placing, path, hrow, hpath, hAB.trans hstart⟩

theorem exists_start_of_prefix {F : Skeleton} {n : EntryId} (hF : F.WellFormed config n)
    (hx : F x = some c) (hcat : c.isCategory = true) {path : CategoryPath} {s : ScopedId}
    (h : F.address x <+: Skeleton.documentAddress path s) :
    ∃ above rest, path = above ++ rest ∧ F.address x = above.map .category := by
  have hproper : F.address x <+: path.map .category := by
    rcases List.prefix_concat_iff.mp h with hwhole | hproper
    · obtain ⟨p, pc, -, -, -, hlabel⟩ := hF.exists_parent hx hwhole
      rw [Core.label, hcat] at hlabel
      cases hlabel
    · exact hproper
  obtain ⟨tail, htail⟩ := hproper
  obtain ⟨above, rest, hpath, habove, -⟩ := List.map_eq_append_iff.mp htail.symm
  exact ⟨above, rest, hpath, habove.symm⟩

/-- A row of the batch that leads through a category adds a child to it or goes on to a
category below it. -/
theorem Ran.gain_or_child (h : t.Settled config T) (hr : Ran config t U batch r)
    (hx : t.skeleton x = some c) (hcat : c.isCategory = true) {row : PreparedRow}
    (hrow : row ∈ batch.rows) {placing : Placing} (hplacing : row.placing = some placing)
    (hU : U row.scopedId = some placing) {path : CategoryPath} (hpath : path ∈ placing.paths)
    (hstart : t.skeleton.address x <+: Skeleton.documentAddress path row.scopedId) :
    0 < gain t r x ∨ ∃ y d, t.skeleton y = some d ∧ d.parent = some x ∧
      d.isCategory = true ∧ U.Leads (t.skeleton.address y) := by
  have hF := h.sound.formed
  obtain ⟨above, rest, rfl, haddress⟩ := exists_start_of_prefix hF hx hcat hstart
  obtain ⟨htaken, hdocument⟩ := hr.rows row hrow placing hplacing _ hpath
  have hlive : Stands config t.skeleton r.pending (.live x) (above.map .category) :=
    haddress ▸ .live hx hcat
  cases rest with
  | nil =>
    obtain ⟨P, hP, -, hgain⟩ := hdocument
    rw [List.append_nil] at hP
    exact Or.inl (hgain x (hP.injective hF hr.traced.apart hlive))
  | cons step rest =>
    obtain ⟨P, Q, hP, hQ, -⟩ := htaken above step rest rfl
    rw [List.nil_append] at hP hQ
    rcases hQ.cases_snoc hF with ⟨y, d, q, rfl, hy, hq, hlabel, habove⟩ |
      ⟨i, R, step', rfl, -, -, hi, habove⟩
    · obtain rfl := Parent.live.inj (habove.injective hF hr.traced.apart hlive)
      refine Or.inr ⟨y, d, hy, hq, Core.isCategory_of_label hlabel, ?_⟩
      rw [hF.address_eq hy hq, hlabel, haddress]
      exact ⟨_, placing, _, hU, hpath, Skeleton.step_prefix above rest step _⟩
    · have hR := habove.injective hF hr.traced.apart hlive
      exact Or.inl (hr.traced.pendingGains _ (List.mem_of_getElem? hi) x hR)

/-- A category leads to a document of the new table if it gains a child, keeps a
document, or has a child that leads to one. -/
theorem Ran.leads_iff (h : t.Settled config T) (hb : batch.Fits config)
    (hr : Ran config t U batch r) (htarget : Target batch T U) (hx : t.skeleton x = some c)
    (hcat : c.isCategory = true) :
    U.Leads (t.skeleton.address x) ↔ 0 < gain t r x ∨
      ∃ y d, t.skeleton y = some d ∧ d.parent = some x ∧ y ∉ r.detached ∧
        (d.isCategory = true → U.Leads (t.skeleton.address y)) := by
  have hF := h.sound.formed
  constructor
  · rintro ⟨s, placing, path, hrow, hpath, hstart⟩
    by_cases hs : s ∈ batch.rows.map (·.scopedId)
    · obtain ⟨row, hmem, rfl⟩ := List.mem_map.mp hs
      have hplacing := (htarget.rows row hmem).symm.trans hrow
      refine (hr.gain_or_child h hx hcat hmem hplacing hrow hpath hstart).imp_right ?_
      rintro ⟨y, d, hy, hyx, hdcat, hleads⟩
      refine ⟨y, d, hy, hyx, fun hdet => ?_, fun _ => hleads⟩
      rw [hr.isCategory_of_detached h hb hy hdet] at hdcat
      cases hdcat
    · have hremoved : s ∉ batch.removals := by
        intro hmem
        rw [htarget.removed s hmem hs] at hrow
        cases hrow
      rw [htarget.kept s hremoved hs] at hrow
      obtain ⟨z, b, hz, hbs, hza⟩ := h.shows.complete hrow hpath
      have hbcat : b.isCategory = false := by
        rw [Core.isCategory, hbs]
        exact (h.fits s placing hrow).1
      have hline := (hF.mem_line_iff_prefix hx hz).mpr (hza ▸ hstart)
      have hxz : x ≠ z := by
        intro heq
        subst heq
        rw [Option.some.inj (hx.symm.trans hz), hbcat] at hcat
        cases hcat
      obtain ⟨y, d, hyz, hy, hyx⟩ := hF.exists_child_of_mem_line hz hline hxz
      refine Or.inr ⟨y, d, hy, hyx, fun hdet => ?_, fun _ => ?_⟩
      · have hycat := hr.isCategory_of_detached h hb hy hdet
        by_cases hyz' : y = z
        · subst hyz'
          rw [hr.mem_detached_iff h hz, hbs] at hdet
          exact hdet.elim hremoved hs
        · obtain ⟨w, dw, -, hw, hwy⟩ := hF.exists_child_of_mem_line hz hyz hyz'
          obtain ⟨qc, hqc, hqcat⟩ := hF.parent_category hw hwy
          rw [Option.some.inj (hy.symm.trans hqc), hqcat] at hycat
          cases hycat
      · refine ⟨s, placing, path, (htarget.kept s hremoved hs).trans hrow, hpath, ?_⟩
        exact hza ▸ hF.address_prefix hz hyz
  · rintro (hgain | ⟨y, d, hy, hyx, hdet, hleads⟩)
    · exact (hr.traced.gains x).2 hgain
    · have hstart : t.skeleton.address x <+: t.skeleton.address y := by
        rw [hF.address_eq hy hyx]
        exact List.prefix_append _ _
      cases hdcat : d.isCategory with
      | true => exact leads_of_prefix (hleads hdcat) hstart
      | false =>
        obtain ⟨placing, path, hrow, hpath, haddress, -⟩ := h.shows.documents hy hdcat
        rw [← hr.row_of_not_detached h htarget hy hdet] at hrow
        exact ⟨_, placing, path, hrow, hpath, haddress ▸ hstart⟩

end CategorizedIndex.Replay
