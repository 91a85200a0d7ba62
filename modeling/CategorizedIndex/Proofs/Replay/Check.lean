import CategorizedIndex.Proofs.Replay.Worklist

/-! # The check of kinds

Values that a batch leaves among siblings are those of children that it keeps and those
that it adds, so the check that compares the two decides whether the table after the
batch has one kind of value at every place, and names two values that stand there
together if it has not.
-/
namespace CategorizedIndex

namespace SortKey

theorem contains_sectionOf_and_valueAt {config : Config} {c : Core} (hc : c.Fits config)
    (place : Replay.Place) (v : Scalar) :
    ((Replay.sectionOf place).contains c.key = true ∧ Replay.valueAt place c.key = some v) ↔
      c.key.valueIn place = some v := by
  cases hc with
  | category step id _ hs hid =>
    have hstored := stored_category step.column step.value step.descending id
    cases place with
    | category column =>
      have hcontains := contains_categories hstored rfl (List.cons_ne_nil _ _)
      have hkey : (category step.column step.value step.descending id).isCategory = true := rfl
      simp only [Replay.sectionOf, hcontains, hkey, Replay.valueAt, valueIn, true_and]
    | document position =>
      have hcontains := contains_documents hstored (List.cons_ne_nil _ _)
        fun h => Bool.noConfusion h
      have hkey : (category step.column step.value step.descending id).isCategory = true := rfl
      simp [Replay.sectionOf, hcontains, hkey, valueIn]
  | document id _ values _ hid =>
    have hstored := stored_document config values id
    have hkey : (document (Batch.documentSlots config values) id).isCategory = false := rfl
    cases place with
    | category column =>
      have hnot : categories.contains (document (Batch.documentSlots config values) id) =
          false := by
        have : (document (Batch.documentSlots config values) id).cmp categories.high = .gt := by
          rw [cmp_eq]
          rfl
        rw [Range.contains, this, Ordering.isLE_gt, Bool.and_false]
      simp [Replay.sectionOf, hnot, hkey, valueIn]
    | document position =>
      simp only [Replay.sectionOf, Replay.valueAt, valueIn, hkey, Bool.false_eq_true, if_false]
      refine ⟨And.right, fun hv => ⟨?_, hv⟩⟩
      have hslots : (document (Batch.documentSlots config values) id).slots ≠ [] := by
        intro hnil
        rw [hnil] at hv
        cases hv
      rw [contains_documents hstored hslots fun _ => rfl, hkey, Bool.not_false]

end SortKey

namespace Replay

variable {config : Config} {t : Tree} {T U : Table} {batch : Batch} {r : Replay}
  {x y : EntryId} {c d : Core} {place : Place} {v w : Scalar}

def Kept (t : Tree) (U : Table) (r : Replay) (y : EntryId) : Prop :=
  y ∉ r.detached ∧ ¬ Fruitless t U y

theorem Ran.holds_of_kept (h : t.Settled config T) (hr : Ran config t U batch r)
    (htarget : Target batch T U) (hy : t.skeleton y = some d) (hyx : d.parent = some x)
    (hkept : Kept t U r y) (hv : d.key.valueIn place = some v) :
    U.Holds (t.skeleton.address x) place v := by
  refine h.holds_of_led hy hyx hv (fun hcat => ?_) (fun _ => ?_)
  · exact Classical.byContradiction fun hnot =>
      hkept.2 ⟨h.sound.formed.ne_root hy hyx, ⟨d, hy, hcat⟩, hnot⟩
  · exact hr.row_of_not_detached h htarget hy hkept.1

theorem Ran.kept_of_leads (h : t.Settled config T) (hb : batch.Fits config)
    (hr : Ran config t U batch r) (hy : t.skeleton y = some d) (hcat : d.isCategory = true)
    (hleads : U.Leads (t.skeleton.address y)) : Kept t U r y := by
  refine ⟨fun hdet => ?_, fun hfruitless => hfruitless.2.2 hleads⟩
  rw [hr.isCategory_of_detached h hb hy hdet] at hcat
  cases hcat

theorem Ran.kept_of_row (h : t.Settled config T) (hr : Ran config t U batch r)
    (hy : t.skeleton y = some d) (hcat : d.isCategory = false)
    (hremoved : d.scopedId ∉ batch.removals)
    (hrows : d.scopedId ∉ batch.rows.map (·.scopedId)) : Kept t U r y := by
  refine ⟨fun hdet => ?_, ?_⟩
  · rw [hr.mem_detached_iff h hy] at hdet
    exact hdet.elim hremoved hrows
  · rintro ⟨-, ⟨d', hd', hcat'⟩, -⟩
    rw [← Option.some.inj (hy.symm.trans hd'), hcat] at hcat'
    cases hcat'

theorem Target.row_of_not_placed (htarget : Target batch T U) {s : ScopedId} {placing : Placing}
    (hrow : U s = some placing) (hs : s ∉ batch.rows.map (·.scopedId)) :
    s ∉ batch.removals ∧ T s = some placing := by
  have hremoved : s ∉ batch.removals := by
    intro hmem
    rw [htarget.removed s hmem hs] at hrow
    cases hrow
  exact ⟨hremoved, (htarget.kept s hremoved hs).symm.trans hrow⟩

/-- What the table holds after the batch belongs to a child that is kept, or is noted. -/
theorem Ran.kept_or_noted (h : t.Settled config T) (hb : batch.Fits config)
    (hr : Ran config t U batch r) (htarget : Target batch T U) {A : List Label}
    (hv : U.Holds A place v) :
    (∃ x y d, Stands config t.skeleton r.pending (.live x) A ∧ t.skeleton y = some d ∧
      d.parent = some x ∧ Kept t U r y ∧ d.key.valueIn place = some v) ∨
    ∃ P, Stands config t.skeleton r.pending P A ∧ Noted r.added P place v := by
  have hF := h.sound.formed
  cases hv with
  | @category s placing above rest step v hrow hpath hv =>
    have hleads : U.Leads (above.map .category ++ [.category step]) :=
      ⟨s, placing, _, hrow, hpath, Skeleton.step_prefix above rest step s⟩
    by_cases hs : s ∈ batch.rows.map (·.scopedId)
    · obtain ⟨row, hmem, rfl⟩ := List.mem_map.mp hs
      have hplacing := (htarget.rows row hmem).symm.trans hrow
      obtain ⟨P, Q, hP, hQ, htaken⟩ :=
        (hr.rows row hmem placing hplacing _ hpath).1 above step rest rfl
      rw [List.nil_append] at hP hQ
      rcases htaken with ⟨y, rfl⟩ | hnoted
      · rcases hQ.cases_snoc hF with ⟨y', d, q, hyy, hy, hq, hlabel, habove⟩ | ⟨_, _, _, hyy, _⟩
        · obtain rfl := Parent.live.inj hyy
          have hkept := hr.kept_of_leads h hb hy (Core.isCategory_of_label hlabel)
            (hQ.eq_address ▸ hleads)
          have hfits := hF.fits hy (hF.ne_root hy hq)
          exact Or.inl ⟨q, y, d, habove, hy, hq, hkept,
            hfits.valueIn_eq_some_iff.mpr (Or.inl ⟨step, hlabel, rfl, hv⟩)⟩
        · cases hyy
      · exact Or.inr ⟨P, hP, hnoted v hv⟩
    · obtain ⟨-, hold⟩ := htarget.row_of_not_placed hrow hs
      obtain ⟨y, d, q, qc, hd, hq, hqc, hqa, hlabel, hya⟩ := h.exists_category hold hpath
      obtain ⟨qc', hqc', hqcat⟩ := hF.parent_category hd hq
      have hkept := hr.kept_of_leads h hb hd (Core.isCategory_of_label hlabel) (hya ▸ hleads)
      have hfits := hF.fits hd (hF.ne_root hd hq)
      exact Or.inl ⟨q, y, d, hqa ▸ .live hqc' hqcat, hd, hq, hkept,
        hfits.valueIn_eq_some_iff.mpr (Or.inl ⟨step, hlabel, rfl, hv⟩)⟩
  | @document s placing path position v hrow hpath hv =>
    by_cases hs : s ∈ batch.rows.map (·.scopedId)
    · obtain ⟨row, hmem, rfl⟩ := List.mem_map.mp hs
      have hplacing := (htarget.rows row hmem).symm.trans hrow
      obtain ⟨P, hP, hnoted, -⟩ := (hr.rows row hmem placing hplacing _ hpath).2
      exact Or.inr ⟨P, hP, hnoted position v hv⟩
    · obtain ⟨hremoved, hold⟩ := htarget.row_of_not_placed hrow hs
      obtain ⟨y, d, q, qc, hd, hq, hqc, hqa, rfl, hcat, hcore⟩ := h.exists_placement hold hpath
      obtain ⟨qc', hqc', hqcat⟩ := hF.parent_category hd hq
      have hfits := hF.fits hd (hF.ne_root hd hq)
      refine Or.inl ⟨q, y, d, hqa ▸ .live hqc' hqcat, hd, hq,
        hr.kept_of_row h hd hcat hremoved hs,
        hfits.valueIn_eq_some_iff.mpr (Or.inr ⟨position, hcat, rfl, ?_⟩)⟩
      rw [hcore]
      exact hv

/-- Children of an entry that the batch keeps, by their values at a place. -/
theorem Ran.mem_survivors_iff (h : t.Settled config T) (hb : batch.Fits config)
    (hr : Ran config t U batch r) (htarget : Target batch T U) (hx : t.skeleton x = some c) :
    (∃ child ∈ ((t.childrenOf x).within (sectionOf place)).filter (fun child =>
        !r.detached.contains child.2 && !(r.pruned t).contains child.2),
      valueAt place child.1 = some v) ↔
    ∃ y d, t.skeleton y = some d ∧ d.parent = some x ∧ Kept t U r y ∧
      d.key.valueIn place = some v := by
  obtain ⟨e, he, -⟩ := Tree.skeleton_eq_some_iff.mp hx
  have hkept : ∀ y, (!r.detached.contains y && !(r.pruned t).contains y) = true ↔
      Kept t U r y := by
    intro y
    rw [Bool.and_eq_true, Bool.not_eq_true', Bool.not_eq_true', Kept,
      ← hr.mem_pruned_iff h hb htarget y, Std.ExtTreeSet.mem_iff_contains,
      Std.ExtTreeSet.mem_iff_contains, Bool.not_eq_true, Bool.not_eq_true]
  simp only [Siblings.within, List.mem_filter, hkept, Tree.Sound.childrenOf_eq he]
  constructor
  · rintro ⟨⟨k, y⟩, ⟨⟨hmem, hcontains⟩, hy⟩, hv⟩
    obtain ⟨d, hd, hdx, rfl⟩ := (h.sound.children he k y).mp hmem
    have hfits := h.sound.formed.fits hd (h.sound.formed.ne_root hd hdx)
    have hvalue := (SortKey.contains_sectionOf_and_valueAt hfits place v).mp ⟨hcontains, hv⟩
    exact ⟨y, d, hd, hdx, hy, hvalue⟩
  · rintro ⟨y, d, hd, hdx, hy, hv⟩
    have hfits := h.sound.formed.fits hd (h.sound.formed.ne_root hd hdx)
    obtain ⟨hcontains, hvalue⟩ := (SortKey.contains_sectionOf_and_valueAt hfits place v).mpr hv
    have hmem := (h.sound.children he d.key y).mpr ⟨d, hd, hdx, rfl⟩
    exact ⟨(d.key, y), ⟨⟨hmem, hcontains⟩, hy⟩, hvalue⟩

theorem Ran.survivor?_spec (h : t.Settled config T) (hb : batch.Fits config)
    (hr : Ran config t U batch r) (htarget : Target batch T U) (hx : t.skeleton x = some c) :
    (∀ v, r.survivor? t (r.pruned t) x place = some v →
      ∃ y d, t.skeleton y = some d ∧ d.parent = some x ∧ Kept t U r y ∧
        d.key.valueIn place = some v) ∧
    ((∃ y d v, t.skeleton y = some d ∧ d.parent = some x ∧ Kept t U r y ∧
      d.key.valueIn place = some v) →
      ∃ v, r.survivor? t (r.pruned t) x place = some v) := by
  constructor
  · intro v hv
    obtain ⟨child, hchild, hvalue⟩ := List.exists_of_findSome?_eq_some hv
    exact (hr.mem_survivors_iff h hb htarget hx).mp ⟨child, hchild, hvalue⟩
  · rintro ⟨y, d, v, hy⟩
    obtain ⟨child, hchild, hvalue⟩ :=
      (hr.mem_survivors_iff h hb htarget hx).mpr ⟨y, d, hy⟩
    have hsome : (r.survivor? t (r.pruned t) x place).isSome = true :=
      List.findSome?_isSome_iff.mpr ⟨child, hchild, by rw [hvalue]; rfl⟩
    exact Option.isSome_iff_exists.mp hsome

theorem Ran.holds_of_conflict (h : t.Settled config T) (hb : batch.Fits config)
    (hr : Ran config t U batch r) (htarget : Target batch T U) {a : AddedValues}
    (ha : a ∈ r.added) (hconflict : r.conflict? t (r.pruned t) a = some (v, w)) :
    ∃ A, U.Holds A a.place v ∧ U.Holds A a.place w ∧ v.kind ≠ w.kind := by
  have hadded : ∀ z ∈ a.values, ∀ A, Stands config t.skeleton r.pending a.parent A →
      U.Holds A a.place z := by
    intro z hz A hA
    obtain ⟨B, hB, hholds⟩ := hr.traced.values a ha z hz
    exact hA.unique hB ▸ hholds
  rw [conflict?] at hconflict
  split at hconflict
  · next known hlive =>
    obtain ⟨z, hfind, heq⟩ := Option.map_eq_some_iff.mp hconflict
    obtain ⟨rfl, rfl⟩ := Prod.mk.inj heq
    have hz := List.mem_of_find?_eq_some hfind
    have hkind : z.kind ≠ known.kind := by simpa using List.find?_some hfind
    cases hparent : a.parent with
    | pending i =>
      rw [hparent] at hlive
      cases hlive
    | live x =>
      rw [hparent] at hlive
      obtain ⟨A, hA, hholds⟩ := hr.traced.values a ha z hz
      rw [hparent] at hA
      obtain ⟨c, hx⟩ : ∃ c, t.skeleton x = some c := by
        cases hA with
        | live hx _ => exact ⟨_, hx⟩
      obtain ⟨y, d, hy, hyx, hkept, hv⟩ := (hr.survivor?_spec h hb htarget hx).1 _ hlive
      have hknown := hr.holds_of_kept h htarget hy hyx hkept hv
      exact ⟨A, hholds, hA.eq_address ▸ hknown, hkind⟩
  · next first second rest hlive hvalues =>
    obtain ⟨rfl, rfl⟩ := Prod.mk.inj (Option.some.inj hconflict)
    have hkinds := hr.traced.tidy.kinds a ha
    rw [hvalues] at hkinds hadded
    obtain ⟨A, hA, -⟩ := hr.traced.values a ha second (by rw [hvalues]; simp)
    refine ⟨A, hadded _ (by simp) A hA, hadded _ (by simp) A hA, ?_⟩
    exact Ne.symm ((List.pairwise_cons.mp hkinds).1 _ List.mem_cons_self)
  · cases hconflict

theorem Ran.kind_of_noted (h : t.Settled config T) (hb : batch.Fits config)
    (hr : Ran config t U batch r) (htarget : Target batch T U) (hT : T.OneKind)
    {a : AddedValues} (hnone : r.conflict? t (r.pruned t) a = none)
    (hv : v ∈ a.values) {A : List Label}
    (hA : Stands config t.skeleton r.pending a.parent A) :
    (∀ x y d, a.parent = .live x → t.skeleton y = some d → d.parent = some x →
      Kept t U r y → d.key.valueIn a.place = some w → v.kind = w.kind) ∧
    ∀ z ∈ a.values, v.kind = z.kind := by
  have hlive : ∀ x known, a.parent = .live x →
      r.survivor? t (r.pruned t) x a.place = some known → ∀ z ∈ a.values, z.kind = known.kind := by
    intro x known hparent hknown z hz
    unfold conflict? at hnone
    simp only [hparent, hknown, Option.map_eq_none_iff, List.find?_eq_none, bne_iff_ne, ne_eq,
      Decidable.not_not] at hnone
    exact hnone z hz
  have hsingle : (∀ x, a.parent = .live x → r.survivor? t (r.pruned t) x a.place = none) →
      ∀ z ∈ a.values, z = v := by
    intro hnoSurvivor z hz
    have hshort : ∀ first second rest, a.values ≠ first :: second :: rest := by
      intro first second rest hvalues
      cases hparent : a.parent with
      | live x => simp [conflict?, hparent, hnoSurvivor x hparent, hvalues] at hnone
      | pending i => simp [conflict?, hparent, hvalues] at hnone
    cases hvalues : a.values with
    | nil =>
      rw [hvalues] at hv
      cases hv
    | cons first rest =>
      cases rest with
      | nil =>
        rw [hvalues] at hv hz
        rw [List.mem_singleton.mp hv, List.mem_singleton.mp hz]
      | cons second rest => exact absurd hvalues (hshort first second rest)
  constructor
  · intro x y d hparent hy hyx hkept hw
    rw [hparent] at hA
    obtain ⟨c, hx⟩ : ∃ c, t.skeleton x = some c := by
      cases hA with
      | live hx _ => exact ⟨_, hx⟩
    obtain ⟨known, hknown⟩ := (hr.survivor?_spec h hb htarget hx).2 ⟨y, d, w, hy, hyx, hkept, hw⟩
    obtain ⟨y', d', hy', hyx', -, hv'⟩ := (hr.survivor?_spec h hb htarget hx).1 known hknown
    have hsame := hT _ _ _ _ (h.holds_of_child hy' hyx' hv') (h.holds_of_child hy hyx hw)
    exact (hlive x known hparent hknown v hv).trans hsame
  · intro z hz
    by_cases hex : ∃ x known, a.parent = .live x ∧
        r.survivor? t (r.pruned t) x a.place = some known
    · obtain ⟨x, known, hparent, hknown⟩ := hex
      rw [hlive x known hparent hknown v hv, hlive x known hparent hknown z hz]
    · have hall : ∀ x, a.parent = .live x → r.survivor? t (r.pruned t) x a.place = none := by
        intro x hparent
        cases hs : r.survivor? t (r.pruned t) x a.place with
        | none => rfl
        | some known => exact absurd ⟨x, known, hparent, hs⟩ hex
      rw [hsingle hall z hz]

theorem Ran.oneKind_of_no_conflict (h : t.Settled config T) (hb : batch.Fits config)
    (hr : Ran config t U batch r) (htarget : Target batch T U) (hT : T.OneKind)
    (hnone : ∀ a ∈ r.added, r.conflict? t (r.pruned t) a = none) : U.OneKind := by
  have hF := h.sound.formed
  intro A place v w hv hw
  rcases hr.kept_or_noted h hb htarget hv with
    ⟨x, y, d, hx, hy, hyx, hykept, hyv⟩ | ⟨P, hP, a, ha, haP, hplace, v', hv', hkind⟩
  · rcases hr.kept_or_noted h hb htarget hw with
      ⟨x', y', d', hx', hy', hyx', hykept', hyw⟩ | ⟨P, hP, a, ha, haP, hplace, w', hw', hkind⟩
    · obtain rfl := Parent.live.inj (hx.injective hF hr.traced.apart hx')
      exact hT _ _ _ _ (h.holds_of_child hy hyx hyv) (h.holds_of_child hy' hyx' hyw)
    · subst hplace haP
      have hparent := hP.injective hF hr.traced.apart hx
      have hagree := hr.kind_of_noted (w := v) h hb htarget hT (hnone a ha) hw' hP
      rw [← hkind, hagree.1 x y d hparent hy hyx hykept hyv]
  · subst hplace haP
    have hagree := fun w => hr.kind_of_noted (w := w) h hb htarget hT (hnone a ha) hv' hP
    rcases hr.kept_or_noted h hb htarget hw with
      ⟨x', y', d', hx', hy', hyx', hykept', hyw⟩ | ⟨Q, hQ, b, hb', hbQ, hbplace, w', hw', hkind'⟩
    · have hparent := hP.injective hF hr.traced.apart hx'
      rw [← hkind, (hagree w).1 x' y' d' hparent hy' hyx' hykept' hyw]
    · have hparent := hP.injective hF hr.traced.apart hQ
      have hset := hr.traced.tidy.eq_of_set ha hb' (hparent.trans hbQ.symm) hbplace.symm
      subst hset
      rw [← hkind, ← hkind', (hagree w').2 w' hw']

end Replay

namespace Tree

variable {config : Config} {t : Tree} {T : Table} {batch : Batch}

/-- The check turns a batch down exactly if the rows after it mix kinds, and then names
two values that would stand together. -/
theorem Settled.checkKinds_spec (h : t.Settled config T) (hT : T.OneKind)
    (hb : batch.Fits config) (hn : (batch.rows.map (·.scopedId)).Nodup) :
    (t.checkKinds config batch = .ok () ↔ (batch.table T).OneKind) ∧
    ∀ e, t.checkKinds config batch = .error e →
      ∃ A place v w, e = .siblingKinds v w (Replay.itemOf config place) ∧
        (batch.table T).Holds A place v ∧ (batch.table T).Holds A place w ∧
        v.kind ≠ w.kind := by
  have hr := Replay.ran_run h.sound hb hn T
  have htarget := Replay.target_table hn T
  have herror : ∀ e, (Replay.run t batch).firstConflict? config t = some e →
      ∃ A place v w, e = .siblingKinds v w (Replay.itemOf config place) ∧
        (batch.table T).Holds A place v ∧ (batch.table T).Holds A place w ∧
        v.kind ≠ w.kind := by
    intro e he
    obtain ⟨a, ha, hmap⟩ := List.exists_of_findSome?_eq_some he
    obtain ⟨⟨v, w⟩, hconflict, rfl⟩ := Option.map_eq_some_iff.mp hmap
    obtain ⟨A, hv, hw, hkind⟩ := hr.holds_of_conflict h hb htarget ha hconflict
    exact ⟨A, a.place, v, w, rfl, hv, hw, hkind⟩
  unfold checkKinds
  cases hfirst : (Replay.run t batch).firstConflict? config t with
  | some e =>
    refine ⟨⟨fun hok => (nomatch hok), fun hone => ?_⟩, fun e' he' => ?_⟩
    · obtain ⟨A, place, v, w, -, hv, hw, hkind⟩ := herror e hfirst
      exact absurd (hone A place v w hv hw) hkind
    · obtain rfl := Except.error.inj he'
      exact herror _ hfirst
  | none =>
    refine ⟨⟨fun _ => ?_, fun _ => rfl⟩, fun e' he' => (nomatch he')⟩
    refine hr.oneKind_of_no_conflict h hb htarget hT fun a ha => ?_
    have hnone := List.findSome?_eq_none_iff.mp hfirst a ha
    exact Option.map_eq_none_iff.mp hnone

end Tree

end CategorizedIndex
