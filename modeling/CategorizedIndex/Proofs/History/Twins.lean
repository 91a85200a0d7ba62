import CategorizedIndex.Proofs.SiblingValues
import CategorizedIndex.Proofs.Tree.Position

/-! # Trees that show one table

Two trees between commits that show the same table have an entry at the same addresses.
Entries with one address are built alike, up to the number that a category was given, and
the order of siblings never depends on that number, because the keys of two categories
already differ before it.
-/
namespace CategorizedIndex

/-- The key without the number that a category was given. -/
def SortKey.withoutNumber (k : SortKey) : SortKey := if k.isCategory then { k with id := 0 } else k

namespace Core

/-- The cores agree up to handles and category numbers. -/
structure Alike (f : EntryId → EntryId) (c d : Core) : Prop where
  label : d.label = c.label
  isCategory : d.isCategory = c.isCategory
  origin : d.scopedId.origin = c.scopedId.origin
  unid : d.unid = c.unid
  key : d.key.withoutNumber = c.key.withoutNumber
  values : d.values = c.values
  parent : d.parent = c.parent.map f

variable {config : Config} {f : EntryId → EntryId} {c d c' d' : Core}

theorem isCategory_eq_of_label (h : d.label = c.label) : d.isCategory = c.isCategory := by
  cases hc : c.isCategory with
  | true =>
    obtain ⟨step, hstep⟩ := exists_step hc
    cases hd : d.isCategory with
    | true => rfl
    | false =>
      rw [label_document hd, hstep] at h
      cases h
  | false =>
    cases hd : d.isCategory with
    | true =>
      obtain ⟨step, hstep⟩ := exists_step hd
      rw [hstep, label_document hc] at h
      cases h
    | false => rfl

theorem compareHeads_congr {a b a' b' : SortKey} (ha : a'.withoutNumber = a.withoutNumber)
    (hb : b'.withoutNumber = b.withoutNumber) : a'.compareHeads b' = a.compareHeads b := by
  have hfields : ∀ k : SortKey, k.withoutNumber.isCategory = k.isCategory ∧
      k.withoutNumber.column = k.column ∧ k.withoutNumber.slots = k.slots := by
    intro k
    unfold SortKey.withoutNumber
    split <;> exact ⟨rfl, rfl, rfl⟩
  obtain ⟨ha1, ha2, ha3⟩ := hfields a
  obtain ⟨hb1, hb2, hb3⟩ := hfields b
  obtain ⟨ha1', ha2', ha3'⟩ := hfields a'
  obtain ⟨hb1', hb2', hb3'⟩ := hfields b'
  simp only [SortKey.compareHeads, ← ha1, ← ha2, ← ha3, ← hb1, ← hb2, ← hb3, ← ha1', ← ha2',
    ← ha3', ← hb1', ← hb2', ← hb3', ha, hb]

theorem Fits.compareHeads_ne_eq (hc : c.Fits config) (hd : d.Fits config)
    (hcat : c.isCategory = true) (hne : c.label ≠ d.label) :
    c.key.compareHeads d.key ≠ .eq := by
  intro heq
  obtain ⟨hsection, hcolumn, hslots⟩ := (SortKey.compareHeads_eq_eq_iff _ _).mp heq
  have hdcat : d.isCategory = true := by
    rw [← hd.isCategory_key, ← hsection, hc.isCategory_key, hcat]
  cases hc with
  | category s i _ hs hi =>
    cases hd with
    | category s' j _ hs' hj =>
      have hvalue : s.value = s'.value := by
        simpa [SortKey.category, Slot.ofScalar, hs.value, hs'.value] using hslots
      obtain rfl := hs.eq hs' (Bound.value.inj hcolumn) hvalue
      refine hne ?_
      simp [label, isCategory, hi, hj, SortKey.step_category hs]
    | document j _ _ _ hj => exact absurd (hdcat.symm.trans hj) (by decide)
  | document i _ _ _ hi => exact absurd (hcat.symm.trans hi) (by decide)

/-- The order of siblings does not depend on category numbers. -/
theorem Alike.cmp_key (hc : c.Alike f c') (hd : d.Alike f d') (hcf : c.Fits config)
    (hdf : d.Fits config) (hne : c.label ≠ d.label) : c'.key.cmp d'.key = c.key.cmp d.key := by
  have hheads : c.key.compareHeads d.key ≠ .eq → c'.key.cmp d'.key = c.key.cmp d.key := by
    intro hdiffer
    rw [SortKey.cmp_eq_compareHeads, SortKey.cmp_eq_compareHeads, compareHeads_congr hc.key hd.key]
    cases hhead : c.key.compareHeads d.key with
    | eq => exact absurd hhead hdiffer
    | lt => rfl
    | gt => rfl
  cases hcat : c.isCategory with
  | true => exact hheads (hcf.compareHeads_ne_eq hdf hcat hne)
  | false =>
    cases hdcat : d.isCategory with
    | true =>
      refine hheads fun heq => ?_
      obtain ⟨hsection, -⟩ := (SortKey.compareHeads_eq_eq_iff _ _).mp heq
      rw [hcf.isCategory_key, hdf.isCategory_key, hcat, hdcat] at hsection
      cases hsection
    | false =>
      have hwhole : ∀ {k k' : SortKey}, k.isCategory = false →
          k'.withoutNumber = k.withoutNumber → k' = k := by
        intro k k' hk hkk
        rw [SortKey.withoutNumber, SortKey.withoutNumber] at hkk
        simp only [hk, Bool.false_eq_true, if_false] at hkk
        split at hkk
        · next hk' =>
          rw [← hkk] at hk
          exact absurd (hk'.symm.trans hk) (by decide)
        · exact hkk
      rw [hwhole (hcf.isCategory_key.trans hcat) hc.key,
        hwhole (hdf.isCategory_key.trans hdcat) hd.key]

end Core

namespace Tree

open Classical in
noncomputable def twin (t u : Tree) (x : EntryId) : EntryId :=
  Classical.epsilon fun y => (∃ d, u.skeleton y = some d) ∧
    u.skeleton.address y = t.skeleton.address x

section

variable {config : Config} {t u : Tree} {T : Table} {x y : EntryId} {c d : Core}
variable (ht : t.Settled config T) (hu : u.Settled config T)
include ht hu

theorem exists_twin (hx : t.skeleton x = some c) : ∃ d, u.skeleton (t.twin u x) = some d ∧
    u.skeleton.address (t.twin u x) = t.skeleton.address x := by
  have hin := (ht.exists_address_iff (t.skeleton.address x)).mp ⟨x, c, hx, rfl⟩
  obtain ⟨y, d, hy, ha⟩ := (hu.exists_address_iff (t.skeleton.address x)).mpr hin
  obtain ⟨⟨d, hd⟩, haddress⟩ := Classical.epsilon_spec
    (p := fun y => (∃ d, u.skeleton y = some d) ∧ u.skeleton.address y = t.skeleton.address x)
    ⟨y, ⟨d, hy⟩, ha⟩
  exact ⟨d, hd, haddress⟩

theorem eq_twin (hx : t.skeleton x = some c) (hy : u.skeleton y = some d)
    (ha : u.skeleton.address y = t.skeleton.address x) : y = t.twin u x := by
  obtain ⟨e, he, htwin⟩ := exists_twin ht hu hx
  exact hu.sound.formed.address_injective hy he (ha.trans htwin.symm)

theorem twin_root : t.twin u root = root := by
  refine (eq_twin ht hu ht.sound.formed.root hu.sound.formed.root ?_).symm
  rw [hu.sound.formed.address_root, ht.sound.formed.address_root]

theorem twin_injective (hx : t.skeleton x = some c) (hy : t.skeleton y = some d)
    (hxy : t.twin u x = t.twin u y) : x = y := by
  obtain ⟨-, -, hxa⟩ := exists_twin ht hu hx
  obtain ⟨-, -, hya⟩ := exists_twin ht hu hy
  exact ht.sound.formed.address_injective hx hy (hxa.symm.trans (hxy ▸ hya))

theorem exists_eq_twin (hy : u.skeleton y = some d) :
    ∃ x c, t.skeleton x = some c ∧ t.twin u x = y := by
  have hin := (hu.exists_address_iff (u.skeleton.address y)).mp ⟨y, d, hy, rfl⟩
  obtain ⟨x, c, hx, ha⟩ := (ht.exists_address_iff (u.skeleton.address y)).mpr hin
  exact ⟨x, c, hx, (eq_twin ht hu hx hy ha.symm).symm⟩

theorem alike_twin (hx : t.skeleton x = some c) :
    ∃ d, u.skeleton (t.twin u x) = some d ∧ c.Alike (t.twin u) d := by
  have hF := ht.sound.formed
  have hG := hu.sound.formed
  by_cases hr : x = root
  · subst hr
    rw [hF.root] at hx
    obtain rfl := Option.some.inj hx
    refine ⟨Core.root, ?_, rfl, rfl, rfl, rfl, rfl, rfl, rfl⟩
    rw [twin_root ht hu, hG.root]
  · obtain ⟨d, hd, haddress⟩ := exists_twin ht hu hx
    obtain ⟨p, pc, hp, -, hpc, -⟩ := hF.parent hx hr
    rw [hF.address_eq hx hp] at haddress
    obtain ⟨q, qc, hq, hqc, hqa, hlabel⟩ := hG.exists_parent hd haddress
    have hparent : d.parent = c.parent.map (t.twin u) := by
      rw [hq, hp, Option.map_some, eq_twin ht hu hpc hqc hqa]
    have hcat := Core.isCategory_eq_of_label hlabel
    refine ⟨d, hd, ?_⟩
    cases hccat : c.isCategory with
    | true =>
      have hcf := hF.fits hx hr
      have hdf := hG.fits hd (hG.ne_root hd hq)
      cases hcf with
      | category s i _ hs hi hio =>
        cases hdf with
        | category s' j _ hs' hj hjo =>
          have hstep : s' = s := by
            simpa [Core.label, Core.isCategory, hi, hj, SortKey.step_category hs,
              SortKey.step_category hs'] using hlabel
          subst hstep
          refine ⟨hlabel, hcat, hjo.trans hio.symm, rfl, ?_, rfl, hparent⟩
          simp [SortKey.withoutNumber, SortKey.category, hio, hjo]
        | document j _ _ _ hj => exact absurd ((hcat.trans hccat).symm.trans hj) (by decide)
      | document i _ _ _ hi => exact absurd (hccat.symm.trans hi) (by decide)
    | false =>
      obtain ⟨placing, -, hrow, -, -, hcore⟩ := ht.shows.documents hx hccat
      obtain ⟨placing', -, hrow', -, -, hcore'⟩ := hu.shows.documents hd (hcat.trans hccat)
      have hid : d.scopedId = c.scopedId := by
        rw [Core.label_document hccat, Core.label_document (hcat.trans hccat)] at hlabel
        exact Label.document.inj hlabel
      rw [hid, hrow] at hrow'
      obtain rfl := Option.some.inj hrow'
      rw [hid] at hcore'
      rw [hcore, hcore'] at hlabel hcat ⊢
      exact ⟨hlabel, hcat, rfl, rfl, rfl, rfl, hparent⟩

theorem line_twin (hx : t.skeleton x = some c) :
    u.skeleton.line (t.twin u x) = (t.skeleton.line x).map (t.twin u) := by
  have hreached := ht.sound.formed.reached hx
  clear hx
  induction hreached with
  | root =>
    rw [twin_root ht hu, ht.sound.formed.line_root, hu.sound.formed.line_root, List.map_singleton,
      twin_root ht hu]
  | @child x c p hx hp _ ih =>
    obtain ⟨d, hd, halike⟩ := alike_twin ht hu hx
    have hdp : d.parent = some (t.twin u p) := by rw [halike.parent, hp, Option.map_some]
    rw [ht.sound.formed.line_eq hx hp, hu.sound.formed.line_eq hd hdp, List.map_cons, ih]

theorem kids_twin (hx : t.skeleton x = some c) :
    u.skeleton.kids u.nextEntry (t.twin u x) =
      (t.skeleton.kids t.nextEntry x).image (t.twin u) := by
  ext y
  rw [Skeleton.mem_kids hu.sound.formed, Finset.mem_image]
  constructor
  · rintro ⟨d, hy, hyp⟩
    obtain ⟨z, c', hz, rfl⟩ := exists_eq_twin ht hu hy
    obtain ⟨d', hd', halike⟩ := alike_twin ht hu hz
    obtain rfl := Option.some.inj (hy.symm.trans hd')
    obtain ⟨p, hp, hpx⟩ := Option.map_eq_some_iff.mp (halike.parent.symm.trans hyp)
    obtain ⟨pc, hpc, -⟩ := ht.sound.formed.parent_category hz hp
    obtain rfl := twin_injective ht hu hpc hx hpx
    exact ⟨z, (Skeleton.mem_kids ht.sound.formed).mpr ⟨c', hz, hp⟩, rfl⟩
  · rintro ⟨z, hz, rfl⟩
    obtain ⟨c', hz, hp⟩ := (Skeleton.mem_kids ht.sound.formed).mp hz
    obtain ⟨d, hd, halike⟩ := alike_twin ht hu hz
    exact ⟨d, hd, by rw [halike.parent, hp, Option.map_some]⟩

theorem below_twin (hx : t.skeleton x = some c) :
    u.skeleton.below u.nextEntry (t.twin u x) =
      (t.skeleton.below t.nextEntry x).image (t.twin u) := by
  have hF := ht.sound.formed
  have hG := hu.sound.formed
  obtain ⟨d, hd, hdx⟩ := exists_twin ht hu hx
  have hline : ∀ {z c'}, t.skeleton z = some c' →
      (t.twin u x ∈ u.skeleton.line (t.twin u z) ↔ x ∈ t.skeleton.line z) := by
    intro z c' hz
    obtain ⟨d', hd', hdz⟩ := exists_twin ht hu hz
    rw [hG.mem_line_iff_prefix hd hd', hF.mem_line_iff_prefix hx hz, hdx, hdz]
  ext y
  rw [Skeleton.mem_below hG, Finset.mem_image]
  constructor
  · rintro ⟨⟨d', hy⟩, hne, hmem⟩
    obtain ⟨z, c', hz, rfl⟩ := exists_eq_twin ht hu hy
    refine ⟨z, (Skeleton.mem_below hF).mpr ⟨⟨c', hz⟩, ?_, (hline hz).mp hmem⟩, rfl⟩
    intro heq
    exact hne (congrArg _ heq)
  · rintro ⟨z, hz, rfl⟩
    obtain ⟨⟨c', hz⟩, hne, hmem⟩ := (Skeleton.mem_below hF).mp hz
    obtain ⟨d', hd', -⟩ := exists_twin ht hu hz
    exact ⟨⟨d', hd'⟩, fun heq => hne (twin_injective ht hu hz hx heq), (hline hz).mpr hmem⟩

/-- Twins have the same counters. -/
theorem count_twin (hx : t.skeleton x = some c) :
    u.skeleton.count u.nextEntry (t.twin u x) = t.skeleton.count t.nextEntry x := by
  have hlive : ∀ {s : Finset EntryId}, (∀ y ∈ s, ∃ c, t.skeleton y = some c) →
      Set.InjOn (t.twin u) ↑s := by
    intro s hs y hy z hz hyz
    obtain ⟨cy, hcy⟩ := hs y hy
    obtain ⟨cz, hcz⟩ := hs z hz
    exact twin_injective ht hu hcy hcz hyz
  have hsection : ∀ {s : Finset EntryId} (isCategory : Bool),
      (∀ y ∈ s, ∃ c, t.skeleton y = some c) →
      (((s.image (t.twin u)).filter fun y => u.skeleton.isCategoryAt y = isCategory).card =
        (s.filter fun y => t.skeleton.isCategoryAt y = isCategory).card) := by
    intro s isCategory hs
    rw [Finset.filter_image]
    have hcat : ∀ y ∈ s, u.skeleton.isCategoryAt (t.twin u y) = t.skeleton.isCategoryAt y := by
      intro y hy
      obtain ⟨cy, hcy⟩ := hs y hy
      obtain ⟨d, hd, halike⟩ := alike_twin ht hu hcy
      rw [Skeleton.isCategoryAt, Skeleton.isCategoryAt, hd, hcy, Option.any_some, Option.any_some,
        halike.isCategory]
    rw [Finset.filter_congr fun y hy => by rw [hcat y hy]]
    exact Finset.card_image_of_injOn (hlive fun y hy => hs y (Finset.mem_filter.mp hy).1)
  have hkids : ∀ y ∈ t.skeleton.kids t.nextEntry x, ∃ c, t.skeleton y = some c := by
    intro y hy
    obtain ⟨c', hc', -⟩ := (Skeleton.mem_kids ht.sound.formed).mp hy
    exact ⟨c', hc'⟩
  have hbelow : ∀ y ∈ t.skeleton.below t.nextEntry x, ∃ c, t.skeleton y = some c :=
    fun y hy => ((Skeleton.mem_below ht.sound.formed).mp hy).1
  simp only [Skeleton.count, Skeleton.categoriesIn, Skeleton.documentsIn, kids_twin ht hu hx,
    below_twin ht hu hx, hsection true hkids, hsection false hkids, hsection true hbelow,
    hsection false hbelow, Finset.card_image_of_injOn (hlive hkids),
    Finset.card_image_of_injOn (hlive hbelow)]

end

end Tree

end CategorizedIndex
