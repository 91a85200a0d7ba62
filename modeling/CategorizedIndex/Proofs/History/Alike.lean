import CategorizedIndex.Proofs.History.Twins
import CategorizedIndex.Proofs.Skeleton.Census
import CategorizedIndex.Proofs.Tree.Find

/-! # Trees that are alike

Two trees are alike if they differ in nothing but the handles of entries and the numbers of
categories: entries correspond one to one, with their nesting, the order and the ranks of
siblings, their values and their counters. Trees that show one table are alike, and
searches for documents find the same in both.
-/
namespace CategorizedIndex

/-- The entries agree in everything but their handles and the numbers of categories. -/
structure Entry.Alike (f : EntryId → EntryId) (e d : Entry) : Prop where
  isCategory : d.isCategory = e.isCategory
  origin : d.scopedId.origin = e.scopedId.origin
  scopedId : e.isCategory = false → d.scopedId = e.scopedId
  unid : d.unid = e.unid
  key : d.key.withoutNumber = e.key.withoutNumber
  values : d.values = e.values
  parent : d.parent = e.parent.map f
  children : d.children.ids = e.children.ids.map f
  counters : d.counters = e.counters

namespace Tree

/-- One tree is the other up to the handles of entries and the numbers of categories. -/
structure Alike (f : EntryId → EntryId) (t u : Tree) : Prop where
  root : f root = root
  entries : ∀ {x e}, t.get? x = some e → ∃ d, u.get? (f x) = some d ∧ e.Alike f d
  onto : ∀ {y d}, u.get? y = some d → ∃ x e, t.get? x = some e ∧ f x = y
  injective : ∀ {x y e d}, t.get? x = some e → t.get? y = some d → f x = f y → x = y
  numbers : ∀ {x y e d e' d'}, t.get? x = some e → t.get? y = some d →
    u.get? (f x) = some e' → u.get? (f y) = some d' →
    (e'.scopedId = d'.scopedId ↔ e.scopedId = d.scopedId)
  ranks : ∀ {x e d}, t.get? x = some e → u.get? (f x) = some d → x ≠ Tree.root →
    d.rank = e.rank
  positions : ∀ {x e}, t.get? x = some e → u.position (f x) = t.position x
  levels : ∀ {x e}, t.get? x = some e → u.level? (f x) = t.level? x

def Precedes (t : Tree) (x y : EntryId) : Prop :=
  ∃ c d p, t.skeleton x = some c ∧ t.skeleton y = some d ∧ c.parent = some p ∧
    d.parent = some p ∧ c.key.cmp d.key = .lt

variable {config : Config} {t u : Tree} {T : Table} {x y : EntryId} {e d : Entry} {s : ScopedId}

theorem Precedes.not_precedes (h : t.Precedes x y) : ¬ t.Precedes y x := by
  obtain ⟨c, d, p, hc, hd, -, -, hlt⟩ := h
  rintro ⟨d', c', -, hd', hc', -, -, hgt⟩
  obtain rfl := Option.some.inj (hc.symm.trans hc')
  obtain rfl := Option.some.inj (hd.symm.trans hd')
  rw [SortKey.cmp_swap, hlt] at hgt
  cases hgt

section

variable (ht : t.Settled config T) (hu : u.Settled config T)
include ht hu

theorem get?_twin (hx : t.get? x = some e) :
    ∃ d, u.get? (t.twin u x) = some d ∧ e.core.Alike (t.twin u) d.core := by
  obtain ⟨_, hc, halike⟩ := alike_twin ht hu (skeleton_eq_some hx)
  obtain ⟨d, hd, rfl⟩ := skeleton_eq_some_iff.mp hc
  exact ⟨d, hd, halike⟩

omit hu in
theorem pairwise_precedes (hx : t.get? x = some e) : e.children.ids.Pairwise t.Precedes := by
  refine List.pairwise_map.mpr (List.Pairwise.imp_of_mem (fun {a b} ha hb hlt => ?_)
    (ht.sound.sorted hx))
  obtain ⟨k, y⟩ := a
  obtain ⟨l, z⟩ := b
  obtain ⟨c, hc, hcp, rfl⟩ := (ht.sound.children hx k y).mp ha
  obtain ⟨c', hc', hcp', rfl⟩ := (ht.sound.children hx l z).mp hb
  exact ⟨c, c', x, hc, hc', hcp, hcp', hlt⟩

theorem precedes_twin (h : t.Precedes x y) : u.Precedes (t.twin u x) (t.twin u y) := by
  have hF := ht.sound.formed
  obtain ⟨c, c', p, hc, hc', hcp, hcp', hlt⟩ := h
  obtain ⟨b, hb, halike⟩ := alike_twin ht hu hc
  obtain ⟨b', hb', halike'⟩ := alike_twin ht hu hc'
  have hxr := hF.ne_root hc hcp
  have hyr := hF.ne_root hc' hcp'
  have hne : c.label ≠ c'.label := by
    intro hlabel
    obtain rfl := hF.distinct hc hc' hxr hyr (hcp.trans hcp'.symm) hlabel
    obtain rfl := Option.some.inj (hc.symm.trans hc')
    rw [SortKey.cmp_self] at hlt
    cases hlt
  refine ⟨b, b', t.twin u p, hb, hb', ?_, ?_, ?_⟩
  · rw [halike.parent, hcp]
    rfl
  · rw [halike'.parent, hcp']
    rfl
  · rw [halike.cmp_key halike' (hF.fits hc hxr) (hF.fits hc' hyr) hne]
    exact hlt

theorem nodup_twins (hx : t.get? x = some e) : (e.children.ids.map (t.twin u)).Nodup := by
  have hkid : ∀ y ∈ e.children.ids, ∃ c, t.skeleton y = some c := by
    intro y hy
    rw [← List.mem_toFinset, ht.sound.toFinset_ids hx, Skeleton.mem_kids ht.sound.formed] at hy
    obtain ⟨c, hc, -⟩ := hy
    exact ⟨c, hc⟩
  refine (ht.sound.nodup_ids hx).map_on fun y hy z hz hyz => ?_
  obtain ⟨c, hc⟩ := hkid y hy
  obtain ⟨c', hc'⟩ := hkid z hz
  exact twin_injective ht hu hc hc' hyz

theorem children_twin (hx : t.get? x = some e) (hd : u.get? (t.twin u x) = some d) :
    d.children.ids = e.children.ids.map (t.twin u) := by
  have hmem : ∀ y, y ∈ d.children.ids ↔ y ∈ e.children.ids.map (t.twin u) := by
    intro y
    rw [← List.mem_toFinset, hu.sound.toFinset_ids hd, kids_twin ht hu (skeleton_eq_some hx),
      Finset.mem_image, List.mem_map]
    simp only [← ht.sound.toFinset_ids hx, List.mem_toFinset]
  have hperm := (List.perm_ext_iff_of_nodup (hu.sound.nodup_ids hd) (nodup_twins ht hu hx)).mpr hmem
  have hsorted : (e.children.ids.map (t.twin u)).Pairwise u.Precedes :=
    List.pairwise_map.mpr ((pairwise_precedes ht hx).imp (precedes_twin ht hu))
  exact hperm.eq_of_pairwise (fun y z _ _ hyz hzy => absurd hzy hyz.not_precedes)
    (pairwise_precedes hu hd) hsorted

theorem entry_alike_twin (hx : t.get? x = some e) (hd : u.get? (t.twin u x) = some d) :
    e.Alike (t.twin u) d := by
  obtain ⟨d', hd', halike⟩ := get?_twin ht hu hx
  obtain rfl := Option.some.inj (hd.symm.trans hd')
  constructor
  case isCategory => exact halike.isCategory
  case origin => exact halike.origin
  case scopedId =>
    intro hcat
    have hlabel := halike.label
    rw [Core.label_document (c := e.core) hcat,
      Core.label_document (c := d.core) (halike.isCategory.trans hcat)] at hlabel
    exact Label.document.inj hlabel
  case unid => exact halike.unid
  case key => exact halike.key
  case values => exact halike.values
  case parent => exact halike.parent
  case children => exact children_twin ht hu hx hd
  case counters =>
    rw [ht.sound.counters hx, hu.sound.counters hd, count_twin ht hu (skeleton_eq_some hx)]

/-- Twins stand at the same rank among their siblings. -/
theorem rank_twin (hx : t.get? x = some e) (hd : u.get? (t.twin u x) = some d) (hr : x ≠ root) :
    d.rank = e.rank := by
  have hcore := skeleton_eq_some hx
  obtain ⟨p, pc, hp, -, hpc, -⟩ := ht.sound.formed.parent hcore hr
  obtain ⟨pe, hpe, -⟩ := skeleton_eq_some_iff.mp hpc
  obtain ⟨pd, hpd, -⟩ := get?_twin ht hu hpe
  obtain ⟨i, hi⟩ := List.mem_iff_getElem?.mp
    ((ht.sound.children hpe e.key x).mpr ⟨e.core, hcore, hp, rfl⟩)
  have hrank := ht.rank_eq hpe hi
  rw [hx, Option.map_some] at hrank
  have hids : pd.children.ids[i]? = some (t.twin u x) := by
    rw [children_twin ht hu hpe hpd, Siblings.ids, List.getElem?_map, List.getElem?_map, hi]
    rfl
  rw [Siblings.ids, List.getElem?_map] at hids
  obtain ⟨⟨k, y⟩, hk, rfl⟩ := Option.map_eq_some_iff.mp hids
  have hrank' := hu.rank_eq hpd hk
  rw [hd, Option.map_some] at hrank'
  exact (Option.some.inj hrank').trans (Option.some.inj hrank).symm

theorem position_twin (hx : t.get? x = some e) : u.position (t.twin u x) = t.position x := by
  have hF := ht.sound.formed
  have hreached := hF.reached (skeleton_eq_some hx)
  induction hreached generalizing e with
  | root => rw [twin_root ht hu, position_root hF, position_root hu.sound.formed]
  | @child x c p hc hp _ ih =>
    obtain ⟨d, hd, halike⟩ := get?_twin ht hu hx
    have hep : e.parent = some p := by
      rw [← hp, ← Option.some.inj ((skeleton_eq_some hx).symm.trans hc)]
      rfl
    have hdp : d.parent = some (t.twin u p) := halike.parent.trans (congrArg (Option.map _) hep)
    obtain ⟨pc, hpc, -⟩ := hF.parent_category hc hp
    obtain ⟨pe, hpe, -⟩ := skeleton_eq_some_iff.mp hpc
    rw [position_child hu.sound.formed hd hdp, position_child hF hx hep, ih hpe,
      rank_twin ht hu hx hd (hF.ne_root hc hp)]

theorem level_twin (hx : t.get? x = some e) : u.level? (t.twin u x) = t.level? x := by
  obtain ⟨d, hd, -⟩ := get?_twin ht hu hx
  rw [level?_eq hu.sound.formed hd, level?_eq ht.sound.formed hx,
    line_twin ht hu (skeleton_eq_some hx), List.length_map]

/-- While category numbers last, trees that show one table are alike. -/
theorem alike_of_settled (htlast : t.lastCategory < 2 ^ 63) (hulast : u.lastCategory < 2 ^ 63) :
    t.Alike (t.twin u) u := by
  constructor
  case root => exact twin_root ht hu
  case entries =>
    intro x e hx
    obtain ⟨d, hd, -⟩ := get?_twin ht hu hx
    exact ⟨d, hd, entry_alike_twin ht hu hx hd⟩
  case onto =>
    intro y d hy
    obtain ⟨x, c, hx, hxy⟩ := exists_eq_twin ht hu (skeleton_eq_some hy)
    obtain ⟨e, he, -⟩ := skeleton_eq_some_iff.mp hx
    exact ⟨x, e, he, hxy⟩
  case injective =>
    exact fun hx hy hxy => twin_injective ht hu (skeleton_eq_some hx) (skeleton_eq_some hy) hxy
  case numbers =>
    intro x y e d e' d' hx hy hx' hy'
    have hxe := entry_alike_twin ht hu hx hx'
    have hyd := entry_alike_twin ht hu hy hy'
    have hcategory : ∀ {a b : Entry}, a.scopedId = b.scopedId → a.isCategory = b.isCategory :=
      fun hab => congrArg ScopedId.isCategory hab
    cases hcat : e.isCategory with
    | true =>
      constructor
      · intro heq
        have hxy := (hu.numbered hulast).2 _ _ _ _ (skeleton_eq_some hx') (skeleton_eq_some hy')
          (hxe.isCategory.trans hcat) heq
        obtain rfl := twin_injective ht hu (skeleton_eq_some hx) (skeleton_eq_some hy) hxy
        rw [Option.some.inj (hx.symm.trans hy)]
      · intro heq
        obtain rfl := (ht.numbered htlast).2 _ _ _ _ (skeleton_eq_some hx) (skeleton_eq_some hy)
          hcat heq
        rw [Option.some.inj (hx'.symm.trans hy')]
    | false =>
      rw [hxe.scopedId hcat]
      constructor
      · intro heq
        have hd : d.isCategory = false := by
          rw [← hyd.isCategory, ← hcategory heq, hcat]
        rw [heq, hyd.scopedId hd]
      · intro heq
        rw [heq, hyd.scopedId ((hcategory heq).symm.trans hcat)]
  case ranks => exact fun hx hd hr => rank_twin ht hu hx hd hr
  case positions => exact position_twin ht hu
  case levels => exact level_twin ht hu

theorem snapshot_twin (hx : t.get? x = some e) (hcat : e.isCategory = false) :
    u.snapshot? (t.twin u x) = t.snapshot? x := by
  obtain ⟨d, hd, -⟩ := get?_twin ht hu hx
  have halike := entry_alike_twin ht hu hx hd
  have hr := ht.sound.formed.ne_root_of_document (skeleton_eq_some hx) hcat
  rw [snapshot?_eq, snapshot?_eq, hd, hx, Option.bind_some, Option.bind_some, level_twin ht hu hx,
    position_twin ht hu hx, halike.scopedId hcat, halike.unid, halike.isCategory, halike.values,
    rank_twin ht hu hx hd hr, halike.counters]

theorem placements_twin (hs : s.isCategory = false) :
    (u.placementsOf s).Perm ((t.placementsOf s).map (t.twin u)) := by
  have hF := ht.sound.formed
  have hG := hu.sound.formed
  rw [ht.sound.placements, hu.sound.placements]
  refine (List.perm_ext_iff_of_nodup (Skeleton.nodup_placed _ _ _) ?_).mpr fun y => ?_
  · refine (Skeleton.nodup_placed _ _ _).map_on fun y hy z hz hyz => ?_
    obtain ⟨c, hc, -⟩ := (Skeleton.mem_placed hF).mp hy
    obtain ⟨c', hc', -⟩ := (Skeleton.mem_placed hF).mp hz
    exact twin_injective ht hu hc hc' hyz
  · have hid : ∀ {x c d}, t.skeleton x = some c → u.skeleton (t.twin u x) = some d →
        (d.scopedId = s ↔ c.scopedId = s) := by
      intro x c d hc hd
      obtain ⟨e, he, rfl⟩ := skeleton_eq_some_iff.mp hc
      obtain ⟨b, hb, rfl⟩ := skeleton_eq_some_iff.mp hd
      have halike := entry_alike_twin ht hu he hb
      constructor
      · intro hbs
        have hcat : e.isCategory = false := by
          rw [← halike.isCategory]
          exact (congrArg ScopedId.isCategory hbs).trans hs
        exact (halike.scopedId hcat).symm.trans hbs
      · intro hes
        have hcat : e.isCategory = false := (congrArg ScopedId.isCategory hes).trans hs
        exact (halike.scopedId hcat).trans hes
    rw [Skeleton.mem_placed hG, List.mem_map]
    constructor
    · rintro ⟨d, hd, hds⟩
      obtain ⟨x, c, hx, rfl⟩ := exists_eq_twin ht hu hd
      exact ⟨x, (Skeleton.mem_placed hF).mpr ⟨c, hx, (hid hx hd).mp hds⟩, rfl⟩
    · rintro ⟨x, hx, rfl⟩
      obtain ⟨c, hc, hcs⟩ := (Skeleton.mem_placed hF).mp hx
      obtain ⟨d, hd, -⟩ := exists_twin ht hu hc
      exact ⟨d, hd, (hid hc hd).mpr hcs⟩

theorem find_twin (hs : s.isCategory = false) : u.find s = t.find s := by
  refine hu.find_eq_of_perm ?_
  refine ((placements_twin ht hu hs).filterMap _).trans (List.Perm.of_eq ?_)
  rw [List.filterMap_map]
  refine List.filterMap_congr fun x hx => ?_
  rw [ht.sound.placements, Skeleton.mem_placed ht.sound.formed] at hx
  obtain ⟨c, hc, hcs⟩ := hx
  obtain ⟨e, he, rfl⟩ := skeleton_eq_some_iff.mp hc
  exact snapshot_twin ht hu he ((congrArg ScopedId.isCategory hcs).trans hs)

end

end Tree

end CategorizedIndex
