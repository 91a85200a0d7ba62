import CategorizedIndex.Proofs.History.Rebuild
import CategorizedIndex.Proofs.Tree.Groups
import CategorizedIndex.Proofs.Tree.Placements
import Mathlib.Data.List.Dedup

/-! # Answers

What an index tells about its documents is told by its ledger: which documents there are,
of which origins, and where each of them stands. A document is found once at the end of
each of its category paths, with the values of its row.
-/
namespace CategorizedIndex.Tree

/-- The tree answers from the rows of a ledger. -/
structure Answers (config : Config) (filter : Option RowFilter) (L : Ledger) (t : Tree) :
    Prop where
  documentCount : t.documentCount = L.size
  origins : t.origins = L.origins
  idsOf : ∀ origin, t.idsOf origin = L.idsOf origin
  unknown : ∀ s : ScopedId, s.isCategory = false → L[s]? = none → t.find s = []
  placements : ∀ (s : ScopedId) (a : Addition) p, L[s]? = some a →
    a.placing? config filter s = some p → ((t.placementsOf s).map t.groups).Perm p.paths.dedup
  found : ∀ (s : ScopedId) (a : Addition) p, L[s]? = some a →
    a.placing? config filter s = some p →
    (t.find s).length = p.paths.dedup.length ∧
    ((t.find s).Pairwise fun a b => Position.cmp a.position b.position = .lt) ∧
    ∀ snapshot ∈ t.find s, snapshot.scopedId = s ∧ snapshot.unid = a.unid ∧
      snapshot.values = p.values ∧ ∃ x ∈ t.placementsOf s, t.snapshot? x = some snapshot

variable {config : Config} {filter : Option RowFilter} {t : Tree} {T : Table} {L : Ledger}
  {n p x : EntryId} {e : Entry} {s : ScopedId}

theorem Settled.mem_placementsOf (h : t.Settled config T) (hs : s.isCategory = false) :
    x ∈ t.placementsOf s ↔ ∃ e, t.get? x = some e ∧ e.scopedId = s ∧ e.isCategory = false := by
  rw [h.sound.mem_placementsOf]
  refine exists_congr fun e => and_congr_right fun _ => (and_iff_left_of_imp fun hes => ?_).symm
  rw [Entry.isCategory, hes, hs]

theorem Settled.groups_perm (h : t.Settled config T) (hs : s.isCategory = false)
    {placing : Placing} (hrow : T s = some placing) :
    ((t.placementsOf s).map t.groups).Perm placing.paths.dedup := by
  have hF := h.sound.formed
  refine (List.perm_ext_iff_of_nodup ?_ (List.nodup_dedup _)).mpr fun path => ?_
  · refine (h.sound.placements s ▸ Skeleton.nodup_placed _ _ _).map_on fun x hx y hy hxy => ?_
    obtain ⟨e, he, hes, hecat⟩ := (h.mem_placementsOf hs).mp hx
    obtain ⟨d, hd, hds, hdcat⟩ := (h.mem_placementsOf hs).mp hy
    refine hF.address_injective (skeleton_eq_some he) (skeleton_eq_some hd) ?_
    rw [documentAddress_groups hF he hecat, documentAddress_groups hF hd hdcat, hxy, hes, hds]
  · rw [List.mem_map, List.mem_dedup]
    constructor
    · rintro ⟨x, hx, rfl⟩
      obtain ⟨e, he, rfl, hcat⟩ := (h.mem_placementsOf hs).mp hx
      obtain ⟨placing', path, hrow', hpath, haddress, -⟩ :=
        h.shows.documents (skeleton_eq_some he) hcat
      obtain rfl := Option.some.inj (hrow.symm.trans hrow')
      rw [documentAddress_groups hF he hcat] at haddress
      rwa [(Skeleton.documentAddress_injective haddress).1]
    · intro hpath
      obtain ⟨x, c, hx, rfl, haddress⟩ := h.shows.complete hrow hpath
      obtain ⟨e, he, rfl⟩ := skeleton_eq_some_iff.mp hx
      refine ⟨x, (h.mem_placementsOf hs).mpr ⟨e, he, rfl, hs⟩, ?_⟩
      rw [documentAddress_groups hF he hs] at haddress
      exact (Skeleton.documentAddress_injective haddress).1

theorem Settled.length_find (h : t.Settled config T) (hs : s.isCategory = false) :
    (t.find s).length = (t.placementsOf s).length := by
  rw [(t.find_perm s).length_eq, List.filterMap_length_eq_length]
  intro x hx
  obtain ⟨e, he, -, hcat⟩ := (h.mem_placementsOf hs).mp hx
  have hr := h.sound.formed.ne_root_of_document (skeleton_eq_some he) hcat
  obtain ⟨snapshot, hsnapshot⟩ := exists_snapshot h.sound.formed he hr
  rw [hsnapshot]
  rfl

theorem Settled.mem_documents (h : t.Settled config T) :
    s ∈ t.documents ↔ ∃ placing, T s = some placing := by
  rw [documents, List.mem_filter, Std.ExtTreeMap.mem_keys, h.sound.mem_placements]
  constructor
  · rintro ⟨⟨x, e, he, rfl⟩, hdoc⟩
    have hcat : e.scopedId.isCategory = false := by simpa [ScopedId.isDocument] using hdoc
    obtain ⟨placing, -, hrow, -⟩ := h.shows.documents (skeleton_eq_some he) hcat
    exact ⟨placing, hrow⟩
  · rintro ⟨placing, hrow⟩
    obtain ⟨hs, hfits⟩ := h.fits s placing hrow
    obtain ⟨path, hpath⟩ := List.exists_mem_of_ne_nil _ hfits.paths
    obtain ⟨x, c, hx, hcs, -⟩ := h.shows.complete hrow hpath
    obtain ⟨e, he, rfl⟩ := skeleton_eq_some_iff.mp hx
    exact ⟨⟨x, e, he, hcs⟩, by simp [ScopedId.isDocument, hs]⟩

theorem ordered_documents (t : Tree) : t.documents.Pairwise fun a b => compare a b = .lt :=
  Std.ExtTreeMap.ordered_keys.sublist List.filter_sublist

theorem eq_of_ordered {l m : List ScopedId} (hl : l.Pairwise fun a b => compare a b = .lt)
    (hm : m.Pairwise fun a b => compare a b = .lt) (hmem : ∀ s, s ∈ l ↔ s ∈ m) : l = m := by
  have hne : ∀ {l : List ScopedId}, (l.Pairwise fun a b => compare a b = .lt) → l.Nodup :=
    fun hl => hl.imp fun hlt heq => by
      rw [heq, Std.ReflOrd.compare_self] at hlt
      cases hlt
  refine List.Perm.eq_of_pairwise (fun a b _ _ hab hba => ?_) hl hm
    ((List.perm_ext_iff_of_nodup (hne hl) (hne hm)).mpr hmem)
  rw [Std.OrientedOrd.eq_swap, hba] at hab
  cases hab

theorem Settled.documents_eq (h : t.Settled config (L.table config filter))
    (hL : L.Fits config filter) : t.documents = L.keys := by
  refine eq_of_ordered t.ordered_documents Std.ExtTreeMap.ordered_keys fun s => ?_
  rw [h.mem_documents, Std.ExtTreeMap.mem_keys, Std.ExtTreeMap.mem_iff_isSome_getElem?,
    Ledger.table]
  cases ha : L[s]? with
  | none => simp
  | some a =>
    obtain ⟨placing, hplacing⟩ := Option.isSome_iff_exists.mp (hL.placed ha)
    simp [hplacing]

/-- A tree that shows the table of a ledger answers from it. -/
theorem Settled.answers (h : t.Settled config (L.table config filter))
    (hL : L.Fits config filter) : t.Answers config filter L := by
  have hdocuments := h.documents_eq hL
  have hrow : ∀ {s : ScopedId} {a : Addition} {p}, L[s]? = some a →
      a.placing? config filter s = some p → L.table config filter s = some p := by
    intro s a p ha hp
    rw [Ledger.table, ha]
    exact hp
  constructor
  case documentCount => rw [documentCount, hdocuments, Std.ExtTreeMap.length_keys]
  case origins => rw [origins, hdocuments, Ledger.origins]
  case idsOf =>
    intro origin
    rw [idsOf, hdocuments, Ledger.idsOf]
  case unknown =>
    intro s hs hnone
    refine List.eq_nil_of_length_eq_zero ?_
    rw [h.length_find hs, List.length_eq_zero_iff]
    refine List.eq_nil_iff_forall_not_mem.mpr fun x hx => ?_
    obtain ⟨e, he, rfl, hcat⟩ := (h.mem_placementsOf hs).mp hx
    obtain ⟨placing, -, hrow, -⟩ := h.shows.documents (skeleton_eq_some he) hcat
    unfold Ledger.table at hrow
    rw [show L[e.core.scopedId]? = none from hnone] at hrow
    cases hrow
  case placements =>
    intro s a p ha hp
    exact h.groups_perm (hL.ids ha) (hrow ha hp)
  case found =>
    intro s a p ha hp
    have hs := hL.ids ha
    refine ⟨?_, h.pairwise_find_lt s, fun snapshot hmem => ?_⟩
    · rw [h.length_find hs, ← (h.groups_perm hs (hrow ha hp)).length_eq, List.length_map]
    · obtain ⟨x, hx, hsnapshot⟩ := mem_find.mp hmem
      obtain ⟨e, he, hid, hunid, hvalues, -⟩ := snapshot?_eq_some hsnapshot
      obtain ⟨e', he', hes, hcat⟩ := (h.mem_placementsOf hs).mp hx
      obtain rfl := Option.some.inj (he.symm.trans he')
      obtain ⟨placing, -, hrow', -, -, hcore⟩ := h.shows.documents (skeleton_eq_some he) hcat
      have hplacing : p = placing := by
        rw [show e.core.scopedId = s from hes, hrow ha hp] at hrow'
        exact Option.some.inj hrow'
      refine ⟨hid.trans hes, ?_, ?_, x, hx, hsnapshot⟩
      · rw [hunid, ← Addition.unid_of_placing hp, hplacing]
        exact congrArg Core.unid hcore
      · rw [hvalues, hplacing]
        exact congrArg Core.values hcore

end CategorizedIndex.Tree
