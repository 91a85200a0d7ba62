import CategorizedIndex.Proofs.History.Alike
import CategorizedIndex.Proofs.Statistics
import CategorizedIndex.Proofs.Tree.EntryAt

/-! # Applying a change again

A change that succeeded leads to the same table again, so it succeeds again. Its documents
give up their placements and get new ones at the same places; every category is refilled
before it would be pruned, so nothing changes but the handles of these documents.
-/
namespace CategorizedIndex

namespace Tree

/-- The second tree is the first, but for the handles of documents with accepted additions. -/
structure Renewed (change : Change) (accepted : Finset UInt64) (f : EntryId → EntryId)
    (t u : Tree) : Prop where
  /-- The handle of every other entry stays. -/
  moved : ∀ {x e}, t.get? x = some e → f x ≠ x →
    e.isCategory = false ∧ e.scopedId.origin = change.origin ∧ e.scopedId.id ∈ accepted
  entries : ∀ {x e}, t.get? x = some e → ∃ d, u.get? (f x) = some d ∧ d.core = e.core ∧
    d.children.ids = e.children.ids.map f ∧ d.counters = e.counters ∧
    (x ≠ root → d.rank = e.rank)
  onto : ∀ {y d}, u.get? y = some d → ∃ x e, t.get? x = some e ∧ f x = y
  injective : ∀ {x y d e}, t.get? x = some d → t.get? y = some e → f x = f y → x = y
  positions : ∀ p, u.entryAt? p = (t.entryAt? p).map f

variable {config : Config} {filter : Option RowFilter} {change : Change} {batch : Batch}
  {t u : Tree} {T : Table} {x : EntryId} {e : Entry}

section

variable (ht : t.Settled config T) (hu : u.Settled config T)
include ht hu

theorem groups_twin (hx : t.get? x = some e) (hcat : e.isCategory = true) :
    ∃ d, u.get? (t.twin u x) = some d ∧ d.isCategory = true ∧
      u.groups (t.twin u x) = t.groups x := by
  obtain ⟨d, hd, halike⟩ := get?_twin ht hu hx
  obtain ⟨-, -, haddress⟩ := exists_twin ht hu (skeleton_eq_some hx)
  have hdcat : d.isCategory = true := halike.isCategory.trans hcat
  rw [address_eq_groups hu.sound.formed hd hdcat, address_eq_groups ht.sound.formed hx hcat]
    at haddress
  exact ⟨d, hd, hdcat, Label.map_category_injective haddress⟩

theorem chains_subset : t.chains ⊆ u.chains := by
  intro chain hchain
  obtain ⟨x, e, hx, hcat, hr, rfl⟩ := mem_chains.mp hchain
  obtain ⟨d, hd, hdcat, hgroups⟩ := groups_twin ht hu hx hcat
  refine mem_chains.mpr ⟨t.twin u x, d, hd, hdcat, fun heq => hr ?_, hgroups⟩
  exact twin_injective ht hu (skeleton_eq_some hx) ht.sound.formed.root
    (heq.trans (twin_root ht hu).symm)

theorem entryAt?_twin (p : List Nat) : u.entryAt? p = (t.entryAt? p).map (t.twin u) := by
  refine Option.ext fun y => ?_
  rw [hu.entryAt?_eq_some_iff, Option.map_eq_some_iff]
  constructor
  · rintro ⟨⟨d, hd⟩, hr, rfl⟩
    obtain ⟨x, c, hx, rfl⟩ := exists_eq_twin ht hu (skeleton_eq_some hd)
    obtain ⟨e, he, -⟩ := skeleton_eq_some_iff.mp hx
    refine ⟨x, ht.entryAt?_eq_some_iff.mpr ⟨⟨e, he⟩, fun heq => hr ?_, ?_⟩, rfl⟩
    · rw [heq, twin_root ht hu]
    · exact (position_twin ht hu he).symm
  · rintro ⟨x, hx, rfl⟩
    obtain ⟨⟨e, he⟩, hr, rfl⟩ := ht.entryAt?_eq_some_iff.mp hx
    obtain ⟨d, hd, -⟩ := get?_twin ht hu he
    refine ⟨⟨d, hd⟩, fun heq => hr ?_, position_twin ht hu he⟩
    exact twin_injective ht hu (skeleton_eq_some he) ht.sound.formed.root
      (heq.trans (twin_root ht hu).symm)

end

section Commit

variable (hprepare : change.prepare config filter = .ok batch) (ht : t.Settled config T)
  (hT : batch.table T = T)
include hprepare ht hT

theorem settled_again : (t.commit config batch).1.Settled config T := by
  have hu := ht.commit (Change.prepare_fits hprepare)
  rwa [hT] at hu

theorem twin_category (hx : t.get? x = some e) (hcat : e.isCategory = true) :
    t.twin (t.commit config batch).1 x = x := by
  obtain ⟨d, hd, hdcat, hgroups⟩ := groups_twin ht (settled_again hprepare ht hT) hx hcat
  exact (ht.denotes_commit (Change.prepare_fits hprepare) (denotes_groups hx hcat)
    (hgroups ▸ denotes_groups hd hdcat)).1.symm

theorem twin_parent {p : EntryId} (hx : t.get? x = some e) (hp : e.parent = some p) :
    t.twin (t.commit config batch).1 p = p := by
  obtain ⟨pc, hpc, hcat⟩ := ht.sound.formed.parent_category (skeleton_eq_some hx) hp
  obtain ⟨pe, hpe, rfl⟩ := skeleton_eq_some_iff.mp hpc
  exact twin_category hprepare ht hT hpe hcat

theorem twin_document (hx : t.get? x = some e) (hdoc : e.isCategory = false)
    (hnot : change.mentions e.scopedId = false) : t.twin (t.commit config batch).1 x = x := by
  have hu := settled_again hprepare ht hT
  obtain ⟨d, hd, hcore⟩ := ht.document_commit (Change.prepare_fits hprepare) hx hdoc
    (not_mem_of_mentions hprepare hnot)
  obtain ⟨p, pc, hp, -, hpc, -⟩ := ht.sound.formed.parent (skeleton_eq_some hx)
    (ht.sound.formed.ne_root_of_document (skeleton_eq_some hx) hdoc)
  obtain ⟨-, -, hpaddress⟩ := exists_twin ht hu hpc
  rw [twin_parent hprepare ht hT hx hp] at hpaddress
  refine (eq_twin ht hu (skeleton_eq_some hx) (skeleton_eq_some hd) ?_).symm
  rw [ht.sound.formed.address_eq (skeleton_eq_some hx) hp,
    hu.sound.formed.address_eq (skeleton_eq_some hd) (hcore ▸ hp), hpaddress, hcore]

theorem core_twin {d : Entry} (hx : t.get? x = some e)
    (hd : (t.commit config batch).1.get? (t.twin (t.commit config batch).1 x) = some d) :
    d.core = e.core := by
  have hu := settled_again hprepare ht hT
  have halike := entry_alike_twin ht hu hx hd
  cases hcat : e.isCategory with
  | true =>
    rw [twin_category hprepare ht hT hx hcat] at hd
    have hb := ht.booked_commit (Change.prepare_fits hprepare) (Change.prepare_nodup hprepare)
    exact (hb.counted.core_eq ht.sound hx hd).symm
  | false =>
    have hparent : d.parent = e.parent := by
      obtain ⟨p, -, hp, -⟩ := ht.sound.formed.parent (skeleton_eq_some hx)
        (ht.sound.formed.ne_root_of_document (skeleton_eq_some hx) hcat)
      have hep : e.parent = some p := hp
      rw [halike.parent, hep, Option.map_some, twin_parent hprepare ht hT hx hep]
    obtain ⟨placing, -, hrow, -, -, hcore⟩ := ht.shows.documents (skeleton_eq_some hx) hcat
    obtain ⟨placing', -, hrow', -, -, hcore'⟩ :=
      hu.shows.documents (skeleton_eq_some hd) (halike.isCategory.trans hcat)
    have hid : d.core.scopedId = e.core.scopedId := halike.scopedId hcat
    rw [hid, hrow] at hrow'
    obtain rfl := Option.some.inj hrow'
    have hcoreParent : d.core.parent = e.core.parent := hparent
    rw [hcore', hcore, hid, hcoreParent]

theorem renewed_commit : t.Renewed change (change.accepted config filter)
    (t.twin (t.commit config batch).1) (t.commit config batch).1 := by
  have hu := settled_again hprepare ht hT
  constructor
  case moved =>
    intro x e hx hne
    have hdoc : e.isCategory = false := Bool.eq_false_iff.mpr
      fun hcat => hne (twin_category hprepare ht hT hx hcat)
    have hmentions : change.mentions e.scopedId = true := by
      by_contra hnot
      exact hne (twin_document hprepare ht hT hx hdoc (Bool.eq_false_iff.mpr hnot))
    obtain ⟨placing, -, hrow, -⟩ := ht.shows.documents (skeleton_eq_some hx) hdoc
    rw [← hT] at hrow
    exact ⟨hdoc, (Change.mentions_iff_mem_ids.mp hmentions).1,
      Change.accepted_of_table hprepare hmentions hrow⟩
  case entries =>
    intro x e hx
    obtain ⟨d, hd, -⟩ := get?_twin ht hu hx
    have halike := entry_alike_twin ht hu hx hd
    exact ⟨d, hd, core_twin hprepare ht hT hx hd, halike.children, halike.counters,
      rank_twin ht hu hx hd⟩
  case onto =>
    intro y d hy
    obtain ⟨x, c, hx, hxy⟩ := exists_eq_twin ht hu (skeleton_eq_some hy)
    obtain ⟨e, he, -⟩ := skeleton_eq_some_iff.mp hx
    exact ⟨x, e, he, hxy⟩
  case injective =>
    exact fun hx hy hxy => twin_injective ht hu (skeleton_eq_some hx) (skeleton_eq_some hy) hxy
  case positions => exact entryAt?_twin ht hu

end Commit

end Tree

theorem Change.table_again {config : Config} {filter : Option RowFilter} {change : Change}
    {batch : Batch} (hprepare : change.prepare config filter = .ok batch) (T : Table) :
    batch.table (batch.table T) = batch.table T := by
  funext s
  rw [table_eq hprepare, table_eq hprepare T]
  split <;> rfl

namespace Index

variable {name : String} {config : Config} {filter : Option RowFilter} {x y : Index}
  {change : Change} {stats : Stats} {T : Table}

/-- What a change does when it is applied once more. -/
structure Repeated (change : Change) (stats : Stats) (y z : Index) (again : Stats) : Prop where
  removed : again.removed = stats.added
  added : again.added = stats.added
  rejected : again.rejected = stats.rejected
  categoriesCreated : again.categoriesCreated = 0
  categoriesPruned : again.categoriesPruned = 0
  /-- Categories are the same entries with the same ids. -/
  categories : ∀ {a e}, y.tree.get? a = some e → e.isCategory = true →
    ∃ d, z.tree.get? a = some d ∧ d.core = e.core
  categoriesOnly : ∀ {a d}, z.tree.get? a = some d → d.isCategory = true →
    ∃ e, y.tree.get? a = some e ∧ e.isCategory = true
  renewed : ∃ f, y.tree.Renewed change (change.accepted y.config y.filter) f z.tree

theorem sum_placements_again {batch : Batch} {U : Table} (hU : y.Maintains U)
    (hprepare : change.prepare y.config y.filter = .ok batch) (hagain : batch.table U = U) :
    ∑ id ∈ change.ids, (y.tree.placementsOf ⟨change.origin, id⟩).length =
      ∑ id ∈ change.accepted y.config y.filter,
        (y.tree.placementsOf ⟨change.origin, id⟩).length := by
  refine (Finset.sum_subset (fun id hid => ?_) fun id hid hnot => ?_).symm
  · exact Finset.mem_union_right _ (Finset.mem_filter.mp hid).1
  · rw [List.length_eq_zero_iff, hU.settled.sound.placementsOf_eq_nil_iff]
    intro a e he hs
    have hmentions : change.mentions e.scopedId = true :=
      hs ▸ Change.mentions_iff_mem_ids.mpr ⟨rfl, hid⟩
    have hdoc : e.isCategory = false := Tree.isCategory_of_mentions hprepare hmentions
    obtain ⟨placing, -, hrow, -⟩ :=
      hU.settled.shows.documents (Tree.skeleton_eq_some he) hdoc
    rw [← hagain] at hrow
    have haccepted := Change.accepted_of_table hprepare hmentions hrow
    rw [hs] at haccepted
    exact hnot haccepted

theorem Maintains.repeated {batch : Batch} (h : y.Maintains T)
    (hprepare : change.prepare y.config y.filter = .ok batch) (hagain : batch.table T = T)
    (hadded : stats.added = ∑ id ∈ change.accepted y.config y.filter,
      (y.tree.placementsOf ⟨change.origin, id⟩).length)
    (hrejected : stats.rejected = (change.vetoed y.config y.filter).card) :
    ∃ z again, y.apply change = .ok (z, again) ∧ Repeated change stats y z again := by
  have ht := h.settled
  have happly := h.apply_of_oneKind hprepare (by rw [hagain]; exact h.oneKind)
  have haccounts := h.accounts happly
  have hu := Tree.settled_again hprepare ht hagain
  have hrenewed := Tree.renewed_commit hprepare ht hagain
  refine ⟨_, _, happly, ?_⟩
  constructor
  case removed =>
    rw [haccounts.removed, hadded]
    exact sum_placements_again h hprepare hagain
  case added =>
    rw [haccounts.added, hadded]
    refine Finset.sum_congr rfl fun id hid => ?_
    have hdoc : (ScopedId.mk change.origin id).isCategory = false :=
      Tree.isCategory_of_mentions hprepare (Change.mentions_iff_mem_ids.mpr
        ⟨rfl, Finset.mem_union_right _ (Finset.mem_filter.mp hid).1⟩)
    rw [(Tree.placements_twin ht hu hdoc).length_eq, List.length_map]
  case rejected => exact haccounts.rejected.trans hrejected.symm
  case categoriesCreated =>
    rw [haccounts.created, Finset.sdiff_eq_empty_iff_subset.mpr (Tree.chains_subset hu ht),
      Finset.card_empty]
  case categoriesPruned =>
    rw [haccounts.pruned, Finset.sdiff_eq_empty_iff_subset.mpr (Tree.chains_subset ht hu),
      Finset.card_empty]
  case categories =>
    intro a e he hcat
    obtain ⟨d, hd, hcore, -⟩ := hrenewed.entries he
    rw [Tree.twin_category hprepare ht hagain he hcat] at hd
    exact ⟨d, hd, hcore⟩
  case categoriesOnly =>
    intro a d hd hcat
    obtain ⟨b, e, he, rfl⟩ := hrenewed.onto hd
    obtain ⟨d', hd', hcore, -⟩ := hrenewed.entries he
    obtain rfl := Option.some.inj (hd.symm.trans hd')
    have hecat : e.isCategory = true := (congrArg Core.isCategory hcore).symm.trans hcat
    rw [Tree.twin_category hprepare ht hagain he hecat]
    exact ⟨e, he, hecat⟩
  case renewed => exact ⟨_, hrenewed⟩

/-- A change that succeeded succeeds again at once, and only renews the documents it added. -/
theorem repeated_run (hbuild : build name config filter = .ok x) (operations : List Operation)
    (happly : (x.run operations).apply change = .ok (y, stats)) :
    ∃ z again, y.apply change = .ok (z, again) ∧ Repeated change stats y z again := by
  obtain ⟨T, hT⟩ := (maintains_build hbuild).run operations
  have haccounts := hT.accounts happly
  obtain ⟨batch, hprepare, hy⟩ := hT.apply happly
  obtain ⟨_, -, -, rfl, -⟩ := apply_eq_ok_iff.mp happly
  exact hy.repeated hprepare (Change.table_again hprepare T) haccounts.added haccounts.rejected

/-- Done again, the change that moved one row and turned a draft down takes both placements of
the row away and files it in the same two groups. -/
theorem repeated_moved_row :
    let published : RowFilter := fun row => row.unid != "draft"
    let x : Index := { grouped with filter := some published }
    let operations : List Operation :=
      [.change (filing 1 (.text "a")), .change (filing 2 (.text "b"))]
    let change := ((listing [.text "b", .text "c"]).remove 2).add 3 ⟨"draft", ∅⟩
    ∃ y stats z again, build "grouped" grouped.config (some published) = .ok x ∧
      (x.run operations).apply change = .ok (y, stats) ∧ y.apply change = .ok (z, again) ∧
      Repeated change stats y z again ∧ again.removed = 2 ∧ again.added = 2 := by
  intro published x operations change
  have hbuild : build "grouped" grouped.config (some published) = .ok x :=
    build_of_faultless (by decide +kernel)
  have hstats : ((x.run operations).apply change).toOption.map (·.2.added) = some 2 := by
    decide +kernel
  obtain ⟨stats, happly⟩ := @exists_apply_after (x.run operations) change
    (by rw [← Option.isSome_map, hstats]; rfl)
  rw [happly] at hstats
  have hadded : stats.added = 2 := Option.some.inj hstats
  obtain ⟨z, again, hagain, hrepeated⟩ := repeated_run hbuild operations happly
  exact ⟨_, stats, z, again, hbuild, happly, hagain, hrepeated, hrepeated.removed.trans hadded,
    hrepeated.added.trans hadded⟩

end Index

end CategorizedIndex
