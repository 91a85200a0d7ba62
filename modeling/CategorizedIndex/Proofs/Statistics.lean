import CategorizedIndex.Proofs.FanOut
import CategorizedIndex.Proofs.Identity
import CategorizedIndex.Proofs.Statistics.Balance

/-! # Statistics account for a change

The statistics of a change that succeeds are those of what it did: they can be computed from
the index before it and the index after it. No category is created where one was there before,
and nothing comes and goes in one change, so what was attached and what was detached is what
the two indexes do not share.
-/
namespace CategorizedIndex

namespace Change

/-- The distinct ids that a change withdraws or adds. -/
def ids (c : Change) : Finset UInt64 :=
  c.removals.toList.toFinset ∪ c.additions.keys.toFinset

/-- The filter lets the addition of an id through, seen with its computed values. -/
def accepts (c : Change) (config : Config) (filter : Option RowFilter) (id : UInt64) : Bool :=
  (c.additions[id]?).any fun a => filter.all (· ((c.rowOf id a).filled config.columns))

def accepted (c : Change) (config : Config) (filter : Option RowFilter) : Finset UInt64 :=
  c.additions.keys.toFinset.filter (c.accepts config filter ·)

def vetoed (c : Change) (config : Config) (filter : Option RowFilter) : Finset UInt64 :=
  c.additions.keys.toFinset.filter (!c.accepts config filter ·)

variable {config : Config} {filter : Option RowFilter} {change : Change} {batch : Batch}
  {id : UInt64} {a : Addition} {row : PreparedRow}

theorem mentions_iff_mem_ids {s : ScopedId} :
    change.mentions s = true ↔ s.origin = change.origin ∧ s.id ∈ change.ids := by
  rw [mentions, Bool.and_eq_true_iff, Bool.or_eq_true_iff, beq_iff_eq, ids, Finset.mem_union,
    List.mem_toFinset, List.mem_toFinset, Std.ExtTreeSet.mem_toList, Std.ExtTreeMap.mem_keys,
    Std.ExtTreeSet.contains_iff_mem, Std.ExtTreeMap.contains_iff_mem]
  exact and_congr_left' eq_comm

theorem isSome_placing (hprepare : change.prepare config filter = .ok batch)
    (ha : change.additions[id]? = some a)
    (hrow : Batch.prepareRow config filter change.origin id a = .ok row) :
    row.placing.isSome = change.accepts config filter id := by
  have hvalues := Batch.computeValues_of_passes (passes_of_prepare hprepare ha)
  obtain ⟨values, hcompute, rfl⟩ := Batch.prepareRow_eq_ok_iff.mp hrow
  obtain rfl := Except.ok.inj (hvalues.symm.trans hcompute)
  rw [accepts, ha, Option.any_some, Row.filled_eq, Batch.placing?]
  split
  · next haccept => exact haccept.symm
  · next hveto => exact (Bool.eq_false_iff.mpr hveto).symm

theorem turnedDown_of_prepared (hprepare : change.prepare config filter = .ok batch)
    {additions : List (UInt64 × Addition)} {rows : List PreparedRow}
    (hrows : List.Forall₂
      (fun a row => Batch.prepareRow config filter change.origin a.1 a.2 = .ok row) additions rows)
    (hadded : ∀ a ∈ additions, change.additions[a.1]? = some a.2) :
    Work.turnedDown rows = additions.countP fun a => !change.accepts config filter a.1 := by
  induction hrows with
  | nil => rfl
  | @cons a row additions rows hrow _ ih =>
    obtain ⟨ha, hrest⟩ := List.forall_mem_cons.mp hadded
    have hplacing := isSome_placing hprepare ha hrow
    have hnone : row.placing.isNone = !change.accepts config filter a.1 := by
      rw [← hplacing, Option.not_isSome]
    rw [List.countP_cons, ← ih hrest, Work.turnedDown, List.countP_cons, hnone, Work.turnedDown]

theorem turnedDown_eq (hprepare : change.prepare config filter = .ok batch) :
    Work.turnedDown batch.rows = (change.vetoed config filter).card := by
  obtain ⟨-, -, hrows, -⟩ := prepare_eq_ok_iff.mp hprepare
  have hkeys : change.additions.keys.countP (fun id => !change.accepts config filter id) =
      (change.vetoed config filter).card := by
    rw [vetoed, ← List.toFinset_filter, List.toFinset_card_of_nodup, List.countP_eq_length_filter]
    exact Std.ExtTreeMap.nodup_keys.filter _
  rw [turnedDown_of_prepared hprepare hrows fun a ha =>
      Std.ExtTreeMap.mem_toList_iff_getElem?_eq_some.mp ha, ← hkeys,
    ← Std.ExtTreeMap.map_fst_toList_eq_keys, List.countP_map]
  rfl

theorem accepted_of_table (hprepare : change.prepare config filter = .ok batch) {T : Table}
    {s : ScopedId} {placing : Placing} (hmentions : change.mentions s = true)
    (hs : batch.table T s = some placing) : s.id ∈ change.accepted config filter := by
  obtain ⟨origin, id⟩ := s
  obtain rfl : origin = change.origin := (mentions_iff_mem_ids.mp hmentions).1
  rw [table_eq hprepare, if_pos hmentions] at hs
  obtain ⟨a, hrow, hplacing⟩ := Option.bind_eq_some_iff.mp hs
  obtain ⟨ha, -⟩ := Option.filter_eq_some_iff.mp hrow
  obtain ⟨values, hcompute, haccept, -⟩ := Addition.placing?_eq_some.mp hplacing
  have hvalues := Batch.computeValues_of_passes (passes_of_prepare hprepare ha)
  obtain rfl := Except.ok.inj (hvalues.symm.trans hcompute)
  refine Finset.mem_filter.mpr ⟨?_, ?_⟩
  · rw [List.mem_toFinset, Std.ExtTreeMap.mem_keys, Std.ExtTreeMap.mem_iff_isSome_getElem?, ha]
    rfl
  · rw [accepts, ha, Option.any_some, Row.filled_eq]
    exact haccept

end Change

namespace Tree

variable {config : Config} {filter : Option RowFilter} {change : Change} {batch : Batch}
  {t u : Tree} {T U : Table} {stats : Stats}

theorem Sound.sum_placements (h : t.Sound config) (origin : String) (ids : Finset UInt64) :
    ∑ id ∈ ids, (t.placementsOf ⟨origin, id⟩).length =
      (ids.biUnion fun id => (t.placementsOf ⟨origin, id⟩).toFinset).card := by
  rw [Finset.card_biUnion]
  · refine Finset.sum_congr rfl fun id _ => ?_
    exact (List.toFinset_card_of_nodup
      ((h.pairwise_placementsOf _).imp Nat.ne_of_lt)).symm
  · intro a _ b _ hab
    refine Finset.disjoint_left.mpr fun x hxa hxb => hab ?_
    obtain ⟨d, hd, hda⟩ := h.mem_placementsOf.mp (List.mem_toFinset.mp hxa)
    obtain ⟨e, he, heb⟩ := h.mem_placementsOf.mp (List.mem_toFinset.mp hxb)
    obtain rfl := Option.some.inj (hd.symm.trans he)
    exact congrArg ScopedId.id (hda.symm.trans heb)

section Commit

variable (ht : t.Settled config T) (hprepare : change.prepare config filter = .ok batch)
include ht hprepare

omit ht in
theorem isCategory_of_mentions {s : ScopedId} (hs : change.mentions s = true) :
    s.isCategory = false := by
  have hfits := Change.prepare_fits hprepare
  rcases (change.mentions_iff hprepare).mp hs with hs | hs
  · exact hfits.removals s hs
  · obtain ⟨row, hrow, rfl⟩ := List.mem_map.mp hs
    exact (hfits.rows row hrow).1

theorem Settled.gone_iff {x : EntryId} {e : Entry} (hx : t.get? x = some e)
    (hdoc : e.isCategory = false) :
    (t.commit config batch).1.skeleton x = none ↔ change.mentions e.scopedId = true := by
  have hfits := Change.prepare_fits hprepare
  have hb := ht.booked_commit hfits (Change.prepare_nodup hprepare)
  have hlt := ht.sound.formed.bounded (skeleton_eq_some hx)
  constructor
  · intro hnone
    by_contra hnot
    obtain ⟨d, hd, -⟩ := ht.document_commit hfits hx hdoc
      (not_mem_of_mentions hprepare (Bool.eq_false_iff.mpr hnot))
    exact nomatch hnone.symm.trans (skeleton_eq_some hd)
  · intro hmentions
    refine Option.eq_none_iff_forall_ne_some.mpr fun c hc => ?_
    obtain rfl := Option.some.inj ((skeleton_eq_some hx).symm.trans (hb.counted.old hlt hc))
    obtain ⟨hremovals, hrows⟩ := hb.gone hlt hc hdoc
    exact ((change.mentions_iff hprepare).mp hmentions).elim hremovals hrows

theorem Settled.removed_commit : (t.commit config batch).2.removed =
    ∑ id ∈ change.ids, (t.placementsOf ⟨change.origin, id⟩).length := by
  have hfits := Change.prepare_fits hprepare
  have hb := ht.booked_commit hfits (Change.prepare_nodup hprepare)
  have hu := (ht.commit hfits).sound
  have hset : t.ofKind false \ (t.commit config batch).1.ofKind false =
      change.ids.biUnion fun id => (t.placementsOf ⟨change.origin, id⟩).toFinset := by
    ext x
    rw [Finset.mem_sdiff, Finset.mem_biUnion, ht.sound.mem_ofKind_iff_entry]
    constructor
    · rintro ⟨⟨e, he, hdoc⟩, hnot⟩
      have hnone : (t.commit config batch).1.skeleton x = none := by
        refine Option.eq_none_iff_forall_ne_some.mpr fun c hc => hnot ?_
        have hold := hb.counted.old (ht.sound.formed.bounded (skeleton_eq_some he)) hc
        obtain rfl := Option.some.inj ((skeleton_eq_some he).symm.trans hold)
        exact hu.mem_ofKind.mpr ⟨_, hc, hdoc⟩
      obtain ⟨horigin, hid⟩ :=
        Change.mentions_iff_mem_ids.mp ((ht.gone_iff hprepare he hdoc).mp hnone)
      refine ⟨e.scopedId.id, hid, List.mem_toFinset.mpr ?_⟩
      exact ht.sound.mem_placementsOf.mpr ⟨e, he, horigin ▸ rfl⟩
    · rintro ⟨id, hid, hmem⟩
      obtain ⟨e, he, hs⟩ := ht.sound.mem_placementsOf.mp (List.mem_toFinset.mp hmem)
      have hmentions : change.mentions e.scopedId = true :=
        hs ▸ Change.mentions_iff_mem_ids.mpr ⟨rfl, hid⟩
      have hdoc : e.isCategory = false := isCategory_of_mentions hprepare hmentions
      refine ⟨⟨e, he, hdoc⟩, fun hin => ?_⟩
      obtain ⟨c, hc, -⟩ := hu.mem_ofKind.mp hin
      exact nomatch hc.symm.trans ((ht.gone_iff hprepare he hdoc).mpr hmentions)
  rw [ht.sound.sum_placements, ← hset]
  exact (hb.counted.went false).symm

theorem Settled.added_commit : (t.commit config batch).2.added =
    ∑ id ∈ change.accepted config filter,
      ((t.commit config batch).1.placementsOf ⟨change.origin, id⟩).length := by
  have hfits := Change.prepare_fits hprepare
  have hb := ht.booked_commit hfits (Change.prepare_nodup hprepare)
  have hu := ht.commit hfits
  have hset : (t.commit config batch).1.ofKind false \ t.ofKind false =
      (change.accepted config filter).biUnion fun id =>
        ((t.commit config batch).1.placementsOf ⟨change.origin, id⟩).toFinset := by
    ext x
    rw [Finset.mem_sdiff, Finset.mem_biUnion, hu.sound.mem_ofKind_iff_entry]
    constructor
    · rintro ⟨⟨e, he, hdoc⟩, hnot⟩
      have hle : t.nextEntry ≤ x := Nat.le_of_not_lt fun hlt => hnot
        (ht.sound.mem_ofKind.mpr ⟨_, hb.counted.old hlt (skeleton_eq_some he), hdoc⟩)
      have hmentions := (change.mentions_iff hprepare).mpr
        (Or.inr (hb.came hle (skeleton_eq_some he) hdoc))
      obtain ⟨placing, path, hrow, -⟩ := hu.shows.documents (skeleton_eq_some he) hdoc
      have hs : e.scopedId = ⟨change.origin, e.scopedId.id⟩ :=
        (Change.mentions_iff_mem_ids.mp hmentions).1 ▸ rfl
      refine ⟨e.scopedId.id, ?_, List.mem_toFinset.mpr (hu.sound.mem_placementsOf.mpr ⟨e, he, hs⟩)⟩
      exact Change.accepted_of_table hprepare hmentions hrow
    · rintro ⟨id, hid, hmem⟩
      obtain ⟨e, he, hs⟩ := hu.sound.mem_placementsOf.mp (List.mem_toFinset.mp hmem)
      have hmentions : change.mentions e.scopedId = true := by
        refine hs ▸ Change.mentions_iff_mem_ids.mpr ⟨rfl, ?_⟩
        exact Finset.mem_union_right _ (Finset.mem_filter.mp hid).1
      have hdoc : e.isCategory = false := isCategory_of_mentions hprepare hmentions
      refine ⟨⟨e, he, hdoc⟩, fun hin => ?_⟩
      obtain ⟨d, hd, -⟩ := ht.sound.mem_ofKind_iff_entry.mp hin
      have hlt := ht.sound.formed.bounded (skeleton_eq_some hd)
      obtain ⟨hremovals, hrows⟩ := hb.gone hlt (skeleton_eq_some he) hdoc
      exact ((change.mentions_iff hprepare).mp hmentions).elim hremovals hrows
  rw [hu.sound.sum_placements, ← hset]
  exact (hb.counted.came false).symm

theorem Settled.chains_commit :
    (t.commit config batch).2.categoriesCreated =
      ((t.commit config batch).1.chains \ t.chains).card ∧
    (t.commit config batch).2.categoriesPruned =
      (t.chains \ (t.commit config batch).1.chains).card := by
  have hfits := Change.prepare_fits hprepare
  have hb := (ht.booked_commit hfits (Change.prepare_nodup hprepare)).counted
  have hu := (ht.commit hfits).sound
  have hsame : ∀ {a b d e}, t.get? a = some d → (t.commit config batch).1.get? b = some e →
      d.isCategory = true → e.isCategory = true →
      t.groups a = (t.commit config batch).1.groups b → a = b := by
    intro a b d e hd he hdcat hecat hgroups
    exact (ht.denotes_commit hfits (denotes_groups hd hdcat)
      (hgroups ▸ denotes_groups he hecat)).1
  have hcreated := card_chains_sdiff ht.sound hu hsame
    fun hd he hcat => hb.groups_eq ht.sound hu hd he hcat
  have hpruned := card_chains_sdiff hu ht.sound
    (fun he hd hecat hdcat hgroups => (hsame hd he hdcat hecat hgroups.symm).symm)
    fun he hd hcat => (hb.groups_eq ht.sound hu hd he
      ((congrArg Core.isCategory (hb.core_eq ht.sound hd he)).trans hcat)).symm
  exact ⟨(hb.came true).symm.trans hcreated.symm, (hb.went true).symm.trans hpruned.symm⟩

theorem Settled.renumbered_commit : (t.commit config batch).2.renumberedParents =
    ((t.commit config batch).1.arena.keys.toFinset.filter fun p =>
      (t.newChildren (t.commit config batch).1 p).Nonempty ∨
        (t.lostChildren (t.commit config batch).1 p).Nonempty).card := by
  have hfits := Change.prepare_fits hprepare
  have hb := ht.booked_commit hfits (Change.prepare_nodup hprepare)
  have hu := (ht.commit hfits).sound
  rw [hb.renumbered]
  congr 1
  ext p
  rw [changedParents, Finset.mem_filter, Finset.mem_filter, Finset.mem_range, List.mem_toFinset,
    mem_keys_iff, hb.counted.changed_iff ht.sound hu, Option.isSome_iff_exists]
  constructor
  · rintro ⟨-, ⟨c, hc⟩, hchanged⟩
    obtain ⟨e, he, -⟩ := skeleton_eq_some_iff.mp hc
    exact ⟨⟨e, he⟩, hchanged⟩
  · rintro ⟨⟨e, he⟩, hchanged⟩
    exact ⟨hu.formed.bounded (skeleton_eq_some he), ⟨_, skeleton_eq_some he⟩, hchanged⟩

end Commit

end Tree

namespace Index

/-- The statistics say what happened to an index between two moments. -/
structure Accounts (x : Index) (change : Change) (y : Index) (stats : Stats) : Prop where
  /-- Every placement that the ids of the change had is removed. -/
  removed : stats.removed = ∑ id ∈ change.ids, (x.tree.placementsOf ⟨change.origin, id⟩).length
  rejected : stats.rejected = (change.vetoed x.config x.filter).card
  /-- Every placement that accepted additions have was added. -/
  added : stats.added = ∑ id ∈ change.accepted x.config x.filter,
    (y.tree.placementsOf ⟨change.origin, id⟩).length
  created : stats.categoriesCreated = (y.tree.chains \ x.tree.chains).card
  pruned : stats.categoriesPruned = (x.tree.chains \ y.tree.chains).card
  /-- No category is pruned and created again. -/
  same : ∀ {chain a b}, x.tree.Denotes chain a → y.tree.Denotes chain b → a = b
  /-- What is there before and after was not moved. -/
  kept : ∀ {id d e}, x.tree.get? id = some d → y.tree.get? id = some e → d.core = e.core
  /-- Nothing is attached and detached again. -/
  lasting : ∀ id, x.tree.nextEntry ≤ id → id < y.tree.nextEntry → id ∈ y.tree.arena
  renumbered : stats.renumberedParents = (y.tree.arena.keys.toFinset.filter fun p =>
    (x.tree.newChildren y.tree p).Nonempty ∨ (x.tree.lostChildren y.tree p).Nonempty).card
  documents : (y.rootCounters.descendantDocuments : Int) - x.rootCounters.descendantDocuments =
    stats.added - stats.removed
  categories : (y.rootCounters.descendantCategories : Int) - x.rootCounters.descendantCategories =
    stats.categoriesCreated - stats.categoriesPruned

variable {name : String} {config : Config} {filter : Option RowFilter} {x y : Index}
  {change : Change} {stats : Stats} {T : Table}

theorem exists_rootCounters (h : x.tree.Sound config) :
    ∃ e, x.tree.get? Tree.root = some e ∧ x.rootCounters = e.counters := by
  obtain ⟨e, he, -⟩ := Tree.exists_root h.formed
  exact ⟨e, he, by rw [rootCounters, he, Option.map_some, Option.getD_some]⟩

theorem Maintains.accounts (h : x.Maintains T) (happly : x.apply change = .ok (y, stats)) :
    x.Accounts change y stats := by
  obtain ⟨batch, hprepare, -, rfl, rfl⟩ := apply_eq_ok_iff.mp happly
  have ht := h.settled
  have hfits := Change.prepare_fits hprepare
  have hb := (ht.booked_commit hfits (Change.prepare_nodup hprepare)).counted
  have hu := (ht.commit hfits).sound
  obtain ⟨e, he, hx⟩ := exists_rootCounters ht.sound
  obtain ⟨d, hd, hy⟩ := exists_rootCounters
    (x := { x with tree := (x.tree.commit x.config batch).1 }) hu
  obtain ⟨hcreated, hpruned⟩ := ht.chains_commit hprepare
  constructor
  case removed => exact ht.removed_commit hprepare
  case rejected => exact hb.rejected.trans (Change.turnedDown_eq hprepare)
  case added => exact ht.added_commit hprepare
  case created => exact hcreated
  case pruned => exact hpruned
  case same => exact fun ha hb => (ht.denotes_commit hfits ha hb).1
  case kept => exact fun hd he => hb.core_eq ht.sound hd he
  case lasting =>
    intro id hle hlt
    obtain ⟨c, hc⟩ := hb.lasting hle hlt
    obtain ⟨a, ha, -⟩ := Tree.skeleton_eq_some_iff.mp hc
    exact Tree.mem_arena.mpr ⟨a, ha⟩
  case renumbered => exact ht.renumbered_commit hprepare
  case documents =>
    have hcame := hb.came false
    have hwent := hb.went false
    have hbalance := Tree.card_came_went (x.tree.ofKind false)
      ((x.tree.commit x.config batch).1.ofKind false)
    rw [hx, hy, ht.sound.card_documents he, hu.card_documents hd]
    simp only [Stats.came, Stats.went, Bool.false_eq_true, if_false] at hcame hwent
    omega
  case categories =>
    have hcame := hb.came true
    have hwent := hb.went true
    have hbalance := Tree.card_came_went (x.tree.ofKind true)
      ((x.tree.commit x.config batch).1.ofKind true)
    have hbefore := ht.sound.card_categories he
    have hafter := hu.card_categories hd
    rw [hx, hy]
    simp only [Stats.came, Stats.went, if_true] at hcame hwent
    omega

/-- Whatever was done to a built index, the statistics of a change that succeeds account for
it. -/
theorem accounts_run (hbuild : build name config filter = .ok x) (operations : List Operation)
    (happly : (x.run operations).apply change = .ok (y, stats)) :
    (x.run operations).Accounts change y stats := by
  obtain ⟨T, hT⟩ := (maintains_build hbuild).run operations
  exact hT.accounts happly

/-- One row moves on, one is withdrawn from the group that the first moves to, and a draft is
turned down. -/
theorem accounts_moved_row :
    let published : RowFilter := fun row => row.unid != "draft"
    let x : Index := { grouped with filter := some published }
    let operations : List Operation :=
      [.change (filing 1 (.text "a")), .change (filing 2 (.text "b"))]
    let change := ((listing [.text "b", .text "c"]).remove 2).add 3 ⟨"draft", ∅⟩
    ∃ y stats, build "grouped" grouped.config (some published) = .ok x ∧
      (x.run operations).apply change = .ok (y, stats) ∧
      (x.run operations).Accounts change y stats ∧ stats = ⟨2, 2, 1, 1, 1, 3⟩ := by
  intro published x operations change
  have hbuild : build "grouped" grouped.config (some published) = .ok x :=
    build_of_faultless (by decide +kernel)
  have hstats : ((x.run operations).apply change).toOption.map (·.2) =
      some ⟨2, 2, 1, 1, 1, 3⟩ := by decide +kernel
  obtain ⟨stats, happly⟩ := @exists_apply_after (x.run operations) change
    (by rw [← Option.isSome_map, hstats]; rfl)
  rw [happly] at hstats
  exact ⟨_, stats, hbuild, happly, accounts_run hbuild operations happly, Option.some.inj hstats⟩

end Index

end CategorizedIndex
