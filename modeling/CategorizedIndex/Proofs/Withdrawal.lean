import CategorizedIndex.Proofs.Failures
import CategorizedIndex.Proofs.History.Answers
import CategorizedIndex.Proofs.Statistics

/-! # Withdrawing an origin

The change that withdraws an origin names the documents that the index knows under it, so it
misses none of them and names none of another origin. It adds nothing: what is there
afterwards was there before, and a category goes if all documents below it go.
-/
namespace CategorizedIndex

/-- The rows of the other origins. -/
def Table.without (T : Table) (origin : String) : Table :=
  fun s => if s.origin = origin then none else T s

theorem Table.without_eq_some_iff {T : Table} {origin : String} {s : ScopedId} {p : Placing} :
    T.without origin s = some p ↔ s.origin ≠ origin ∧ T s = some p := by
  unfold Table.without
  split
  · next horigin => simp [horigin]
  · next horigin => simp [horigin]

theorem Change.foldl_remove (ids : List UInt64) (c : Change) :
    (ids.foldl Change.remove c).origin = c.origin ∧
    (ids.foldl Change.remove c).additions = c.additions ∧
    ∀ id, id ∈ (ids.foldl Change.remove c).removals ↔ id ∈ ids ∨ id ∈ c.removals := by
  induction ids generalizing c with
  | nil => simp
  | cons a rest ih =>
    obtain ⟨horigin, hadditions, hremovals⟩ := ih (c.remove a)
    refine ⟨horigin, hadditions, fun id => (hremovals id).trans ?_⟩
    rw [remove, Std.ExtTreeSet.mem_insert, Std.LawfulEqOrd.compare_eq_iff_eq, List.mem_cons,
      eq_comm (a := a)]
    tauto

namespace Tree

/-- The placements of the documents of an origin. -/
def placedBy (t : Tree) (origin : String) : Finset EntryId :=
  t.arena.keys.toFinset.filter fun x =>
    (t.get? x).any fun e => !e.isCategory && e.scopedId.origin == origin

variable {config : Config} {t u : Tree} {T U : Table} {batch : Batch} {origin : String}
  {x y p : EntryId} {e d : Entry}

theorem mem_placedBy : x ∈ t.placedBy origin ↔
    ∃ e, t.get? x = some e ∧ e.isCategory = false ∧ e.scopedId.origin = origin := by
  rw [placedBy, Finset.mem_filter, List.mem_toFinset, mem_keys_iff,
    Option.any_eq_true]
  simp only [Bool.and_eq_true, Bool.not_eq_true', beq_iff_eq]
  exact ⟨And.right, fun ⟨e, he, h⟩ => ⟨⟨e, he⟩, e, he, h⟩⟩

theorem mem_idsOf {id : UInt64} : id ∈ t.idsOf origin ↔ ⟨origin, id⟩ ∈ t.documents := by
  rw [idsOf, List.mem_map]
  constructor
  · rintro ⟨⟨origin', id⟩, hmem, rfl⟩
    obtain ⟨hs, horigin⟩ := List.mem_filter.mp hmem
    obtain rfl : origin' = origin := eq_of_beq horigin
    exact hs
  · exact fun hs => ⟨_, List.mem_filter.mpr ⟨hs, beq_self_eq_true _⟩, rfl⟩

theorem mem_origins : origin ∈ t.origins ↔ ∃ s ∈ t.documents, s.origin = origin := by
  rw [origins, Std.ExtTreeSet.mem_toList, Std.ExtTreeSet.mem_ofList, List.contains_iff_mem,
    List.mem_map]

theorem isCategory_of_mem_documents {s : ScopedId} (hs : s ∈ t.documents) :
    s.isCategory = false := by
  have hdoc := (List.mem_filter.mp hs).2
  rwa [ScopedId.isDocument, Bool.not_eq_true'] at hdoc

theorem Settled.keptIn_commit (h : t.Settled config T) (hb : batch.Fits config)
    (hrows : batch.rows = []) : (t.commit config batch).1.skeleton.KeptIn t.skeleton := by
  have hstart := Work.shows_start h
  have hwithdrawn := hstart.withdrawals hb.removals
  have htrim := hwithdrawn.trimmed_finish
  have hcommit : t.commit config batch =
      (batch.removals.foldl Work.withdraw (.start t)).finish := by
    rw [Tree.commit, hrows]
    rfl
  rw [hcommit]
  exact htrim.kept.trans (hstart.keptIn_withdrawals hb.removals)

section Kept

variable (ht : t.Settled config T) (hu : u.Settled config U)
  (hkept : u.skeleton.KeptIn t.skeleton)
include ht hu hkept

omit ht hu in
theorem get?_of_keptIn (hx : u.get? x = some d) : ∃ e, t.get? x = some e ∧ d.core = e.core := by
  obtain ⟨e, he, hcore⟩ := skeleton_eq_some_iff.mp (hkept _ _ (skeleton_eq_some hx))
  exact ⟨e, he, hcore.symm⟩

theorem rank_lt_of_keptIn {d' e' : Entry} (hx : t.get? x = some d) (hy : t.get? y = some e)
    (hxp : d.parent = some p) (hyp : e.parent = some p) (hx' : u.get? x = some d')
    (hy' : u.get? y = some e') : d'.rank < e'.rank ↔ d.rank < e.rank := by
  obtain ⟨_, hd, hdcore⟩ := get?_of_keptIn hkept hx'
  obtain ⟨_, he, hecore⟩ := get?_of_keptIn hkept hy'
  obtain rfl := Option.some.inj (hx.symm.trans hd)
  obtain rfl := Option.some.inj (hy.symm.trans he)
  have hdkey : d'.key = d.key := congrArg Core.key hdcore
  have hekey : e'.key = e.key := congrArg Core.key hecore
  rw [ht.rank_lt_iff hx hy hxp hyp, hu.rank_lt_iff hx' hy' ((congrArg Core.parent hdcore).trans hxp)
    ((congrArg Core.parent hecore).trans hyp), hdkey, hekey]

theorem exists_get?_iff_document (hr : x ≠ root) :
    (∃ d, u.get? x = some d) ↔ ∃ y d, t.get? y = some d ∧ d.isCategory = false ∧
      (∃ d', u.get? y = some d') ∧ x ∈ (t.lineage y).map (·.1) := by
  constructor
  · rintro ⟨d, hd⟩
    obtain ⟨y, c, hy, hdoc, hmem⟩ :=
      hu.sound.formed.exists_document hu.full (skeleton_eq_some hd) hr
    obtain ⟨e, he, rfl⟩ := skeleton_eq_some_iff.mp (hkept y c hy)
    obtain ⟨e', he', -⟩ := skeleton_eq_some_iff.mp hy
    refine ⟨y, e, he, hdoc, ⟨e', he'⟩, ?_⟩
    rwa [lineage_ids ht.sound.formed he, hkept.line_eq hu.sound.formed hy]
  · rintro ⟨y, d, hd, -, ⟨d', hd'⟩, hmem⟩
    rw [lineage_ids ht.sound.formed hd, hkept.line_eq hu.sound.formed (skeleton_eq_some hd')]
      at hmem
    obtain ⟨c, hc⟩ := hu.sound.formed.exists_of_mem_line (skeleton_eq_some hd') hmem
    obtain ⟨e, he, -⟩ := skeleton_eq_some_iff.mp hc
    exact ⟨e, he⟩

end Kept

section Without

variable (ht : t.Settled config T) (hu : u.Settled config (T.without origin))

include hu in
theorem origin_ne_without (hx : u.get? x = some d) (hdoc : d.isCategory = false) :
    d.scopedId.origin ≠ origin := by
  obtain ⟨placing, -, hrow, -⟩ := hu.shows.documents (skeleton_eq_some hx) hdoc
  exact (Table.without_eq_some_iff.mp hrow).1

include ht hu

theorem documents_without : u.documents = t.documents.filter (·.origin != origin) := by
  refine eq_of_ordered u.ordered_documents (t.ordered_documents.sublist List.filter_sublist)
    fun s => ?_
  rw [hu.mem_documents, List.mem_filter, ht.mem_documents, bne_iff_ne]
  simp only [Table.without_eq_some_iff, exists_and_left, and_comm]

theorem mem_origins_without {other : String} :
    other ∈ u.origins ↔ other ∈ t.origins ∧ other ≠ origin := by
  rw [mem_origins, mem_origins, documents_without ht hu]
  constructor
  · rintro ⟨s, hmem, rfl⟩
    obtain ⟨hs, hne⟩ := List.mem_filter.mp hmem
    exact ⟨⟨s, hs, rfl⟩, bne_iff_ne.mp hne⟩
  · rintro ⟨⟨s, hs, rfl⟩, hne⟩
    exact ⟨s, List.mem_filter.mpr ⟨hs, bne_iff_ne.mpr hne⟩, rfl⟩

theorem idsOf_without (other : String) :
    u.idsOf other = if other = origin then [] else t.idsOf other := by
  rw [idsOf, documents_without ht hu, List.filter_filter, idsOf]
  split
  · next heq => simp [heq]
  · next hne =>
    congr 1
    refine List.filter_congr fun s _ => ?_
    by_cases hs : s.origin = other
    · simp [hs, hne]
    · simp [hs]

/-- The documents that go are those of the origin, if all others stay. -/
theorem ofKind_sdiff_without (hkept : u.skeleton.KeptIn t.skeleton)
    (hstays : ∀ {x e}, t.get? x = some e → e.isCategory = false → e.scopedId.origin ≠ origin →
      ∃ d, u.get? x = some d ∧ d.core = e.core) :
    t.ofKind false \ u.ofKind false = t.placedBy origin := by
  ext x
  rw [Finset.mem_sdiff, ht.sound.mem_ofKind_iff_entry, hu.sound.mem_ofKind_iff_entry,
    mem_placedBy]
  constructor
  · rintro ⟨⟨e, he, hdoc⟩, hnot⟩
    refine ⟨e, he, hdoc, by_contra fun hne => hnot ?_⟩
    obtain ⟨d, hd, hcore⟩ := hstays he hdoc hne
    exact ⟨d, hd, (congrArg Core.isCategory hcore).trans hdoc⟩
  · rintro ⟨e, he, hdoc, heq⟩
    refine ⟨⟨e, he, hdoc⟩, ?_⟩
    rintro ⟨d, hd, hddoc⟩
    obtain ⟨e', he', hcore⟩ := get?_of_keptIn hkept hd
    obtain rfl := Option.some.inj (he.symm.trans he')
    exact origin_ne_without hu hd hddoc ((congrArg (·.scopedId.origin) hcore).trans heq)

end Without

end Tree

namespace Index

/-- What is left of an index without an origin. -/
structure Drops (x : Index) (origin : String) (y : Index) (stats : Stats) : Prop where
  gone : y.tree.placedBy origin = ∅
  origins : ∀ other, other ∈ y.tree.origins ↔ other ∈ x.tree.origins ∧ other ≠ origin
  idsOf : ∀ other, y.tree.idsOf other = if other = origin then [] else x.tree.idsOf other
  documents : ∀ {a e}, x.tree.get? a = some e → e.isCategory = false →
    e.scopedId.origin ≠ origin → ∃ d, y.tree.get? a = some d ∧ d.core = e.core
  /-- Siblings that are left keep their order. -/
  order : ∀ {a b p d e d' e'}, x.tree.get? a = some d → x.tree.get? b = some e →
    d.parent = some p → e.parent = some p → y.tree.get? a = some d' → y.tree.get? b = some e' →
    (d'.rank < e'.rank ↔ d.rank < e.rank)
  /-- A category is left exactly if a document of another origin stood below it. -/
  categories : ∀ {a e}, x.tree.get? a = some e → e.isCategory = true → a ≠ Tree.root →
    ((∃ d, y.tree.get? a = some d) ↔ ∃ b d, x.tree.get? b = some d ∧ d.isCategory = false ∧
      d.scopedId.origin ≠ origin ∧ a ∈ (x.tree.lineage b).map (·.1))
  /-- What is left was there under the same handle with the same ids. -/
  kept : ∀ {a d}, y.tree.get? a = some d → ∃ e, x.tree.get? a = some e ∧ d.core = e.core
  removed : stats.removed = (x.tree.placedBy origin).card
  added : stats.added = 0
  rejected : stats.rejected = 0
  categoriesCreated : stats.categoriesCreated = 0

variable {name : String} {config : Config} {filter : Option RowFilter} {x y : Index}
  {origin : String} {stats : Stats} {T : Table}

@[simp] theorem origin_withdrawal (x : Index) (origin : String) :
    (x.withdrawal origin).origin = origin := (Change.foldl_remove _ _).1

@[simp] theorem additions_withdrawal (x : Index) (origin : String) :
    (x.withdrawal origin).additions = ∅ := (Change.foldl_remove _ _).2.1

theorem mem_removals_withdrawal {id : UInt64} :
    id ∈ (x.withdrawal origin).removals ↔ ⟨origin, id⟩ ∈ x.tree.documents := by
  rw [withdrawal, (Change.foldl_remove _ _).2.2, Tree.mem_idsOf, Change.empty]
  simp

theorem mentions_withdrawal {s : ScopedId} :
    (x.withdrawal origin).mentions s = true ↔ s.origin = origin ∧ s ∈ x.tree.documents := by
  rw [Change.mentions, origin_withdrawal, additions_withdrawal, Bool.and_eq_true, beq_iff_eq,
    Std.ExtTreeMap.contains_empty, Bool.or_false, Std.ExtTreeSet.contains_iff_mem,
    mem_removals_withdrawal, eq_comm]
  refine and_congr_right fun horigin => ?_
  rw [← horigin]

theorem exists_prepare_withdrawal (x : Index) (config : Config) (filter : Option RowFilter)
    (hempty : origin ≠ "") (hreserved : origin ≠ ScopedId.categoryOrigin) :
    ∃ batch, (x.withdrawal origin).prepare config filter = .ok batch ∧ batch.rows = [] := by
  refine ⟨⟨(x.withdrawal origin).removals.toList.map (ScopedId.mk (x.withdrawal origin).origin),
    []⟩, Change.prepare_eq_ok_iff.mpr ⟨?_, fun id hid => ?_, ?_, rfl⟩, rfl⟩
  · rw [origin_withdrawal]
    exact Batch.checkOrigin_eq_ok.mpr ⟨hempty, hreserved⟩
  · have hmem : id ∈ (x.withdrawal origin).removals := by
      simpa [Std.ExtTreeMap.mem_keys] using hid
    rw [origin_withdrawal]
    exact Tree.isCategory_of_mem_documents (mem_removals_withdrawal.mp hmem)
  · rw [additions_withdrawal]
    exact .nil

theorem Maintains.table_withdrawal (h : x.Maintains T) {batch : Batch}
    (hprepare : (x.withdrawal origin).prepare x.config x.filter = .ok batch) :
    batch.table T = T.without origin := by
  funext s
  rw [Change.table_eq hprepare, Change.row?, additions_withdrawal, Table.without]
  by_cases horigin : s.origin = origin
  · rw [if_pos horigin]
    split
    · rfl
    · next hnot =>
      refine Option.eq_none_iff_forall_ne_some.mpr fun placing hrow => hnot ?_
      exact mentions_withdrawal.mpr ⟨horigin, h.settled.mem_documents.mpr ⟨placing, hrow⟩⟩
  · rw [if_neg horigin, if_neg fun hmentions => horigin (mentions_withdrawal.mp hmentions).1]

theorem Maintains.drops (h : x.Maintains T) {batch : Batch}
    (hprepare : (x.withdrawal origin).prepare x.config x.filter = .ok batch)
    (hrows : batch.rows = []) :
    x.Drops origin { x with tree := (x.tree.commit x.config batch).1 }
      (x.tree.commit x.config batch).2 := by
  have ht := h.settled
  have hfits := Change.prepare_fits hprepare
  have hu := ht.commit hfits
  have hb := ht.booked_commit hfits (Change.prepare_nodup hprepare)
  have hkept := ht.keptIn_commit hfits hrows
  rw [h.table_withdrawal hprepare] at hu
  have hpreserves := ht.preserves hprepare
  generalize x.tree.commit x.config batch = committed at hu hb hkept hpreserves ⊢
  obtain ⟨u, stats⟩ := committed
  have hstays : ∀ {a e}, x.tree.get? a = some e → e.isCategory = false →
      e.scopedId.origin ≠ origin → ∃ d, u.get? a = some d ∧ d.core = e.core := by
    intro a e he hdoc hne
    exact hpreserves.documents he hdoc
      (Bool.eq_false_iff.mpr fun hmentions => hne (mentions_withdrawal.mp hmentions).1)
  have hnothing : ∀ isCategory, stats.came isCategory = 0 := by
    intro isCategory
    rw [← hb.counted.came, Finset.sdiff_eq_empty_iff_subset.mpr, Finset.card_empty]
    intro a ha
    obtain ⟨c, hc, hkind⟩ := hu.sound.mem_ofKind.mp ha
    exact ht.sound.mem_ofKind.mpr ⟨c, hkept a c hc, hkind⟩
  constructor
  case gone =>
    refine Finset.eq_empty_of_forall_notMem fun a ha => ?_
    obtain ⟨d, hd, hdoc, heq⟩ := Tree.mem_placedBy.mp ha
    exact Tree.origin_ne_without hu hd hdoc heq
  case origins => exact fun other => Tree.mem_origins_without ht hu
  case idsOf => exact Tree.idsOf_without ht hu
  case documents => exact hstays
  case order =>
    exact fun ha hb hap hbp ha' hb' => Tree.rank_lt_of_keptIn ht hu hkept ha hb hap hbp ha' hb'
  case categories =>
    intro a e ha hcat hr
    refine (Tree.exists_get?_iff_document ht hu hkept hr).trans ?_
    refine exists_congr fun b => exists_congr fun d => and_congr_right fun hd =>
      and_congr_right fun hdoc => and_congr_left' ?_
    constructor
    · rintro ⟨d', hd'⟩
      obtain ⟨e', he', hcore⟩ := Tree.get?_of_keptIn hkept hd'
      obtain rfl := Option.some.inj (hd.symm.trans he')
      have hid : d'.scopedId = d.scopedId := congrArg Core.scopedId hcore
      exact hid ▸ Tree.origin_ne_without hu hd' ((congrArg Core.isCategory hcore).trans hdoc)
    · intro hne
      obtain ⟨d', hd', -⟩ := hstays hd hdoc hne
      exact ⟨d', hd'⟩
  case kept => exact fun hd => Tree.get?_of_keptIn hkept hd
  case removed =>
    exact (hb.counted.went false).symm.trans
      (congrArg Finset.card (Tree.ofKind_sdiff_without ht hu hkept hstays))
  case added => exact hnothing false
  case rejected =>
    rw [hb.counted.rejected, hrows]
    rfl
  case categoriesCreated => exact hnothing true

theorem Maintains.exists_drops (h : x.Maintains T) (hempty : origin ≠ "")
    (hreserved : origin ≠ ScopedId.categoryOrigin) :
    ∃ y stats, x.removeOrigin origin = .ok (y, stats) ∧ x.Drops origin y stats := by
  obtain ⟨batch, hprepare, hrows⟩ := exists_prepare_withdrawal x x.config x.filter hempty hreserved
  refine ⟨_, _, h.apply_of_oneKind hprepare fun hstrict => ?_, h.drops hprepare hrows⟩
  rw [h.table_withdrawal hprepare]
  exact (h.oneKind hstrict).mono fun s p hp => (Table.without_eq_some_iff.mp hp).2

/-- Withdrawing an origin takes away its documents and the categories that held no others, and
fails for the origins that no document has. -/
theorem removeOrigin_run (hbuild : build name config filter = .ok x)
    (operations : List Operation) (origin : String) :
    let y := x.run operations
    (origin ≠ "" → origin ≠ ScopedId.categoryOrigin →
      ∃ z stats, y.removeOrigin origin = .ok (z, stats) ∧ y.Drops origin z stats) ∧
    (origin = "" ∨ origin = ScopedId.categoryOrigin →
      ∃ e, y.removeOrigin origin = .error e ∧ e.kind = .invalidInput ∧
        (perform (.withdrawal origin)).run y = (.error e, y)) := by
  intro y
  obtain ⟨T, hT⟩ := (maintains_build hbuild).run operations
  refine ⟨fun hempty hreserved => hT.exists_drops hempty hreserved, fun hbad => ?_⟩
  have hrefused : (y.withdrawal origin).Refused := by
    rw [Change.Refused, origin_withdrawal]
    exact hbad.imp_right Or.inl
  obtain ⟨e, he, hkind⟩ := (hT.decides (y.withdrawal origin)).refuses.mpr hrefused
  refine ⟨e, he, hkind, ?_⟩
  rw [run_perform, after_eq, changeOf, he]
  rfl

/-- Two rows of one origin are withdrawn, of which one shares its group with another origin. -/
theorem removeOrigin_shared_group :
    let shop := (Change.empty "shop").add 7 (groupedBy [.text "a"])
    let x := grouped.run
      [.change (filing 1 (.text "a")), .change (filing 2 (.text "b")), .change shop]
    build "grouped" grouped.config none = .ok grouped ∧ x.tree.preorder = [1, 2, 5, 3, 4] ∧
    (∃ y stats, x.removeOrigin "desk" = .ok (y, stats) ∧ x.Drops "desk" y stats ∧
      stats.removed = 2 ∧ y.tree.idsOf "shop" = [7]) ∧
    ∃ e, x.removeOrigin "" = .error e ∧ (perform (.withdrawal "")).run x = (.error e, x) := by
  intro shop x
  obtain ⟨hdrops, -⟩ := removeOrigin_run build_grouped
    [.change (filing 1 (.text "a")), .change (filing 2 (.text "b")), .change shop] "desk"
  obtain ⟨-, hrefuses⟩ := removeOrigin_run build_grouped
    [.change (filing 1 (.text "a")), .change (filing 2 (.text "b")), .change shop] ""
  obtain ⟨y, stats, hy, hdropped⟩ := hdrops (by decide) (by decide)
  obtain ⟨e, he, -, hperform⟩ := hrefuses (Or.inl rfl)
  have hplaced : (x.tree.placedBy "desk").card = 2 := by decide +kernel
  have hshop : x.tree.idsOf "shop" = [7] := by decide +kernel
  exact ⟨build_grouped, by decide +kernel,
    ⟨y, stats, hy, hdropped, hdropped.removed.trans hplaced,
      (hdropped.idsOf "shop").trans ((if_neg (by decide)).trans hshop)⟩, e, he, hperform⟩

end Index

end CategorizedIndex
