import CategorizedIndex.Proofs.History.Ledger
import CategorizedIndex.Proofs.Identity.Continues
import CategorizedIndex.Proofs.Identity.Kept
import CategorizedIndex.Proofs.Tree.Placements

/-! # Entries keep their identity

A change leaves the documents that it does not mention where and what they are, in their
order, and a category that has documents before and after it stays the same entry even if
all of them were replaced. No handle is ever given to two entries, and no category id while
category numbers last, so what refers to an entry that is gone finds nothing.
-/
namespace CategorizedIndex

namespace Tree

/-- What a change keeps between the tree before and the tree after it. -/
structure Preserves (change : Change) (t u : Tree) : Prop where
  /-- A document that is not mentioned keeps its handle, ids, values, key and parent. -/
  documents : ∀ {x e}, t.get? x = some e → e.isCategory = false →
    change.mentions e.scopedId = false → ∃ d, u.get? x = some d ∧ d.core = e.core
  order : ∀ {x y a b c d}, t.get? x = some a → t.get? y = some b → a.isCategory = false →
    b.isCategory = false → change.mentions a.scopedId = false →
    change.mentions b.scopedId = false → a.parent = b.parent → u.get? x = some c →
    u.get? y = some d → (c.rank < d.rank ↔ a.rank < b.rank)
  /-- A chain that leads to documents before and after leads through one category. -/
  categories : ∀ {chain}, t.Leads chain → u.Leads chain → ∃ x e d, t.Denotes chain x ∧
    u.Denotes chain x ∧ t.get? x = some e ∧ u.get? x = some d ∧ d.core = e.core

/-- Ids mean the same at three moments, one after another. -/
structure Lasting (t u v : Tree) : Prop where
  entry : ∀ {x e d}, t.get? x = some e → v.get? x = some d →
    ∃ c, u.get? x = some c ∧ c.core = e.core ∧ d.core = e.core
  gone : ∀ {x e}, t.get? x = some e → u.get? x = none → v.get? x = none
  category : v.lastCategory < 2 ^ 63 → ∀ {x y e d}, t.get? x = some e → e.isCategory = true →
    v.get? y = some d → d.scopedId = e.scopedId → y = x
  unresolved : v.lastCategory < 2 ^ 63 → ∀ {s : ScopedId}, s.isCategory = true →
    t.placementsOf s ≠ [] → u.placementsOf s = [] → v.placementsOf s = []

variable {config : Config} {filter : Option RowFilter} {t u v : Tree} {T U V : Table}
  {change : Change} {batch : Batch} {x y : EntryId} {d e : Entry}

theorem not_mem_of_mentions (hprepare : change.prepare config filter = .ok batch) {s : ScopedId}
    (hs : change.mentions s = false) : s ∉ batch.removals ++ batch.rows.map (·.scopedId) := by
  intro hmem
  rw [(change.mentions_iff hprepare).mpr (List.mem_append.mp hmem)] at hs
  cases hs

theorem Settled.preserves (h : t.Settled config T)
    (hprepare : change.prepare config filter = .ok batch) :
    t.Preserves change (t.commit config batch).1 := by
  have hb := Change.prepare_fits hprepare
  have hdocuments : ∀ {x e}, t.get? x = some e → e.isCategory = false →
      change.mentions e.scopedId = false →
      ∃ d, (t.commit config batch).1.get? x = some d ∧ d.core = e.core :=
    fun hx hdoc hnot => h.document_commit hb hx hdoc (not_mem_of_mentions hprepare hnot)
  constructor
  case documents => exact hdocuments
  case order =>
    intro x y a b c d hx hy hadoc hbdoc hanot hbnot hparent hx' hy'
    obtain ⟨c', hc', hcore⟩ := hdocuments hx hadoc hanot
    obtain ⟨d', hd', hcore'⟩ := hdocuments hy hbdoc hbnot
    obtain rfl := Option.some.inj (hx'.symm.trans hc')
    obtain rfl := Option.some.inj (hy'.symm.trans hd')
    obtain ⟨p, -, hp, -⟩ := h.sound.formed.parent (skeleton_eq_some hx)
      (h.sound.formed.ne_root_of_document (skeleton_eq_some hx) hadoc)
    have hap : a.parent = some p := hp
    have hckey : c.key = a.key := congrArg Core.key hcore
    have hdkey : d.key = b.key := congrArg Core.key hcore'
    rw [h.rank_lt_iff hx hy hap (hparent.symm.trans hap),
      (h.commit hb).rank_lt_iff hx' hy' ((congrArg Core.parent hcore).trans hap)
        ((congrArg Core.parent hcore').trans (hparent.symm.trans hap)), hckey, hdkey]
  case categories =>
    intro chain hbefore hafter
    obtain ⟨x, hx⟩ := hbefore.exists_denotes h.sound.formed
    obtain ⟨y, hy⟩ := hafter.exists_denotes (h.commit hb).sound.formed
    obtain ⟨rfl, hsame⟩ := h.denotes_commit hb hx hy
    obtain ⟨e, he, -⟩ := hx.1
    obtain ⟨d, hd, -⟩ := hy.1
    rw [skeleton_eq_some hd, skeleton_eq_some he] at hsame
    exact ⟨x, e, d, hx, hy, he, hd, Option.some.inj hsame⟩

theorem Continues.core_eq (h : t.Continues u) (ht : t.Sound config) (hx : t.get? x = some e)
    (hx' : u.get? x = some d) : d.core = e.core := by
  rcases h.entry (skeleton_eq_some hx') with hold | ⟨hfresh, -⟩
  · exact Option.some.inj (hold.symm.trans (skeleton_eq_some hx))
  · exact absurd (ht.formed.bounded (skeleton_eq_some hx)) (Nat.not_lt.mpr hfresh)

theorem Continues.eq_of_scopedId (h : t.Continues u) (ht : t.Settled config T)
    (hlast : u.lastCategory < 2 ^ 63) (hx : t.get? x = some e) (hcat : e.isCategory = true)
    (hy : u.get? y = some d) (hid : d.scopedId = e.scopedId) : y = x := by
  obtain ⟨hnumber, hone⟩ := ht.numbered (h.lastCategory.trans_lt hlast)
  rcases h.entry (skeleton_eq_some hy) with hold | ⟨-, hfresh⟩
  · exact (hone x y _ _ (skeleton_eq_some hx) hold hcat hid.symm).symm
  · obtain ⟨j, hj, hje⟩ := hnumber x _ (skeleton_eq_some hx) hcat
    obtain ⟨k, hlt, hle, hkd⟩ := hfresh ((congrArg ScopedId.isCategory hid).trans hcat)
    have hjk := ScopedId.category_injective (hle.trans_lt hlast)
      ((hj.trans h.lastCategory).trans_lt hlast) (hkd.symm.trans (hid.trans hje))
    exact absurd hlt (Nat.not_lt.mpr (hjk ▸ hj))

theorem Settled.lasting (ht : t.Settled config T) (hu : u.Settled config U)
    (hv : v.Settled config V) (htu : t.Continues u) (huv : u.Continues v) : t.Lasting u v := by
  have hentry : ∀ {x e d}, t.get? x = some e → v.get? x = some d →
      ∃ c, u.get? x = some c ∧ c.core = e.core ∧ d.core = e.core := by
    intro x e d hx hx'
    rcases huv.entry (skeleton_eq_some hx') with hold | ⟨hfresh, -⟩
    · obtain ⟨c, hc, hcd⟩ := skeleton_eq_some_iff.mp hold
      have hce := htu.core_eq ht.sound hx hc
      exact ⟨c, hc, hce, hcd.symm.trans hce⟩
    · have hbound := ht.sound.formed.bounded (skeleton_eq_some hx)
      exact absurd (hbound.trans_le htu.nextEntry) (Nat.not_lt.mpr hfresh)
  have hcategory : v.lastCategory < 2 ^ 63 → ∀ {x y e d}, t.get? x = some e →
      e.isCategory = true → v.get? y = some d → d.scopedId = e.scopedId → y = x :=
    fun hlast _ _ _ _ hx hcat hy hid => (htu.trans huv).eq_of_scopedId ht hlast hx hcat hy hid
  constructor
  case entry => exact hentry
  case gone =>
    intro x e hx hnone
    refine Option.eq_none_iff_forall_ne_some.mpr fun d hd => ?_
    obtain ⟨c, hc, -⟩ := hentry hx hd
    rw [hnone] at hc
    cases hc
  case category => exact hcategory
  case unresolved =>
    intro hlast s hs hthen hgone
    obtain ⟨x, hx⟩ := List.exists_mem_of_ne_nil _ hthen
    obtain ⟨e, he, rfl⟩ := ht.sound.mem_placementsOf.mp hx
    refine List.eq_nil_iff_forall_not_mem.mpr fun y hy => ?_
    obtain ⟨d, hd, hid⟩ := hv.sound.mem_placementsOf.mp hy
    obtain rfl := hcategory hlast he hs hd hid
    obtain ⟨c, hc, hce, -⟩ := hentry he hd
    exact hu.sound.placementsOf_eq_nil_iff.mp hgone y c hc (congrArg Core.scopedId hce)

end Tree

namespace Index

variable {name : String} {config : Config} {filter : Option RowFilter} {x y : Index}

theorem run_append (x : Index) (first later : List Operation) :
    x.run (first ++ later) = (x.run first).run later := List.foldl_append

/-- The number of the last category counts how many were ever created. -/
theorem identity_run (hbuild : build name config filter = .ok x) :
    (∀ operations change y stats, (x.run operations).apply change = .ok (y, stats) →
      (x.run operations).tree.Preserves change y.tree) ∧
    ∀ first later last, (x.run first).tree.Lasting (x.run (first ++ later)).tree
      (x.run (first ++ later ++ last)).tree := by
  constructor
  · intro operations change y stats happly
    obtain ⟨T, hsettled, -⟩ := exists_settled_run hbuild operations
    obtain ⟨batch, hprepare, -, rfl, -⟩ := apply_eq_ok_iff.mp happly
    rw [config_run_build hbuild operations] at hprepare ⊢
    exact hsettled.preserves hprepare
  · intro first later last
    obtain ⟨T, ht, -⟩ := exists_settled_run hbuild first
    obtain ⟨U, hu, -⟩ := exists_settled_run hbuild (first ++ later)
    obtain ⟨V, hv, -⟩ := exists_settled_run hbuild (first ++ later ++ last)
    refine ht.lasting hu hv ?_ ?_
    · rw [run_append]
      exact continues_run _ later
    · rw [run_append x (first ++ later)]
      exact continues_run _ last

/-- A row is filed again where it was, moves away, and comes back. -/
theorem identity_refiled_row :
    let first : List Operation := [.change (filing 1 (.text "a")), .change (filing 2 (.text "b"))]
    let away : List Operation := [.change (filing 1 (.text "b"))]
    let back : List Operation := [.change (filing 1 (.text "a"))]
    let t := (grouped.run first).tree
    let again := (grouped.run first).after (.change (filing 1 (.text "a")))
    let u := (grouped.run (first ++ away)).tree
    let v := (grouped.run (first ++ away ++ back)).tree
    build "grouped" grouped.config none = .ok grouped ∧
      (∃ stats, (grouped.run first).apply (filing 1 (.text "a")) = .ok (again, stats)) ∧
      t.Preserves (filing 1 (.text "a")) again.tree ∧ t.Lasting u v ∧
      t.preorder = [1, 2, 3, 4] ∧ again.tree.preorder = [1, 5, 3, 4] ∧
      u.preorder = [3, 5, 4] ∧ v.preorder = [6, 7, 3, 4] := by
  intro first away back t again u v
  obtain ⟨hpreserves, hlasting⟩ := identity_run build_grouped
  obtain ⟨stats, hstats⟩ := exists_apply_after (x := grouped.run first)
    (show ((grouped.run first).apply (filing 1 (.text "a"))).toOption.isSome = true by
      decide +kernel)
  exact ⟨build_grouped, ⟨stats, hstats⟩, hpreserves first _ again stats hstats,
    hlasting first away back, by decide +kernel, by decide +kernel, by decide +kernel,
    by decide +kernel⟩

end Index

end CategorizedIndex
