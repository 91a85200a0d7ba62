import CategorizedIndex.Proofs.Commit.Place

/-! # Counters while entries are taken away

A commit takes entries away when it withdraws an id, when it replaces a row, and when it
prunes. Counters are exact through all of it, so none that is lowered is zero before.
-/
namespace CategorizedIndex

namespace Counters

/-- A child of the section can be counted off. -/
def HasChild (c : Counters) (isCategory : Bool) : Prop :=
  0 < c.children ∧ 0 < if isCategory then c.childCategories else c.childDocuments

/-- A descendant of the section can be counted off. -/
def HasDescendant (c : Counters) (isCategory : Bool) : Prop :=
  0 < c.descendants ∧ 0 < if isCategory then c.descendantCategories else c.descendantDocuments

end Counters

namespace Tree

variable {config : Config} {t u : Tree} {T : Table} {batch : Batch} {id a p : EntryId} {e pe : Entry}

/-- An entry can be counted off its parent and everything above. -/
structure Counted (t : Tree) (id : EntryId) : Prop where
  child : ∀ {e p pe}, t.get? id = some e → e.parent = some p → t.get? p = some pe →
    pe.counters.HasChild e.isCategory
  descendant : ∀ {e p a ae}, t.get? id = some e → e.parent = some p → (a, ae) ∈ t.lineage p →
    ae.counters.HasDescendant e.isCategory

/-- Pruning from an entry takes another away from what is left of the tree. -/
inductive Pruned : Tree → Nat → EntryId → Tree → EntryId → Prop
  | here {t rest : Tree} {fuel : Nat} {id : EntryId} {e : Entry} (hid : t.get? id = some e)
    (hempty : e.children.isEmpty = true) (hcat : e.isCategory = true)
    (hdetach : t.detach? id = some (e, rest)) : Pruned t (fuel + 1) id t id
  | above {t rest u : Tree} {fuel : Nat} {id p a : EntryId} {e : Entry}
    (hid : t.get? id = some e) (hempty : e.children.isEmpty = true) (hcat : e.isCategory = true)
    (hdetach : t.detach? id = some (e, rest)) (hp : e.parent = some p)
    (hrest : Pruned rest fuel p u a) : Pruned t (fuel + 1) id u a

/-- The commit of a batch takes an entry away from the tree as it then is. -/
inductive Detached (config : Config) (t : Tree) (batch : Batch) : Tree → EntryId → Prop
  | removal {done rest : List ScopedId} {s : ScopedId} {w : Work} {first later : List EntryId}
    {id : EntryId} (hs : batch.removals = done ++ s :: rest)
    (hw : w = done.foldl Work.withdraw (.start t))
    (hid : w.tree.placementsOf s = first ++ id :: later) :
    Detached config t batch (first.foldl Work.detach w).tree id
  | row {done rest : List PreparedRow} {row : PreparedRow} {w : Work} {first later : List EntryId}
    {id : EntryId} (hrow : batch.rows = done ++ row :: rest)
    (hw : w = done.foldl (Work.place config) (batch.removals.foldl Work.withdraw (.start t)))
    (hid : w.tree.placementsOf row.scopedId = first ++ id :: later) :
    Detached config t batch (first.foldl Work.detach w).tree id
  | pruning {first later : List EntryId} {w : Work} {c id : EntryId} {u : Tree}
    (hw : w = batch.rows.foldl (Work.place config)
      (batch.removals.foldl Work.withdraw (.start t)))
    (hc : w.emptied = first ++ c :: later)
    (hid : Pruned (w.tree.prune first).2 (w.tree.prune first).2.arena.size c u id) :
    Detached config t batch u id

theorem Sound.counted (h : t.Sound config) (id : EntryId) : t.Counted id := by
  have hF := h.formed
  have hpositive : ∀ {s : Finset EntryId} {e : Entry}, t.get? id = some e → id ∈ s →
      0 < s.card ∧ 0 < if e.isCategory then (t.skeleton.categoriesIn s).card
        else (t.skeleton.documentsIn s).card := by
    intro s e he hmem
    have hcat : t.skeleton.isCategoryAt id = e.isCategory := by
      rw [Skeleton.isCategoryAt, skeleton_eq_some he]
      rfl
    refine ⟨Finset.card_pos.mpr ⟨id, hmem⟩, ?_⟩
    cases hsection : e.isCategory with
    | true => exact Finset.card_pos.mpr ⟨id, Finset.mem_filter.mpr ⟨hmem, hcat.trans hsection⟩⟩
    | false => exact Finset.card_pos.mpr ⟨id, Finset.mem_filter.mpr ⟨hmem, hcat.trans hsection⟩⟩
  constructor
  · intro e p pe he hp hpe
    rw [h.counters hpe]
    exact hpositive he ((Skeleton.mem_kids hF).mpr ⟨e.core, skeleton_eq_some he, hp⟩)
  · intro e p a ae he hp hmem
    have hcore := skeleton_eq_some he
    obtain ⟨qc, hqc, -⟩ := hF.parent_category hcore hp
    obtain ⟨pe, hpe, -⟩ := skeleton_eq_some_iff.mp hqc
    rw [lineage_eq hF hpe, List.mem_filterMap] at hmem
    obtain ⟨x, hx, hxa⟩ := hmem
    obtain ⟨xe, hxe, hpair⟩ := Option.map_eq_some_iff.mp hxa
    obtain ⟨rfl, rfl⟩ := Prod.mk.inj hpair
    rw [h.counters hxe]
    refine hpositive he ((Skeleton.mem_below hF).mpr ⟨⟨_, hcore⟩, ?_, ?_⟩)
    · exact ((Skeleton.mem_line_le hx).trans_lt (hF.parent_lt hcore hp)).ne'
    · rw [hF.line_eq hcore hp]
      exact List.mem_cons_of_mem _ hx

theorem Pruned.sound {fuel : Nat} (hp : Pruned t fuel id u a) (h : t.Sound config) :
    u.Sound config := by
  induction hp with
  | here => exact h
  | @above t rest u fuel id p a e hid hempty hcat hdetach hparent _ ih =>
    have hr : id ≠ root := h.formed.ne_root (skeleton_eq_some hid) hparent
    rw [detach?_eq hr hid hparent] at hdetach
    obtain rfl := (Prod.mk.inj (Option.some.inj hdetach)).2
    exact ih (h.plucked hid hparent ((Siblings.isEmpty_iff _).mp hempty))

theorem sound_foldl_detach {w : Work} (h : w.tree.Sound config) {s : ScopedId}
    (hs : s.isCategory = false) {first later : List EntryId}
    (hid : w.tree.placementsOf s = first ++ id :: later) :
    (first.foldl Work.detach w).tree.Sound config := by
  rw [h.placements] at hid
  have hn := Skeleton.nodup_placed w.tree.skeleton w.tree.nextEntry s
  rw [hid] at hn
  refine (Work.withdrawn_foldl h hn.of_append_left fun x hx => ?_).sound
  have hmem : x ∈ w.tree.skeleton.placed w.tree.nextEntry s :=
    hid ▸ List.mem_append_left _ hx
  obtain ⟨c, hc, rfl⟩ := (Skeleton.mem_placed h.formed).mp hmem
  exact ⟨c, hc, hs⟩

theorem Settled.counted_of_detached (h : t.Settled config T) (hb : batch.Fits config)
    (hd : Detached config t batch u id) : u.Counted id := by
  suffices hsound : u.Sound config from hsound.counted id
  have hstart := Work.shows_start h
  cases hd with
  | removal hs hw hid =>
    have hmem : ∀ x ∈ _, x ∈ batch.removals := fun x hx => hs ▸ List.mem_append_left _ hx
    have hshows := hstart.withdrawals fun x hx => hb.removals x (hmem x hx)
    subst hw
    refine sound_foldl_detach hshows.sound (hb.removals _ ?_) hid
    exact hs ▸ List.mem_append_right _ List.mem_cons_self
  | row hrow hw hid =>
    have hmem : ∀ x ∈ _, x ∈ batch.rows := fun x hx => hrow ▸ List.mem_append_left _ hx
    have hshows := (hstart.withdrawals hb.removals).places fun x hx => hb.rows x (hmem x hx)
    subst hw
    refine sound_foldl_detach hshows.sound (hb.rows _ ?_).1 hid
    exact hrow ▸ List.mem_append_right _ List.mem_cons_self
  | pruning hw hc hid =>
    have hshows := (hstart.withdrawals hb.removals).places hb.rows
    subst hw
    exact hid.sound (thinned_prune hshows.sound _).1.sound

end Tree

end CategorizedIndex
