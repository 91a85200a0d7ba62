import CategorizedIndex.Proofs.Table

/-! # Withdrawing

Documents have no children, so taking every placement of an id away removes exactly
these entries. A category that is left without children is noted for pruning.
-/
namespace CategorizedIndex

namespace Skeleton

variable {F : Skeleton}

def withoutAll (F : Skeleton) (gone : List EntryId) : Skeleton :=
  fun x => if x ∈ gone then none else F x

theorem withoutAll_eq_some_iff {gone : List EntryId} {x : EntryId} {c : Core} :
    F.withoutAll gone x = some c ↔ x ∉ gone ∧ F x = some c := by
  unfold withoutAll
  by_cases h : x ∈ gone <;> simp [h]

theorem withoutAll_nil : F.withoutAll [] = F := by
  funext x
  exact if_neg List.not_mem_nil

theorem withoutAll_cons (i : EntryId) (gone : List EntryId) :
    F.withoutAll (i :: gone) = (F.without i).withoutAll gone := by
  funext x
  by_cases hx : x = i
  · simp [withoutAll, hx]
  · simp [withoutAll, hx, without_of_ne hx]

end Skeleton

namespace Work

variable {config : Config} {w : Work} {T : Table}

structure Withdrawn (config : Config) (gone : List EntryId) (w v : Work) : Prop where
  sound : v.tree.Sound config
  skeleton : v.tree.skeleton = w.tree.skeleton.withoutAll gone
  emptied : w.emptied ⊆ v.emptied
  noted : ∀ x, v.tree.skeleton.Childless x → w.tree.skeleton.Childless x ∨ x ∈ v.emptied
  lastCategory : v.tree.lastCategory = w.tree.lastCategory

theorem withdrawn_nil (h : w.tree.Sound config) : Withdrawn config [] w w where
  sound := h
  skeleton := Skeleton.withoutAll_nil.symm
  emptied := List.Subset.refl _
  noted _ hx := Or.inl hx
  lastCategory := rfl

theorem Withdrawn.trans {gone gone' : List EntryId} {u v : Work} (h : Withdrawn config gone w u)
    (h' : Withdrawn config gone' u v) : Withdrawn config (gone ++ gone') w v where
  sound := h'.sound
  skeleton := by
    rw [h'.skeleton, h.skeleton]
    funext x
    by_cases hx : x ∈ gone <;> simp [Skeleton.withoutAll, hx]
  emptied := List.Subset.trans h.emptied h'.emptied
  noted x hx := by
    rcases h'.noted x hx with hx | hx
    · exact (h.noted x hx).imp_right (h'.emptied ·)
    · exact Or.inr hx
  lastCategory := h'.lastCategory.trans h.lastCategory

/-- Detaching a document plucks it, counts it and notes its parent. -/
theorem detach_document (h : w.tree.Sound config) {id : EntryId} {c : Core}
    (hid : w.tree.skeleton id = some c) (hdoc : c.isCategory = false) :
    ∃ e p, w.tree.get? id = some e ∧ e.core = c ∧ e.parent = some p ∧ e.children.toList = [] ∧
      w.detach id = ⟨w.tree.plucked id e p, { w.stats with removed := w.stats.removed + 1 },
        if p = Tree.root then w.emptied else w.emptied ++ [p]⟩ := by
  obtain ⟨e, he, rfl⟩ := Tree.skeleton_eq_some_iff.mp hid
  have hr := h.formed.ne_root_of_document hid hdoc
  obtain ⟨p, -, hp, -⟩ := h.formed.parent hid hr
  have hparent : e.parent = some p := hp
  have hleaf : e.children.toList = [] := by
    refine List.eq_nil_iff_forall_not_mem.mpr ?_
    rintro ⟨k, x⟩ hmem
    obtain ⟨d, hd, hdp, -⟩ := (h.children he k x).mp hmem
    obtain ⟨qc, hqc, hcat⟩ := h.formed.parent_category hd hdp
    obtain rfl := Option.some.inj (hid.symm.trans hqc)
    rw [hdoc] at hcat
    cases hcat
  refine ⟨e, p, he, rfl, hparent, hleaf, ?_⟩
  rw [detach, Tree.detach?_eq hr he hp]
  simp only [hparent]

theorem withdrawn_detach (h : w.tree.Sound config) {id : EntryId} {c : Core}
    (hid : w.tree.skeleton id = some c) (hdoc : c.isCategory = false) :
    Withdrawn config [id] w (w.detach id) := by
  obtain ⟨e, p, he, rfl, hp, hleaf, hdetach⟩ := detach_document h hid hdoc
  have htree : (w.detach id).tree = w.tree.plucked id e p := by rw [hdetach]
  have hemptied : (w.detach id).emptied =
      if p = Tree.root then w.emptied else w.emptied ++ [p] := by rw [hdetach]
  have hskel : (w.tree.plucked id e p).skeleton = w.tree.skeleton.without id :=
    Tree.skeleton_plucked
  constructor
  case sound => exact htree ▸ h.plucked he hp hleaf
  case skeleton => rw [htree, hskel, Skeleton.withoutAll_cons, Skeleton.withoutAll_nil]
  case emptied =>
    rw [hemptied]
    split
    · exact List.Subset.refl _
    · exact List.subset_append_left _ _
  case noted =>
    intro x hx
    rw [htree, hskel] at hx
    rcases Tree.childless_without hid hp hx with hx' | rfl
    · exact Or.inl hx'
    · rw [hemptied, if_neg hx.ne_root]
      exact Or.inr (List.mem_append_right _ List.mem_cons_self)
  case lastCategory => rw [htree, Tree.lastCategory_plucked]

theorem withdrawn_foldl (h : w.tree.Sound config) {ids : List EntryId} (hn : ids.Nodup)
    (hdoc : ∀ x ∈ ids, ∃ c, w.tree.skeleton x = some c ∧ c.isCategory = false) :
    Withdrawn config ids w (ids.foldl detach w) := by
  induction ids generalizing w with
  | nil => exact withdrawn_nil h
  | cons id rest ih =>
    obtain ⟨hnot, hrest⟩ := List.nodup_cons.mp hn
    obtain ⟨c, hc, hcat⟩ := hdoc id List.mem_cons_self
    have hone := withdrawn_detach h hc hcat
    refine hone.trans (ih hone.sound hrest fun x hx => ?_)
    obtain ⟨d, hd, hdcat⟩ := hdoc x (List.mem_cons_of_mem _ hx)
    refine ⟨d, ?_, hdcat⟩
    rw [hone.skeleton]
    refine Skeleton.withoutAll_eq_some_iff.mpr ⟨fun hmem => ?_, hd⟩
    exact hnot (List.mem_singleton.mp hmem ▸ hx)

theorem withdrawn_withdraw (h : w.tree.Sound config) {s : ScopedId} (hs : s.isCategory = false) :
    Withdrawn config (w.tree.skeleton.placed w.tree.nextEntry s) w (w.withdraw s) := by
  rw [withdraw, h.placements]
  refine withdrawn_foldl h (Skeleton.nodup_placed _ _ _) fun x hx => ?_
  obtain ⟨c, hc, rfl⟩ := (Skeleton.mem_placed h.formed).mp hx
  exact ⟨c, hc, hs⟩

theorem skeleton_withdraw (h : w.tree.Sound config) {s : ScopedId} (hs : s.isCategory = false)
    {x : EntryId} {c : Core} : (w.withdraw s).tree.skeleton x = some c ↔
      c.scopedId ≠ s ∧ w.tree.skeleton x = some c := by
  rw [(withdrawn_withdraw h hs).skeleton, Skeleton.withoutAll_eq_some_iff,
    Skeleton.mem_placed h.formed]
  constructor
  · rintro ⟨hnot, hx⟩
    exact ⟨fun heq => hnot ⟨c, hx, heq⟩, hx⟩
  · rintro ⟨hne, hx⟩
    refine ⟨fun ⟨d, hd, heq⟩ => hne ?_, hx⟩
    rw [Option.some.inj (hx.symm.trans hd), heq]

theorem keptIn_withdraw (h : w.tree.Sound config) {s : ScopedId} (hs : s.isCategory = false) :
    (w.withdraw s).tree.skeleton.KeptIn w.tree.skeleton :=
  fun _ _ hx => ((skeleton_withdraw h hs).mp hx).2

/-- A commit under way: the tree shows the rows so far, and every childless category is
noted for pruning. -/
structure Shows (config : Config) (w : Work) (T : Table) : Prop where
  sound : w.tree.Sound config
  fits : T.Fits config
  rows : w.tree.skeleton.Shows T
  noted : ∀ x, w.tree.skeleton.Childless x → x ∈ w.emptied
  numbered : w.tree.skeleton.Numbered w.tree.lastCategory

/-- A commit starts from what the tree shows. -/
theorem shows_start {t : Tree} (h : t.Settled config T) : (start t).Shows config T where
  sound := h.sound
  fits := h.fits
  rows := h.shows
  noted x hx := absurd hx (h.full x)
  numbered := h.numbered

/-- Withdrawing an id empties its row of the table. -/
theorem Shows.withdraw (h : w.Shows config T) {s : ScopedId} (hs : s.isCategory = false) :
    (w.withdraw s).Shows config (T.set s none) := by
  have hw := withdrawn_withdraw h.sound hs
  have hmem : ∀ x c, (w.withdraw s).tree.skeleton x = some c ↔
      c.scopedId ≠ s ∧ w.tree.skeleton x = some c := fun _ _ => skeleton_withdraw h.sound hs
  have hkept := keptIn_withdraw h.sound hs
  constructor
  case sound => exact hw.sound
  case fits => exact h.fits.set fun p hp => nomatch hp
  case rows =>
    constructor
    case documents =>
      intro x c hx hd
      obtain ⟨hne, hold⟩ := (hmem x c).mp hx
      rw [← hkept.address_eq hw.sound.formed hx, Table.set_of_ne T none hne]
      exact h.rows.documents hold hd
    case complete =>
      intro a placing path ha hpath
      have hne : a ≠ s := by
        intro heq
        rw [heq, Table.set_self] at ha
        cases ha
      rw [Table.set_of_ne T none hne] at ha
      obtain ⟨x, c, hx, hcs, haddress⟩ := h.rows.complete ha hpath
      have hnew := (hmem x c).mpr ⟨hcs ▸ hne, hx⟩
      exact ⟨x, c, hnew, hcs, (hkept.address_eq hw.sound.formed hnew).symm.trans haddress⟩
  case noted =>
    intro x hx
    rcases hw.noted x hx with hx | hx
    · exact hw.emptied (h.noted x hx)
    · exact hx
  case numbered =>
    rw [hw.lastCategory]
    exact h.numbered.mono le_rfl fun hx _ => hkept _ _ hx

theorem Shows.withdrawals (h : w.Shows config T) {l : List ScopedId}
    (hl : ∀ s ∈ l, s.isCategory = false) :
    (l.foldl Work.withdraw w).Shows config (l.foldl (fun T s => T.set s none) T) := by
  induction l generalizing w T with
  | nil => exact h
  | cons s rest ih =>
    exact ih (h.withdraw (hl s List.mem_cons_self)) fun a ha => hl a (List.mem_cons_of_mem _ ha)

theorem Shows.keptIn_withdrawals (h : w.Shows config T) {l : List ScopedId}
    (hl : ∀ s ∈ l, s.isCategory = false) :
    (l.foldl Work.withdraw w).tree.skeleton.KeptIn w.tree.skeleton := by
  induction l generalizing w T with
  | nil => exact .refl _
  | cons s rest ih =>
    obtain ⟨hs, hrest⟩ := List.forall_mem_cons.mp hl
    exact (ih (h.withdraw hs) hrest).trans (keptIn_withdraw h.sound hs)

end Work

end CategorizedIndex
