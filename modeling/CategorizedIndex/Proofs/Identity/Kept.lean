import CategorizedIndex.Proofs.Commit.Place
import CategorizedIndex.Proofs.Tree.Groups

/-! # What a commit keeps

Before it prunes, a commit takes nothing away but the documents of the ids it mentions, so
a category that is refilled in the same commit is found again and stays the entry it was.
Pruning takes away nothing but categories that are left without children.
-/
namespace CategorizedIndex

namespace Skeleton

variable {config : Config} {F G H : Skeleton} {ids ids' : List ScopedId} {n x y : EntryId}
  {c d : Core}

def KeptBut (ids : List ScopedId) (F G : Skeleton) : Prop :=
  ∀ x c, F x = some c → c.isCategory = true ∨ c.scopedId ∉ ids → G x = some c

namespace KeptBut

theorem refl (F : Skeleton) : F.KeptBut [] F := fun _ _ hx _ => hx

theorem trans (h : F.KeptBut ids G) (h' : G.KeptBut ids' H) : F.KeptBut (ids ++ ids') H := by
  intro x c hx hc
  have hfirst : c.isCategory = true ∨ c.scopedId ∉ ids :=
    hc.imp_right fun hnot hmem => hnot (List.mem_append_left _ hmem)
  have hsecond : c.isCategory = true ∨ c.scopedId ∉ ids' :=
    hc.imp_right fun hnot hmem => hnot (List.mem_append_right _ hmem)
  exact h' x c (h x c hx hfirst) hsecond

theorem kept (h : F.KeptBut ids G) (h' : G.KeptIn H) : F.KeptBut ids H :=
  fun x c hx hc => h' x c (h x c hx hc)

end KeptBut

theorem WellFormed.category_of_mem_line (h : F.WellFormed config n) (hx : F x = some c)
    (hcat : c.isCategory = true) (hy : y ∈ F.line x) :
    ∃ d, F y = some d ∧ d.isCategory = true := by
  by_cases hyx : y = x
  · exact hyx ▸ ⟨c, hx, hcat⟩
  · obtain ⟨z, cz, -, hz, hp⟩ := h.exists_child_of_mem_line hx hy hyx
    exact h.parent_category hz hp

theorem KeptBut.address_eq (h : F.KeptBut ids G) (hF : F.WellFormed config n) (hx : F x = some c)
    (hcat : c.isCategory = true) : G.address x = F.address x :=
  address_congr fun y hy => by
    obtain ⟨d, hd, hdcat⟩ := hF.category_of_mem_line hx hcat hy
    rw [hd, h y d hd (Or.inl hdcat)]

end Skeleton

namespace Work

variable {config : Config} {w : Work} {T : Table}

theorem keptBut_withdraw (h : w.tree.Sound config) {s : ScopedId} (hs : s.isCategory = false) :
    w.tree.skeleton.KeptBut [s] (w.withdraw s).tree.skeleton := by
  refine fun x c hx hc => (skeleton_withdraw h hs).mpr ⟨?_, hx⟩
  rintro rfl
  rcases hc with hcat | hnot
  · exact Bool.noConfusion (hs.symm.trans hcat)
  · exact hnot (List.mem_singleton_self _)

theorem Shows.keptBut_place (h : w.Shows config T) {row : PreparedRow}
    (hs : row.scopedId.isCategory = false) (hfits : ∀ p, row.placing = some p → p.Fits config) :
    w.tree.skeleton.KeptBut [row.scopedId] (w.place config row).tree.skeleton := by
  have hwithdrawn := keptBut_withdraw h.sound hs
  obtain ⟨s, placing⟩ := row
  cases placing with
  | none => exact hwithdrawn
  | some placing =>
    obtain ⟨parents, v, hgather, hattach⟩ := h.exists_attached hs (hfits placing rfl)
    exact hwithdrawn.kept (hgather.kept.trans hattach.kept)

theorem Shows.keptBut_withdrawals (h : w.Shows config T) {ids : List ScopedId}
    (hids : ∀ s ∈ ids, s.isCategory = false) :
    w.tree.skeleton.KeptBut ids (ids.foldl Work.withdraw w).tree.skeleton := by
  induction ids generalizing w T with
  | nil => exact .refl _
  | cons s rest ih =>
    have hs := hids s List.mem_cons_self
    exact (keptBut_withdraw h.sound hs).trans
      (ih (h.withdraw hs) fun a ha => hids a (List.mem_cons_of_mem _ ha))

theorem Shows.keptBut_places (h : w.Shows config T) {rows : List PreparedRow}
    (hrows : ∀ row ∈ rows, row.scopedId.isCategory = false ∧
      ∀ p, row.placing = some p → p.Fits config) :
    w.tree.skeleton.KeptBut (rows.map (·.scopedId))
      (rows.foldl (Work.place config) w).tree.skeleton := by
  induction rows generalizing w T with
  | nil => exact .refl _
  | cons row rest ih =>
    obtain ⟨hs, hfits⟩ := hrows row List.mem_cons_self
    exact (h.keptBut_place hs hfits).trans
      (ih (h.place hs hfits) fun a ha => hrows a (List.mem_cons_of_mem _ ha))

/-- A commit after its withdrawals and rows, before anything is pruned. -/
def filled (config : Config) (t : Tree) (batch : Batch) : Work :=
  batch.rows.foldl (place config) (batch.removals.foldl withdraw (.start t))

theorem commit_eq (config : Config) (t : Tree) (batch : Batch) :
    t.commit config batch = (filled config t batch).finish := rfl

end Work

namespace Tree

variable {config : Config} {t u : Tree} {T U : Table} {batch : Batch} {x y : EntryId}
  {e : Entry}

section Filled

variable (h : t.Settled config T) (hb : batch.Fits config)
include h hb

theorem Settled.shows_filled : (Work.filled config t batch).Shows config (batch.table T) :=
  ((Work.shows_start h).withdrawals hb.removals).places hb.rows

theorem Settled.keptBut_filled :
    t.skeleton.KeptBut (batch.removals ++ batch.rows.map (·.scopedId))
      (Work.filled config t batch).tree.skeleton :=
  ((Work.shows_start h).keptBut_withdrawals hb.removals).trans
    (((Work.shows_start h).withdrawals hb.removals).keptBut_places hb.rows)

theorem Settled.exists_unpruned :
    ∃ w : Work, w.Shows config (batch.table T) ∧
      t.skeleton.KeptBut (batch.removals ++ batch.rows.map (·.scopedId)) w.tree.skeleton ∧
      w.tree.skeleton.Trimmed (t.commit config batch).1.skeleton :=
  ⟨_, h.shows_filled hb, h.keptBut_filled hb, (h.shows_filled hb).trimmed_finish⟩

end Filled

/-- A document that the batch does not mention stays as it was. -/
theorem Settled.document_commit (h : t.Settled config T) (hb : batch.Fits config)
    (hx : t.get? x = some e) (hdoc : e.isCategory = false)
    (hnot : e.scopedId ∉ batch.removals ++ batch.rows.map (·.scopedId)) :
    ∃ d, (t.commit config batch).1.get? x = some d ∧ d.core = e.core := by
  obtain ⟨w, -, hkept, htrim⟩ := h.exists_unpruned hb
  exact skeleton_eq_some_iff.mp
    (htrim.documents (hkept x _ (skeleton_eq_some hx) (Or.inr hnot)) hdoc)

/-- Some document stands below the end of the chain. -/
def Leads (t : Tree) (chain : CategoryPath) : Prop :=
  ∃ x e above, t.get? x = some e ∧ e.isCategory = false ∧ above <+: t.groups x ∧
    List.Forall₂ CategoryStep.Equal above chain

theorem Leads.exists_denotes {n : EntryId} (h : t.skeleton.WellFormed config n)
    {chain : CategoryPath} (hleads : t.Leads chain) : ∃ x, t.Denotes chain x := by
  obtain ⟨x, e, above, hx, hdoc, ⟨rest, hrest⟩, hchain⟩ := hleads
  have hstart : above.map Label.category <+: t.skeleton.address x := by
    rw [documentAddress_groups h hx hdoc, Skeleton.documentAddress, ← hrest, List.map_append,
      List.append_assoc]
    exact List.prefix_append _ _
  obtain ⟨a, ha, haddress⟩ := h.exists_of_prefix (skeleton_eq_some hx) hstart
  obtain ⟨c, hc⟩ := h.exists_of_mem_line (skeleton_eq_some hx) ha
  obtain ⟨d, hd, rfl⟩ := skeleton_eq_some_iff.mp hc
  cases hcat : d.isCategory with
  | true =>
    rw [address_eq_groups h hd hcat] at haddress
    exact ⟨a, ⟨d, hd, hcat⟩, (Label.map_category_injective haddress).symm ▸ hchain⟩
  | false =>
    rw [documentAddress_groups h hd hcat, Skeleton.documentAddress] at haddress
    have hlast : Label.document d.scopedId ∈ above.map Label.category := by
      rw [← haddress]
      exact List.mem_append_right _ List.mem_cons_self
    obtain ⟨step, -, hstep⟩ := List.mem_map.mp hlast
    cases hstep

/-- A chain that denotes a category before and after a commit denotes the same. -/
theorem Settled.denotes_commit (h : t.Settled config T) (hb : batch.Fits config)
    {chain : CategoryPath} (hx : t.Denotes chain x)
    (hy : (t.commit config batch).1.Denotes chain y) :
    x = y ∧ (t.commit config batch).1.skeleton x = t.skeleton x := by
  have hu := h.commit hb
  obtain ⟨w, hw, hkept, htrim⟩ := h.exists_unpruned hb
  obtain ⟨⟨e, he, hecat⟩, hechain⟩ := hx
  obtain ⟨⟨d, hd, hdcat⟩, hdchain⟩ := hy
  generalize (t.commit config batch).1 = u at hu htrim hd hdchain ⊢
  have hgroups : t.groups x = u.groups y :=
    CategoryStep.eq_of_forall₂_equal (fits_groups h.sound.formed he)
      (fits_groups hu.sound.formed hd) hechain hdchain
  have hwx : w.tree.skeleton x = some e.core :=
    hkept x _ (skeleton_eq_some he) (Or.inl hecat)
  have hwy : w.tree.skeleton y = some d.core := htrim.kept y _ (skeleton_eq_some hd)
  have haddress : w.tree.skeleton.address x = w.tree.skeleton.address y := by
    rw [hkept.address_eq h.sound.formed (skeleton_eq_some he) hecat,
      htrim.kept.address_eq hu.sound.formed (skeleton_eq_some hd),
      address_eq_groups h.sound.formed he hecat, address_eq_groups hu.sound.formed hd hdcat,
      hgroups]
  obtain rfl := hw.sound.formed.address_injective hwx hwy haddress
  refine ⟨rfl, ?_⟩
  rw [skeleton_eq_some hd, skeleton_eq_some he, ← hwx, hwy]

end Tree

end CategorizedIndex
