import CategorizedIndex.Proofs.Integrity.Descent
import Mathlib.Data.Set.Card
import Mathlib.Logic.Relation

/-! # Intact trees

What the check of integrity stands for, said of the tree alone: links agree both ways,
everything is reached from the root, categories lead somewhere and documents are leaves,
siblings are in order and numbered from one, and the counters are the sizes of what
hangs below. Every settled tree is intact.
-/
namespace CategorizedIndex.Tree

/-- An entry hangs under another. -/
def Hangs (t : Tree) (above y : EntryId) : Prop := ∃ e, t.get? y = some e ∧ e.parent = some above

/-- An entry of the tree stands in the section of categories, or in that of documents. -/
def InSection (t : Tree) (isCategory : Bool) (y : EntryId) : Prop :=
  ∃ e, t.get? y = some e ∧ e.isCategory = isCategory

/-- The sizes of what hangs under an entry, directly and at any depth. -/
noncomputable def tally (t : Tree) (x : EntryId) : Counters where
  children := {y | t.Hangs x y}.ncard
  childCategories := {y | t.Hangs x y ∧ t.InSection true y}.ncard
  childDocuments := {y | t.Hangs x y ∧ t.InSection false y}.ncard
  descendants := {y | Relation.TransGen t.Hangs x y}.ncard
  descendantCategories := {y | Relation.TransGen t.Hangs x y ∧ t.InSection true y}.ncard
  descendantDocuments := {y | Relation.TransGen t.Hangs x y ∧ t.InSection false y}.ncard

/-- Links, order, numbering and counters of the tree are right; in a strict index the
keys of siblings are comparable as well. -/
structure Intact (strict : Bool) (t : Tree) : Prop where
  root : t.InSection true Tree.root
  top : ∀ {x e}, t.get? x = some e → (e.parent = none ↔ x = Tree.root)
  reached : ∀ {x e}, t.get? x = some e → Relation.ReflTransGen t.Hangs Tree.root x
  children : ∀ {x e}, t.get? x = some e → ∀ k y, (k, y) ∈ e.children.toList ↔
    ∃ child, t.get? y = some child ∧ child.parent = some x ∧ child.key = k
  full : ∀ {x e}, t.get? x = some e → x ≠ Tree.root → e.isCategory = true →
    e.children.toList ≠ []
  leaves : ∀ {x e}, t.get? x = some e → e.isCategory = false → e.children.toList = []
  increasing : ∀ {x e}, t.get? x = some e → e.children.toList.Pairwise fun a b =>
    compareKeys strict a.1 b.1 = .ok .lt
  sections : ∀ {x e}, t.get? x = some e → e.children.toList.Pairwise fun a b =>
    t.InSection true b.2 → t.InSection true a.2
  ranks : ∀ {x e}, t.get? x = some e → ∀ i k y, e.children.toList[i]? = some (k, y) →
    (t.get? y).map (·.rank) = some (i + 1)
  counters : ∀ {x e}, t.get? x = some e → e.counters = t.tally x
  flushed : t.unnumbered = ∅

variable {config : Config} {t : Tree} {T : Table} {strict : Bool} {x y : EntryId} {e : Entry}

theorem hangs_iff : t.Hangs x y ↔ ∃ c, t.skeleton y = some c ∧ c.parent = some x := by
  constructor
  · rintro ⟨e, he, hp⟩
    exact ⟨e.core, skeleton_eq_some he, hp⟩
  · rintro ⟨c, hc, hp⟩
    obtain ⟨e, he, rfl⟩ := skeleton_eq_some_iff.mp hc
    exact ⟨e, he, hp⟩

theorem inSection_iff_of_get? {isCategory : Bool} (hy : t.get? y = some e) :
    t.InSection isCategory y ↔ e.isCategory = isCategory := by
  constructor
  · rintro ⟨d, hd, hcat⟩
    rw [Option.some.inj (hy.symm.trans hd), hcat]
  · exact fun hcat => ⟨e, hy, hcat⟩

theorem inSection_iff {isCategory : Bool} {c : Core} (hy : t.skeleton y = some c) :
    t.InSection isCategory y ↔ t.skeleton.isCategoryAt y = isCategory := by
  obtain ⟨e, he, rfl⟩ := skeleton_eq_some_iff.mp hy
  rw [isCategoryAt_eq he, inSection_iff_of_get? he]

theorem Sound.transGen_hangs_iff (h : t.Sound config) :
    Relation.TransGen t.Hangs x y ↔
      (∃ c, t.skeleton y = some c) ∧ y ≠ x ∧ x ∈ t.skeleton.line y := by
  have hF := h.formed
  constructor
  · intro hxy
    induction hxy with
    | single hy =>
      obtain ⟨c, hc, hp⟩ := hangs_iff.mp hy
      refine ⟨⟨c, hc⟩, (hF.parent_lt hc hp).ne', ?_⟩
      rw [hF.line_eq hc hp]
      exact List.mem_cons_of_mem _ Skeleton.self_mem_line
    | tail _ hy ih =>
      obtain ⟨c, hc, hp⟩ := hangs_iff.mp hy
      obtain ⟨-, -, hmem⟩ := ih
      have hlt := (Skeleton.mem_line_le hmem).trans_lt (hF.parent_lt hc hp)
      refine ⟨⟨c, hc⟩, hlt.ne', ?_⟩
      rw [hF.line_eq hc hp]
      exact List.mem_cons_of_mem _ hmem
  · rintro ⟨⟨c, hc⟩, hne, hmem⟩
    have hreached := hF.reached hc
    clear hc
    induction hreached with
    | root =>
      rw [hF.line_root, List.mem_singleton] at hmem
      exact absurd hmem.symm hne
    | @child y c p hc hp _ ih =>
      rw [hF.line_eq hc hp] at hmem
      rcases List.mem_cons.mp hmem with rfl | hmem
      · exact absurd rfl hne
      · by_cases hpx : p = x
        · exact .single (hangs_iff.mpr ⟨c, hc, hpx ▸ hp⟩)
        · exact .tail (ih hpx hmem) (hangs_iff.mpr ⟨c, hc, hp⟩)

theorem Sound.reached_root (h : t.Sound config) (hx : t.get? x = some e) :
    Relation.ReflTransGen t.Hangs root x := by
  by_cases hr : x = root
  · rw [hr]
  · refine Relation.TransGen.to_reflTransGen (h.transGen_hangs_iff.mpr ⟨?_, hr, ?_⟩)
    · exact ⟨_, skeleton_eq_some hx⟩
    · exact h.formed.root_mem_line (skeleton_eq_some hx)

theorem Sound.tally_eq (h : t.Sound config) (x : EntryId) :
    t.tally x = t.skeleton.count t.nextEntry x := by
  have hchildren : {y | t.Hangs x y} = ↑(t.skeleton.kids t.nextEntry x) := by
    ext y
    rw [Set.mem_ofPred_eq, hangs_iff, Finset.mem_coe, Skeleton.mem_kids h.formed]
  have hbelow : {y | Relation.TransGen t.Hangs x y} = ↑(t.skeleton.below t.nextEntry x) := by
    ext y
    rw [Set.mem_ofPred_eq, h.transGen_hangs_iff, Finset.mem_coe, Skeleton.mem_below h.formed]
  have hsection : ∀ {p : EntryId → Prop} {s : Finset EntryId} (isCategory : Bool),
      {y | p y} = ↑s → (∀ y ∈ s, ∃ c, t.skeleton y = some c) →
      {y | p y ∧ t.InSection isCategory y} =
        ↑(s.filter fun y => t.skeleton.isCategoryAt y = isCategory) := by
    intro p s isCategory hp hs
    ext y
    have hpy : p y ↔ y ∈ s := by
      rw [← Finset.mem_coe, ← hp, Set.mem_ofPred_eq]
    rw [Set.mem_ofPred_eq, Finset.mem_coe, Finset.mem_filter, hpy]
    refine and_congr_right fun hy => ?_
    obtain ⟨c, hc⟩ := hs y hy
    exact inSection_iff hc
  have hkids : ∀ y ∈ t.skeleton.kids t.nextEntry x, ∃ c, t.skeleton y = some c := by
    intro y hy
    obtain ⟨c, hc, -⟩ := (Skeleton.mem_kids h.formed).mp hy
    exact ⟨c, hc⟩
  have hlower : ∀ y ∈ t.skeleton.below t.nextEntry x, ∃ c, t.skeleton y = some c :=
    fun y hy => ((Skeleton.mem_below h.formed).mp hy).1
  rw [tally, hsection true hchildren hkids, hsection false hchildren hkids,
    hsection true hbelow hlower, hsection false hbelow hlower, hchildren, hbelow]
  simp only [Set.ncard_coe_finset]
  rfl

theorem Settled.intact (h : t.Settled config T) (hone : strict = true → T.OneKind) :
    t.Intact strict := by
  have hF := h.sound.formed
  constructor
  case root =>
    exact (inSection_iff hF.root).mpr (Skeleton.isCategoryAt_eq_true.mpr ⟨_, hF.root, rfl⟩)
  case top => exact fun hx => (hF.root_iff (skeleton_eq_some hx)).symm
  case reached => exact h.sound.reached_root
  case children =>
    intro x e hx k y
    rw [h.sound.children hx k y]
    constructor
    · rintro ⟨c, hc, hp, hk⟩
      obtain ⟨child, hchild, rfl⟩ := skeleton_eq_some_iff.mp hc
      exact ⟨child, hchild, hp, hk⟩
    · rintro ⟨child, hchild, hp, hk⟩
      exact ⟨child.core, skeleton_eq_some hchild, hp, hk⟩
  case full => exact h.children_ne_nil
  case leaves => exact h.children_eq_nil
  case increasing =>
    intro x e hx
    refine List.Pairwise.imp_of_mem (fun {a b} ha hb hlt => ?_) (h.sound.sorted hx)
    rw [h.compareKeys_children hone hx ha hb, hlt]
  case sections =>
    intro x e hx
    refine List.Pairwise.imp_of_mem (fun {a b} ha hb hab => ?_) (h.sound.sections hx)
    have hlive : ∀ c ∈ e.children.toList, ∃ d, t.skeleton c.2 = some d := by
      rintro ⟨k, y⟩ hmem
      obtain ⟨d, hd, -⟩ := (h.sound.children hx k y).mp hmem
      exact ⟨d, hd⟩
    obtain ⟨ca, hca⟩ := hlive a ha
    obtain ⟨cb, hcb⟩ := hlive b hb
    rw [inSection_iff hca, inSection_iff hcb]
    exact hab
  case ranks => exact fun hx i k y hi => h.rank_eq hx hi
  case counters =>
    intro x e hx
    rw [h.sound.counters hx, h.sound.tally_eq]
  case flushed => exact h.flushed

theorem Settled.verifyIntegrity_eq_ok (h : t.Settled config T)
    (hone : strict = true → T.OneKind) : t.verifyIntegrity strict = .ok () := by
  obtain ⟨e, he, -⟩ := exists_root h.sound.formed
  have hsize := card_below_root h.sound
  have hbelow : t.checkBelow strict (t.arena.size + 1) root = .ok (t.census root) :=
    h.checkBelow_eq_ok hone he (by omega)
  rw [verifyIntegrity_eq, hbelow]
  simp only [Except.bind_eq_ok, require_eq_ok_iff, exists_const, Except.ok.injEq, exists_eq_left',
    beq_iff_eq]
  refine ⟨hsize, (), h.sound.checkIndex_eq_ok, ?_⟩
  rw [h.flushed]
  rfl

end CategorizedIndex.Tree
