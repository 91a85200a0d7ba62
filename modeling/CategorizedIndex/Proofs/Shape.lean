import CategorizedIndex.Proofs.Integrity
import CategorizedIndex.Proofs.Shape.Coverage
import CategorizedIndex.Proofs.Tree.EntryAt

/-! # What the check of integrity proves

Any tree may be checked, also one that no change has built. If only its root has no parent
then the check comes to an end, and where it passes the tree has its shape: one way leads
from the root to every entry, links agree, and siblings and counters are in order. No
corruption of links is missed, since an entry that were met twice would name two parents.
-/
namespace CategorizedIndex.Tree

open Relation

variable {t : Tree} {strict : Bool} {fuel rank : Nat} {x y : EntryId} {e : Entry}
  {p q : Position}

/-- The shape of a tree. A way down is written as the ranks of the children it takes. -/
structure Shaped (strict : Bool) (t : Tree) : Prop where
  root : ∃ e, t.get? Tree.root = some e ∧ e.parent = none
  path : ∀ {x e}, t.get? x = some e → ∃! p, t.descend? Tree.root p = some x
  parents : ∀ {y c}, t.get? y = some c → y ≠ Tree.root →
    ∃ x e k, c.parent = some x ∧ t.get? x = some e ∧ (k, y) ∈ e.children.toList
  children : ∀ {x e}, t.get? x = some e → ∀ i k y, e.children.toList[i]? = some (k, y) →
    ∃ c, t.get? y = some c ∧ c.parent = some x ∧ c.rank = i + 1 ∧
      compareKeys strict c.key k = .ok .eq
  increasing : ∀ {x e}, t.get? x = some e → e.children.toList.IsChain fun a b =>
    compareKeys strict a.1 b.1 = .ok .lt
  sections : ∀ {x e}, t.get? x = some e → e.children.toList.Pairwise fun a b =>
    t.InSection true b.2 → t.InSection true a.2
  full : ∀ {x e}, t.get? x = some e → x ≠ Tree.root → e.isCategory = true →
    e.children.toList ≠ []
  leaves : ∀ {x e}, t.get? x = some e → e.isCategory = false → e.children.toList = []
  counters : ∀ {x e}, t.get? x = some e → e.counters = t.tally x

theorem descend?_concat (t : Tree) (x : EntryId) (p : Position) (rank : Nat) :
    t.descend? x (p ++ [rank]) =
      (t.descend? x p).bind fun z => ((t.childrenOf z).atRank? rank).map (·.2) := by
  induction p generalizing x with
  | nil =>
    simp only [List.nil_append, descend?_cons, descend?, Option.bind_some, Option.map_eq_bind]
    rfl
  | cons k rest ih =>
    rw [List.cons_append, descend?_cons, descend?_cons, Option.bind_assoc]
    exact Option.bind_congr fun child _ => ih child.2

theorem descend?_concat_eq_some_iff :
    t.descend? x (p ++ [rank]) = some y ↔ ∃ z d i k, t.descend? x p = some z ∧
      t.get? z = some d ∧ rank = i + 1 ∧ d.children.toList[i]? = some (k, y) := by
  simp only [descend?_concat, Option.bind_eq_some_iff, Option.map_eq_some_iff]
  constructor
  · rintro ⟨z, hz, ⟨k, y⟩, hchild, rfl⟩
    obtain ⟨i, rfl, hi⟩ := Siblings.atRank?_eq_some.mp hchild
    cases hd : t.get? z with
    | none => simp [childrenOf, hd, Siblings.empty] at hi
    | some d =>
      rw [Sound.childrenOf_eq hd] at hi
      exact ⟨z, d, i, k, hz, hd, rfl, hi⟩
  · rintro ⟨z, d, i, k, hz, hd, rfl, hi⟩
    refine ⟨z, hz, (k, y), Siblings.atRank?_eq_some.mpr ⟨i, rfl, ?_⟩, rfl⟩
    rw [Sound.childrenOf_eq hd]
    exact hi

namespace Covered

variable (h : t.Covered strict fuel)

include h

theorem exists_path (hx : t.Attached x) : ∃ p, t.descend? root p = some x := by
  induction hx with
  | refl => exact ⟨[], rfl⟩
  | @tail x y hx hy ih =>
    obtain ⟨p, hp⟩ := ih
    obtain ⟨d, hd⟩ := h.live hx
    obtain ⟨i, k, hi⟩ := exists_listed ((h.mem_ids_iff hd).mpr hy)
    exact ⟨p ++ [i + 1], descend?_concat_eq_some_iff.mpr ⟨x, d, i, k, hp, hd, rfl, hi⟩⟩

theorem last_step (hp : t.descend? root (p ++ [rank]) = some y) :
    ∃ z c, t.descend? root p = some z ∧ t.get? y = some c ∧ c.parent = some z ∧
      c.rank = rank := by
  obtain ⟨z, d, i, k, hz, hd, rfl, hi⟩ := descend?_concat_eq_some_iff.mp hp
  obtain ⟨f, hseen⟩ := h.exists_seen hd
  obtain ⟨c, hc, hparent, hrank, -⟩ := hseen.walked.children i k y hi
  exact ⟨z, c, hz, hc, hparent, hrank.trans (Nat.add_comm 1 i)⟩

theorem path_unique (hp : t.descend? root p = some x) (hq : t.descend? root q = some x) :
    p = q := by
  have hroot : ∀ {p rank}, t.descend? root (p ++ [rank]) ≠ some root := by
    intro p rank hp
    obtain ⟨z, c, -, hc, hparent, -⟩ := h.last_step hp
    exact h.rooted.not_hangs_root ⟨c, hc, hparent⟩
  -- both ways are followed back from the entry, which names one parent and one rank
  induction p using List.reverseRecOn generalizing q x with
  | nil =>
    obtain rfl := Option.some.inj hp
    rcases List.eq_nil_or_concat' q with rfl | ⟨q, rank, rfl⟩
    · rfl
    · exact absurd hq hroot
  | append_singleton p rank ih =>
    rcases List.eq_nil_or_concat' q with rfl | ⟨q, rank', rfl⟩
    · obtain rfl := Option.some.inj hq
      exact absurd hp hroot
    · obtain ⟨z, c, hz, hc, hparent, rfl⟩ := h.last_step hp
      obtain ⟨z', c', hz', hc', hparent', rfl⟩ := h.last_step hq
      obtain rfl := Option.some.inj (hc.symm.trans hc')
      obtain rfl := Option.some.inj (hparent.symm.trans hparent')
      rw [ih hz hz']

theorem shaped : t.Shaped strict := by
  constructor
  case root =>
    obtain ⟨e, he⟩ := h.exists_root
    exact ⟨e, he, h.rooted e he⟩
  case path =>
    intro x e hx
    obtain ⟨p, hp⟩ := h.exists_path (h.exists_pass hx).1
    exact ⟨p, hp, fun q hq => h.path_unique hq hp⟩
  case parents =>
    intro y c hy hne
    obtain ⟨x, e, f, hx, hseen, hmem⟩ := h.exists_listing hy hne
    obtain ⟨i, k, hi⟩ := exists_listed hmem
    obtain ⟨c', hc', hparent, -⟩ := hseen.walked.children i k y hi
    obtain rfl := Option.some.inj (hy.symm.trans hc')
    exact ⟨x, e, k, hparent, hx, List.mem_of_getElem? hi⟩
  case children =>
    intro x e hx i k y hi
    obtain ⟨f, hseen⟩ := h.exists_seen hx
    obtain ⟨c, hc, hparent, hrank, hkey⟩ := hseen.walked.children i k y hi
    exact ⟨c, hc, hparent, hrank.trans (Nat.add_comm 1 i), hkey⟩
  case increasing =>
    intro x e hx
    obtain ⟨f, hseen⟩ := h.exists_seen hx
    exact (List.isChain_map _).mp hseen.walked.increasing
  case sections =>
    intro x e hx
    obtain ⟨f, hseen⟩ := h.exists_seen hx
    exact hseen.walked.sections
  case full =>
    intro x e hx
    obtain ⟨f, hseen⟩ := h.exists_seen hx
    exact hseen.full
  case leaves =>
    intro x e hx
    obtain ⟨f, hseen⟩ := h.exists_seen hx
    exact hseen.leaves
  case counters => exact h.counters_eq_tally

end Covered

theorem Rooted.covered (hr : t.Rooted) (h : t.verifyIntegrity strict = .ok ()) :
    t.Covered strict (t.arena.size + 1) := by
  rw [verifyIntegrity_eq] at h
  obtain ⟨census, hcensus, h⟩ := Except.bind_eq_ok.mp h
  obtain ⟨u, hmet, -⟩ := Except.bind_eq_ok.mp h
  obtain ⟨f, e, -, -, -, rfl⟩ := checkBelow_eq_ok_inv hcensus
  exact ⟨hr, hcensus, beq_iff_eq.mp (require_eq_ok_iff.mp hmet)⟩

/-- On a tree whose root has no parent the check is never given up, a larger bound on its
descent changes nothing, and if it passes then the tree has its shape. -/
theorem verifyIntegrity_shape (t : Tree) (strict : Bool)
    (hroot : ∀ e, t.get? root = some e → e.parent = none) :
    (∀ x, t.verifyIntegrity strict ≠ .error (.broken (.endlessDescent x))) ∧
      (∀ fuel > t.arena.size,
        t.checkBelow strict fuel root = t.checkBelow strict (t.arena.size + 1) root) ∧
      (t.verifyIntegrity strict = .ok () → t.Shaped strict) := by
  have hr : t.Rooted := hroot
  refine ⟨hr.finished_verifyIntegrity, fun fuel hfuel => ?_, fun h => (hr.covered h).shaped⟩
  have hcard := t.card_underneath_le root
  exact hr.checkBelow_eq_checkBelow .refl (by omega) (by omega)

/-- A row moves between groups and another is filed below the first. -/
theorem verifyIntegrity_shape_moved_row :
    let t := (Index.grouped.run [.change (Index.filing 1 (.text "a\\b")),
      .change (Index.filing 2 (.text "a")), .change (Index.filing 1 (.text "c"))]).tree
    (∀ e, t.get? root = some e → e.parent = none) ∧ t.verifyIntegrity true = .ok () ∧
      t.Shaped true := by
  intro t
  obtain ⟨hverify, hintact, -⟩ := Index.verifyIntegrity_run Index.build_grouped _
  have hroot : ∀ e, t.get? root = some e → e.parent = none :=
    fun e he => (hintact.top he).mpr rfl
  exact ⟨hroot, hverify, (verifyIntegrity_shape t true hroot).2.2 hverify⟩

end CategorizedIndex.Tree
