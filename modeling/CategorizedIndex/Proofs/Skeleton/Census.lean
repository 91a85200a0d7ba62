import CategorizedIndex.Proofs.Tree.Sound
import Mathlib.Algebra.BigOperators.Group.Finset.Basic
import Mathlib.Algebra.BigOperators.Group.Finset.Sigma
import Mathlib.Data.Finset.Union
import Mathlib.Algebra.Order.BigOperators.Group.Finset

/-! # Counting below an entry

What stands below an entry are its children and what stands below them, each once. So
counts of descendants add up over the children, and those below the root are all entries
but the root itself.
-/
namespace CategorizedIndex.Skeleton

variable {config : Config} {F : Skeleton} {n x y id : EntryId} {c : Core}

/-- An entry and everything below it. -/
def within (F : Skeleton) (n id : EntryId) : Finset EntryId := insert id (F.below n id)

namespace WellFormed

theorem mem_within (h : F.WellFormed config n) (hid : F id = some c) :
    x ∈ F.within n id ↔ (∃ d, F x = some d) ∧ id ∈ F.line x := by
  rw [within, Finset.mem_insert, mem_below h]
  constructor
  · rintro (rfl | ⟨hx, -, hmem⟩)
    · exact ⟨⟨c, hid⟩, self_mem_line⟩
    · exact ⟨hx, hmem⟩
  · rintro ⟨hx, hmem⟩
    by_cases heq : x = id
    · exact Or.inl heq
    · exact Or.inr ⟨hx, heq, hmem⟩

theorem not_mem_below_self (h : F.WellFormed config n) : id ∉ F.below n id := fun hmem =>
  ((mem_below h).mp hmem).2.1 rfl

theorem below_eq (h : F.WellFormed config n) (id : EntryId) :
    F.below n id = (F.kids n id).biUnion (F.within n) := by
  ext x
  rw [mem_below h, Finset.mem_biUnion]
  constructor
  · rintro ⟨⟨d, hx⟩, hne, hmem⟩
    obtain ⟨y, cy, hyx, hy, hp⟩ := h.exists_child_of_mem_line hx hmem (Ne.symm hne)
    exact ⟨y, (mem_kids h).mpr ⟨cy, hy, hp⟩, (h.mem_within hy).mpr ⟨⟨d, hx⟩, hyx⟩⟩
  · rintro ⟨y, hkid, hmem⟩
    obtain ⟨cy, hy, hp⟩ := (mem_kids h).mp hkid
    obtain ⟨⟨d, hx⟩, hyx⟩ := (h.mem_within hy).mp hmem
    have hidy : id ∈ F.line y := by
      rw [h.line_eq hy hp]
      exact List.mem_cons_of_mem _ self_mem_line
    refine ⟨⟨d, hx⟩, fun heq => ?_, h.mem_line_trans hx hyx hidy⟩
    exact absurd (mem_line_le hyx) (Nat.not_le.mpr (heq ▸ h.parent_lt hy hp))

theorem disjoint_within (h : F.WellFormed config n) (id : EntryId) :
    Set.PairwiseDisjoint (F.kids n id : Set EntryId) (F.within n) := by
  intro y hy z hz hne
  obtain ⟨cy, hcy, hpy⟩ := (mem_kids h).mp hy
  obtain ⟨cz, hcz, hpz⟩ := (mem_kids h).mp hz
  refine Finset.disjoint_left.mpr fun x hxy hxz => hne ?_
  obtain ⟨⟨d, hx⟩, hyx⟩ := (h.mem_within hcy).mp hxy
  obtain ⟨-, hzx⟩ := (h.mem_within hcz).mp hxz
  have hlength : (F.address y).length = (F.address z).length := by
    rw [h.address_eq hcy hpy, h.address_eq hcz hpz]
    simp
  have hstart := List.prefix_of_prefix_length_le (h.address_prefix hx hyx)
    (h.address_prefix hx hzx) hlength.le
  exact h.address_injective hcy hcz (hstart.eq_of_length hlength)

theorem card_below_filter (h : F.WellFormed config n) (id : EntryId) (p : EntryId → Prop)
    [DecidablePred p] :
    ((F.below n id).filter p).card =
      ∑ y ∈ F.kids n id, ((if p y then 1 else 0) + ((F.below n y).filter p).card) := by
  rw [h.below_eq, Finset.filter_biUnion, Finset.card_biUnion]
  · refine Finset.sum_congr rfl fun y _ => ?_
    rw [within, Finset.filter_insert]
    have hnot : y ∉ (F.below n y).filter p := fun hmem =>
      h.not_mem_below_self (Finset.mem_filter.mp hmem).1
    split
    · rw [Finset.card_insert_of_notMem hnot, Nat.add_comm]
    · rw [Nat.zero_add]
  · intro y hy z hz hne
    exact Finset.disjoint_filter_filter (h.disjoint_within id hy hz hne)

theorem within_root (h : F.WellFormed config n) :
    F.within n Tree.root = (Finset.range n).filter fun x => (F x).isSome := by
  ext x
  rw [h.mem_within h.root, Finset.mem_filter, Finset.mem_range, Option.isSome_iff_exists]
  constructor
  · rintro ⟨⟨d, hx⟩, -⟩
    exact ⟨h.bounded hx, d, hx⟩
  · rintro ⟨-, d, hx⟩
    exact ⟨⟨d, hx⟩, h.root_mem_line hx⟩

end WellFormed

theorem count_descendants (F : Skeleton) (n id : EntryId) :
    (F.count n id).descendants =
      (F.count n id).descendantCategories + (F.count n id).descendantDocuments := by
  have hsplit := Finset.card_filter_add_card_filter_not (s := F.below n id)
    fun x => F.isCategoryAt x = true
  simp only [Bool.not_eq_true] at hsplit
  exact hsplit.symm

theorem count_children (F : Skeleton) (n id : EntryId) :
    (F.count n id).children =
      (F.count n id).childCategories + (F.count n id).childDocuments := by
  have hsplit := Finset.card_filter_add_card_filter_not (s := F.kids n id)
    fun x => F.isCategoryAt x = true
  simp only [Bool.not_eq_true] at hsplit
  exact hsplit.symm

end CategorizedIndex.Skeleton

namespace CategorizedIndex.Tree

variable {config : Config} {t : Tree} {id : EntryId}

/-- The list of children names the entries that point to their parent. -/
theorem Sound.toFinset_ids (h : t.Sound config) {e : Entry} (hid : t.get? id = some e) :
    e.children.ids.toFinset = t.skeleton.kids t.nextEntry id := by
  ext y
  rw [List.mem_toFinset, Siblings.ids, List.mem_map, Skeleton.mem_kids h.formed]
  constructor
  · rintro ⟨⟨k, x⟩, hmem, rfl⟩
    obtain ⟨c, hx, hp, -⟩ := (h.children hid k x).mp hmem
    exact ⟨c, hx, hp⟩
  · rintro ⟨c, hy, hp⟩
    exact ⟨(c.key, y), (h.children hid c.key y).mpr ⟨c, hy, hp, rfl⟩, rfl⟩

theorem card_below_root (h : t.Sound config) :
    (t.skeleton.below t.nextEntry root).card + 1 = t.arena.size := by
  have hwithin : (t.skeleton.within t.nextEntry root).card =
      (t.skeleton.below t.nextEntry root).card + 1 :=
    Finset.card_insert_of_notMem h.formed.not_mem_below_self
  have hkeys : t.skeleton.within t.nextEntry root = t.arena.keys.toFinset := by
    ext x
    have hsome : (t.skeleton x).isSome = (t.get? x).isSome := Option.isSome_map
    rw [h.formed.within_root, Finset.mem_filter, Finset.mem_range, List.mem_toFinset, mem_keys_iff,
      hsome, Option.isSome_iff_exists]
    refine ⟨And.right, fun ⟨e, he⟩ => ⟨?_, e, he⟩⟩
    exact h.formed.bounded (skeleton_eq_some he)
  rw [← hwithin, hkeys, List.toFinset_card_of_nodup Std.ExtTreeMap.nodup_keys,
    Std.ExtTreeMap.length_keys]

end CategorizedIndex.Tree
