import CategorizedIndex.Proofs.Skeleton.Census
import CategorizedIndex.Proofs.Tree.Find

/-! # Depth-first order

Below an entry stand its children, each followed by what stands below it. The arena is
large enough for the whole way down, so the list holds every entry below, each once, and
their positions ascend.
-/
namespace CategorizedIndex

namespace Position

theorem cmp_append_left (l a b : Position) : cmp (l ++ a) (l ++ b) = cmp a b := by
  induction l with
  | nil => rfl
  | cons rank rest ih =>
    have hrank : compare rank rank = .eq := Std.ReflOrd.compare_self
    rw [cmp, List.cons_append, List.cons_append, List.compare_cons_cons, hrank]
    exact ih

theorem cmp_prefix (a : Position) {b : Position} (hb : b ≠ []) : cmp a (a ++ b) = .lt := by
  obtain ⟨rank, rest, rfl⟩ := List.exists_cons_of_ne_nil hb
  have happend := cmp_append_left a [] (rank :: rest)
  rw [List.append_nil] at happend
  exact happend

theorem cmp_of_rank_lt (p a b : Position) {i j : Nat} (hij : i < j) :
    cmp (p ++ i :: a) (p ++ j :: b) = .lt := by
  have hlt : compare i j = .lt := Nat.compare_eq_lt.mpr hij
  rw [cmp_append_left, cmp, List.compare_cons_cons, hlt]
  rfl

end Position

namespace Tree

variable {config : Config} {t : Tree} {T : Table} {n id c x y : EntryId} {e : Entry}

/-- Everything below an entry, in depth-first order of siblings. -/
def descendants (t : Tree) (id : EntryId) : List EntryId := t.below t.arena.size id

theorem preorder_eq (t : Tree) : t.preorder = t.descendants root := rfl

theorem below_succ (t : Tree) (fuel : Nat) (id : EntryId) :
    t.below (fuel + 1) id = (t.childrenOf id).ids.flatMap fun child => child :: t.below fuel child :=
  rfl

namespace Sound

theorem mem_ids (h : t.Sound config) (hid : t.get? id = some e) :
    c ∈ e.children.ids ↔ ∃ d, t.get? c = some d ∧ d.parent = some id := by
  rw [← List.mem_toFinset, h.toFinset_ids hid, Skeleton.mem_kids h.formed]
  constructor
  · rintro ⟨core, hcore, hp⟩
    obtain ⟨d, hd, rfl⟩ := skeleton_eq_some_iff.mp hcore
    exact ⟨d, hd, hp⟩
  · rintro ⟨d, hd, hp⟩
    exact ⟨d.core, skeleton_eq_some hd, hp⟩

/-- Less stands below a child than below its parent. -/
theorem card_below_child (h : t.Sound config) (hid : t.get? id = some e)
    (hc : c ∈ e.children.ids) :
    (t.skeleton.below t.nextEntry c).card < (t.skeleton.below t.nextEntry id).card := by
  have hkid : c ∈ t.skeleton.kids t.nextEntry id := by
    rw [← h.toFinset_ids hid]
    exact List.mem_toFinset.mpr hc
  have hsub : t.skeleton.within t.nextEntry c ⊆ t.skeleton.below t.nextEntry id := by
    rw [h.formed.below_eq id]
    exact Finset.subset_biUnion_of_mem _ hkid
  have hcard := Finset.card_le_card hsub
  rw [Skeleton.within, Finset.card_insert_of_notMem h.formed.not_mem_below_self] at hcard
  exact hcard

theorem card_below_lt_size (h : t.Sound config) (id : EntryId) :
    (t.skeleton.below t.nextEntry id).card < t.arena.size := by
  have hroot := card_below_root h
  by_cases hr : id = root
  · rw [hr]
    omega
  · have hsub : t.skeleton.below t.nextEntry id ⊆ t.skeleton.below t.nextEntry root := by
      intro x hx
      obtain ⟨⟨d, hd⟩, hne, hmem⟩ := (Skeleton.mem_below h.formed).mp hx
      refine (Skeleton.mem_below h.formed).mpr ⟨⟨d, hd⟩, fun hxr => hr ?_, h.formed.root_mem_line hd⟩
      rw [hxr, h.formed.line_root, List.mem_singleton] at hmem
      exact hmem
    have hcard := Finset.card_le_card hsub
    omega

theorem rise (h : t.Sound config) {motive : EntryId → Prop}
    (step : ∀ {id e}, t.get? id = some e → (∀ c ∈ e.children.ids, motive c) → motive id)
    (hid : t.get? id = some e) : motive id := by
  induction hcard : (t.skeleton.below t.nextEntry id).card using Nat.strong_induction_on
    generalizing id e with
  | _ card ih =>
    refine step hid fun c hc => ?_
    obtain ⟨d, hd, -⟩ := (h.mem_ids hid).mp hc
    exact ih _ (hcard ▸ h.card_below_child hid hc) hd rfl

theorem below_eq_below (h : t.Sound config) {f g : Nat} (hid : t.get? id = some e)
    (hf : (t.skeleton.below t.nextEntry id).card < f)
    (hg : (t.skeleton.below t.nextEntry id).card < g) : t.below f id = t.below g id := by
  induction f generalizing g id e with
  | zero => exact absurd hf (Nat.not_lt_zero _)
  | succ f ih =>
    obtain ⟨g, rfl⟩ := Nat.exists_eq_succ_of_ne_zero (Nat.ne_zero_of_lt hg)
    rw [below_succ, below_succ, childrenOf_eq hid]
    refine congrArg List.flatten (List.map_congr_left fun c hc => ?_)
    obtain ⟨d, hd, -⟩ := (h.mem_ids hid).mp hc
    have hlt := h.card_below_child hid hc
    rw [ih hd (Nat.lt_of_lt_of_le hlt (Nat.le_of_lt_succ hf))
      (Nat.lt_of_lt_of_le hlt (Nat.le_of_lt_succ hg))]

theorem descendants_eq (h : t.Sound config) (hid : t.get? id = some e) :
    t.descendants id = e.children.ids.flatMap fun child => child :: t.descendants child := by
  have hsize := h.card_below_lt_size id
  obtain ⟨fuel, hfuel⟩ := Nat.exists_eq_succ_of_ne_zero (Nat.ne_zero_of_lt hsize)
  rw [descendants, hfuel, below_succ, childrenOf_eq hid]
  refine congrArg List.flatten (List.map_congr_left fun c hc => ?_)
  obtain ⟨d, hd, -⟩ := (h.mem_ids hid).mp hc
  have hlt := h.card_below_child hid hc
  have hstable : t.below fuel c = t.below t.arena.size c :=
    h.below_eq_below hd (by omega) (by omega)
  rw [hstable, descendants]

theorem mem_descendants (h : t.Sound config) (hid : t.get? id = some e) :
    x ∈ t.descendants id ↔ (∃ d, t.get? x = some d) ∧ x ≠ id ∧ id ∈ t.skeleton.line x := by
  have hlist : x ∈ t.descendants id ↔ x ∈ t.skeleton.below t.nextEntry id := by
    refine h.rise (motive := fun id =>
      x ∈ t.descendants id ↔ x ∈ t.skeleton.below t.nextEntry id) (fun {id e} hid ih => ?_) hid
    rw [h.descendants_eq hid, h.formed.below_eq id, ← h.toFinset_ids hid]
    simp only [List.mem_flatMap, List.mem_cons, Finset.mem_biUnion, List.mem_toFinset,
      Skeleton.within, Finset.mem_insert]
    exact exists_congr fun c => and_congr_right fun hc => or_congr_right (ih c hc)
  rw [hlist, Skeleton.mem_below h.formed]
  refine and_congr_left fun _ => ?_
  constructor
  · rintro ⟨core, hcore⟩
    obtain ⟨d, hd, -⟩ := skeleton_eq_some_iff.mp hcore
    exact ⟨d, hd⟩
  · rintro ⟨d, hd⟩
    exact ⟨_, skeleton_eq_some hd⟩

theorem mem_preorder (h : t.Sound config) :
    x ∈ t.preorder ↔ (∃ d, t.get? x = some d) ∧ x ≠ root := by
  obtain ⟨e, he, -⟩ := exists_root h.formed
  rw [preorder_eq, h.mem_descendants he]
  refine and_congr_right fun ⟨d, hd⟩ => and_iff_left_of_imp fun _ => ?_
  exact h.formed.root_mem_line (skeleton_eq_some hd)

theorem position_prefix (h : t.Sound config) (hx : t.get? x = some e)
    (hid : id ∈ t.skeleton.line x) : t.position id <+: t.position x := by
  have hreached := h.formed.reached (skeleton_eq_some hx)
  clear hx
  induction hreached with
  | root =>
    rw [h.formed.line_root, List.mem_singleton] at hid
    rw [hid]
  | child hcore hp _ ih =>
    rw [h.formed.line_eq hcore hp] at hid
    rcases List.mem_cons.mp hid with rfl | hid
    · exact List.prefix_rfl
    · obtain ⟨d, hd, rfl⟩ := skeleton_eq_some_iff.mp hcore
      rw [position_child h.formed hd hp]
      exact (ih hid).trans (List.prefix_append _ _)

end Sound

namespace Settled

/-- A child and what stands below it share the start of their positions. -/
theorem position_descendant (h : t.Settled config T) (hid : t.get? id = some e) {i : Nat}
    (hi : e.children.ids[i]? = some c) (hx : x ∈ c :: t.descendants c) :
    ∃ rest, t.position x = t.position id ++ (i + 1) :: rest := by
  obtain ⟨⟨k, c'⟩, hchild, rfl⟩ := Option.map_eq_some_iff.mp (List.getElem?_map.symm.trans hi)
  obtain ⟨d, hd, hp⟩ := (h.sound.mem_ids hid).mp (List.mem_of_getElem? hi)
  have hrank : d.rank = i + 1 := by
    have hr := h.rank_eq hid hchild
    rw [hd] at hr
    exact Option.some.inj hr
  have hposition := position_child h.sound.formed hd hp
  rw [hrank] at hposition
  rcases List.mem_cons.mp hx with rfl | hx
  · exact ⟨[], hposition⟩
  · obtain ⟨⟨xe, hxe⟩, -, hmem⟩ := (h.sound.mem_descendants hd).mp hx
    obtain ⟨rest, hrest⟩ := h.sound.position_prefix hxe hmem
    refine ⟨rest, ?_⟩
    rw [← hrest, hposition, List.append_assoc, List.singleton_append]

/-- Positions ascend in depth-first order. -/
theorem pairwise_descendants (h : t.Settled config T) (hid : t.get? id = some e) :
    (t.descendants id).Pairwise fun x y => Position.cmp (t.position x) (t.position y) = .lt := by
  refine h.sound.rise (motive := fun id => (t.descendants id).Pairwise fun x y =>
    Position.cmp (t.position x) (t.position y) = .lt) (fun {id e} hid ih => ?_) hid
  rw [h.sound.descendants_eq hid, List.pairwise_flatMap]
  constructor
  · intro c hc
    refine List.pairwise_cons.mpr ⟨fun x hx => ?_, ih c hc⟩
    obtain ⟨d, hd, -⟩ := (h.sound.mem_ids hid).mp hc
    obtain ⟨⟨xe, hxe⟩, hne, hmem⟩ := (h.sound.mem_descendants hd).mp hx
    obtain ⟨rest, hrest⟩ := h.sound.position_prefix hxe hmem
    rw [← hrest]
    refine Position.cmp_prefix _ fun hnil => hne ?_
    rw [hnil, List.append_nil] at hrest
    exact (h.position_injective hd hxe hrest).symm
  · rw [List.pairwise_iff_getElem]
    intro i j hi hj hij x hx y hy
    obtain ⟨a, ha⟩ := h.position_descendant hid (List.getElem?_eq_getElem hi) hx
    obtain ⟨b, hb⟩ := h.position_descendant hid (List.getElem?_eq_getElem hj) hy
    rw [ha, hb]
    exact Position.cmp_of_rank_lt _ _ _ (Nat.succ_lt_succ hij)

theorem pairwise_preorder (h : t.Settled config T) :
    t.preorder.Pairwise fun x y => Position.cmp (t.position x) (t.position y) = .lt := by
  obtain ⟨e, he, -⟩ := exists_root h.sound.formed
  exact h.pairwise_descendants he

theorem nodup_preorder (h : t.Settled config T) : t.preorder.Nodup :=
  h.pairwise_preorder.imp fun {x y} hlt hxy => by
    have hself : Position.cmp (t.position y) (t.position y) = .eq := Std.ReflCmp.compare_self
    rw [hxy, hself] at hlt
    cases hlt

end Settled

end Tree

end CategorizedIndex
