import CategorizedIndex.Proofs.Tree.Preorder

/-! # Entries at positions

A position is read from the top level down, counting ranks among the children, while the
position of an entry is collected on its way up. Between commits stored ranks are the
places among the siblings, so both ways meet: what is read at a position is the entry that
stands there, and nothing is read anywhere else.
-/
namespace CategorizedIndex

theorem Siblings.atRank?_eq_some {s : Siblings} {rank : Nat} {child : SortKey × EntryId} :
    s.atRank? rank = some child ↔ ∃ i, rank = i + 1 ∧ s.toList[i]? = some child := by
  cases rank with
  | zero => simp [atRank?]
  | succ i => simp [atRank?]

namespace Tree

variable {config : Config} {t : Tree} {T : Table} {id x : EntryId} {e : Entry} {k : Nat}
  {p rest : Position}

theorem descend?_cons (t : Tree) (id : EntryId) (rank : Nat) (rest : Position) :
    t.descend? id (rank :: rest) =
      ((t.childrenOf id).atRank? rank).bind fun child => t.descend? child.2 rest := rfl

theorem Sound.length_position (h : t.Sound config) (hx : t.get? x = some e) :
    (t.position x).length + 1 = (t.skeleton.line x).length := by
  have hreached := h.formed.reached (skeleton_eq_some hx)
  clear hx
  induction hreached with
  | root =>
    rw [position_root h.formed, h.formed.line_root]
    rfl
  | child hc hp _ ih =>
    obtain ⟨d, hd, rfl⟩ := skeleton_eq_some_iff.mp hc
    rw [position_child h.formed hd hp, h.formed.line_eq hc hp, List.length_append,
      List.length_singleton, List.length_cons, ih]

theorem Sound.position_eq_nil_iff (h : t.Sound config) (hx : t.get? x = some e) :
    t.position x = [] ↔ x = root := by
  constructor
  · intro hnil
    refine Classical.byContradiction fun hr => ?_
    obtain ⟨p, -, hp, -⟩ := h.formed.parent (skeleton_eq_some hx) hr
    rw [position_child h.formed hx hp] at hnil
    simp at hnil
  · rintro rfl
    exact position_root h.formed

theorem Sound.exists_of_position_prefix (h : t.Sound config) (hx : t.get? x = some e)
    (hp : p <+: t.position x) : ∃ a d, t.get? a = some d ∧ t.position a = p := by
  have hreached := h.formed.reached (skeleton_eq_some hx)
  clear hx
  induction hreached with
  | root =>
    rw [position_root h.formed, List.prefix_nil] at hp
    obtain ⟨d, hd, -⟩ := exists_root h.formed
    exact ⟨root, d, hd, hp ▸ position_root h.formed⟩
  | @child x c q hc hq _ ih =>
    obtain ⟨d, hd, rfl⟩ := skeleton_eq_some_iff.mp hc
    have hposition := position_child h.formed hd hq
    rw [hposition, List.prefix_concat_iff] at hp
    rcases hp with rfl | hp
    · exact ⟨x, d, hd, hposition⟩
    · exact ih hp

namespace Settled

theorem atRank?_eq_some_iff (h : t.Settled config T) (hid : t.get? id = some e) {key : SortKey} :
    e.children.atRank? k = some (key, x) ↔
      ∃ d, t.get? x = some d ∧ d.parent = some id ∧ d.key = key ∧ d.rank = k := by
  constructor
  · intro hchild
    obtain ⟨i, rfl, hi⟩ := Siblings.atRank?_eq_some.mp hchild
    obtain ⟨c, hc, hp, hkey⟩ := (h.sound.children hid key x).mp (List.mem_of_getElem? hi)
    obtain ⟨d, hd, rfl⟩ := skeleton_eq_some_iff.mp hc
    have hrank := h.rank_eq hid hi
    rw [hd] at hrank
    exact ⟨d, hd, hp, hkey, Option.some.inj hrank⟩
  · rintro ⟨d, hd, hp, rfl, rfl⟩
    obtain ⟨i, hi, hrank⟩ := h.exists_getElem? hid hd hp
    exact Siblings.atRank?_eq_some.mpr ⟨i, hrank, hi⟩

theorem exists_atRank?_iff (h : t.Settled config T) (hid : t.get? id = some e) :
    (∃ key, e.children.atRank? k = some (key, x)) ↔
      ∃ d, t.get? x = some d ∧ d.parent = some id ∧ d.rank = k := by
  constructor
  · rintro ⟨key, hchild⟩
    obtain ⟨d, hd, hp, -, hrank⟩ := (h.atRank?_eq_some_iff hid).mp hchild
    exact ⟨d, hd, hp, hrank⟩
  · rintro ⟨d, hd, hp, hrank⟩
    exact ⟨d.key, (h.atRank?_eq_some_iff hid).mpr ⟨d, hd, hp, rfl, hrank⟩⟩

theorem one_le_of_mem_position (h : t.Settled config T) (hx : t.get? x = some e)
    (hk : k ∈ t.position x) : 1 ≤ k := by
  have hF := h.sound.formed
  have hreached := hF.reached (skeleton_eq_some hx)
  clear hx
  induction hreached with
  | root =>
    rw [position_root hF] at hk
    exact absurd hk List.not_mem_nil
  | @child x c q hc hq _ ih =>
    obtain ⟨d, hd, rfl⟩ := skeleton_eq_some_iff.mp hc
    rw [position_child hF hd hq, List.mem_append, List.mem_singleton] at hk
    rcases hk with hk | rfl
    · exact ih hk
    · obtain ⟨pe, hpe⟩ := h.sound.exists_parent hd hq
      obtain ⟨i, -, hrank⟩ := h.exists_getElem? hpe hd hq
      omega

/-- Ranks read downwards from an entry lead to the entry whose position they continue to. -/
theorem descend?_eq_some_iff (h : t.Settled config T) (hid : t.get? id = some e) :
    t.descend? id p = some x ↔
      (∃ d, t.get? x = some d) ∧ t.position x = t.position id ++ p := by
  have hF := h.sound.formed
  induction p generalizing id e with
  | nil =>
    rw [descend?, List.append_nil]
    constructor
    · rintro ⟨⟩
      exact ⟨⟨e, hid⟩, rfl⟩
    · rintro ⟨⟨d, hd⟩, hposition⟩
      rw [h.position_injective hd hid hposition]
  | cons k rest ih =>
    rw [descend?_cons, Sound.childrenOf_eq hid, Option.bind_eq_some_iff]
    constructor
    · rintro ⟨⟨key, c⟩, hchild, hrest⟩
      obtain ⟨d, hd, hp, rfl⟩ := (h.exists_atRank?_iff hid).mp ⟨key, hchild⟩
      obtain ⟨hx, hposition⟩ := (ih hd).mp hrest
      rw [position_child hF hd hp, List.append_assoc, List.singleton_append] at hposition
      exact ⟨hx, hposition⟩
    · rintro ⟨⟨xe, hx⟩, hposition⟩
      have hstart : t.position id ++ [k] <+: t.position x :=
        ⟨rest, by rw [hposition, List.append_assoc, List.singleton_append]⟩
      obtain ⟨c, d, hd, hc⟩ := h.sound.exists_of_position_prefix hx hstart
      have hr : c ≠ root := fun hr => by
        rw [(h.sound.position_eq_nil_iff hd).mpr hr] at hc
        simp at hc
      obtain ⟨q, -, hq, -⟩ := hF.parent (skeleton_eq_some hd) hr
      obtain ⟨qe, hqe⟩ := h.sound.exists_parent hd hq
      rw [position_child hF hd hq] at hc
      obtain ⟨hpq, hrank⟩ := List.append_inj' hc rfl
      obtain rfl := h.position_injective hqe hid hpq
      obtain ⟨key, hchild⟩ :=
        (h.exists_atRank?_iff hid).mpr ⟨d, hd, hq, (List.cons.inj hrank).1⟩
      refine ⟨(key, c), hchild, (ih hd).mpr ⟨⟨xe, hx⟩, ?_⟩⟩
      rw [position_child hF hd hq, hposition, hrank, List.append_assoc, List.singleton_append]

/-- At a position stands the entry that has it. -/
theorem entryAt?_eq_some_iff (h : t.Settled config T) :
    t.entryAt? p = some x ↔ (∃ d, t.get? x = some d) ∧ x ≠ root ∧ t.position x = p := by
  obtain ⟨re, hre, -⟩ := exists_root h.sound.formed
  have hdescend := h.descend?_eq_some_iff (p := p) (x := x) hre
  rw [position_root h.sound.formed, List.nil_append] at hdescend
  rw [entryAt?]
  split
  · next hnil =>
    refine iff_of_false (fun hnone => nomatch hnone) ?_
    rintro ⟨⟨d, hd⟩, hr, rfl⟩
    exact hr ((h.sound.position_eq_nil_iff hd).mp hnil)
  · next hne =>
    rw [hdescend]
    refine and_congr_right fun ⟨d, hd⟩ => ⟨fun hposition => ⟨fun hr => hne ?_, hposition⟩, And.right⟩
    rw [← hposition]
    exact (h.sound.position_eq_nil_iff hd).mpr hr

theorem entryAt?_eq_none_iff (h : t.Settled config T) :
    t.entryAt? p = none ↔ ∀ x d, t.get? x = some d → t.position x = p → x = root := by
  rw [Option.eq_none_iff_forall_ne_some]
  constructor
  · intro hnone x d hd hposition
    refine Classical.byContradiction fun hr => ?_
    exact hnone x (h.entryAt?_eq_some_iff.mpr ⟨⟨d, hd⟩, hr, hposition⟩)
  · intro hroot x hx
    obtain ⟨⟨d, hd⟩, hr, hposition⟩ := h.entryAt?_eq_some_iff.mp hx
    exact hr (hroot x d hd hposition)

theorem entryAt?_of_zero_mem (h : t.Settled config T) (hp : 0 ∈ p) : t.entryAt? p = none := by
  refine h.entryAt?_eq_none_iff.mpr fun x d hd hposition => ?_
  have hone := h.one_le_of_mem_position hd (hposition ▸ hp)
  omega

theorem entryAt?_of_size_lt (h : t.Settled config T) (hid : t.get? id = some e)
    (hk : e.children.size < k) : t.entryAt? (t.position id ++ k :: rest) = none := by
  refine h.entryAt?_eq_none_iff.mpr fun x d hd hposition => ?_
  have hdescend := (h.descend?_eq_some_iff hid).mpr ⟨⟨d, hd⟩, hposition⟩
  rw [descend?_cons, Sound.childrenOf_eq hid, Option.bind_eq_some_iff] at hdescend
  obtain ⟨child, hchild, -⟩ := hdescend
  obtain ⟨i, rfl, hi⟩ := Siblings.atRank?_eq_some.mp hchild
  have hlt : i < e.children.size := (List.getElem?_eq_some_iff.mp hi).1
  omega

theorem entryAt?_of_document (h : t.Settled config T) (hid : t.get? id = some e)
    (hdoc : e.isCategory = false) (hrest : rest ≠ []) :
    t.entryAt? (t.position id ++ rest) = none := by
  obtain ⟨k, rest, rfl⟩ := List.exists_cons_of_ne_nil hrest
  by_cases hk : k = 0
  · subst hk
    exact h.entryAt?_of_zero_mem (by simp)
  · refine h.entryAt?_of_size_lt hid ?_
    have hleaf : e.children.toList = [] := by
      refine List.eq_nil_iff_forall_not_mem.mpr fun ⟨key, c⟩ hmem => ?_
      obtain ⟨core, hcore, hp, -⟩ := (h.sound.children hid key c).mp hmem
      obtain ⟨pc, hpc, hcat⟩ := h.sound.formed.parent_category hcore hp
      obtain rfl := Option.some.inj ((skeleton_eq_some hid).symm.trans hpc)
      exact Bool.noConfusion (hdoc.symm.trans hcat)
    rw [Siblings.size, hleaf, List.length_nil]
    exact Nat.pos_of_ne_zero hk

/-- Ranks that lead nowhere leave the tree below some entry, at a rank that no child has. -/
theorem exists_of_descend?_eq_none (h : t.Settled config T) (hid : t.get? id = some e)
    (hnone : t.descend? id p = none) : ∃ a d k rest, t.get? a = some d ∧
      t.position id ++ p = t.position a ++ k :: rest ∧ (k = 0 ∨ d.children.size < k) := by
  induction p generalizing id e with
  | nil => cases hnone
  | cons k rest ih =>
    rw [descend?_cons, Sound.childrenOf_eq hid] at hnone
    cases hchild : e.children.atRank? k with
    | none =>
      refine ⟨id, e, k, rest, hid, rfl, ?_⟩
      rw [Siblings.atRank?] at hchild
      split at hchild
      · next hk => exact Or.inl hk
      · next hk =>
        have hle : e.children.size ≤ k - 1 := List.getElem?_eq_none_iff.mp hchild
        omega
    | some child =>
      obtain ⟨key, c⟩ := child
      rw [hchild, Option.bind_some] at hnone
      obtain ⟨d, hd, hp, rfl⟩ := (h.exists_atRank?_iff hid).mp ⟨key, hchild⟩
      have hbelow := ih hd hnone
      rwa [position_child h.sound.formed hd hp, List.append_assoc, List.singleton_append] at hbelow

end Settled

end Tree

end CategorizedIndex
