import CategorizedIndex.Navigator.Selection
import CategorizedIndex.Proofs.Navigator.Reach
import CategorizedIndex.Proofs.Tree.Placements

/-! # Categories above the placements of an id

The ways up from all placements of an id are put together in one list. Each category is in
it once, and none is followed by one that stands below it: the list begins at the deepest
level, and the way up from an entry is longer than that from any entry above it.
-/
namespace CategorizedIndex

namespace Skeleton.WellFormed

variable {config : Config} {F : Skeleton} {n a x : EntryId} {c : Core}

theorem length_line_lt (h : F.WellFormed config n) (hx : F x = some c) (ha : a ∈ F.line x)
    (hne : a ≠ x) : (F.line a).length < (F.line x).length := by
  have hreached := h.reached hx
  clear hx
  induction hreached with
  | root =>
    rw [h.line_root, List.mem_singleton] at ha
    exact absurd ha hne
  | @child x c p hc hp _ ih =>
    rw [h.line_eq hc hp] at ha ⊢
    have hap := (List.mem_cons.mp ha).resolve_left hne
    rw [List.length_cons, Nat.lt_succ_iff]
    by_cases heq : a = p
    · rw [heq]
    · exact (ih hap heq).le

theorem two_le_length_line (h : F.WellFormed config n) (hx : F x = some c)
    (hr : x ≠ Tree.root) : 2 ≤ (F.line x).length := by
  have hlt := h.length_line_lt hx (h.root_mem_line hx) (Ne.symm hr)
  rw [h.line_root] at hlt
  exact hlt

end Skeleton.WellFormed

namespace Tree.Sound

variable {config : Config} {t : Tree} {a b x : EntryId} {d e : Entry}

theorem level_lt (h : t.Sound config) (hx : t.get? x = some e) (ha : a ∈ t.skeleton.line x)
    (hne : a ≠ x) (hr : a ≠ root) : (t.level? a).getD 0 < (t.level? x).getD 0 := by
  have hcore := skeleton_eq_some hx
  obtain ⟨c, hc⟩ := h.formed.exists_of_mem_line hcore ha
  obtain ⟨d, hd, -⟩ := skeleton_eq_some_iff.mp hc
  have htwo := h.formed.two_le_length_line hc hr
  have hlt := h.formed.length_line_lt hcore ha hne
  rw [level?_eq h.formed hd, level?_eq h.formed hx, if_pos htwo, if_pos (htwo.trans hlt.le)]
  simp only [Option.getD_some]
  omega

/-- The way up ends at the root and meets it nowhere else. -/
theorem takeWhile_lineage (h : t.Sound config) (hx : t.get? x = some e) :
    ((t.lineage x).takeWhile fun (_, d) => !d.isRoot) =
      (t.lineage x).filter fun (_, d) => !d.isRoot := by
  have hreached := h.formed.reached (skeleton_eq_some hx)
  clear hx
  induction hreached with
  | root =>
    obtain ⟨r, hr, -, -, hp⟩ := exists_root h.formed
    have hroot : r.isRoot = true := (h.isRoot_iff hr).mpr rfl
    simp [lineage_root h.formed hr, hroot]
  | child hc hp _ ih =>
    obtain ⟨d, hd, rfl⟩ := skeleton_eq_some_iff.mp hc
    have hbelow : d.isRoot = false :=
      Bool.eq_false_iff.mpr fun hr => h.formed.ne_root hc hp ((h.isRoot_iff hd).mp hr)
    rw [lineage_child h.formed hd hp, List.takeWhile_cons_of_pos (by simp [hbelow]),
      List.filter_cons_of_pos (by simp [hbelow]), ih]

theorem takeWhile_tail_lineage (h : t.Sound config) (hx : t.get? x = some e) :
    ((t.lineage x).tail.takeWhile fun (_, d) => !d.isRoot) =
      (t.lineage x).tail.filter fun (_, d) => !d.isRoot := by
  by_cases hr : x = root
  · subst hr
    rw [lineage_root h.formed hx]
    rfl
  · obtain ⟨p, -, hp, -⟩ := h.formed.parent (skeleton_eq_some hx) hr
    obtain ⟨pe, hpe⟩ := h.exists_parent hx hp
    rw [lineage_child h.formed hx hp]
    exact h.takeWhile_lineage hpe

end Tree.Sound

namespace Navigator

variable {config : Config} {t : Tree} {n : Navigator} {s : ScopedId} {a p x : EntryId}
  {e pe : Entry} {r q : Ancestor}

theorem above_congr {m : Navigator} (htree : m.tree = n.tree) : m.above = n.above := by
  funext x a
  rw [above, above, htree]

section Above

variable (h : n.tree.Sound config)

include h

theorem above_trans (hx : n.tree.get? x = some e) (hp : n.above x p = true)
    (ha : n.above p a = true) : n.above x a = true := by
  have hcore := Tree.skeleton_eq_some hx
  obtain ⟨hpx, hne⟩ := (above_eq_true_iff h hx).mp hp
  obtain ⟨c, hc⟩ := h.formed.exists_of_mem_line hcore hpx
  obtain ⟨pe, hpe, -⟩ := Tree.skeleton_eq_some_iff.mp hc
  obtain ⟨hap, hne'⟩ := (above_eq_true_iff h hpe).mp ha
  refine (above_eq_true_iff h hx).mpr ⟨h.formed.mem_line_trans hcore hpx hap, fun hax => ?_⟩
  exact hne (Nat.le_antisymm (Skeleton.mem_line_le hpx) (hax ▸ Skeleton.mem_line_le hap))

/-- Nothing but categories stands above an entry. -/
theorem exists_category_of_above (hx : n.tree.get? x = some e) (ha : n.above x a = true) :
    ∃ d, n.tree.get? a = some d ∧ d.isCategory = true := by
  obtain ⟨hmem, hne⟩ := (above_eq_true_iff h hx).mp ha
  obtain ⟨y, cy, -, hy, hp⟩ :=
    h.formed.exists_child_of_mem_line (Tree.skeleton_eq_some hx) hmem hne
  obtain ⟨c, hc, hcat⟩ := h.formed.parent_category hy hp
  obtain ⟨d, hd, rfl⟩ := Tree.skeleton_eq_some_iff.mp hc
  exact ⟨d, hd, hcat⟩

theorem mem_descendants_iff_above (ha : n.tree.get? a = some e) :
    x ∈ n.tree.descendants a ↔ (∃ d, n.tree.get? x = some d) ∧ n.above x a = true := by
  rw [h.mem_descendants ha]
  refine and_congr_right fun ⟨d, hd⟩ => ?_
  rw [above_eq_true_iff h hd, and_comm]
  exact and_congr_right fun _ => ne_comm

end Above

/-- A record holds what the tree knows about its handle. -/
structure Ancestor.Of (t : Tree) (r : Ancestor) : Prop where
  entry : t.get? r.handle = some r.entry
  level : r.level = (t.level? r.handle).getD 0

theorem Ancestor.Of.eq (hr : r.Of t) (hq : q.Of t) (h : r.handle = q.handle) : r = q := by
  have hlevel : r.level = q.level := by rw [hr.level, hq.level, h]
  have hentry : r.entry = q.entry :=
    Option.some.inj (hr.entry.symm.trans ((congrArg t.get? h).trans hq.entry))
  cases r
  cases q
  exact Ancestor.mk.injEq .. ▸ ⟨h, hlevel, hentry⟩

theorem mem_ancestorsOf (h : t.Sound config) (hp : t.get? p = some pe) :
    r ∈ ancestorsOf t p ↔
      r.Of t ∧ r.handle ∈ t.skeleton.line p ∧ r.handle ≠ p ∧ r.handle ≠ Tree.root := by
  have hmem : ∀ a d, (a, d) ∈ (t.lineage p).tail.filter (fun (_, d) => !d.isRoot) ↔
      t.get? a = some d ∧ a ∈ t.skeleton.line p ∧ a ≠ p ∧ a ≠ Tree.root := by
    intro a d
    rw [List.mem_filter, h.mem_tail_lineage hp, h.mem_lineage hp, Bool.not_eq_true']
    constructor
    · rintro ⟨⟨⟨hline, hd⟩, hne⟩, hroot⟩
      refine ⟨hd, hline, hne, fun hr => ?_⟩
      rw [(h.isRoot_iff hd).mpr hr] at hroot
      cases hroot
    · rintro ⟨hd, hline, hne, hr⟩
      exact ⟨⟨⟨hline, hd⟩, hne⟩, Bool.eq_false_iff.mpr fun hroot => hr ((h.isRoot_iff hd).mp hroot)⟩
  rw [ancestorsOf, h.takeWhile_tail_lineage hp, List.mem_map]
  constructor
  · rintro ⟨⟨a, d⟩, had, rfl⟩
    obtain ⟨hd, hrest⟩ := (hmem a d).mp had
    exact ⟨⟨hd, rfl⟩, hrest⟩
  · rintro ⟨hof, hrest⟩
    exact ⟨(r.handle, r.entry), (hmem _ _).mpr ⟨hof.entry, hrest⟩,
      Ancestor.Of.eq ⟨hof.entry, rfl⟩ hof rfl⟩

section Merge

variable {known l : List Ancestor}

theorem addAncestor_cases (known : List Ancestor) (r : Ancestor) :
    (addAncestor known r = known ∧ ∃ k ∈ known, k.handle = r.handle) ∨
      (addAncestor known r = known ++ [r] ∧ ∀ k ∈ known, k.handle ≠ r.handle) := by
  unfold addAncestor
  split
  · next hany =>
    simp only [List.any_eq_true, beq_iff_eq] at hany
    exact Or.inl ⟨rfl, hany⟩
  · next hnone =>
    simp only [List.any_eq_true, beq_iff_eq, not_exists, not_and] at hnone
    exact Or.inr ⟨rfl, hnone⟩

theorem nodup_merged (hknown : (known.map (·.handle)).Nodup) :
    ((l.foldl addAncestor known).map (·.handle)).Nodup := by
  induction l generalizing known with
  | nil => exact hknown
  | cons r rest ih =>
    refine ih ?_
    obtain ⟨heq, -⟩ | ⟨heq, hnew⟩ := addAncestor_cases known r
    · rw [heq]
      exact hknown
    · rw [heq, List.map_append, List.nodup_append]
      refine ⟨hknown, List.nodup_singleton _, fun id hid id' hid' => ?_⟩
      obtain ⟨k, hk, rfl⟩ := List.mem_map.mp hid
      rw [List.map_singleton, List.mem_singleton] at hid'
      exact hid' ▸ hnew k hk

theorem mem_merged (hknown : ∀ r ∈ known, r.Of t) (hl : ∀ r ∈ l, r.Of t) :
    q ∈ l.foldl addAncestor known ↔ q ∈ known ∨ q ∈ l := by
  induction l generalizing known with
  | nil => simp
  | cons r rest ih =>
    obtain ⟨hr, hrest⟩ := List.forall_mem_cons.mp hl
    rw [List.foldl_cons, List.mem_cons]
    obtain ⟨heq, k, hk, hsame⟩ | ⟨heq, -⟩ := addAncestor_cases known r
    · obtain rfl := (hknown k hk).eq hr hsame
      rw [heq, ih hknown hrest, ← or_assoc]
      exact or_congr_left (iff_self_or.mpr fun hqk => hqk ▸ hk)
    · have hall : ∀ q ∈ known ++ [r], q.Of t := by
        intro q hq
        rcases List.mem_append.mp hq with hq | hq
        · exact hknown q hq
        · exact List.mem_singleton.mp hq ▸ hr
      rw [heq, ih hall hrest, List.mem_append, List.mem_singleton, or_assoc]

end Merge

section Ancestors

variable (h : t.Sound config)

include h

theorem mem_ancestors : r ∈ ancestors t s ↔ r.Of t ∧ r.handle ≠ Tree.root ∧
    ∃ p ∈ t.placementsOf s, r.handle ∈ t.skeleton.line p ∧ r.handle ≠ p := by
  have hline : r ∈ (t.placementsOf s).flatMap (ancestorsOf t) ↔ r.Of t ∧ r.handle ≠ Tree.root ∧
      ∃ p ∈ t.placementsOf s, r.handle ∈ t.skeleton.line p ∧ r.handle ≠ p := by
    rw [List.mem_flatMap]
    constructor
    · rintro ⟨p, hp, hr⟩
      obtain ⟨pe, hpe, -⟩ := h.mem_placementsOf.mp hp
      obtain ⟨hof, hmem, hne, hroot⟩ := (mem_ancestorsOf h hpe).mp hr
      exact ⟨hof, hroot, p, hp, hmem, hne⟩
    · rintro ⟨hof, hroot, p, hp, hmem, hne⟩
      obtain ⟨pe, hpe, -⟩ := h.mem_placementsOf.mp hp
      exact ⟨p, hp, (mem_ancestorsOf h hpe).mpr ⟨hof, hmem, hne, hroot⟩⟩
  have hof : ∀ r ∈ (t.placementsOf s).flatMap (ancestorsOf t), r.Of t := by
    intro r hr
    obtain ⟨p, hp, hr⟩ := List.mem_flatMap.mp hr
    obtain ⟨pe, hpe, -⟩ := h.mem_placementsOf.mp hp
    exact ((mem_ancestorsOf h hpe).mp hr).1
  rw [ancestors, List.mem_mergeSort, mem_merged (fun _ hnil => absurd hnil List.not_mem_nil) hof,
    hline]
  exact or_iff_right List.not_mem_nil

/-- No entry of the list stands above a later one, nor is it listed twice. -/
theorem pairwise_ancestors :
    (ancestors t s).Pairwise fun r q => r.handle ∉ t.skeleton.line q.handle := by
  have hlevels : (ancestors t s).Pairwise fun r q => q.level ≤ r.level := by
    refine (List.pairwise_mergeSort (fun a b c hab hbc => ?_) (fun a b => ?_) _).imp ?_
    · simp only [decide_eq_true_eq] at hab hbc ⊢
      exact hbc.trans hab
    · simp only [Bool.or_eq_true, decide_eq_true_eq]
      exact Nat.le_total _ _
    · simp
  have hnodup : ((ancestors t s).map (·.handle)).Nodup :=
    (((List.mergeSort_perm _ _).map _).nodup_iff).mpr (nodup_merged List.nodup_nil)
  refine (hlevels.and (List.pairwise_map.mp hnodup)).imp_of_mem ?_
  rintro r q hr hq ⟨hlevel, hne⟩ hmem
  obtain ⟨hrof, hroot, -⟩ := (mem_ancestors h).mp hr
  obtain ⟨hqof, -⟩ := (mem_ancestors h).mp hq
  have hlt := h.level_lt hqof.entry hmem hne hroot
  rw [← hrof.level, ← hqof.level] at hlt
  exact absurd hlt (Nat.not_lt.mpr hlevel)

end Ancestors

end Navigator

end CategorizedIndex
