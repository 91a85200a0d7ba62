import CategorizedIndex.Proofs.Tree.Position

/-! # Finding placements

A search returns a snapshot of every placement of an id in the order of positions. Since
positions differ, this order does not depend on the order of the placements.
-/
namespace CategorizedIndex

instance : Std.TransCmp Position.cmp :=
  inferInstanceAs (Std.TransCmp fun a b : List Nat => compare a b)

instance : Std.LawfulEqCmp Position.cmp :=
  inferInstanceAs (Std.LawfulEqCmp fun a b : List Nat => compare a b)

theorem Position.isLE_trans (a b c : Position) (hab : (cmp a b).isLE = true)
    (hbc : (cmp b c).isLE = true) : (cmp a c).isLE = true := Std.TransCmp.isLE_trans hab hbc

theorem Position.cmp_swap (a b : Position) : cmp a b = (cmp b a).swap := Std.OrientedCmp.eq_swap

theorem Position.isLE_total (a b : Position) : ((cmp a b).isLE || (cmp b a).isLE) = true := by
  rw [cmp_swap b a]
  cases cmp a b <;> rfl

namespace Tree

variable {config : Config} {t : Tree} {T : Table} {s : ScopedId} {x y : EntryId} {e : Entry}

theorem snapshot?_eq (t : Tree) (x : EntryId) : t.snapshot? x = (t.get? x).bind fun e =>
    (t.level? x).bind fun level => some
      ⟨e.scopedId, e.unid, e.isCategory, e.values, level, e.rank, t.position x, e.counters⟩ := rfl

theorem snapshot?_eq_some {snapshot : Snapshot} (h : t.snapshot? x = some snapshot) :
    ∃ e, t.get? x = some e ∧ snapshot.scopedId = e.scopedId ∧ snapshot.unid = e.unid ∧
      snapshot.values = e.values ∧ snapshot.position = t.position x := by
  obtain ⟨e, he, h⟩ := Option.bind_eq_some_iff.mp ((snapshot?_eq t x).symm.trans h)
  obtain ⟨level, -, h⟩ := Option.bind_eq_some_iff.mp h
  obtain rfl := Option.some.inj h
  exact ⟨e, he, rfl, rfl, rfl, rfl⟩

/-- Every entry but the root can be shown. -/
theorem exists_snapshot (h : t.skeleton.WellFormed config t.nextEntry) (hx : t.get? x = some e)
    (hr : x ≠ root) : ∃ snapshot, t.snapshot? x = some snapshot := by
  have hcore := skeleton_eq_some hx
  obtain ⟨p, -, hp, -⟩ := h.parent hcore hr
  have hlong : 2 ≤ (t.skeleton.line x).length := by
    rw [h.line_eq hcore hp, List.length_cons]
    exact Nat.succ_le_succ (List.length_pos_iff.mpr Skeleton.line_ne_nil)
  rw [snapshot?_eq, hx, level?_eq h hx, if_pos hlong]
  exact ⟨_, rfl⟩

def earlier (a b : Snapshot) : Bool := (Position.cmp a.position b.position).isLE

theorem earlier_trans (a b c : Snapshot) (hab : earlier a b = true) (hbc : earlier b c = true) :
    earlier a c = true := Position.isLE_trans _ _ _ hab hbc

theorem earlier_total (a b : Snapshot) : (earlier a b || earlier b a) = true :=
  Position.isLE_total _ _

theorem find_perm (t : Tree) (s : ScopedId) :
    (t.find s).Perm ((t.placementsOf s).filterMap t.snapshot?) := List.mergeSort_perm _ _

theorem pairwise_find (t : Tree) (s : ScopedId) :
    (t.find s).Pairwise fun a b => earlier a b = true :=
  List.pairwise_mergeSort earlier_trans earlier_total _

/-- What is found has to be a snapshot of a placement. -/
theorem mem_find {snapshot : Snapshot} :
    snapshot ∈ t.find s ↔ ∃ x ∈ t.placementsOf s, t.snapshot? x = some snapshot := by
  rw [(t.find_perm s).mem_iff, List.mem_filterMap]

theorem Settled.snapshot_injective (h : t.Settled config T) {a b : Snapshot}
    (ha : t.snapshot? x = some a) (hb : t.snapshot? y = some b) (hab : a.position = b.position) :
    a = b := by
  obtain ⟨e, he, -, -, -, hpa⟩ := snapshot?_eq_some ha
  obtain ⟨d, hd, -, -, -, hpb⟩ := snapshot?_eq_some hb
  obtain rfl := h.position_injective he hd (hpa.symm.trans (hab.trans hpb))
  exact Option.some.inj (ha.symm.trans hb)

/-- Everything that is found stands at a position of its own, in ascending order. -/
theorem Settled.pairwise_find_lt (h : t.Settled config T) (s : ScopedId) :
    (t.find s).Pairwise fun a b => Position.cmp a.position b.position = .lt := by
  have hn : (t.find s).Nodup := by
    rw [(t.find_perm s).nodup_iff]
    refine List.pairwise_filterMap.mpr (List.Pairwise.imp ?_
      (h.sound.placements s ▸ Skeleton.nodup_placed _ _ _))
    intro x y hne a ha b hb hab
    obtain ⟨e, he, -, -, -, hpa⟩ := snapshot?_eq_some ha
    obtain ⟨d, hd, -, -, -, hpb⟩ := snapshot?_eq_some hb
    exact hne (h.position_injective he hd (by rw [← hpa, ← hpb, hab]))
  refine List.Pairwise.imp_of_mem (fun {a b} ha hb hab => ?_) ((t.pairwise_find s).and hn)
  obtain ⟨x, -, hx⟩ := mem_find.mp ha
  obtain ⟨y, -, hy⟩ := mem_find.mp hb
  obtain ⟨hle, hne⟩ := hab
  unfold earlier at hle
  cases hcmp : Position.cmp a.position b.position with
  | lt => rfl
  | eq => exact absurd (h.snapshot_injective hx hy (Std.LawfulEqCmp.compare_eq_iff_eq.mp hcmp)) hne
  | gt =>
    rw [hcmp] at hle
    cases hle

/-- The order of what is found is decided by what is found. -/
theorem Settled.find_eq_of_perm (h : t.Settled config T) {u : Tree}
    (hperm : ((t.placementsOf s).filterMap t.snapshot?).Perm
      ((u.placementsOf s).filterMap u.snapshot?)) : t.find s = u.find s := by
  have hfind : (t.find s).Perm (u.find s) :=
    (t.find_perm s).trans (hperm.trans (u.find_perm s).symm)
  refine List.Perm.eq_of_pairwise (fun a b ha hb hab hba => ?_) (t.pairwise_find s)
    (u.pairwise_find s) hfind
  obtain ⟨x, -, hx⟩ := mem_find.mp ha
  obtain ⟨y, -, hy⟩ := mem_find.mp (hfind.mem_iff.mpr hb)
  refine h.snapshot_injective hx hy ?_
  exact Std.LawfulEqCmp.compare_eq_iff_eq.mp (Std.OrientedCmp.isLE_antisymm hab hba)

end Tree

end CategorizedIndex
