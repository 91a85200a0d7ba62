import CategorizedIndex.Proofs.Table
import CategorizedIndex.Tree.Snapshot

/-! # Positions

The position of an entry is that of its parent, continued by its rank. Ranks tell
siblings apart, so no two entries share a position.
-/
namespace CategorizedIndex.Tree

variable {config : Config} {t : Tree} {T : Table} {n id p x y : EntryId} {e d : Entry}

theorem lineage_root (h : t.skeleton.WellFormed config n) (he : t.get? root = some e) :
    t.lineage root = [(root, e)] := by
  rw [lineage_eq h he, h.line_root, List.filterMap_cons, he]
  rfl

theorem lineage_child (h : t.skeleton.WellFormed config n) (hid : t.get? id = some e)
    (hp : e.parent = some p) : t.lineage id = (id, e) :: t.lineage p := by
  have hcore := skeleton_eq_some hid
  obtain ⟨qc, hqc, -⟩ := h.parent_category hcore hp
  obtain ⟨pe, hpe, -⟩ := skeleton_eq_some_iff.mp hqc
  rw [lineage_eq h hid, lineage_eq h hpe, h.line_eq hcore hp, List.filterMap_cons, hid]
  rfl

theorem position_root (h : t.skeleton.WellFormed config n) : t.position root = [] := by
  obtain ⟨e, he, -, -, hp⟩ := exists_root h
  rw [position, lineage_root h he]
  simp [hp]

theorem position_child (h : t.skeleton.WellFormed config n) (hid : t.get? id = some e)
    (hp : e.parent = some p) : t.position id = t.position p ++ [e.rank] := by
  rw [position, lineage_child h hid hp]
  simp [hp, position]

/-- The level of an entry counts what stands between it and the root. -/
theorem level?_eq (h : t.skeleton.WellFormed config n) (hid : t.get? id = some e) :
    t.level? id = if 2 ≤ (t.skeleton.line id).length then
      some ((t.skeleton.line id).length - 2) else none := by
  have hids := lineage_ids h hid
  have hlength : (t.lineage id).length = (t.skeleton.line id).length := by
    rw [← hids, List.length_map]
  have hlast : (t.skeleton.line id).getLast? = some root := by
    have hreached := h.reached (skeleton_eq_some hid)
    clear hid hids hlength
    induction hreached with
    | root => rw [h.line_root]; rfl
    | child hx hp _ ih =>
      rw [h.line_eq hx hp, List.getLast?_cons, ih]
      rfl
  obtain ⟨re, hre, -, -, hp⟩ := exists_root h
  have hroot : re.isRoot = true := by
    rw [Entry.isRoot, hp]
    rfl
  rw [← hids, List.getLast?_map, Option.map_eq_some_iff] at hlast
  obtain ⟨⟨r, e'⟩, hend, rfl⟩ := hlast
  have hmem := List.mem_of_getLast? hend
  rw [lineage_eq h hid, List.mem_filterMap] at hmem
  obtain ⟨x, -, hx⟩ := hmem
  obtain ⟨xe, hxe, hpair⟩ := Option.map_eq_some_iff.mp hx
  obtain ⟨rfl, rfl⟩ := Prod.mk.inj hpair
  obtain rfl := Option.some.inj (hxe.symm.trans hre)
  rw [level?, hend]
  simp only [hroot, hlength, Bool.true_and, decide_eq_true_eq]

/-- Ranks of children count from one. -/
theorem Settled.rank_eq (h : t.Settled config T) (hid : t.get? id = some e) {i : Nat}
    {k : SortKey} {y : EntryId} (hi : e.children.toList[i]? = some (k, y)) :
    (t.get? y).map (·.rank) = some (i + 1) := by
  refine h.sound.ranks hid ?_ i k y hi
  rw [h.flushed]
  exact Std.ExtTreeSet.not_mem_empty

theorem Settled.exists_getElem? (h : t.Settled config T) {pe : Entry} (hp : t.get? p = some pe)
    (hx : t.get? x = some e) (hxp : e.parent = some p) :
    ∃ i, pe.children.toList[i]? = some (e.key, x) ∧ e.rank = i + 1 := by
  have hmem := (h.sound.children hp e.key x).mpr ⟨e.core, skeleton_eq_some hx, hxp, rfl⟩
  obtain ⟨i, hi⟩ := List.mem_iff_getElem?.mp hmem
  have hrank := h.rank_eq hp hi
  rw [hx] at hrank
  exact ⟨i, hi, Option.some.inj hrank⟩

theorem Sound.exists_parent (h : t.Sound config) (hx : t.get? x = some e)
    (hp : e.parent = some p) : ∃ pe, t.get? p = some pe := by
  obtain ⟨pc, hpc, -⟩ := h.formed.parent_category (skeleton_eq_some hx) hp
  obtain ⟨pe, hpe, -⟩ := skeleton_eq_some_iff.mp hpc
  exact ⟨pe, hpe⟩

theorem Settled.eq_of_rank_eq (h : t.Settled config T) (hx : t.get? x = some e)
    (hy : t.get? y = some d) (hxp : e.parent = some p) (hyp : d.parent = some p)
    (hrank : e.rank = d.rank) : x = y := by
  obtain ⟨pe, hpe⟩ := h.sound.exists_parent hx hxp
  obtain ⟨i, hi, hxi⟩ := h.exists_getElem? hpe hx hxp
  obtain ⟨j, hj, hyj⟩ := h.exists_getElem? hpe hy hyp
  have hij : i = j := Nat.succ.inj (hxi.symm.trans (hrank.trans hyj))
  rw [hij, hj] at hi
  exact (Prod.mk.inj (Option.some.inj hi)).2.symm

theorem Settled.cmp_key_eq_compare (h : t.Settled config T) (hx : t.get? x = some e)
    (hy : t.get? y = some d) (hxp : e.parent = some p) (hyp : d.parent = some p) :
    e.key.cmp d.key = compare e.rank d.rank := by
  obtain ⟨pe, hpe⟩ := h.sound.exists_parent hx hxp
  obtain ⟨i, hi, hxi⟩ := h.exists_getElem? hpe hx hxp
  obtain ⟨j, hj, hyj⟩ := h.exists_getElem? hpe hy hyp
  have hkeys : (pe.children.toList.map (·.1)).Pairwise fun a b => a.cmp b = .lt :=
    List.pairwise_map.mpr (h.sound.sorted hpe)
  have hranks : compare e.rank d.rank = compare i j := by
    simp only [hxi, hyj, Nat.compare_eq_ite_lt, Nat.succ_lt_succ_iff]
  rw [hranks]
  refine cmp_eq_compare_of_pairwise hkeys ?_ ?_
  · rw [List.getElem?_map, hi, Option.map_some]
  · rw [List.getElem?_map, hj, Option.map_some]

theorem Settled.rank_lt_iff (h : t.Settled config T) (hx : t.get? x = some e)
    (hy : t.get? y = some d) (hxp : e.parent = some p) (hyp : d.parent = some p) :
    e.rank < d.rank ↔ e.key.cmp d.key = .lt := by
  rw [h.cmp_key_eq_compare hx hy hxp hyp, Nat.compare_eq_lt]

/-- A position leads to one entry. -/
theorem Settled.position_injective (h : t.Settled config T) (hx : t.get? x = some e)
    (hy : t.get? y = some d) (hxy : t.position x = t.position y) : x = y := by
  have hF := h.sound.formed
  have hreached := hF.reached (skeleton_eq_some hx)
  induction hreached generalizing y e d with
  | root =>
    by_cases hr : y = root
    · exact hr.symm
    · obtain ⟨q, -, hq, -⟩ := hF.parent (skeleton_eq_some hy) hr
      rw [position_root hF, position_child hF hy hq] at hxy
      simp at hxy
  | @child x c p hc hp _ ih =>
    have hcore : e.core = c := Option.some.inj ((skeleton_eq_some hx).symm.trans hc)
    have hep : e.parent = some p := by
      rw [← hp, ← hcore]
      rfl
    have hyr : y ≠ root := by
      intro hr
      rw [hr, position_root hF, position_child hF hx hep] at hxy
      simp at hxy
    obtain ⟨q, qc, hq, -, hqc, -⟩ := hF.parent (skeleton_eq_some hy) hyr
    obtain ⟨pc, hpc, -⟩ := hF.parent_category hc hp
    obtain ⟨pe, hpe, -⟩ := skeleton_eq_some_iff.mp hpc
    obtain ⟨qe, hqe, -⟩ := skeleton_eq_some_iff.mp hqc
    rw [position_child hF hx hep, position_child hF hy hq] at hxy
    obtain ⟨hpq, hrank⟩ := List.append_inj' hxy rfl
    obtain rfl := ih hpe hqe hpq
    exact h.eq_of_rank_eq hx hy hep hq (List.cons.inj hrank).1

end CategorizedIndex.Tree
