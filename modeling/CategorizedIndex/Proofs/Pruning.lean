import CategorizedIndex.Proofs.Commit.Filled
import CategorizedIndex.Proofs.FanOut
import CategorizedIndex.Proofs.Replay.AnyOrder

/-! # What is pruned is what was predicted

The replay of a batch computes from counts of children which categories a commit would leave
without documents; the commit climbs from the categories it emptied. Both find the categories
of the tree before that have no document left below them, in whatever order they go.
-/
namespace CategorizedIndex

namespace Tree

/-- The replay of a batch predicts what a commit of it prunes. -/
structure Predicts (config : Config) (batch : Batch) (t : Tree) : Prop where
  emptied : ∀ x, x ∈ (Replay.run t batch).pruned t ↔
    t.Emptied (Work.filled config t batch).tree x
  /-- A replay may take its candidates in any order; it comes to an end with the same set. -/
  anyOrder : ∀ {work n s}, (∀ x ∈ (Replay.run t batch).candidates, x ∈ work) →
    Replay.TakesMany t n ⟨work, (Replay.run t batch).growth, ∅⟩ s →
    n ≤ work.length + t.arena.size ∧ (s.work ≠ [] → ∃ s', Replay.Takes t s s') ∧
      (s.work = [] → s.pruned = (Replay.run t batch).pruned t)
  /-- A commit may go over what it emptied in any order and repeatedly. -/
  removed : ∀ {candidates}, (∀ x ∈ (Work.filled config t batch).emptied, x ∈ candidates) →
    ∀ x, ((Work.filled config t batch).tree.get? x).isSome = true ∧
        ((Work.filled config t batch).tree.prune candidates).2.get? x = none ↔
      x ∈ (Replay.run t batch).pruned t
  counted : ∀ {candidates}, (∀ x ∈ (Work.filled config t batch).emptied, x ∈ candidates) →
    ((Work.filled config t batch).tree.prune candidates).1 =
      ((Replay.run t batch).pruned t).size
  committed : ∀ x, (∃ e, t.get? x = some e ∧ e.isCategory = true) ∧
      (t.commit config batch).1.get? x = none ↔ x ∈ (Replay.run t batch).pruned t
  statistics : (t.commit config batch).2.categoriesPruned =
    ((Replay.run t batch).pruned t).size

variable {config : Config} {t u v : Tree} {T : Table} {batch : Batch} {x : EntryId}
  {candidates : List EntryId}

theorem Reranked.get?_eq_none_iff (h : u.Reranked v) : v.get? x = none ↔ u.get? x = none := by
  rw [← skeleton_eq_none_iff, ← skeleton_eq_none_iff, h.skeleton]

theorem card_toFinset_toList (s : Std.ExtTreeSet EntryId) : s.toList.toFinset.card = s.size := by
  have hn : s.toList.Nodup := Std.ExtTreeSet.distinct_toList.imp fun hne heq =>
    hne (Std.LawfulEqOrd.compare_eq_iff_eq.mpr heq)
  rw [List.toFinset_card_of_nodup hn, Std.ExtTreeSet.length_toList]

theorem Thinned.mem_sdiff_iff (h : Thinned config u v) (ht : t.Sound config)
    (hkept : ∀ y c, t.skeleton y = some c → c.isCategory = true → u.skeleton y = some c) :
    x ∈ t.ofKind true \ v.ofKind true ↔
      (∃ e, t.get? x = some e ∧ e.isCategory = true) ∧ v.get? x = none := by
  rw [Finset.mem_sdiff, ht.mem_ofKind, exists_category_iff, ← skeleton_eq_none_iff]
  refine and_congr_right fun ⟨c, hc, hcat⟩ => ⟨fun hgone => ?_, h.sound.not_mem_ofKind⟩
  refine Option.eq_none_iff_forall_ne_some.mpr fun d hd => hgone ?_
  obtain rfl := Option.some.inj ((hkept x c hc hcat).symm.trans (h.trimmed.kept x d hd))
  exact h.sound.mem_ofKind.mpr ⟨c, hd, hcat⟩

section Settled

variable (h : t.Settled config T) (hb : batch.Fits config)
include h hb

theorem Settled.isSome_filled (hx : ∃ e, t.get? x = some e ∧ e.isCategory = true) :
    ((Work.filled config t batch).tree.get? x).isSome = true := by
  obtain ⟨c, hc, hcat⟩ := exists_category_iff.mp hx
  obtain ⟨e, he, -⟩ := skeleton_eq_some_iff.mp (h.keptBut_filled hb x c hc (Or.inl hcat))
  simp [he]

variable (hn : (batch.rows.map (·.scopedId)).Nodup)
include hn

theorem Settled.mem_pruned_iff : x ∈ (Replay.run t batch).pruned t ↔
    t.Emptied (Work.filled config t batch).tree x := by
  have hran := Replay.ran_run h.sound hb hn T
  rw [hran.mem_pruned_iff h hb (Replay.target_table hn T), h.fruitless_iff hb]

theorem Settled.went_prune_iff
    (hcandidates : ∀ y ∈ (Work.filled config t batch).emptied, y ∈ candidates) :
    (∃ e, t.get? x = some e ∧ e.isCategory = true) ∧
        ((Work.filled config t batch).tree.prune candidates).2.get? x = none ↔
      x ∈ (Replay.run t batch).pruned t := by
  rw [h.mem_pruned_iff hb hn, ← h.gone_prune_iff hb hn hcandidates]
  constructor
  · rintro ⟨hcategory, hgone⟩
    exact ⟨h.isSome_filled hb hcategory, hgone⟩
  · intro hx
    exact ⟨((h.gone_prune_iff hb hn hcandidates).mp hx).category, hx.2⟩

theorem Settled.size_pruned
    (hcandidates : ∀ y ∈ (Work.filled config t batch).emptied, y ∈ candidates) :
    ((Work.filled config t batch).tree.prune candidates).1 =
      ((Replay.run t batch).pruned t).size := by
  rw [h.fst_prune hb hn, ← card_toFinset_toList]
  congr 1
  ext x
  rw [(h.thinned_prune_filled hb hcandidates).1.mem_sdiff_iff h.sound
      fun y c hc hcat => h.keptBut_filled hb y c hc (Or.inl hcat),
    h.went_prune_iff hb hn hcandidates, List.mem_toFinset, Std.ExtTreeSet.mem_toList]

theorem Settled.predicts : t.Predicts config batch := by
  constructor
  case emptied => exact fun x => h.mem_pruned_iff hb hn
  case anyOrder =>
    intro work n s hwork htakes
    have htarget := Replay.target_table hn T
    have hran := Replay.ran_run h.sound hb hn T
    obtain ⟨hbound, hend⟩ := htakes.ends h hb htarget hran hwork
    refine ⟨hbound, Replay.Worklist.exists_takes t, fun hnil => ?_⟩
    refine Std.ExtTreeSet.ext_mem fun x => ?_
    rw [hend hnil, hran.mem_pruned_iff h hb htarget]
  case removed =>
    intro candidates hcandidates x
    rw [h.gone_prune_iff hb hn hcandidates, h.mem_pruned_iff hb hn]
  case counted => exact fun hcandidates => h.size_pruned hb hn hcandidates
  case committed =>
    intro x
    rw [← h.went_prune_iff hb hn fun _ => id]
    exact and_congr_right fun _ => (reranked_flush _).get?_eq_none_iff
  case statistics => exact h.size_pruned hb hn fun _ => id

end Settled

end Tree

namespace Index

variable {name : String} {config : Config} {filter : Option RowFilter} {x : Index}
  {change : Change} {batch : Batch}

/-- Whatever was done to an index before, the replay of a batch predicts what is pruned. -/
theorem predicts_run (hbuild : build name config filter = .ok x) (operations : List Operation)
    (hprepare : change.prepare config filter = .ok batch) :
    (x.run operations).tree.Predicts config batch := by
  obtain ⟨T, hsettled, -⟩ := exists_settled_run hbuild operations
  exact hsettled.predicts (Change.prepare_fits hprepare) (Change.prepare_nodup hprepare)

/-- One category is refilled, one is left empty, and one takes its parent with it. -/
theorem predicts_refilled_group :
    let t := (grouped.run [.change (filing 1 (.text "a\\b")), .change (filing 2 (.text "a\\d")),
      .change (filing 3 (.text "f\\g"))]).tree
    let change := ((filing 1 (.text "c")).add 2 (groupedBy [.text "a\\b"])).add 3
      (groupedBy [.text "c"])
    ∃ batch, build "grouped" grouped.config none = .ok grouped ∧
      change.prepare grouped.config none = .ok batch ∧ t.Predicts grouped.config batch ∧
      t.preorder = [1, 2, 3, 4, 5, 6, 7, 8] ∧
      (Work.filled grouped.config t batch).emptied = [2, 4, 7] ∧
      ((Replay.run t batch).pruned t).toList = [4, 6, 7] := by
  intro t change
  have hok : (change.prepare grouped.config none).toOption.isSome = true := by decide +kernel
  have hfacts : t.preorder = [1, 2, 3, 4, 5, 6, 7, 8] ∧
      (change.prepare grouped.config none).toOption.all (fun batch =>
        (Work.filled grouped.config t batch).emptied = [2, 4, 7] ∧
        ((Replay.run t batch).pruned t).toList = [4, 6, 7]) = true := by
    decide +kernel
  cases hprepare : change.prepare grouped.config none with
  | error e =>
    rw [hprepare] at hok
    cases hok
  | ok batch =>
    rw [hprepare] at hfacts
    obtain ⟨hpreorder, hpruned⟩ := hfacts
    obtain ⟨hemptied, hpruned⟩ := of_decide_eq_true hpruned
    exact ⟨batch, build_grouped, rfl, predicts_run build_grouped _ hprepare, hpreorder, hemptied,
      hpruned⟩

end Index

end CategorizedIndex
