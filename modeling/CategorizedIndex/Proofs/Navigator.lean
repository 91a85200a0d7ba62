import CategorizedIndex.Proofs.Navigator.Moves
import CategorizedIndex.Proofs.Navigator.Walk
import CategorizedIndex.Proofs.Reachable

/-! # Walks through every tree that is reached

Whatever was done to an index and to a navigator on its tree, walking from the first entry
goes through the trail in depth-first order, walking from the last goes through it in
reverse, and single steps lead from an entry of the trail to its neighbours.
-/
namespace CategorizedIndex.Navigator

variable {name : String} {config : Config} {filter : Option RowFilter} {x : Index}

/-- The trail consists of the entries below the root that pass the filter with everything
above them and have only expanded entries above them, each once in the order of positions.
Steps forward from the first entry visit it, steps backward from the last visit its
reverse, and both ends are missing only if it is empty. From an entry of the trail,
however it was reached, a step leads to its neighbour. -/
theorem visits_trail (hbuild : Index.build name config filter = .ok x)
    (operations : List Operation) (state : NavigatorState) (moves : List Move) :
    let t := (x.run operations).tree
    let n := (start t state).run moves
    (∀ y, y ∈ n.trail ↔ y ≠ Tree.root ∧ ∃ e, t.get? y = some e ∧
      ∀ a d, (a, d) ∈ t.lineage y → a ≠ Tree.root →
        (∀ visible, n.state.visibility = some visible → visible d = true) ∧
          (a = y ∨ n.state.expansion.isExpanded d.scopedId = true)) ∧
    n.trail.Nodup ∧
    n.trail.Pairwise (fun y z => Position.cmp (t.position y) (t.position z) = .lt) ∧
    Visits gotoNext? n.gotoFirst? n.trail ∧
    Visits gotoPrev? n.gotoLast? n.trail.reverse ∧
    (n.gotoFirst? = none ↔ n.trail = []) ∧
    (n.gotoLast? = none ↔ n.trail = []) ∧
    ∀ l y r, n.trail = l ++ y :: r → n.currentId? = some y →
      n.gotoNext?.map (·.currentId?) = r.head?.map some ∧
      n.gotoPrev?.map (·.currentId?) = l.getLast?.map some := by
  intro t n
  obtain ⟨T, hsettled, -⟩ := Index.exists_settled_run hbuild operations
  have hgrounded : n.Grounded t := (grounded_start t state).run hsettled.sound moves
  obtain ⟨htree, z, hstands⟩ := hgrounded
  rw [show (x.run operations).tree = n.tree from htree.symm] at hsettled
  rw [← htree] at hstands ⊢
  have hfirst := gotoFirst?_lands hsettled.sound
  have hlast := gotoLast?_lands hsettled.sound
  refine ⟨fun y => mem_trail hsettled.sound, nodup_trail hsettled, pairwise_trail hsettled,
    hfirst.visits_next (l := []) hsettled rfl,
    hlast.visits_prev (r := []) hsettled (List.append_nil _).symm,
    hfirst.eq_none_iff.trans List.head?_eq_none_iff,
    hlast.eq_none_iff.trans List.getLast?_eq_none_iff, fun l y r htrail hcurrent => ?_⟩
  obtain rfl := hstands.eq_of_currentId? hcurrent
  have hmem : z ∈ n.trail := by
    rw [htrail]
    exact List.mem_append_right _ List.mem_cons_self
  have hr := ((mem_trail hsettled.sound).mp hmem).1
  obtain ⟨hnext, hprev⟩ := steps_land hsettled hstands hr htrail
  exact ⟨hnext.map_currentId?, hprev.map_currentId?⟩

/-- A row is hidden between two groups of which the second is collapsed. -/
theorem visits_trail_hidden_row :
    let operations : List Operation := [.change (Index.filing 1 (.text "a\\b")),
      .change (Index.filing 2 (.text "a")), .change (Index.filing 3 (.text "c"))]
    let state : NavigatorState := { NavigatorState.start .expanded with
      expansion := (ExpansionSet.start .expanded).collapse (.category 3)
      visibility := some fun e => e.scopedId != ⟨"desk", 2⟩ }
    let n := (start (Index.grouped.run operations).tree state).run [.last, .step .backward]
    Index.build "grouped" Index.grouped.config none = .ok Index.grouped ∧
      n.tree.preorder = [1, 2, 3, 4, 5, 6] ∧ n.trail = [1, 2, 3, 5] ∧
      Visits gotoNext? n.gotoFirst? [1, 2, 3, 5] ∧ Visits gotoPrev? n.gotoLast? [5, 3, 2, 1] ∧
      n.currentId? = some 3 ∧ n.gotoNext?.map (·.currentId?) = some (some 5) ∧
      n.gotoPrev?.map (·.currentId?) = some (some 2) := by
  intro operations state n
  have htrail : n.trail = [1, 2] ++ 3 :: [5] := by decide +kernel
  have hcurrent : n.currentId? = some 3 := by decide +kernel
  obtain ⟨-, -, -, hnext, hprev, -, -, hsteps⟩ :=
    visits_trail Index.build_grouped operations state [.last, .step .backward]
  obtain ⟨hafter, hbefore⟩ := hsteps [1, 2] 3 [5] htrail hcurrent
  rw [show ((start (Index.grouped.run operations).tree state).run
    [.last, .step .backward]).trail = _ from htrail] at hnext hprev
  exact ⟨Index.build_grouped, by decide +kernel, htrail, hnext, hprev, hcurrent, hafter, hbefore⟩

end CategorizedIndex.Navigator
