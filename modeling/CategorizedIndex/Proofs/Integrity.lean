import CategorizedIndex.Proofs.Integrity.Detachments
import CategorizedIndex.Proofs.Integrity.Intact

/-! # Integrity of every index that is reached

Whatever is done to an index, its tree passes the check of integrity afterwards and is
intact, and while a change is committed no counter is lowered that is zero.
-/
namespace CategorizedIndex.Index

variable {name : String} {config : Config} {filter : Option RowFilter} {x : Index}

theorem verifyIntegrity_run (hbuild : build name config filter = .ok x)
    (operations : List Operation) :
    (x.run operations).verifyIntegrity = .ok () ∧
      (x.run operations).tree.Intact config.strict ∧
      ∀ change batch, Change.prepare change config filter = .ok batch → ∀ u id,
        Tree.Detached config (x.run operations).tree batch u id → u.Counted id := by
  obtain ⟨T, hsettled, hone⟩ := exists_settled_run hbuild operations
  refine ⟨?_, hsettled.intact hone, ?_⟩
  · rw [verifyIntegrity, config_run_build hbuild operations]
    exact hsettled.verifyIntegrity_eq_ok hone
  · intro change batch hprepare u id hdetached
    exact hsettled.counted_of_detached (Change.prepare_fits hprepare) hdetached

/-- A row moves between groups and another is filed below the first. -/
theorem verifyIntegrity_moved_row :
    let operations : List Operation := [.change (filing 1 (.text "a\\b")),
      .change (filing 2 (.text "a")), .change (filing 1 (.text "c"))]
    build "grouped" grouped.config none = .ok grouped ∧
      (grouped.run operations).tree.arena.size = 5 ∧
      (grouped.run operations).verifyIntegrity = .ok () ∧
      (grouped.run operations).tree.Intact true := by
  intro operations
  obtain ⟨hverify, hintact, -⟩ := verifyIntegrity_run build_grouped operations
  exact ⟨build_grouped, by decide +kernel, hverify, hintact⟩

end CategorizedIndex.Index
