import CategorizedIndex.Proofs.Reachable

/-! # The check of kinds decides what a commit would mix

A strict index turns a batch down before its tree is touched. The check agrees with the
commit it stands for: it lets a batch through exactly if the tree after the commit has one
kind of value at every place among siblings.
-/
namespace CategorizedIndex.Index

variable {name : String} {config : Config} {filter : Option RowFilter} {x : Index}

/-- On every strict index that is reached, the check accepts a prepared batch exactly if
its commit leaves one kind of value at every place, and what it reports otherwise are two
values of different kinds that the commit would put among the same siblings. -/
theorem checkKinds_eq_ok_iff_oneKind (hbuild : build name config filter = .ok x)
    (hstrict : config.strict = true) (operations : List Operation) {change : Change}
    {batch : Batch} (hprepare : change.prepare config filter = .ok batch) :
    let before := (x.run operations).tree
    let committed := (before.commit config batch).1
    (before.checkKinds config batch = .ok () ↔ committed.OneKind) ∧
    ∀ e, before.checkKinds config batch = .error e →
      ∃ parent place v w, e = .siblingKinds v w (Replay.itemOf config place) ∧
        e.kind = .comparison ∧ v ∈ committed.siblingValues parent place ∧
        w ∈ committed.siblingValues parent place ∧ v.kind ≠ w.kind := by
  obtain ⟨T, hsettled, hone⟩ := exists_settled_run hbuild operations
  have hb := Change.prepare_fits hprepare
  have hcommitted := hsettled.commit hb
  obtain ⟨hiff, herror⟩ :=
    hsettled.checkKinds_spec (hone hstrict) hb (Change.prepare_nodup hprepare)
  refine ⟨hiff.trans hcommitted.oneKind_iff.symm, fun e he => ?_⟩
  obtain ⟨A, place, v, w, rfl, hv, hw, hkind⟩ := herror e he
  obtain ⟨parent, c, hparent, rfl⟩ := hcommitted.exists_siblings hv
  exact ⟨parent, place, v, w, rfl, rfl, (hcommitted.mem_siblingValues_iff hparent).mpr hv,
    (hcommitted.mem_siblingValues_iff hparent).mpr hw, hkind⟩

/-- A number is turned down beside a text. -/
theorem checkKinds_number_beside_text :
    let batch : Batch := ⟨[], [⟨⟨"desk", 2⟩, some ⟨"unid",
      (∅ : ColumnValues).insert "group" (.single (.number .zero)), [],
      [[⟨0, some (.number .zero), false⟩]]⟩⟩]⟩
    let before := (grouped.run [.change (filing 1 (.text "b"))]).tree
    let committed := (before.commit grouped.config batch).1
    build "grouped" grouped.config none = .ok grouped ∧ grouped.config.strict = true ∧
      (filing 2 (.number .zero)).prepare grouped.config none = .ok batch ∧
      before.checkKinds grouped.config batch =
        .error (.siblingKinds (.number .zero) (.text "b") "group") ∧
      ¬ committed.OneKind ∧
      ∃ parent place, .number .zero ∈ committed.siblingValues parent place ∧
        .text "b" ∈ committed.siblingValues parent place := by
  intro batch before committed
  have hprepare : (filing 2 (.number .zero)).prepare grouped.config none = .ok batch := rfl
  have herror : before.checkKinds grouped.config batch =
      .error (.siblingKinds (.number .zero) (.text "b") "group") := by decide +kernel
  obtain ⟨hiff, hvalues⟩ := checkKinds_eq_ok_iff_oneKind build_grouped rfl
    [.change (filing 1 (.text "b"))] hprepare
  obtain ⟨parent, place, v, w, he, -, hv, hw, -⟩ := hvalues _ herror
  obtain ⟨rfl, rfl, -⟩ := Error.siblingKinds.inj he
  refine ⟨build_grouped, rfl, hprepare, herror, fun hone => ?_, parent, place, hv, hw⟩
  have hok := hiff.mpr hone
  rw [herror] at hok
  cases hok

end CategorizedIndex.Index
