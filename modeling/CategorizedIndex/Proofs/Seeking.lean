import CategorizedIndex.Proofs.Navigator.Seek
import CategorizedIndex.Proofs.Reachable

/-! # Going to the next selected entry

Looking for a selected entry leads to the first one that steps would come to. A search that
finds none leaves nothing behind, neither a cursor that has moved nor siblings that were
looked up on the way. From outside, one search after another goes through the selected
entries of the trail in their order, or in the opposite order.
-/
namespace CategorizedIndex.Navigator

/-- What a search in a course does from wherever a navigator stands. -/
structure SeeksSelected (n : Navigator) (course : Course) : Prop where
  /-- The entries that steps would go through decide what is found. -/
  first : ∃ l, n.Goes course l ∧ (n.currentId? = none → l = course.along n.trail) ∧
    FindsFirst n course l (n.gotoSelected? course)
  /-- The loop ends where the search does, and without an entry it ends where it began. -/
  loop : ∀ answer last, Seeks course n.stack n answer last ↔
    (answer = true ∧ n.gotoSelected? course = some last) ∨
      (answer = false ∧ n.gotoSelected? course = none ∧ last = n)
  /-- Nothing but the cursor moves. -/
  kept : ∀ m, n.gotoSelected? course = some m → ∃ stack, m = n.withStack stack
  /-- A search that finds nothing might as well not have been made. -/
  vain : n.gotoSelected? course = none →
    ∀ later, n.run (.selected course :: later) = n.run later
  /-- From outside the searches go through the selected entries of the trail. -/
  enumerates : n.currentId? = none → Visits (fun n => n.gotoSelected? course)
    (n.gotoSelected? course) (course.along (n.trail.filter n.selects))

variable {config : Config} {t : Tree} {T : Table} {n : Navigator}

theorem Grounded.seeksSelected (h : t.Settled config T) (hn : n.Grounded t) (course : Course) :
    n.SeeksSelected course := by
  obtain ⟨l, hgoes, houtside, hsize⟩ := hn.exists_goes h course
  have hfinds := hgoes.findsFirst_gotoSelected? hsize
  constructor
  case first => exact ⟨l, hgoes, houtside, hfinds⟩
  case loop =>
    intro answer last
    rw [hgoes.seeks_gotoSelected?_iff hsize]
    cases n.gotoSelected? course with
    | none => simp [sought, withStack]
    | some m => simp [sought, eq_comm (a := last)]
  case kept =>
    intro m hm
    obtain ⟨skipped, -, -, -, -, -, -, hsteps, -⟩ := hfinds.found m hm
    obtain ⟨stack, hstack, -⟩ := stepMany_moved n course (skipped.length + 1)
    rw [hsteps] at hstack
    exact ⟨stack, hstack⟩
  case vain =>
    intro hnone later
    rw [Navigator.run, List.foldl_cons, Navigator.move?, hnone]
    rfl
  case enumerates =>
    intro hcurrent
    rw [← Course.filter_along, ← houtside hcurrent]
    exact hgoes.visits_selected hsize

variable {name : String} {filter : Option RowFilter} {x : Index}

/-- In every index that is reached, whatever a navigator was told before. -/
theorem seeksSelected_run (hbuild : Index.build name config filter = .ok x)
    (operations : List Operation) (state : NavigatorState) (moves : List Move)
    (course : Course) : ((start (x.run operations).tree state).run moves).SeeksSelected course := by
  obtain ⟨T, hsettled, -⟩ := Index.exists_settled_run hbuild operations
  exact ((grounded_start _ state).run hsettled.sound moves).seeksSelected hsettled course

/-- Two rows and a group are selected and one of the rows is hidden, so the searches find the
other row and the group, and nothing behind them. -/
theorem seeksSelected_hidden_row :
    let operations : List Operation := [.change (Index.filing 1 (.text "a\\b")),
      .change (Index.filing 2 (.text "a")), .change (Index.filing 3 (.text "c"))]
    let rows := (SelectionSet.none.select ⟨"desk", 1⟩).select ⟨"desk", 2⟩
    let state : NavigatorState :=
      ⟨.start .expanded, rows.select (.category 3), some fun e => e.scopedId != ⟨"desk", 2⟩⟩
    let outside := start (Index.grouped.run operations).tree state
    let n := outside.run [.last]
    Index.build "grouped" Index.grouped.config none = .ok Index.grouped ∧
      outside.trail = [1, 2, 3, 5, 6] ∧ outside.SeeksSelected .forward ∧
      Visits (fun n => n.gotoSelected? .forward) (outside.gotoSelected? .forward) [3, 5] ∧
      Visits (fun n => n.gotoSelected? .backward) (outside.gotoSelected? .backward) [5, 3] ∧
      n.currentId? = some 6 ∧ n.gotoSelected? .forward = none ∧
      Seeks .forward n.stack n false n := by
  intro operations rows state outside n
  have hselected : outside.trail.filter outside.selects = [3, 5] := by decide +kernel
  have hforward : outside.SeeksSelected .forward :=
    seeksSelected_run Index.build_grouped operations state [] .forward
  have hbackward : outside.SeeksSelected .backward :=
    seeksSelected_run Index.build_grouped operations state [] .backward
  have hnext := hforward.enumerates rfl
  have hprev := hbackward.enumerates rfl
  rw [hselected] at hnext hprev
  have hnone : n.gotoSelected? .forward = none := by
    have hfails : (n.gotoSelected? .forward).isNone = true := by decide +kernel
    exact Option.isNone_iff_eq_none.mp hfails
  have hend : n.SeeksSelected .forward :=
    seeksSelected_run Index.build_grouped operations state [.last] .forward
  exact ⟨Index.build_grouped, by decide +kernel, hforward, hnext, hprev, by decide +kernel, hnone,
    (hend.loop false n).mpr (Or.inr ⟨rfl, hnone, rfl⟩)⟩

end CategorizedIndex.Navigator
