import CategorizedIndex.Proofs.Navigator.Bulk
import CategorizedIndex.Proofs.Reachable

/-! # Skipping and reading along the trail

Skipping takes single steps until the count is used up or the trail ends, so it leads that
many entries further along the trail; as many steps in the other direction lead back. Reading
begins with the entry that is current, or with the first, and stays on the last that it read.
-/
namespace CategorizedIndex.Navigator

/-- Skipping takes a number of steps and ends on an entry, if on any; nothing but the cursor
moves. -/
structure Skips (n : Navigator) (count : Int) (taken : Nat) (y : Option EntryId) : Prop where
  steps : (n.skip count).1 = taken
  current : (n.skip count).2.currentId? = y
  kept : ∃ stack, (n.skip count).2 = n.withStack stack

variable {config : Config} {t : Tree} {T : Table} {n : Navigator} {y : EntryId} {k : Nat}

theorem skips_of_stepMany {count : Int} {course : Course} {steps taken : Nat} {y : Option EntryId}
    (hskip : n.skip count = n.stepMany course steps)
    (hend : (n.stepMany course steps).1 = taken ∧ (n.stepMany course steps).2.currentId? = y) :
    n.Skips count taken y := by
  rw [← hskip] at hend
  obtain ⟨stack, hstack, -⟩ := stepMany_moved n course steps
  exact ⟨hend.1, hend.2, stack, hskip ▸ hstack⟩

theorem skip_natCast (n : Navigator) (count : Nat) :
    n.skip count = n.stepMany .forward count := by
  rw [skip, if_pos (Int.natCast_nonneg count), Int.natAbs_natCast]

theorem skip_neg_natCast (n : Navigator) (count : Nat) :
    n.skip (-count) = n.stepMany .backward count := by
  cases count with
  | zero => rfl
  | succ count =>
    have hneg : ¬(0 : Int) ≤ -((count + 1 : Nat) : Int) := by omega
    rw [skip, if_neg hneg, Int.natAbs_neg, Int.natAbs_natCast]

theorem Grounded.skips_from_end (h : t.Settled config T) (hn : n.Grounded t)
    (hcurrent : n.currentId? = none) (count : Nat) :
    n.Skips count (min count n.trail.length) (n.trail.take count).getLast? ∧
      n.Skips (-count) (min count n.trail.length) (n.trail.reverse.take count).getLast? := by
  have hends := fun course => (goes_trail (hn.1 ▸ h) hcurrent course).stepMany_eq count
  simp only [hcurrent, Option.toList_none, List.nil_append, Course.length_along] at hends
  exact ⟨skips_of_stepMany (skip_natCast n count) (hends .forward),
    skips_of_stepMany (skip_neg_natCast n count) (hends .backward)⟩

theorem Grounded.skips_forward (h : t.Settled config T) (hn : n.Grounded t)
    (hk : n.trail[k]? = some y) (hcurrent : n.currentId? = some y) (count : Nat) :
    let taken := min count (n.trail.length - 1 - k)
    n.Skips count taken n.trail[k + taken]? ∧
      (n.skip count).2.Skips (-taken) taken (some y) := by
  intro taken
  obtain ⟨htaken, hend⟩ := hn.stepMany_eq h .forward hk hcurrent count
  have hback := hn.stepMany_turned h .forward hk hcurrent count
  rw [htaken] at hend
  simp only [htaken] at hback
  rw [← skip_natCast] at hback
  exact ⟨skips_of_stepMany (skip_natCast n count) ⟨htaken, hend⟩,
    skips_of_stepMany (skip_neg_natCast _ taken) hback⟩

theorem Grounded.skips_backward (h : t.Settled config T) (hn : n.Grounded t)
    (hk : n.trail[k]? = some y) (hcurrent : n.currentId? = some y) (count : Nat) :
    let taken := min count k
    n.Skips (-count) taken n.trail[k - taken]? ∧
      (n.skip (-count)).2.Skips taken taken (some y) := by
  intro taken
  have hlt := (List.getElem?_eq_some_iff.mp hk).1
  have hplace : ∀ i ≤ k, (Course.backward.along n.trail)[n.trail.length - 1 - k + i]? =
      n.trail[k - i]? := by
    intro i hi
    have hfrom : n.trail.length - 1 - (n.trail.length - 1 - k + i) = k - i := by omega
    rw [Course.along, List.getElem?_reverse (by omega), hfrom]
  have hstart := (hplace 0 (Nat.zero_le k)).trans hk
  obtain ⟨htaken, hend⟩ := hn.stepMany_eq h .backward hstart hcurrent count
  have hback := hn.stepMany_turned h .backward hstart hcurrent count
  have hall : min count (n.trail.length - 1 - (n.trail.length - 1 - k + 0)) = taken := by omega
  rw [hall] at htaken
  rw [htaken, Nat.add_zero, hplace taken (Nat.min_le_right count k)] at hend
  simp only [htaken] at hback
  rw [← skip_neg_natCast] at hback
  exact ⟨skips_of_stepMany (skip_neg_natCast n count) ⟨htaken, hend⟩,
    skips_of_stepMany (skip_natCast _ taken) hback⟩

theorem Grounded.read_eq (h : t.Settled config T) (hn : n.Grounded t)
    (hplace : n.currentId? = none ∧ k = 0 ∨ ∃ y, n.currentId? = some y ∧ n.trail[k]? = some y)
    {count : Nat} (hcount : 1 ≤ count) :
    (n.read count).1.map some = ((n.trail.drop k).take count).map t.snapshot? ∧
      (n.read count).2.currentId? = ((n.trail.drop k).take count).getLast? ∧
      ∃ stack, (n.read count).2 = n.withStack stack := by
  obtain ⟨hids, hend⟩ := hn.readIds_eq h hplace hcount
  obtain ⟨stack, hstack, -⟩ := readIds_moved n count
  refine ⟨?_, hend, stack, hstack⟩
  obtain ⟨rfl, -⟩ := hn
  have hshown : ∀ x ∈ (n.trail.drop k).take count, (n.tree.snapshot? x).isSome = true := by
    intro x hx
    have hmem := List.mem_of_mem_drop (List.mem_of_mem_take hx)
    obtain ⟨hr, e, he, -⟩ := (mem_trail h.sound).mp hmem
    obtain ⟨snapshot, hsnapshot⟩ := Tree.exists_snapshot h.sound.formed he hr
    rw [hsnapshot, Option.isSome_some]
  have hread : (n.read count).1 = (n.readIds count).1.filterMap n.tree.snapshot? := rfl
  rw [hread, hids, List.map_filterMap_some_eq_filter_map_isSome, List.filter_eq_self.mpr]
  exact List.forall_mem_map.mpr hshown

variable {name : String} {filter : Option RowFilter} {x : Index}

/-- Whatever led a navigator to where it is, skipping leads along its trail by the steps that
are asked for or left, from a current entry of the trail or from outside over its ends, and
from an entry as many steps in the other direction lead back. Reading gives the next entries
of the trail, the current one or the first included, and stays on the last of them. -/
theorem pages_trail (hbuild : Index.build name config filter = .ok x)
    (operations : List Operation) (state : NavigatorState) (moves : List Move) :
    let t := (x.run operations).tree
    let n := (start t state).run moves
    (n.currentId? = none → ∀ count : Nat,
      n.Skips count (min count n.trail.length) (n.trail.take count).getLast? ∧
      n.Skips (-count) (min count n.trail.length) (n.trail.reverse.take count).getLast?) ∧
    (∀ k y, n.trail[k]? = some y → n.currentId? = some y → ∀ count : Nat,
      (let taken := min count (n.trail.length - 1 - k)
       n.Skips count taken n.trail[k + taken]? ∧
        (n.skip count).2.Skips (-taken) taken (some y)) ∧
      (let taken := min count k
       n.Skips (-count) taken n.trail[k - taken]? ∧
        (n.skip (-count)).2.Skips taken taken (some y))) ∧
    (∀ k, (n.currentId? = none ∧ k = 0 ∨
        ∃ y, n.currentId? = some y ∧ n.trail[k]? = some y) → ∀ count, 1 ≤ count →
      (n.read count).1.map some = ((n.trail.drop k).take count).map t.snapshot? ∧
      (n.read count).2.currentId? = ((n.trail.drop k).take count).getLast? ∧
      ∃ stack, (n.read count).2 = n.withStack stack) ∧
    n.read 0 = ([], n) := by
  intro t n
  obtain ⟨T, hsettled, -⟩ := Index.exists_settled_run hbuild operations
  have hn : n.Grounded t := (grounded_start t state).run hsettled.sound moves
  refine ⟨hn.skips_from_end hsettled, fun k y hk hcurrent count => ?_,
    fun k hplace count hcount => hn.read_eq hsettled hplace hcount, rfl⟩
  exact ⟨hn.skips_forward hsettled hk hcurrent count, hn.skips_backward hsettled hk hcurrent count⟩

/-- A row is hidden between two groups of which the second is collapsed; from the inner group
there are two entries ahead and one behind. -/
theorem pages_trail_hidden_row :
    let operations : List Operation := [.change (Index.filing 1 (.text "a\\b")),
      .change (Index.filing 2 (.text "a")), .change (Index.filing 3 (.text "c"))]
    let state : NavigatorState := { NavigatorState.start .expanded with
      expansion := (ExpansionSet.start .expanded).collapse (.category 3)
      visibility := some fun e => e.scopedId != ⟨"desk", 2⟩ }
    let t := (Index.grouped.run operations).tree
    let outside := start t state
    let n := outside.run [.first, .step .forward]
    Index.build "grouped" Index.grouped.config none = .ok Index.grouped ∧
      outside.trail = [1, 2, 3, 5] ∧ outside.currentId? = none ∧
      outside.Skips 3 3 (some 3) ∧ outside.Skips (-9) 4 (some 1) ∧
      n.trail[1]? = some 2 ∧ n.currentId? = some 2 ∧
      n.Skips 9 2 (some 5) ∧ (n.skip 9).2.Skips (-2) 2 (some 2) ∧
      n.Skips (-9) 1 (some 1) ∧ (n.skip (-9)).2.Skips 1 1 (some 2) ∧
      (n.read 2).1.map some = [t.snapshot? 2, t.snapshot? 3] ∧
      (n.read 2).2.currentId? = some 3 := by
  intro operations state t outside n
  have htrail : outside.trail = [1, 2, 3, 5] := by decide +kernel
  have hcurrent : n.currentId? = some 2 := by decide +kernel
  have hk : n.trail[1]? = some 2 := congrArg (·[1]?) htrail
  obtain ⟨hends, -, -, -⟩ := pages_trail Index.build_grouped operations state []
  obtain ⟨-, hskips, hreads, -⟩ :=
    pages_trail Index.build_grouped operations state [.first, .step .forward]
  have hforward := (hends rfl 3).1
  have hbackward := (hends rfl 9).2
  obtain ⟨⟨hahead, hback⟩, hbehind, hforth⟩ := hskips 1 2 hk hcurrent 9
  obtain ⟨hread, hlast, -⟩ := hreads 1 (Or.inr ⟨2, hcurrent, hk⟩) 2 (by decide)
  have hntrail : ((start t state).run [.first, .step .forward]).trail = _ := htrail
  rw [show ((start t state).run []).trail = _ from htrail] at hforward hbackward
  rw [hntrail] at hahead hback hbehind hread hlast
  exact ⟨Index.build_grouped, htrail, rfl, hforward, hbackward, hk, hcurrent, hahead, hback,
    hbehind, hforth, hread, hlast⟩

end CategorizedIndex.Navigator
