import CategorizedIndex.Proofs.Navigator.Bulk
import CategorizedIndex.Proofs.Navigator.Selected

/-! # Looking for a selected entry

The search is a loop of single steps without a bound. It ends because steps come to an end;
the number of entries is enough fuel for it. It stops at the first selected entry of those
that the steps go through. If none of them is selected, the stack that was put aside before
the first step is put back.
-/
namespace CategorizedIndex.Navigator

/-- The steps of the loop, its answer, and the navigator that it leaves behind. -/
inductive Seeks (course : Course) (saved : List LevelCursor) :
    Navigator → Bool → Navigator → Prop
  | exhausted {n : Navigator} (hstep : n.step? course = none) :
      Seeks course saved n false (n.withStack saved)
  | found {n m : Navigator} (hstep : n.step? course = some m)
      (hselected : m.isCurrentSelected = true) : Seeks course saved n true m
  | onward {n m last : Navigator} {answer : Bool} (hstep : n.step? course = some m)
      (hselected : m.isCurrentSelected = false) (hrest : Seeks course saved m answer last) :
      Seeks course saved n answer last

/-- A search through a list of entries ends on the first that is selected, after as many
steps as lead there; without one it finds nothing. -/
structure FindsFirst (n : Navigator) (course : Course) (l : List EntryId)
    (o : Option Navigator) : Prop where
  found : ∀ m, o = some m → ∃ skipped y rest, l = skipped ++ y :: rest ∧
    (∀ x ∈ skipped, n.selects x = false) ∧ n.selects y = true ∧ m.currentId? = some y ∧
    n.stepMany course (skipped.length + 1) = (skipped.length + 1, m) ∧ m.Goes course rest
  none : o = none ↔ ∀ x ∈ l, n.selects x = false

variable {config : Config} {t : Tree} {T : Table} {n m : Navigator} {x y : EntryId}
  {course : Course} {l : List EntryId} {saved : List LevelCursor} {fuel : Nat} {answer : Bool}
  {last : Navigator}

def sought (n : Navigator) (saved : List LevelCursor) : Option Navigator → Bool × Navigator
  | some m => (true, m)
  | none => (false, n.withStack saved)

theorem isCurrentSelected_eq (hcurrent : n.currentId? = some x) :
    n.isCurrentSelected = n.selects x := by
  rw [isCurrentSelected, entryHere?, hcurrent]
  rfl

theorem seekSelected?_stop (hstep : n.step? course = none) (fuel : Nat) :
    n.seekSelected? course fuel = none := by
  cases fuel with
  | zero => rfl
  | succ fuel => rw [seekSelected?, hstep]

theorem seekSelected?_go (hstep : n.step? course = some m) (fuel : Nat) :
    n.seekSelected? course (fuel + 1) =
      if m.isCurrentSelected = true then some m else m.seekSelected? course fuel := by
  rw [seekSelected?, hstep]

theorem Visits.findsFirst (h : n.Goes course l) (hfuel : l.length < fuel) :
    FindsFirst n course l (n.seekSelected? course fuel) := by
  induction fuel generalizing n l with
  | zero => exact absurd hfuel (Nat.not_lt_zero _)
  | succ fuel ih =>
    obtain ⟨hstep, rfl⟩ | ⟨stack, y, rest, hstep, rfl, hcurrent, hrest⟩ := h.step?_cases
    · rw [seekSelected?_stop hstep]
      exact ⟨nofun, by simp⟩
    rw [seekSelected?_go hstep, isCurrentSelected_eq hcurrent, selects_withStack]
    cases hy : n.selects y with
    | true =>
      rw [if_pos rfl]
      refine ⟨fun m hm => ?_, by simp [hy]⟩
      obtain rfl := Option.some.inj hm
      exact ⟨[], y, rest, rfl, nofun, hy, hcurrent, stepMany_go hstep 0, hrest⟩
    | false =>
      rw [if_neg Bool.false_ne_true]
      obtain ⟨hfound, hnone⟩ := ih hrest (Nat.succ_lt_succ_iff.mp hfuel)
      refine ⟨fun m hm => ?_, ?_⟩
      · obtain ⟨skipped, z, behind, rfl, hskipped, hz, hcurrent', hsteps, hgoes⟩ := hfound m hm
        refine ⟨y :: skipped, z, behind, rfl, List.forall_mem_cons.mpr ⟨hy, hskipped⟩, hz,
          hcurrent', ?_, hgoes⟩
        rw [List.length_cons, stepMany_go hstep, hsteps]
      · rw [hnone, List.forall_mem_cons, hy]
        exact (and_iff_right rfl).symm

theorem Visits.findsFirst_gotoSelected? (h : n.Goes course l)
    (hsize : l.length ≤ n.tree.arena.size) : FindsFirst n course l (n.gotoSelected? course) :=
  h.findsFirst (Nat.lt_succ_iff.mpr hsize)

theorem seeks_stop (hstep : n.step? course = none) :
    Seeks course saved n answer last ↔ (answer, last) = (false, n.withStack saved) := by
  constructor
  · intro hseeks
    cases hseeks with
    | exhausted => rfl
    | found hstep' | onward hstep' =>
      rw [hstep] at hstep'
      cases hstep'
  · intro heq
    obtain ⟨rfl, rfl⟩ := Prod.mk.inj heq
    exact .exhausted hstep

theorem seeks_go (hstep : n.step? course = some m) : Seeks course saved n answer last ↔
    if m.isCurrentSelected = true then (answer, last) = (true, m)
    else Seeks course saved m answer last := by
  constructor
  · intro hseeks
    cases hseeks with
    | exhausted hstep' =>
      rw [hstep] at hstep'
      cases hstep'
    | found hstep' hselected =>
      obtain rfl := Option.some.inj (hstep.symm.trans hstep')
      rw [if_pos hselected]
    | onward hstep' hselected hrest =>
      obtain rfl := Option.some.inj (hstep.symm.trans hstep')
      rw [hselected, if_neg Bool.false_ne_true]
      exact hrest
  · intro hrest
    split at hrest
    · next hselected =>
      obtain ⟨rfl, rfl⟩ := Prod.mk.inj hrest
      exact .found hstep hselected
    · next hselected => exact .onward hstep (Bool.eq_false_iff.mpr hselected) hrest

theorem Visits.seeks_iff (h : n.Goes course l) (hfuel : l.length < fuel) :
    Seeks course saved n answer last ↔
      (answer, last) = n.sought saved (n.seekSelected? course fuel) := by
  induction fuel generalizing n l with
  | zero => exact absurd hfuel (Nat.not_lt_zero _)
  | succ fuel ih =>
    obtain ⟨hstep, rfl⟩ | ⟨stack, y, rest, hstep, rfl, -, hrest⟩ := h.step?_cases
    · rw [seeks_stop hstep, seekSelected?_stop hstep]
      rfl
    · rw [seeks_go hstep, seekSelected?_go hstep]
      split
      · rfl
      · exact ih hrest (Nat.succ_lt_succ_iff.mp hfuel)

theorem Visits.seeks_gotoSelected?_iff (h : n.Goes course l)
    (hsize : l.length ≤ n.tree.arena.size) : Seeks course saved n answer last ↔
      (answer, last) = n.sought saved (n.gotoSelected? course) :=
  h.seeks_iff (Nat.lt_succ_iff.mpr hsize)

theorem Visits.visits_selected (h : n.Goes course l) (hsize : l.length ≤ n.tree.arena.size) :
    Visits (fun n => n.gotoSelected? course) (n.gotoSelected? course) (l.filter n.selects) := by
  induction hlength : l.length using Nat.strong_induction_on generalizing n l with
  | _ length ih =>
    obtain ⟨hfound, hnone⟩ := h.findsFirst_gotoSelected? hsize
    cases hm : n.gotoSelected? course with
    | none =>
      have hall := hnone.mp hm
      rw [List.filter_eq_nil_iff.mpr fun x hx => by simp [hall x hx]]
      exact .stop
    | some m =>
      obtain ⟨skipped, y, rest, rfl, hskipped, hy, hcurrent, hsteps, hgoes⟩ := hfound m hm
      obtain ⟨stack, hstack, -⟩ := stepMany_moved n course (skipped.length + 1)
      rw [hsteps] at hstack
      obtain rfl : m = n.withStack stack := hstack
      have hbefore : skipped.filter n.selects = [] :=
        List.filter_eq_nil_iff.mpr fun x hx => by simp [hskipped x hx]
      rw [List.filter_append, hbefore, List.filter_cons_of_pos hy, List.nil_append]
      rw [List.length_append, List.length_cons] at hsize hlength
      exact .go hcurrent (ih rest.length (by omega) hgoes (Nat.le_trans (by omega) hsize) rfl)

/-- Wherever a navigator stands, steps come to an end; from outside they go along the
trail. -/
theorem Grounded.exists_goes (h : t.Settled config T) (hn : n.Grounded t) (course : Course) :
    ∃ l, n.Goes course l ∧ (n.currentId? = none → l = course.along n.trail) ∧
      l.length ≤ n.tree.arena.size := by
  have hbound : ∀ {l : List EntryId}, l.Sublist (course.along n.tree.preorder) →
      l.length ≤ n.tree.arena.size := by
    intro l hsub
    refine hsub.length_le.trans ?_
    rw [Course.length_along, hn.1]
    exact h.length_preorder_le
  cases hcurrent : n.currentId? with
  | none =>
    refine ⟨course.along n.trail, goes_trail (hn.1 ▸ h) hcurrent course, fun _ => rfl, ?_⟩
    refine hbound ?_
    rw [trail, ← Course.filter_along]
    exact List.filter_sublist
  | some p =>
    obtain ⟨hs, hr⟩ := hn.standsOn h.sound hcurrent
    obtain ⟨rfl, -⟩ := hn
    have hmem : p ∈ course.along n.tree.preorder :=
      Course.mem_along.mpr (h.sound.mem_preorder.mpr ⟨hs.exists_entry h.sound, hr⟩)
    obtain ⟨before, behind, hsplit⟩ := List.append_of_mem hmem
    obtain ⟨l, hgoes, hsub⟩ := Navigator.exists_goes h hs hr hsplit
    refine ⟨l, hgoes, fun hnone => absurd hnone (Option.some_ne_none p), hbound ?_⟩
    rw [hsplit]
    exact hsub.trans ((List.sublist_cons_self p behind).trans (List.sublist_append_right _ _))

end CategorizedIndex.Navigator
