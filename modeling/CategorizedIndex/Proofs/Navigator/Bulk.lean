import CategorizedIndex.Proofs.Navigator.Screen
import CategorizedIndex.Proofs.Navigator.Walk

/-! # Many steps in one course

Steps in one course never come back to an entry, so from wherever a cursor stands there is
a list of the entries that they go through until no step is possible. On the trail that
list is the rest of the trail. Taking a number of steps, or reading a number of entries,
takes as much from the front of the list.
-/
namespace CategorizedIndex

namespace Course

/-- A list in the order in which a course goes through it. -/
def along {α : Type} (course : Course) (l : List α) : List α :=
  match course with
  | .forward => l
  | .backward => l.reverse

variable {α : Type} {course : Course} {l : List α} {x : α}

theorem mem_along : x ∈ course.along l ↔ x ∈ l := by
  cases course with
  | forward => rfl
  | backward => exact List.mem_reverse

theorem length_along (course : Course) (l : List α) : (course.along l).length = l.length := by
  cases course with
  | forward => rfl
  | backward => exact List.length_reverse

theorem filter_along (course : Course) (l : List α) (p : α → Bool) :
    (course.along l).filter p = course.along (l.filter p) := by
  cases course with
  | forward => rfl
  | backward => exact List.filter_reverse

/-- The other course. -/
def turned : Course → Course
  | .forward => .backward
  | .backward => .forward

theorem getElem?_along_turned {k : Nat} (hk : k < l.length) :
    (course.turned.along l)[k]? = (course.along l)[l.length - 1 - k]? := by
  cases course with
  | forward => exact List.getElem?_reverse hk
  | backward =>
    have hback : l.length - 1 - (l.length - 1 - k) = k := by omega
    rw [turned, along, along, List.getElem?_reverse (by omega), hback]

end Course

theorem Tree.Settled.length_preorder_le {config : Config} {t : Tree} {T : Table}
    (h : t.Settled config T) : t.preorder.length ≤ t.arena.size := by
  have hsub : t.preorder ⊆ t.arena.keys := fun x hx =>
    mem_keys_iff.mpr (h.sound.mem_preorder.mp hx).1
  calc t.preorder.length
    _ ≤ t.arena.keys.length := (List.subperm_of_subset h.nodup_preorder hsub).length_le
    _ = t.arena.size := Std.ExtTreeMap.length_keys

namespace Navigator

variable {config : Config} {T : Table} {n m : Navigator} {p x y : EntryId}
  {course : Course} {l r : List EntryId}

/-- The entries that steps in a course go through until none is possible. -/
abbrev Goes (n : Navigator) (course : Course) (l : List EntryId) : Prop :=
  Visits (fun n => n.step? course) (n.step? course) l

theorem step?_lands (h : n.tree.Settled config T) (hs : StandsOn n.tree n.stack p)
    (hr : p ≠ Tree.root) (hreach : course.along (n.reach p) = l ++ p :: r) :
    n.Lands (n.step? course) r.head? := by
  cases course with
  | forward => exact (steps_from h hs hr hreach).1
  | backward =>
    have hreversed : n.reach p = r.reverse ++ p :: l.reverse := by
      rw [← List.reverse_inj, show (n.reach p).reverse = _ from hreach]
      simp
    have hlands := (steps_from h hs hr hreversed).2
    rw [List.getLast?_reverse] at hlands
    exact hlands

theorem step?_enters (h : n.tree.Sound config) (hcurrent : n.currentId? = none)
    (course : Course) : n.Lands (n.step? course) (course.along n.trail).head? := by
  cases course with
  | forward =>
    have hstep : n.step? .forward = n.gotoFirst? := by rw [step?, gotoNext?, hcurrent]
    rw [hstep]
    exact gotoFirst?_lands h
  | backward =>
    have hstep : n.step? .backward = n.gotoLast? := by rw [step?, gotoPrev?, hcurrent]
    rw [hstep, Course.along, List.head?_reverse]
    exact gotoLast?_lands h

/-- On the trail steps go through the rest of it. -/
theorem Lands.goes (h : n.tree.Settled config T) {o : Option Navigator}
    (ho : n.Lands o r.head?) (htrail : course.along n.trail = l ++ r) :
    Visits (fun n => n.step? course) o r := by
  cases course with
  | forward => exact ho.visits_next h htrail
  | backward =>
    have hreversed : n.trail = r.reverse ++ l.reverse := by
      rw [← List.reverse_inj, show n.trail.reverse = _ from htrail]
      simp
    rw [← List.getLast?_reverse] at ho
    have hvisits := ho.visits_prev h hreversed
    rw [List.reverse_reverse] at hvisits
    exact hvisits

theorem goes_trail (h : n.tree.Settled config T) (hcurrent : n.currentId? = none)
    (course : Course) : n.Goes course (course.along n.trail) :=
  (step?_enters h.sound hcurrent course).goes (l := []) h rfl

theorem goes_on (h : n.tree.Settled config T) (hs : StandsOn n.tree n.stack x)
    (hr : x ≠ Tree.root) (htrail : course.along n.trail = l ++ x :: r) : n.Goes course r := by
  have hmem : x ∈ course.along n.trail := by
    rw [htrail]
    exact List.mem_append_right _ List.mem_cons_self
  obtain ⟨e, hx⟩ := hs.exists_entry h.sound
  have hreach := reach_eq_trail h.sound hx (List.mem_filter.mp (Course.mem_along.mp hmem)).2
  have hlands := step?_lands h hs hr (hreach ▸ htrail)
  refine hlands.goes (l := l ++ [x]) h ?_
  rw [htrail, List.append_assoc, List.singleton_append]

theorem Lands.exists_stack {o : Option Navigator} (ho : n.Lands o (some x)) :
    ∃ stack, o = some (n.withStack stack) ∧ StandsOn n.tree stack x ∧ x ≠ Tree.root := by
  cases ho with
  | arrives hs hr => exact ⟨_, rfl, hs, hr⟩

/-- From any entry steps come to an end, and every one of them leads further on in
depth-first order. -/
theorem exists_goes (h : n.tree.Settled config T) (hs : StandsOn n.tree n.stack p)
    (hr : p ≠ Tree.root) (hsplit : course.along n.tree.preorder = l ++ p :: r) :
    ∃ s, n.Goes course s ∧ s.Sublist r := by
  induction hlength : r.length using Nat.strong_induction_on generalizing n p l r with
  | _ length ih =>
    obtain ⟨pe, hp⟩ := hs.exists_entry h.sound
    have hself := inReach_of_mem_line h.sound hp Skeleton.self_mem_line
    have hreach : course.along (n.reach p) =
        l.filter (n.inReach p) ++ p :: r.filter (n.inReach p) := by
      rw [reach, ← Course.filter_along, hsplit, List.filter_append, List.filter_cons_of_pos hself]
    have hlands := step?_lands h hs hr hreach
    rw [List.head?_filter] at hlands
    cases hfind : r.find? (n.inReach p) with
    | none =>
      have hnone := hlands.eq_none_iff.mpr hfind
      exact ⟨[], by rw [Goes, hnone]; exact .stop, List.nil_sublist r⟩
    | some q =>
      rw [hfind] at hlands
      obtain ⟨stack, hstep, hq, hqr⟩ := hlands.exists_stack
      obtain ⟨skipped, rest, rfl⟩ := List.append_of_mem (List.mem_of_find?_eq_some hfind)
      -- the step passes over entries, so fewer are left behind the one it leads to
      have hless : rest.length < length := by
        rw [← hlength, List.length_append, List.length_cons]
        omega
      obtain ⟨s, hgoes, hsub⟩ := ih rest.length hless (n := n.withStack stack)
        (l := l ++ p :: skipped) h hq hqr (by rw [List.append_assoc]; exact hsplit) rfl
      refine ⟨q :: s, ?_, (hsub.cons_cons q).trans (List.sublist_append_right _ _)⟩
      rw [Goes, hstep]
      exact .go (hq.currentId?_eq.trans (if_neg (hq.ne_nil hqr))) hgoes

theorem exists_stack_of_step? (hm : n.step? course = some m) :
    ∃ stack, m = n.withStack stack := by
  obtain ⟨stack, rfl, -⟩ := step?_moved hm
  exact ⟨stack, rfl⟩

theorem getLast?_toList (o : Option EntryId) : o.toList.getLast? = o := by
  cases o <;> rfl

theorem getLast?_append_cons (l r : List EntryId) (x : EntryId) :
    (l ++ x :: r).getLast? = (x :: r).getLast? := by
  rw [List.getLast?_append, List.getLast?_cons, Option.some_or]

theorem stepMany_stop (hstep : n.step? course = none) (count : Nat) :
    n.stepMany course count = (0, n) := by
  cases count with
  | zero => rfl
  | succ count => rw [stepMany, hstep]

theorem stepMany_go (hstep : n.step? course = some m) (count : Nat) :
    n.stepMany course (count + 1) =
      ((m.stepMany course count).1 + 1, (m.stepMany course count).2) := by
  rw [stepMany, hstep]

theorem readFrom_stop (hstep : n.step? course = none) (count : Nat) :
    n.readFrom course (count + 1) = (n.currentId?.toList, n) := by
  rw [readFrom, hstep]
  exact ite_self _

theorem readFrom_go (hstep : n.step? course = some m) (count : Nat) :
    n.readFrom course (count + 2) =
      (n.currentId?.toList ++ (m.readFrom course (count + 1)).1,
        (m.readFrom course (count + 1)).2) := by
  rw [readFrom, if_neg (Nat.succ_ne_zero count), hstep]

namespace Visits

theorem step?_cases (h : n.Goes course l) : (n.step? course = none ∧ l = []) ∨
    ∃ stack y rest, n.step? course = some (n.withStack stack) ∧ l = y :: rest ∧
      (n.withStack stack).currentId? = some y ∧ (n.withStack stack).Goes course rest := by
  cases hstep : n.step? course with
  | none =>
    rw [Goes, hstep] at h
    cases h
    exact Or.inl ⟨rfl, rfl⟩
  | some m =>
    obtain ⟨stack, rfl⟩ := exists_stack_of_step? hstep
    rw [Goes, hstep] at h
    cases h with
    | go hcurrent hrest => exact Or.inr ⟨stack, _, _, rfl, rfl, hcurrent, hrest⟩

variable (h : n.Goes course l) (count : Nat)

include h

/-- As many steps are taken as were asked for or are possible. -/
theorem stepMany_eq : (n.stepMany course count).1 = min count l.length ∧
    (n.stepMany course count).2.currentId? =
      (n.currentId?.toList ++ l.take count).getLast? := by
  induction count generalizing n l with
  | zero =>
    rw [stepMany, List.take_zero, List.append_nil, getLast?_toList, Nat.zero_min]
    exact ⟨rfl, rfl⟩
  | succ count ih =>
    obtain ⟨hstep, rfl⟩ | ⟨stack, y, rest, hstep, rfl, hcurrent, hrest⟩ := step?_cases h
    · rw [stepMany_stop hstep, List.take_nil, List.append_nil, getLast?_toList, List.length_nil,
        Nat.min_zero]
      exact ⟨rfl, rfl⟩
    · obtain ⟨htaken, hend⟩ := ih hrest
      rw [hcurrent, Option.toList_some, List.singleton_append] at hend
      rw [stepMany_go hstep, List.take_succ_cons, getLast?_append_cons, ← hend, List.length_cons,
        Nat.succ_min_succ, ← htaken]
      exact ⟨rfl, rfl⟩

theorem readFrom_eq : (n.readFrom course (count + 1)).1 = n.currentId?.toList ++ l.take count ∧
    (n.readFrom course (count + 1)).2.currentId? =
      (n.currentId?.toList ++ l.take count).getLast? := by
  induction count generalizing n l with
  | zero =>
    rw [List.take_zero, List.append_nil, getLast?_toList, readFrom]
    exact ⟨rfl, rfl⟩
  | succ count ih =>
    obtain ⟨hstep, rfl⟩ | ⟨stack, y, rest, hstep, rfl, hcurrent, hrest⟩ := step?_cases h
    · rw [readFrom_stop hstep, List.take_nil, List.append_nil, getLast?_toList]
      exact ⟨rfl, rfl⟩
    · obtain ⟨hread, hend⟩ := ih hrest
      rw [hcurrent, Option.toList_some, List.singleton_append] at hread hend
      rw [readFrom_go hstep, List.take_succ_cons, getLast?_append_cons, ← hend, ← hread]
      exact ⟨rfl, rfl⟩

end Visits

/-! ## Along the trail -/

theorem getLast?_take_drop {k : Nat} (hk : k < l.length) (count : Nat) :
    ((l.drop k).take (count + 1)).getLast? = l[k + min count (l.length - 1 - k)]? := by
  have hlength : ((l.drop k).take (count + 1)).length - 1 = min count (l.length - 1 - k) := by
    rw [List.length_take, List.length_drop]
    omega
  rw [List.getLast?_eq_getElem?, hlength, List.getElem?_take_of_lt (by omega), List.getElem?_drop]

theorem drop_eq_cons {k : Nat} (hk : l[k]? = some x) : l.drop k = x :: l.drop (k + 1) := by
  obtain ⟨hlt, rfl⟩ := List.getElem?_eq_some_iff.mp hk
  exact List.drop_eq_getElem_cons hlt

section Trail

variable {t : Tree} {k : Nat} (h : t.Settled config T) (hn : n.Grounded t) (course : Course)
  (hk : (course.along n.trail)[k]? = some x) (hcurrent : n.currentId? = some x)

include h hn hk hcurrent

theorem Grounded.goes_drop :
    n.Goes course ((course.along n.trail).drop (k + 1)) := by
  obtain ⟨hs, hr⟩ := hn.standsOn h.sound hcurrent
  obtain ⟨rfl, -⟩ := hn
  refine goes_on (l := (course.along n.trail).take k) h hs hr ?_
  rw [← drop_eq_cons hk, List.take_append_drop]

theorem Grounded.stepMany_eq (count : Nat) :
    (n.stepMany course count).1 = min count (n.trail.length - 1 - k) ∧
      (n.stepMany course count).2.currentId? =
        (course.along n.trail)[k + (n.stepMany course count).1]? := by
  have hlt := (List.getElem?_eq_some_iff.mp hk).1
  obtain ⟨htaken, hend⟩ := (hn.goes_drop h course hk hcurrent).stepMany_eq count
  have hlength : min count ((course.along n.trail).drop (k + 1)).length =
      min count (n.trail.length - 1 - k) := by
    rw [List.length_drop, Course.length_along]
    omega
  refine ⟨htaken.trans hlength, ?_⟩
  rw [hend, htaken, hlength, hcurrent, Option.toList_some, List.singleton_append,
    ← List.take_succ_cons, ← drop_eq_cons hk, getLast?_take_drop hlt, Course.length_along]

theorem Grounded.stepMany_turned (count : Nat) :
    let (taken, m) := n.stepMany course count
    (m.stepMany course.turned taken).1 = taken ∧
      (m.stepMany course.turned taken).2.currentId? = some x := by
  have hlt : k < n.trail.length := by
    rw [← Course.length_along course]
    exact (List.getElem?_eq_some_iff.mp hk).1
  obtain ⟨htaken, hend⟩ := hn.stepMany_eq h course hk hcurrent count
  have hm := hn.stepMany h.sound course count
  have htrail : (n.stepMany course count).2.trail = n.trail := by
    obtain ⟨stack, hstack, -⟩ := stepMany_moved n course count
    rw [hstack]
    rfl
  generalize n.stepMany course count = result at htaken hend hm htrail ⊢
  obtain ⟨taken, m⟩ := result
  simp only at htaken hend hm htrail ⊢
  have hbound : k + taken < n.trail.length := by omega
  obtain ⟨z, hz⟩ : ∃ z, (course.along n.trail)[k + taken]? = some z :=
    ⟨_, List.getElem?_eq_getElem (by rw [Course.length_along]; exact hbound)⟩
  have hplace : (course.turned.along m.trail)[n.trail.length - 1 - (k + taken)]? = some z := by
    rw [htrail, Course.getElem?_along_turned (by omega), ← hz]
    congr 1
    omega
  obtain ⟨hback, hreturn⟩ := hm.stepMany_eq h course.turned hplace (hend.trans hz) taken
  have hall : min taken (m.trail.length - 1 - (n.trail.length - 1 - (k + taken))) = taken := by
    rw [htrail]
    omega
  rw [hall] at hback
  refine ⟨hback, ?_⟩
  rw [hreturn, hback, htrail, Course.getElem?_along_turned (by omega), ← hk]
  congr 1
  omega

end Trail

/-- Reading gives the entries of the trail from the current one on, or from the first. -/
theorem Grounded.readIds_eq {t : Tree} (h : t.Settled config T) (hn : n.Grounded t) {k : Nat}
    (hplace : n.currentId? = none ∧ k = 0 ∨ ∃ y, n.currentId? = some y ∧ n.trail[k]? = some y)
    {count : Nat} (hcount : 1 ≤ count) :
    (n.readIds count).1 = (n.trail.drop k).take count ∧
      (n.readIds count).2.currentId? = ((n.trail.drop k).take count).getLast? := by
  obtain ⟨count, rfl⟩ := Nat.exists_eq_succ_of_ne_zero (Nat.ne_zero_of_lt hcount)
  rw [Navigator.readIds, if_neg (Nat.succ_ne_zero count)]
  rcases hplace with ⟨hnone, rfl⟩ | ⟨y, hcurrent, hk⟩
  · rw [hnone, Option.isSome_none, if_neg Bool.false_ne_true, List.drop_zero]
    have hstep : n.step? .forward = n.gotoFirst? := by
      rw [Navigator.step?, Navigator.gotoNext?, hnone]
    have hgoes := goes_trail (hn.1 ▸ h) hnone .forward
    rw [Goes, hstep, Course.along] at hgoes
    generalize n.gotoFirst? = first, n.trail = trail at hgoes ⊢
    cases hgoes with
    | stop => exact ⟨rfl, hnone⟩
    | @go m y rest hcurrent hrest =>
      obtain ⟨hread, hend⟩ := Visits.readFrom_eq (n := m) hrest count
      rw [hcurrent] at hread hend
      exact ⟨hread, hend⟩
  · obtain ⟨hread, hend⟩ := (hn.goes_drop h .forward hk hcurrent).readFrom_eq count
    rw [hcurrent, Option.isSome_some, if_pos rfl, drop_eq_cons hk, List.take_succ_cons]
    rw [hcurrent] at hread hend
    exact ⟨hread, hend⟩

end Navigator

end CategorizedIndex
