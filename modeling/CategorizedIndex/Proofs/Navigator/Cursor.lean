import CategorizedIndex.Navigator.Cursor
import CategorizedIndex.Proofs.Siblings

/-! # Moving among siblings

A cursor that rests on a child has the siblings before it on one side and those behind it
on the other, whether what lies ahead is kept from the last move or looked up again. A move
skips the siblings that are not accepted and stops at the first that is.
-/
namespace CategorizedIndex

namespace Siblings

variable {s : Siblings} {before behind : List (SortKey × EntryId)} {child : SortKey × EntryId}

theorem Sorted.after_eq (hs : s.Sorted) (h : s.toList = before ++ child :: behind) :
    s.after child.1 = behind := by
  rw [Sorted, h, List.pairwise_append, List.pairwise_cons] at hs
  obtain ⟨-, ⟨hbehind, -⟩, hbefore⟩ := hs
  have hnone : before.filter (fun x => child.1.cmp x.1 == .lt) = [] := by
    refine List.filter_eq_nil_iff.mpr fun x hx => ?_
    rw [SortKey.cmp_swap, hbefore x hx child List.mem_cons_self]
    decide
  have hall : behind.filter (fun x => child.1.cmp x.1 == .lt) = behind := by
    refine List.filter_eq_self.mpr fun x hx => ?_
    rw [hbehind x hx]
    rfl
  rw [after, h, List.filter_append, List.filter_cons, hnone, hall, SortKey.cmp_self]
  rfl

theorem Sorted.before_eq (hs : s.Sorted) (h : s.toList = before ++ child :: behind) :
    s.before child.1 = before := by
  rw [Sorted, h, List.pairwise_append, List.pairwise_cons] at hs
  obtain ⟨-, ⟨hbehind, -⟩, hbefore⟩ := hs
  have hall : before.filter (fun x => x.1.cmp child.1 == .lt) = before := by
    refine List.filter_eq_self.mpr fun x hx => ?_
    rw [hbefore x hx child List.mem_cons_self]
    rfl
  have hnone : behind.filter (fun x => x.1.cmp child.1 == .lt) = [] := by
    refine List.filter_eq_nil_iff.mpr fun x hx => ?_
    rw [SortKey.cmp_swap, hbehind x hx]
    decide
  rw [Siblings.before, h, List.filter_append, List.filter_cons, hnone, hall, SortKey.cmp_self]
  exact List.append_nil before

end Siblings

/-- The siblings in the order in which a course meets them. -/
def Course.line (course : Course) (l : List (SortKey × EntryId)) : List (SortKey × EntryId) :=
  match course with
  | .forward => l
  | .backward => l.reverse

theorem Course.mem_line {course : Course} {l : List (SortKey × EntryId)}
    {child : SortKey × EntryId} : child ∈ course.line l ↔ child ∈ l := by
  cases course with
  | forward => rfl
  | backward => exact List.mem_reverse

namespace LevelCursor

variable {c : LevelCursor} {child : SortKey × EntryId} {course : Course}
  {passed rest : List (SortKey × EntryId)}

/-- The cursor stands on a child, and what it keeps lies beyond this child. -/
structure Rests (c : LevelCursor) (child : SortKey × EntryId) : Prop where
  current : c.current = some child
  mem : child ∈ c.siblings.toList
  remaining : ∀ course, c.remaining course = c.beyond course

theorem remaining_outside (parent : EntryId) (siblings : Siblings) (course : Course) :
    (outside parent siblings).remaining course = course.line siblings.toList := by
  cases course <;> rfl

theorem beyond_eq (hs : c.siblings.Sorted) (hc : c.current = some child)
    (h : course.line c.siblings.toList = passed ++ child :: rest) : c.beyond course = rest := by
  cases course with
  | forward =>
    rw [beyond, hc]
    exact hs.after_eq h
  | backward =>
    have hlist : c.siblings.toList = rest.reverse ++ child :: passed.reverse := by
      rw [← List.reverse_reverse c.siblings.toList,
        show c.siblings.toList.reverse = passed ++ child :: rest from h]
      simp
    rw [beyond, hc]
    simp only
    rw [hs.before_eq hlist, List.reverse_reverse]

theorem rests_resting (parent : EntryId) {siblings : Siblings} (h : child ∈ siblings.toList) :
    (resting parent siblings child).Rests child := ⟨rfl, h, fun _ => rfl⟩

theorem rests_of_ahead (hs : c.siblings.Sorted) (hc : c.current = some child)
    (hahead : c.ahead = some (course, rest))
    (hline : course.line c.siblings.toList = passed ++ child :: rest) : c.Rests child := by
  refine ⟨hc, ?_, fun other => ?_⟩
  · have hmem : child ∈ course.line c.siblings.toList := by
      rw [hline]
      exact List.mem_append_right _ List.mem_cons_self
    exact Course.mem_line.mp hmem
  · rw [remaining, hahead]
    by_cases hcourse : course = other
    · subst hcourse
      rw [beyond_eq hs hc hline]
      exact if_pos rfl
    · exact if_neg hcourse

theorem Rests.siblings_eq (h : c.Rests child) (hs : c.siblings.Sorted) :
    c.siblings.toList = (c.beyond .backward).reverse ++ child :: c.beyond .forward := by
  obtain ⟨before, behind, hsplit⟩ := List.append_of_mem h.mem
  have hback : Course.backward.line c.siblings.toList =
      behind.reverse ++ child :: before.reverse := by
    rw [Course.line, hsplit]
    simp
  have hforward : c.beyond .forward = behind := beyond_eq hs h.current hsplit
  rw [hforward, beyond_eq hs h.current hback, List.reverse_reverse, hsplit]

theorem Rests.line_eq (h : c.Rests child) (hs : c.siblings.Sorted) (course : Course) :
    ∃ passed, course.line c.siblings.toList = passed ++ c.remaining course := by
  rw [h.remaining]
  cases course with
  | forward =>
    refine ⟨(c.beyond .backward).reverse ++ [child], ?_⟩
    rw [Course.line, List.append_assoc]
    exact h.siblings_eq hs
  | backward =>
    refine ⟨(c.beyond .forward).reverse ++ [child], ?_⟩
    have hlist := congrArg List.reverse (h.siblings_eq hs)
    rw [List.reverse_append, List.reverse_cons, List.reverse_reverse] at hlist
    exact hlist

def Nearest (accept : EntryId → Bool) (l : List (SortKey × EntryId)) (child : SortKey × EntryId)
    (rest : List (SortKey × EntryId)) : Prop :=
  ∃ skipped, l = skipped ++ child :: rest ∧ (∀ x ∈ skipped, accept x.2 = false) ∧
    accept child.2 = true

theorem Nearest.mem {accept : EntryId → Bool} {l : List (SortKey × EntryId)}
    (h : Nearest accept l child rest) : child ∈ l := by
  obtain ⟨skipped, rfl, -⟩ := h
  exact List.mem_append_right _ List.mem_cons_self

/-- A move finds the nearest accepted sibling ahead, or there is none. -/
theorem advance_spec (accept : EntryId → Bool) (hs : c.siblings.Sorted)
    (hline : course.line c.siblings.toList = passed ++ c.remaining course) :
    (∃ child rest moved, c.advance course accept = (true, moved) ∧
      Nearest accept (c.remaining course) child rest ∧ moved.siblings = c.siblings ∧
      moved.Rests child) ∨
    (c.advance course accept = (false, { c with ahead := none }) ∧
      ∀ x ∈ c.remaining course, accept x.2 = false) := by
  have hsplit := List.takeWhile_append_dropWhile (p := fun x : SortKey × EntryId => !accept x.2)
    (l := c.remaining course)
  have hskipped : ∀ x ∈ (c.remaining course).takeWhile fun x => !accept x.2,
      accept x.2 = false := by
    intro x hx
    simpa using List.all_eq_true.mp List.all_takeWhile x hx
  cases hdrop : (c.remaining course).dropWhile fun x => !accept x.2 with
  | nil =>
    rw [hdrop, List.append_nil] at hsplit
    refine Or.inr ⟨?_, fun x hx => hskipped x (hsplit.symm ▸ hx)⟩
    rw [advance, hdrop]
  | cons child rest =>
    rw [hdrop] at hsplit
    have haccept : accept child.2 = true := by
      have hhead := List.head?_dropWhile_not (fun x => !accept x.2) (c.remaining course)
      rw [hdrop] at hhead
      simpa using hhead
    have hmet := hline
    rw [← hsplit, ← List.append_assoc] at hmet
    refine Or.inl ⟨child, rest, { c with current := some child, ahead := some (course, rest) },
      ?_, ⟨_, hsplit.symm, hskipped, haccept⟩, rfl, rests_of_ahead hs rfl rfl hmet⟩
    rw [advance, hdrop]

end LevelCursor

end CategorizedIndex
