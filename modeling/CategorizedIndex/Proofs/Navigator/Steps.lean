import CategorizedIndex.Proofs.Navigator.Reach
import CategorizedIndex.Proofs.Navigator.Standing
import Mathlib.Data.List.Basic

/-! # Steps through what is in reach

A stack of cursors that stands on an entry, or above it, parts what is in reach from the
entry in two: what the stack has come through, up to the entry it stands on, and what lies
ahead, inside the entry and behind the cursors. A step forward leads to the first entry
ahead, a step backward to the last entry before the current one, and there is no step
where nothing is left.
-/
namespace CategorizedIndex.Navigator

variable {config : Config} {n : Navigator} {p x : EntryId} {e pe : Entry}
  {level : LevelCursor} {stack above : List LevelCursor} {child : SortKey × EntryId}
  {l rest : List (SortKey × EntryId)}

def stretches (n : Navigator) (p : EntryId) (l : List (SortKey × EntryId)) : List EntryId :=
  l.flatMap fun child => n.stretch p child.2

/-- What is in reach up to the entry that a stack stands on. -/
def passed (n : Navigator) (p : EntryId) : List LevelCursor → List EntryId
  | [] => []
  | level :: above =>
    n.passed p above ++
      (n.stretches p (level.beyond .backward).reverse ++ level.currentId?.toList)

def following (n : Navigator) (p : EntryId) : List LevelCursor → List EntryId
  | [] => []
  | level :: above => n.stretches p (level.beyond .forward) ++ n.following p above

theorem stretches_append (n : Navigator) (p : EntryId) (l m : List (SortKey × EntryId)) :
    n.stretches p (l ++ m) = n.stretches p l ++ n.stretches p m := List.flatMap_append

theorem stretches_cons (n : Navigator) (p : EntryId) (child : SortKey × EntryId)
    (l : List (SortKey × EntryId)) :
    n.stretches p (child :: l) = n.stretch p child.2 ++ n.stretches p l := List.flatMap_cons

theorem inside_eq_stretches (h : n.tree.Sound config) (hx : n.tree.get? x = some e) :
    n.inside p x = n.stretches p e.children.toList := by
  rw [inside_eq h hx, Siblings.ids, List.flatMap_map]
  rfl

def Offered (n : Navigator) (p : EntryId) (l : List (SortKey × EntryId)) : Prop :=
  ∃ q e, n.tree.get? q = some e ∧
    (∀ c ∈ l, c ∈ e.children.toList ∧ c.2 ∉ n.tree.skeleton.line p) ∧
    n.inReach p q = true ∧ ((q ∈ n.tree.skeleton.line p ∧ q ≠ p) ∨ n.isOpen q = true)

/-- A move ends on an entry below the root, or there is none. -/
inductive Lands (n : Navigator) : Option Navigator → Option EntryId → Prop
  | arrives {stack : List LevelCursor} {x : EntryId} (hs : StandsOn n.tree stack x)
      (hr : x ≠ Tree.root) : Lands n (some (n.withStack stack)) (some x)
  | ends : Lands n none none

/-- Where the first move is impossible, the second decides. -/
theorem Lands.or {o o' : Option (List LevelCursor)} {a b : List EntryId}
    (ha : n.Lands (o.map n.withStack) a.head?) (hb : n.Lands (o'.map n.withStack) b.head?) :
    n.Lands ((o.or o').map n.withStack) (a ++ b).head? := by
  cases a with
  | nil =>
    cases o with
    | none => exact hb
    | some stack => cases ha
  | cons y rest =>
    cases o with
    | none => cases ha
    | some stack => exact ha

theorem gotoNext?_eq (hcurrent : n.currentId? = some x) : n.gotoNext? =
    ((if n.isOpen x = true then n.enter? n.stack x .forward else none).or
      (n.climbForward? n.stack)).map n.withStack := by
  rw [gotoNext?, hcurrent]
  simp only
  cases (if n.isOpen x = true then n.enter? n.stack x .forward else none) with
  | some deeper => rfl
  | none => rfl

section Viewpoint

variable (h : n.tree.Sound config) (hp : n.tree.get? p = some pe)

include h hp

theorem offered_line (hx : n.tree.get? x = some e) (hreach : n.inReach p x = true)
    (hout : ¬(x ∈ n.tree.skeleton.line p ∧ x ≠ p)) (hopen : n.isOpen x = true)
    (course : Course) : n.Offered p (course.line e.children.toList) := by
  refine ⟨x, e, hx, fun c hc => ?_, hreach, Or.inr hopen⟩
  have hmem := Course.mem_line.mp hc
  obtain ⟨d, hd, hparent⟩ := (h.mem_ids hx).mp (mem_ids_of_mem hmem)
  refine ⟨hmem, fun hway => hout ?_⟩
  exact h.formed.mem_line_of_parent (Tree.skeleton_eq_some hp) hway (Tree.skeleton_eq_some hd)
    hparent

theorem offered_beyond (hs : StandsOn n.tree (level :: above) x)
    (hway : x ∈ n.tree.skeleton.line p) (course : Course) : n.Offered p (level.beyond course) := by
  obtain ⟨q, qe, e, hqe, hx, hq, hsiblings⟩ := hs.exists_siblings h course
  have hpc := Tree.skeleton_eq_some hp
  have hxc := Tree.skeleton_eq_some hx
  obtain ⟨hqway, hqp⟩ := h.formed.mem_line_of_parent hpc hway hxc hq
  refine ⟨q, qe, hqe, fun c hc => ?_, inReach_of_mem_line h hp hqway, Or.inl ⟨hqway, hqp⟩⟩
  obtain ⟨hmem, hcx⟩ := hsiblings c hc
  obtain ⟨d, hd, hdq⟩ := (h.mem_ids hqe).mp (mem_ids_of_mem hmem)
  exact ⟨hmem, fun hcway => hcx (h.formed.eq_of_mem_line hpc hcway hway
    (Tree.skeleton_eq_some hd) hxc (hdq.trans hq.symm))⟩

namespace Offered

theorem inReach (ho : n.Offered p l) (hc : child ∈ l) (hvisible : n.isVisible child.2 = true) :
    n.inReach p child.2 = true := by
  obtain ⟨q, e, hq, hsub, hreach, hentered⟩ := ho
  obtain ⟨d, hd, hdq⟩ := (h.mem_ids hq).mp (mem_ids_of_mem (hsub child hc).1)
  exact (inReach_child h hp hd hdq).mpr ⟨Or.inr hvisible, hreach, hentered⟩

theorem stretches_eq_nil (ho : n.Offered p l) (hhidden : ∀ c ∈ l, n.isVisible c.2 = false) :
    n.stretches p l = [] := by
  obtain ⟨q, e, hq, hsub, -, -⟩ := ho
  refine List.flatMap_eq_nil_iff.mpr fun c hc => ?_
  obtain ⟨hmem, hout⟩ := hsub c hc
  exact stretch_eq_nil_of_hidden h hp hq (mem_ids_of_mem hmem) hout (hhidden c hc)

omit h hp in
theorem of_subset {m : List (SortKey × EntryId)} (ho : n.Offered p l) (hm : m ⊆ l) :
    n.Offered p m := by
  obtain ⟨q, e, hq, hsub, hentered⟩ := ho
  exact ⟨q, e, hq, fun c hc => hsub c (hm hc), hentered⟩

omit h hp in
theorem reverse (ho : n.Offered p l) : n.Offered p l.reverse :=
  ho.of_subset (List.reverse_subset.mpr (List.Subset.refl l))

/-- The nearest visible child is in reach, and nothing in reach is nearer. -/
theorem nearest (ho : n.Offered p l) (hnearest : LevelCursor.Nearest n.isVisible l child rest) :
    n.inReach p child.2 = true ∧ child.2 ∉ n.tree.skeleton.line p ∧
      n.stretches p l = child.2 :: (n.inside p child.2 ++ n.stretches p rest) ∧
      n.stretches p l.reverse = n.stretches p rest.reverse ++ n.stretch p child.2 := by
  have hmem := hnearest.mem
  obtain ⟨skipped, rfl, hskipped, hvisible⟩ := hnearest
  have hreach := ho.inReach h hp hmem hvisible
  have hbefore := ho.of_subset (List.subset_append_left _ _)
  have hnil := hbefore.stretches_eq_nil h hp hskipped
  have hnil' := hbefore.reverse.stretches_eq_nil h hp fun c hc =>
    hskipped c (List.mem_reverse.mp hc)
  obtain ⟨q, e, -, hsub, -, -⟩ := ho
  refine ⟨hreach, (hsub child hmem).2, ?_, ?_⟩
  · rw [stretches_append, hnil, stretches_cons, stretch_eq hreach]
    rfl
  · rw [List.reverse_append, List.reverse_cons, stretches_append, stretches_append, hnil',
      List.append_nil, stretches_cons]
    exact congrArg _ (List.append_nil _)

end Offered

/-- What is in reach is what a stack has come through, what is inside its entry, and what
follows. -/
theorem reach_eq_append (hs : StandsOn n.tree stack x) (hway : x ∈ n.tree.skeleton.line p) :
    n.reach p = n.passed p stack ++ (n.inside p x ++ n.following p stack) := by
  induction stack generalizing x with
  | nil =>
    cases hs
    rw [reach_eq, passed, following, List.append_nil, List.nil_append]
  | cons level above ih =>
    obtain ⟨q, qe, e, k, habove, hqe, hsiblings, hrests, hx, hq⟩ := hs.exists_parent h
    obtain ⟨hqway, -⟩ := h.formed.mem_line_of_parent (Tree.skeleton_eq_some hp) hway
      (Tree.skeleton_eq_some hx) hq
    have hchildren := hrests.siblings_eq (hsiblings ▸ h.sorted hqe)
    rw [hsiblings] at hchildren
    have hcurrent : level.currentId? = some x := by
      rw [LevelCursor.currentId?, hrests.current, Option.map_some]
    rw [ih habove hqway, inside_eq_stretches h hqe, hchildren, stretches_append, stretches_cons,
      stretch_eq (inReach_of_mem_line h hp hway), passed, following, hcurrent]
    simp only [Option.toList_some, List.append_assoc, List.cons_append, List.nil_append]

theorem enter?_lands (hs : StandsOn n.tree stack x) (hreach : n.inReach p x = true)
    (hout : ¬(x ∈ n.tree.skeleton.line p ∧ x ≠ p)) (hopen : n.isOpen x = true) :
    n.Lands ((n.enter? stack x .forward).map n.withStack) (n.inside p x).head? := by
  obtain ⟨e, hx⟩ := hs.exists_entry h
  have ho := offered_line h hp hx hreach hout hopen .forward
  rw [inside_eq_stretches h hx]
  rcases enter?_spec h hs hx .forward with ⟨child, rest, deeper, henter, hnearest, hdeeper⟩ |
    ⟨hnone, hhidden⟩
  · obtain ⟨-, -, hstretches, -⟩ := ho.nearest h hp hnearest
    rw [henter, show n.stretches p e.children.toList = _ from hstretches]
    exact .arrives hdeeper (hdeeper.ne_root h)
  · rw [hnone, show n.stretches p e.children.toList = [] from ho.stretches_eq_nil h hp hhidden]
    exact .ends

theorem climbForward?_lands (hs : StandsOn n.tree stack x) (hway : x ∈ n.tree.skeleton.line p) :
    n.Lands ((n.climbForward? stack).map n.withStack) (n.following p stack).head? := by
  induction stack generalizing x with
  | nil => exact .ends
  | cons level above ih =>
    have ho := offered_beyond h hp hs hway .forward
    rw [climbForward?, following]
    rcases advance_spec h hs .forward with ⟨child, rest, moved, hmoved, hnearest, hstands⟩ |
      ⟨hfail, hhidden⟩
    · obtain ⟨-, -, hstretches, -⟩ := ho.nearest h hp hnearest
      rw [hmoved, hstretches]
      exact .arrives hstands (hstands.ne_root h)
    · obtain ⟨q, -, e, -, habove, -, -, -, hx, hq⟩ := hs.exists_parent h
      rw [hfail, ho.stretches_eq_nil h hp hhidden]
      exact ih habove (h.formed.mem_line_of_parent (Tree.skeleton_eq_some hp) hway
        (Tree.skeleton_eq_some hx) hq).1

theorem gotoNext?_lands (hs : StandsOn n.tree n.stack p) (hr : p ≠ Tree.root) :
    n.Lands n.gotoNext? (n.inside p p ++ n.following p n.stack).head? := by
  have hcurrent : n.currentId? = some p := hs.currentId?_eq.trans (if_neg (hs.ne_nil hr))
  have hself : p ∈ n.tree.skeleton.line p := Skeleton.self_mem_line
  have hout : ¬(p ∈ n.tree.skeleton.line p ∧ p ≠ p) := fun hne => hne.2 rfl
  have hinto : n.Lands ((if n.isOpen p = true then n.enter? n.stack p .forward else none).map
      n.withStack) (n.inside p p).head? := by
    cases hopen : n.isOpen p with
    | true => exact enter?_lands h hp hs (inReach_of_mem_line h hp hself) hout hopen
    | false =>
      rw [inside_eq_nil h hp hp hout hopen]
      exact .ends
  rw [gotoNext?_eq hcurrent]
  exact hinto.or (climbForward?_lands h hp hs hself)

end Viewpoint

end CategorizedIndex.Navigator
