import CategorizedIndex.Proofs.Navigator.Cursor
import CategorizedIndex.Proofs.Navigator.Trail

/-! # Where a stack of cursors stands

A stack stands on an entry if its cursors rest on the way from the top level down to the
entry, each among the children of the one above; the empty stack stands on the root. From
there a cursor goes to a sibling, or a new one to a child.
-/
namespace CategorizedIndex.Navigator

variable {config : Config} {t : Tree} {n : Navigator} {id p x : EntryId} {e : Entry}
  {level : LevelCursor} {stack above : List LevelCursor} {child : SortKey × EntryId}

inductive StandsOn (t : Tree) : List LevelCursor → EntryId → Prop
  | root : StandsOn t [] Tree.root
  | level {level : LevelCursor} {above : List LevelCursor} {p : EntryId}
      {child : SortKey × EntryId} (habove : StandsOn t above p)
      (hsiblings : level.siblings = t.childrenOf p) (hrests : level.Rests child) :
      StandsOn t (level :: above) child.2

theorem exists_of_mem_childrenOf (hchild : child ∈ (t.childrenOf p).toList) :
    ∃ e, t.get? p = some e ∧ child ∈ e.children.toList := by
  cases hp : t.get? p with
  | none =>
    rw [Tree.childrenOf, hp] at hchild
    exact absurd hchild List.not_mem_nil
  | some e =>
    rw [Tree.Sound.childrenOf_eq hp] at hchild
    exact ⟨e, rfl, hchild⟩

theorem mem_ids_of_mem (hchild : child ∈ e.children.toList) : child.2 ∈ e.children.ids :=
  List.mem_map_of_mem hchild

namespace StandsOn

theorem exists_entry (hs : StandsOn t stack x) (h : t.Sound config) :
    ∃ e, t.get? x = some e := by
  cases hs with
  | root =>
    obtain ⟨e, he, -⟩ := Tree.exists_root h.formed
    exact ⟨e, he⟩
  | level habove hsiblings hrests =>
    have hmem := hrests.mem
    rw [hsiblings] at hmem
    obtain ⟨pe, hpe, hchild⟩ := exists_of_mem_childrenOf hmem
    obtain ⟨d, hd, -⟩ := (h.mem_ids hpe).mp (mem_ids_of_mem hchild)
    exact ⟨d, hd⟩

/-- A cursor above others rests on a child of the entry they stand on. -/
theorem exists_parent (hs : StandsOn t (level :: above) x) (h : t.Sound config) :
    ∃ p pe e k, StandsOn t above p ∧ t.get? p = some pe ∧ level.siblings = pe.children ∧
      level.Rests (k, x) ∧ t.get? x = some e ∧ e.parent = some p := by
  cases hs with
  | @level _ _ p child habove hsiblings hrests =>
    have hmem := hrests.mem
    rw [hsiblings] at hmem
    obtain ⟨pe, hpe, hchild⟩ := exists_of_mem_childrenOf hmem
    obtain ⟨d, hd, hp⟩ := (h.mem_ids hpe).mp (mem_ids_of_mem hchild)
    exact ⟨p, pe, d, child.1, habove, hpe, hsiblings.trans (Tree.Sound.childrenOf_eq hpe), hrests, hd, hp⟩

theorem exists_siblings (hs : StandsOn t (level :: above) x) (h : t.Sound config)
    (course : Course) :
    ∃ p pe e, t.get? p = some pe ∧ t.get? x = some e ∧ e.parent = some p ∧
      ∀ c ∈ level.beyond course, c ∈ pe.children.toList ∧ c.2 ≠ x := by
  obtain ⟨p, pe, e, k, -, hpe, hsiblings, hrests, hx, hp⟩ := hs.exists_parent h
  refine ⟨p, pe, e, hpe, hx, hp, fun c hc => ?_⟩
  have hchildren := hrests.siblings_eq (hsiblings ▸ h.sorted hpe)
  rw [hsiblings] at hchildren
  have hother : c ∈ (level.beyond .backward).reverse ++ level.beyond .forward := by
    cases course with
    | forward => exact List.mem_append_right _ hc
    | backward => exact List.mem_append_left _ (List.mem_reverse.mpr hc)
  have hnodup := h.nodup_ids hpe
  rw [Siblings.ids, hchildren, List.map_append, List.map_cons, List.nodup_middle,
    List.nodup_cons, ← List.map_append] at hnodup
  refine ⟨?_, fun hcx => hnodup.1 (List.mem_map.mpr ⟨c, hother, hcx⟩)⟩
  rw [hchildren]
  exact List.perm_middle.mem_iff.mpr (List.mem_cons_of_mem _ hother)

theorem ne_root (hs : StandsOn t (level :: above) x) (h : t.Sound config) : x ≠ Tree.root := by
  obtain ⟨p, -, e, -, -, -, -, -, hx, hp⟩ := hs.exists_parent h
  exact h.formed.ne_root (Tree.skeleton_eq_some hx) hp

theorem eq_nil (hs : StandsOn t stack Tree.root) (h : t.Sound config) : stack = [] := by
  cases stack with
  | nil => rfl
  | cons level above => exact absurd rfl (hs.ne_root h)

theorem ne_nil (hs : StandsOn t stack x) (hr : x ≠ Tree.root) : stack ≠ [] := by
  cases hs with
  | root => exact absurd rfl hr
  | level => exact List.cons_ne_nil _ _

theorem currentId?_eq (hs : StandsOn t stack x) :
    stack.head?.bind (·.currentId?) = if stack = [] then none else some x := by
  cases hs with
  | root => rfl
  | level habove hsiblings hrests =>
    rw [List.head?_cons, Option.bind_some, LevelCursor.currentId?, hrests.current,
      if_neg (List.cons_ne_nil _ _)]
    rfl

theorem eq_of_currentId? (hs : StandsOn t stack x) {y : EntryId}
    (hy : stack.head?.bind (·.currentId?) = some y) : x = y := by
  rw [hs.currentId?_eq] at hy
  split at hy
  · cases hy
  · exact Option.some.inj hy

end StandsOn

/-- Entering an entry leads to the nearest visible child, if there is one. -/
theorem enter?_spec (h : n.tree.Sound config) (hs : StandsOn n.tree stack x)
    (hx : n.tree.get? x = some e) (course : Course) :
    (∃ child rest deeper, n.enter? stack x course = some (deeper :: stack) ∧
      LevelCursor.Nearest n.isVisible (course.line e.children.toList) child rest ∧
      StandsOn n.tree (deeper :: stack) child.2) ∨
    (n.enter? stack x course = none ∧
      ∀ c ∈ course.line e.children.toList, n.isVisible c.2 = false) := by
  have hremaining := LevelCursor.remaining_outside x e.children course
  have hline : course.line (LevelCursor.outside x e.children).siblings.toList =
      [] ++ (LevelCursor.outside x e.children).remaining course := hremaining.symm
  have hspec := LevelCursor.advance_spec n.isVisible (h.sorted hx) hline
  rw [hremaining] at hspec
  rw [enter?, hx]
  rcases hspec with ⟨child, rest, moved, hmoved, hnearest, hsiblings, hrests⟩ | ⟨hfail, hhidden⟩
  · refine Or.inl ⟨child, rest, moved, ?_, hnearest, .level hs ?_ hrests⟩
    · simp only [hmoved]
    · rw [hsiblings, Tree.Sound.childrenOf_eq hx]
      rfl
  · refine Or.inr ⟨?_, hhidden⟩
    simp only [hfail]

/-- Going on among siblings leads to the nearest visible one, if there is one. -/
theorem advance_spec (h : n.tree.Sound config) (hs : StandsOn n.tree (level :: above) x)
    (course : Course) :
    (∃ child rest moved, level.advance course n.isVisible = (true, moved) ∧
      LevelCursor.Nearest n.isVisible (level.beyond course) child rest ∧
      StandsOn n.tree (moved :: above) child.2) ∨
    (level.advance course n.isVisible = (false, { level with ahead := none }) ∧
      ∀ c ∈ level.beyond course, n.isVisible c.2 = false) := by
  obtain ⟨p, pe, -, k, habove, hpe, hsiblings, hrests, -, -⟩ := hs.exists_parent h
  have hsorted : level.siblings.Sorted := hsiblings ▸ h.sorted hpe
  obtain ⟨passed, hline⟩ := hrests.line_eq hsorted course
  rw [← hrests.remaining course]
  rcases LevelCursor.advance_spec n.isVisible hsorted hline with
    ⟨child, rest, moved, hmoved, hnearest, hsib, hmrests⟩ | ⟨hfail, hhidden⟩
  · refine Or.inl ⟨child, rest, moved, hmoved, hnearest, .level habove ?_ hmrests⟩
    rw [hsib, hsiblings, Tree.Sound.childrenOf_eq hpe]
  · exact Or.inr ⟨hfail, hhidden⟩

end CategorizedIndex.Navigator
