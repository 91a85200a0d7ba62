import CategorizedIndex.Navigator.Moves
import CategorizedIndex.Proofs.Navigator.Steps

/-! # Whatever a navigator is told to do, it stands on an entry

A navigator starts above the top level and makes moves, of which some may be impossible,
and its state may be exchanged for any other in between. Its stack stands on an entry of
the tree all the while, though not always on one of the trail.
-/
namespace CategorizedIndex.Navigator

/-- The navigator walks a tree and stands on one of its entries. -/
def Grounded (t : Tree) (n : Navigator) : Prop := n.tree = t ∧ ∃ x, StandsOn t n.stack x

variable {config : Config} {t : Tree} {n m : Navigator} {x : EntryId} {e : Entry}
  {stack out : List LevelCursor} {course : Course}

theorem grounded_start (t : Tree) (state : NavigatorState) : (start t state).Grounded t :=
  ⟨rfl, Tree.root, .root⟩

theorem grounded_withStack (hn : n.Grounded t) (hs : StandsOn n.tree stack x) :
    (n.withStack stack).Grounded t := ⟨hn.1, x, hn.1 ▸ hs⟩

section Standing

variable (h : n.tree.Sound config)

include h

theorem enter?_stands (hs : StandsOn n.tree stack x) (hout : n.enter? stack x course = some out) :
    ∃ y, StandsOn n.tree out y := by
  obtain ⟨e, hx⟩ := hs.exists_entry h
  rcases enter?_spec h hs hx course with ⟨child, rest, deeper, henter, -, hdeeper⟩ | ⟨hnone, -⟩
  · rw [henter] at hout
    exact ⟨child.2, Option.some.inj hout ▸ hdeeper⟩
  · rw [hnone] at hout
    cases hout

theorem advance_stands {level moved : LevelCursor} {above : List LevelCursor}
    (hs : StandsOn n.tree (level :: above) x)
    (hmoved : level.advance course n.isVisible = (true, moved)) :
    ∃ y, StandsOn n.tree (moved :: above) y := by
  rcases advance_spec h hs course with ⟨child, rest, moved', hmoved', -, hstands⟩ | ⟨hfail, -⟩
  · rw [hmoved'] at hmoved
    exact ⟨child.2, (Prod.mk.inj hmoved).2 ▸ hstands⟩
  · rw [hfail] at hmoved
    cases hmoved

theorem climbForward?_stands (hs : StandsOn n.tree stack x)
    (hout : n.climbForward? stack = some out) : ∃ y, StandsOn n.tree out y := by
  induction stack generalizing x with
  | nil => cases hout
  | cons level above ih =>
    obtain ⟨p, -, -, -, habove, -⟩ := hs.exists_parent h
    unfold climbForward? at hout
    split at hout
    · next moved hmoved => exact Option.some.inj hout ▸ advance_stands h hs hmoved
    · exact ih habove hout

theorem descendLast_stands (fuel : Nat) (hs : StandsOn n.tree stack x) :
    ∃ y, StandsOn n.tree (n.descendLast fuel stack) y := by
  induction fuel generalizing stack x with
  | zero => exact ⟨x, hs⟩
  | succ fuel ih =>
    unfold descendLast
    split
    · exact ⟨x, hs⟩
    · next y hy =>
      obtain rfl := hs.eq_of_currentId? hy
      split
      · split
        · next deeper hdeeper =>
          obtain ⟨z, hz⟩ := enter?_stands h hs hdeeper
          exact ih hz
        · exact ⟨x, hs⟩
      · exact ⟨x, hs⟩

theorem resolveFrom?_stands {position : Position} (hs : StandsOn n.tree stack x)
    (hout : n.resolveFrom? x stack position = some out) : ∃ y, StandsOn n.tree out y := by
  induction position generalizing stack x with
  | nil => exact ⟨x, Option.some.inj hout ▸ hs⟩
  | cons rank rest ih =>
    obtain ⟨e, hx⟩ := hs.exists_entry h
    rw [resolveFrom?, hx] at hout
    simp only at hout
    split at hout
    · cases hout
    · next child hchild =>
      have hmem : child ∈ e.children.toList := by
        unfold Siblings.atRank? at hchild
        split at hchild
        · cases hchild
        · exact List.mem_of_getElem? hchild
      split at hout
      · refine ih (.level hs ?_ (LevelCursor.rests_resting x hmem)) hout
        exact (Tree.Sound.childrenOf_eq hx).symm
      · cases hout

end Standing

namespace Grounded

theorem of_map (hn : n.Grounded t) {o : Option (List LevelCursor)}
    (hs : ∀ out, o = some out → ∃ y, StandsOn n.tree out y) (hm : o.map n.withStack = some m) :
    m.Grounded t := by
  obtain ⟨out, hout, rfl⟩ := Option.map_eq_some_iff.mp hm
  obtain ⟨y, hy⟩ := hs out hout
  exact grounded_withStack hn hy

variable (h : t.Sound config)

include h

/-- The current entry is the one that the stack stands on, and never the root. -/
theorem standsOn (hn : n.Grounded t) (hcurrent : n.currentId? = some x) :
    StandsOn n.tree n.stack x ∧ x ≠ Tree.root := by
  obtain ⟨rfl, y, hs⟩ := hn
  obtain rfl := hs.eq_of_currentId? hcurrent
  refine ⟨hs, fun hr => ?_⟩
  subst hr
  rw [currentId?, hs.eq_nil h] at hcurrent
  cases hcurrent

theorem gotoFirst? (hn : n.Grounded t) (hm : n.gotoFirst? = some m) : m.Grounded t := by
  obtain ⟨rfl, -⟩ := hn
  exact of_map ⟨rfl, _, .root⟩ (n := n.withStack []) (fun out hout => enter?_stands h .root hout) hm

theorem gotoLast? (hn : n.Grounded t) (hm : n.gotoLast? = some m) : m.Grounded t := by
  obtain ⟨rfl, hstands⟩ := hn
  obtain ⟨stack, hstack, rfl⟩ := Option.map_eq_some_iff.mp hm
  obtain ⟨y, hy⟩ := enter?_stands h .root hstack
  obtain ⟨z, hz⟩ := descendLast_stands h _ hy
  exact grounded_withStack ⟨rfl, hstands⟩ hz

theorem gotoNext? (hn : n.Grounded t) (hm : n.gotoNext? = some m) : m.Grounded t := by
  cases hcurrent : n.currentId? with
  | none =>
    rw [Navigator.gotoNext?, hcurrent] at hm
    exact hn.gotoFirst? h hm
  | some id =>
    obtain ⟨rfl, x, hs⟩ := hn
    obtain rfl := hs.eq_of_currentId? hcurrent
    rw [gotoNext?_eq hcurrent] at hm
    refine of_map ⟨rfl, x, hs⟩ (fun out hout => ?_) hm
    rcases Option.or_eq_some_iff.mp hout with hout | ⟨-, hout⟩
    · split at hout
      · exact enter?_stands h hs hout
      · cases hout
    · exact climbForward?_stands h hs hout

theorem gotoPrev? (hn : n.Grounded t) (hm : n.gotoPrev? = some m) : m.Grounded t := by
  unfold Navigator.gotoPrev? at hm
  split at hm
  · exact hn.gotoLast? h hm
  · cases hm
  · next level above _ hstack =>
    obtain ⟨rfl, x, hs⟩ := hn
    have hs' : StandsOn n.tree (level :: above) x := hstack ▸ hs
    split at hm
    · next moved hmoved =>
      obtain ⟨y, hy⟩ := advance_stands h hs' hmoved
      obtain ⟨z, hz⟩ := descendLast_stands h _ hy
      exact Option.some.inj hm ▸ grounded_withStack ⟨rfl, x, hs⟩ hz
    · split at hm
      · cases hm
      · obtain ⟨p, -, -, -, habove, -⟩ := hs'.exists_parent h
        exact Option.some.inj hm ▸ grounded_withStack ⟨rfl, x, hs⟩ habove

theorem step? (hn : n.Grounded t) (hm : n.step? course = some m) : m.Grounded t := by
  cases course with
  | forward => exact hn.gotoNext? h hm
  | backward => exact hn.gotoPrev? h hm

theorem gotoParent? (hn : n.Grounded t) (hm : n.gotoParent? = some m) : m.Grounded t := by
  unfold Navigator.gotoParent? at hm
  split at hm
  · next level above hstack =>
    obtain ⟨rfl, x, hs⟩ := hn
    obtain ⟨p, -, -, -, habove, -⟩ := (hstack ▸ hs : StandsOn n.tree (level :: above) x).exists_parent h
    split at hm
    · cases hm
    · exact Option.some.inj hm ▸ grounded_withStack ⟨rfl, x, hs⟩ habove
  · cases hm

theorem gotoChild? (hn : n.Grounded t) (hm : n.gotoChild? course = some m) : m.Grounded t := by
  obtain ⟨rfl, x, hs⟩ := hn
  obtain ⟨id, hid, hm⟩ := Option.bind_eq_some_iff.mp hm
  obtain rfl := hs.eq_of_currentId? hid
  exact of_map ⟨rfl, x, hs⟩ (fun out hout => enter?_stands h hs hout) hm

theorem gotoSibling? (hn : n.Grounded t) (hm : n.gotoSibling? course = some m) :
    m.Grounded t := by
  unfold Navigator.gotoSibling? at hm
  split at hm
  · cases hm
  · next level above hstack =>
    obtain ⟨rfl, x, hs⟩ := hn
    split at hm
    · next moved hmoved =>
      obtain ⟨y, hy⟩ := advance_stands h (hstack ▸ hs : StandsOn n.tree (level :: above) x) hmoved
      exact Option.some.inj hm ▸ grounded_withStack ⟨rfl, x, hs⟩ hy
    · cases hm

theorem gotoPosition? {position : Position} (hn : n.Grounded t)
    (hm : n.gotoPosition? position = some m) : m.Grounded t := by
  obtain ⟨rfl, hstands⟩ := hn
  refine of_map ⟨rfl, hstands⟩ (fun out hout => ?_) hm
  unfold resolve? at hout
  split at hout
  · cases hout
  · exact resolveFrom?_stands h .root hout

theorem gotoEntry? {id : ScopedId} (hn : n.Grounded t) (hm : n.gotoEntry? id = some m) :
    m.Grounded t := by
  obtain ⟨position, -, hposition⟩ := List.exists_of_findSome?_eq_some hm
  exact hn.gotoPosition? h hposition

theorem seekSelected? {fuel : Nat} (hn : n.Grounded t)
    (hm : n.seekSelected? course fuel = some m) : m.Grounded t := by
  induction fuel generalizing n with
  | zero => cases hm
  | succ fuel ih =>
    unfold Navigator.seekSelected? at hm
    split at hm
    · cases hm
    · next moved hmoved =>
      have hmoved' := hn.step? h hmoved
      split at hm
      · exact Option.some.inj hm ▸ hmoved'
      · exact ih hmoved' hm

theorem stepMany (hn : n.Grounded t) (course : Course) (count : Nat) :
    (n.stepMany course count).2.Grounded t := by
  induction count generalizing n with
  | zero => exact hn
  | succ count ih =>
    unfold Navigator.stepMany
    split
    · exact hn
    · next moved hmoved => exact ih (hn.step? h hmoved)

theorem readFrom (hn : n.Grounded t) (course : Course) (count : Nat) :
    (n.readFrom course count).2.Grounded t := by
  induction count generalizing n with
  | zero => exact hn
  | succ count ih =>
    unfold Navigator.readFrom
    split
    · exact hn
    · split
      · exact hn
      · next moved hmoved => exact ih (hn.step? h hmoved)

theorem readIds (hn : n.Grounded t) (count : Nat) : (n.readIds count).2.Grounded t := by
  unfold Navigator.readIds
  split
  · exact hn
  · split
    · exact hn.readFrom h _ _
    · split
      · exact hn
      · next first hfirst => exact (hn.gotoFirst? h hfirst).readFrom h _ _

/-- Every move that is possible ends on an entry of the tree. -/
theorem move? (hn : n.Grounded t) {move : Move} (hm : n.move? move = some m) : m.Grounded t := by
  cases move with
  | first => exact hn.gotoFirst? h hm
  | last => exact hn.gotoLast? h hm
  | step course => exact hn.step? h hm
  | parent => exact hn.gotoParent? h hm
  | child course => exact hn.gotoChild? h hm
  | sibling course => exact hn.gotoSibling? h hm
  | position position => exact hn.gotoPosition? h hm
  | entry id => exact hn.gotoEntry? h hm
  | selected course => exact hn.seekSelected? h hm
  | skip count => exact Option.some.inj hm ▸ hn.stepMany h _ _
  | read count => exact Option.some.inj hm ▸ hn.readIds h _
  | adopt state => exact Option.some.inj hm ▸ hn

theorem run (hn : n.Grounded t) (moves : List Move) : (n.run moves).Grounded t := by
  induction moves generalizing n with
  | nil => exact hn
  | cons move rest ih =>
    refine ih (n := (n.move? move).getD n) ?_
    cases hm : n.move? move with
    | none => exact hn
    | some m => exact hn.move? h hm

end Grounded

end CategorizedIndex.Navigator
