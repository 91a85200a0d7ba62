import CategorizedIndex.Proofs.Navigator.Moves

/-! # What a move puts on the stack

A move keeps the lower part of the stack and puts cursors on top of it that rest on visible
entries. Only the moves that go up can end on a cursor that was there before, and on one below
the top; that one was chosen under the filter of its time.
-/
namespace CategorizedIndex.Navigator

/-- Cursors on accepted entries, on top of what is left of a stack. -/
inductive Rebuilt (accept : EntryId → Bool) (base : List LevelCursor) :
    List LevelCursor → Prop
  | left {rest : List LevelCursor} (h : rest <:+ base) : Rebuilt accept base rest
  | level {level : LevelCursor} {above : List LevelCursor} {y : EntryId}
      (habove : Rebuilt accept base above) (hy : level.currentId? = some y)
      (haccept : accept y = true) : Rebuilt accept base (level :: above)

/-- A stack whose top is one of the cursors that were added. -/
def Topped (accept : EntryId → Bool) (base stack : List LevelCursor) : Prop :=
  ∃ level above y, stack = level :: above ∧ Rebuilt accept base above ∧
    level.currentId? = some y ∧ accept y = true

def Moved (n m : Navigator) : Prop :=
  ∃ stack, m = n.withStack stack ∧ Rebuilt n.isVisible n.stack stack

def Landed (n : Navigator) (base : List LevelCursor) (m : Navigator) : Prop :=
  ∃ stack, m = n.withStack stack ∧ Topped n.isVisible base stack

def Raised (n m : Navigator) : Prop :=
  ∃ stack, m = n.withStack stack ∧ stack ≠ [] ∧ Rebuilt n.isVisible n.stack.tail stack

variable {accept : EntryId → Bool} {base stack out rest above : List LevelCursor}
  {level next : LevelCursor} {n m : Navigator} {p : EntryId} {course : Course}

namespace Rebuilt

theorem of_suffix (h : Rebuilt accept base stack) (hrest : rest <:+ stack) :
    Rebuilt accept base rest := by
  induction h with
  | left h => exact .left (hrest.trans h)
  | level habove hy haccept ih =>
    rcases List.suffix_cons_iff.mp hrest with rfl | hrest
    · exact .level habove hy haccept
    · exact ih hrest

theorem trans (h : Rebuilt accept base stack) (hout : Rebuilt accept stack out) :
    Rebuilt accept base out := by
  induction hout with
  | left hrest => exact h.of_suffix hrest
  | level _ hy haccept ih => exact .level ih hy haccept

theorem of_cons (h : Rebuilt accept base (level :: above)) : Rebuilt accept base above :=
  h.of_suffix (List.suffix_cons _ _)

theorem topped_or (h : Rebuilt accept base stack) : stack <:+ base ∨ Topped accept base stack := by
  cases h with
  | left h => exact Or.inl h
  | level habove hy haccept => exact Or.inr ⟨_, _, _, rfl, habove, hy, haccept⟩

end Rebuilt

namespace Topped

theorem rebuilt (h : Topped accept base stack) : Rebuilt accept base stack := by
  obtain ⟨level, above, y, rfl, habove, hy, haccept⟩ := h
  exact .level habove hy haccept

theorem trans (h : Rebuilt accept base stack) (hout : Topped accept stack out) :
    Topped accept base out := by
  obtain ⟨level, above, y, rfl, habove, hy, haccept⟩ := hout
  exact ⟨level, above, y, rfl, h.trans habove, hy, haccept⟩

theorem ne_nil (h : Topped accept base stack) : stack ≠ [] := by
  obtain ⟨level, above, -, rfl, -⟩ := h
  exact List.cons_ne_nil _ _

end Topped

theorem Landed.of_nil (h : n.Landed [] m) : n.Landed base m := by
  obtain ⟨stack, rfl, hstack⟩ := h
  exact ⟨stack, rfl, .trans (.left List.nil_suffix) hstack⟩

theorem Landed.moved (h : n.Landed n.stack m) : n.Moved m := by
  obtain ⟨stack, rfl, hstack⟩ := h
  exact ⟨stack, rfl, hstack.rebuilt⟩

theorem Raised.moved (h : n.Raised m) : n.Moved m := by
  obtain ⟨stack, rfl, -, hstack⟩ := h
  exact ⟨stack, rfl, .trans (.left (List.tail_suffix _)) hstack⟩

theorem Moved.refl (n : Navigator) : n.Moved n := ⟨n.stack, rfl, .left (List.suffix_refl _)⟩

theorem Moved.trans {o : Navigator} (h : n.Moved m) (hm : m.Moved o) : n.Moved o := by
  obtain ⟨stack, rfl, hstack⟩ := h
  obtain ⟨out, rfl, hout⟩ := hm
  exact ⟨out, rfl, hstack.trans hout⟩

/-! ## The parts of a move -/

theorem advance_topped (habove : Rebuilt accept base above)
    (h : level.advance course accept = (true, next)) : Topped accept base (next :: above) := by
  obtain ⟨child, hcurrent, haccept⟩ := LevelCursor.accepted_of_advance (congrArg Prod.fst h)
  rw [h] at hcurrent
  refine ⟨next, above, child.2, rfl, habove, ?_, haccept⟩
  rw [LevelCursor.currentId?, hcurrent, Option.map_some]

theorem enter?_topped (hs : Rebuilt n.isVisible base stack)
    (hout : n.enter? stack p course = some out) : Topped n.isVisible base out := by
  unfold enter? at hout
  split at hout
  · cases hout
  · split at hout
    · next level hlevel =>
      obtain rfl := Option.some.inj hout
      exact advance_topped hs hlevel
    · cases hout

theorem climbForward?_topped (hs : Rebuilt n.isVisible base stack)
    (hout : n.climbForward? stack = some out) : Topped n.isVisible base out := by
  induction stack with
  | nil => cases hout
  | cons level above ih =>
    unfold climbForward? at hout
    split at hout
    · next moved hmoved =>
      obtain rfl := Option.some.inj hout
      exact advance_topped hs.of_cons hmoved
    · exact ih hs.of_cons hout

theorem descendLast_topped (fuel : Nat) (hs : Topped n.isVisible base stack) :
    Topped n.isVisible base (n.descendLast fuel stack) := by
  induction fuel generalizing stack with
  | zero => exact hs
  | succ fuel ih =>
    unfold descendLast
    split
    · exact hs
    · split
      · split
        · next deeper hdeeper => exact ih (enter?_topped hs.rebuilt hdeeper)
        · exact hs
      · exact hs

theorem resolveFrom?_topped {position : Position} (hs : Rebuilt n.isVisible base stack)
    (htop : position = [] → Topped n.isVisible base stack)
    (hout : n.resolveFrom? p stack position = some out) : Topped n.isVisible base out := by
  induction position generalizing stack p with
  | nil => exact Option.some.inj hout ▸ htop rfl
  | cons rank rest ih =>
    unfold resolveFrom? at hout
    split at hout
    · cases hout
    · split at hout
      · cases hout
      · next child _ =>
        split at hout
        · next hvisible =>
          exact ih (.level hs rfl hvisible) (fun _ => ⟨_, stack, child.2, rfl, hs, rfl, hvisible⟩)
            hout
        · cases hout

/-! ## Moves -/

theorem gotoFirst?_landed (hm : n.gotoFirst? = some m) : n.Landed [] m := by
  obtain ⟨stack, hstack, rfl⟩ := Option.map_eq_some_iff.mp hm
  exact ⟨stack, rfl, enter?_topped (.left (List.suffix_refl _)) hstack⟩

theorem gotoLast?_landed (hm : n.gotoLast? = some m) : n.Landed [] m := by
  obtain ⟨stack, hstack, rfl⟩ := Option.map_eq_some_iff.mp hm
  exact ⟨_, rfl, descendLast_topped _ (enter?_topped (.left (List.suffix_refl _)) hstack)⟩

theorem gotoPosition?_landed {position : Position} (hm : n.gotoPosition? position = some m) :
    n.Landed [] m := by
  obtain ⟨stack, hstack, rfl⟩ := Option.map_eq_some_iff.mp hm
  unfold resolve? at hstack
  split at hstack
  · cases hstack
  · next hposition =>
    exact ⟨stack, rfl, resolveFrom?_topped (.left (List.suffix_refl _))
      (fun hnil => absurd hnil hposition) hstack⟩

/-- A step forward ends on a visible entry. -/
theorem gotoNext?_landed (hm : n.gotoNext? = some m) : n.Landed n.stack m := by
  cases hcurrent : n.currentId? with
  | none =>
    rw [gotoNext?, hcurrent] at hm
    exact (gotoFirst?_landed hm).of_nil
  | some id =>
    rw [gotoNext?_eq hcurrent] at hm
    obtain ⟨stack, hstack, rfl⟩ := Option.map_eq_some_iff.mp hm
    refine ⟨stack, rfl, ?_⟩
    rcases Option.or_eq_some_iff.mp hstack with hstack | ⟨-, hstack⟩
    · split at hstack
      · exact enter?_topped (.left (List.suffix_refl _)) hstack
      · cases hstack
    · exact climbForward?_topped (.left (List.suffix_refl _)) hstack

/-- A step backward ends on a visible entry or on the entry above. -/
theorem gotoPrev?_raised (hm : n.gotoPrev? = some m) : n.Raised m := by
  unfold gotoPrev? at hm
  split at hm
  · have hlast : n.Landed n.stack.tail m := (gotoLast?_landed hm).of_nil
    obtain ⟨stack, rfl, hstack⟩ := hlast
    exact ⟨stack, rfl, hstack.ne_nil, hstack.rebuilt⟩
  · cases hm
  · next level above _ hstack =>
    have htail : Rebuilt n.isVisible n.stack.tail above :=
      .left (hstack ▸ List.suffix_refl above)
    split at hm
    · next moved hmoved =>
      obtain rfl := Option.some.inj hm
      have htop := descendLast_topped n.tree.arena.size (advance_topped htail hmoved)
      exact ⟨_, rfl, htop.ne_nil, htop.rebuilt⟩
    · split at hm
      · cases hm
      · next habove =>
        obtain rfl := Option.some.inj hm
        exact ⟨above, rfl, habove, htail⟩

theorem gotoParent?_raised (hm : n.gotoParent? = some m) : n.Raised m := by
  unfold gotoParent? at hm
  split at hm
  · next level above hstack =>
    split at hm
    · cases hm
    · next habove =>
      obtain rfl := Option.some.inj hm
      exact ⟨above, rfl, habove, .left (hstack ▸ List.suffix_refl above)⟩
  · cases hm

theorem gotoSibling?_landed (hm : n.gotoSibling? course = some m) : n.Landed n.stack m := by
  unfold gotoSibling? at hm
  split at hm
  · cases hm
  · next level above hstack =>
    split at hm
    · next moved hmoved =>
      obtain rfl := Option.some.inj hm
      exact ⟨_, rfl, advance_topped (.left (hstack ▸ List.suffix_cons level above)) hmoved⟩
    · cases hm

theorem gotoChild?_landed (hm : n.gotoChild? course = some m) : n.Landed n.stack m := by
  obtain ⟨id, -, hm⟩ := Option.bind_eq_some_iff.mp hm
  obtain ⟨stack, hstack, rfl⟩ := Option.map_eq_some_iff.mp hm
  exact ⟨stack, rfl, enter?_topped (.left (List.suffix_refl _)) hstack⟩

theorem seekForward_landed {fuel : Nat} (hm : n.seekSelected? .forward fuel = some m) :
    n.Landed n.stack m := by
  induction fuel generalizing n with
  | zero => cases hm
  | succ fuel ih =>
    unfold seekSelected? at hm
    split at hm
    · cases hm
    · next o ho =>
      obtain ⟨stack, rfl, hstack⟩ := gotoNext?_landed ho
      split at hm
      · exact ⟨stack, (Option.some.inj hm).symm, hstack⟩
      · obtain ⟨out, rfl, hout⟩ := ih hm
        exact ⟨out, rfl, hout.trans hstack.rebuilt⟩

theorem seekBackward_raised {fuel : Nat} (hm : n.seekSelected? .backward fuel = some m) :
    n.Raised m := by
  induction fuel generalizing n with
  | zero => cases hm
  | succ fuel ih =>
    unfold seekSelected? at hm
    split at hm
    · cases hm
    · next o ho =>
      obtain ⟨stack, rfl, hne, hstack⟩ := gotoPrev?_raised ho
      split at hm
      · exact ⟨stack, (Option.some.inj hm).symm, hne, hstack⟩
      · obtain ⟨out, rfl, hne', hout⟩ := ih hm
        have htail : Rebuilt n.isVisible n.stack.tail stack.tail :=
          hstack.of_suffix (List.tail_suffix stack)
        exact ⟨out, rfl, hne', htail.trans hout⟩

theorem step?_moved (hm : n.step? course = some m) : n.Moved m := by
  cases course with
  | forward => exact (gotoNext?_landed hm).moved
  | backward => exact (gotoPrev?_raised hm).moved

theorem stepMany_moved (n : Navigator) (course : Course) (count : Nat) :
    n.Moved (n.stepMany course count).2 := by
  induction count generalizing n with
  | zero => exact .refl n
  | succ count ih =>
    unfold stepMany
    split
    · exact .refl n
    · next moved hmoved => exact (step?_moved hmoved).trans (ih moved)

theorem readFrom_moved (n : Navigator) (course : Course) (count : Nat) :
    n.Moved (n.readFrom course count).2 := by
  induction count generalizing n with
  | zero => exact .refl n
  | succ count ih =>
    unfold readFrom
    split
    · exact .refl n
    · split
      · exact .refl n
      · next moved hmoved => exact (step?_moved hmoved).trans (ih moved)

theorem readIds_moved (n : Navigator) (count : Nat) : n.Moved (n.readIds count).2 := by
  unfold readIds
  split
  · exact .refl n
  · split
    · exact readFrom_moved n _ _
    · split
      · exact .refl n
      · next first hfirst =>
        exact (gotoFirst?_landed hfirst).of_nil.moved.trans (readFrom_moved _ _ _)

namespace Move

/-- Moves to one entry, which are possible or not. -/
def Single : Move → Prop
  | skip _ | read _ | adopt _ => False
  | _ => True

/-- Moves that can end on an entry above. -/
def Upward : Move → Prop
  | parent | step .backward | selected .backward => True
  | _ => False

end Move

/-- A move ends on a visible entry, or, if it is one that goes up, on a cursor that was below
the top. -/
def Ends (n : Navigator) (upward : Prop) (m : Navigator) : Prop :=
  ∃ stack, m = n.withStack stack ∧ (Topped n.isVisible n.stack stack ∨
    upward ∧ stack ≠ [] ∧ stack <:+ n.stack.tail)

namespace Ends

variable {upward : Prop}

theorem of_landed (h : n.Landed n.stack m) : n.Ends upward m := by
  obtain ⟨stack, rfl, hstack⟩ := h
  exact ⟨stack, rfl, Or.inl hstack⟩

theorem of_raised (hupward : upward) (h : n.Raised m) : n.Ends upward m := by
  obtain ⟨stack, rfl, hne, hstack⟩ := h
  rcases hstack.topped_or with hleft | htop
  · exact ⟨stack, rfl, Or.inr ⟨hupward, hne, hleft⟩⟩
  · exact ⟨stack, rfl, Or.inl (.trans (.left (List.tail_suffix _)) htop)⟩

theorem moved (h : n.Ends upward m) : n.Moved m := by
  obtain ⟨stack, rfl, htop | ⟨-, -, hleft⟩⟩ := h
  · exact ⟨stack, rfl, htop.rebuilt⟩
  · exact ⟨stack, rfl, .left (hleft.trans (List.tail_suffix _))⟩

end Ends

theorem move?_ends {move : Move} (hsingle : move.Single) (hm : n.move? move = some m) :
    n.Ends move.Upward m := by
  cases move with
  | first => exact .of_landed (gotoFirst?_landed hm).of_nil
  | last => exact .of_landed (gotoLast?_landed hm).of_nil
  | step course =>
    cases course with
    | forward => exact .of_landed (gotoNext?_landed hm)
    | backward => exact .of_raised trivial (gotoPrev?_raised hm)
  | parent => exact .of_raised trivial (gotoParent?_raised hm)
  | child course => exact .of_landed (gotoChild?_landed hm)
  | sibling course => exact .of_landed (gotoSibling?_landed hm)
  | position position => exact .of_landed (gotoPosition?_landed hm).of_nil
  | entry id =>
    obtain ⟨position, -, hposition⟩ := List.exists_of_findSome?_eq_some hm
    exact .of_landed (gotoPosition?_landed hposition).of_nil
  | selected course =>
    cases course with
    | forward => exact .of_landed (seekForward_landed hm)
    | backward => exact .of_raised trivial (seekBackward_raised hm)
  | skip count => exact hsingle.elim
  | read count => exact hsingle.elim
  | adopt state => exact hsingle.elim

/-- Every move but a change of state keeps all else. -/
theorem move?_moved {move : Move} (hm : n.move? move = some m) :
    n.Moved m ∨ ∃ state, move = .adopt state ∧ m = { n with state := state } := by
  by_cases hsingle : move.Single
  · exact Or.inl (move?_ends hsingle hm).moved
  · cases move with
    | skip count => exact Or.inl (Option.some.inj hm ▸ stepMany_moved n _ _)
    | read count => exact Or.inl (Option.some.inj hm ▸ readIds_moved n _)
    | adopt state => exact Or.inr ⟨state, rfl, (Option.some.inj hm).symm⟩
    | _ => exact absurd trivial hsingle

/-- Every cursor rests on a visible entry. -/
def Screened (n : Navigator) : Prop := Rebuilt n.isVisible [] n.stack

theorem Screened.of_moved (hn : n.Screened) (hm : n.Moved m) : m.Screened := by
  obtain ⟨stack, rfl, hstack⟩ := hm
  exact hn.trans hstack

theorem isVisible_congr (htree : m.tree = n.tree)
    (hfilter : m.state.visibility = n.state.visibility) : m.isVisible = n.isVisible := by
  funext id
  rw [isVisible, isVisible, htree, hfilter]

/-- While the filter stays the same, so does what a stack shows. -/
theorem Screened.run (hn : n.Screened) {moves : List Move} {filter : Option VisibilityFilter}
    (hfilter : n.state.visibility = filter)
    (hsame : ∀ state, .adopt state ∈ moves → state.visibility = filter) :
    (n.run moves).Screened := by
  induction moves generalizing n with
  | nil => exact hn
  | cons move rest ih =>
    have hrest : ∀ state, .adopt state ∈ rest → state.visibility = filter :=
      fun state hmem => hsame state (List.mem_cons_of_mem _ hmem)
    have hrun : n.run (move :: rest) = ((n.move? move).getD n).run rest := rfl
    rw [hrun]
    cases hm : n.move? move with
    | none => exact ih hn hfilter hrest
    | some m =>
      rcases move?_moved hm with hmoved | ⟨state, rfl, rfl⟩
      · have hm' := hn.of_moved hmoved
        obtain ⟨stack, rfl, -⟩ := hmoved
        exact ih hm' hfilter hrest
      · have hstate := hsame state List.mem_cons_self
        have hscreened : Screened { n with state := state } := by
          have hvisible : isVisible { n with state := state } = n.isVisible :=
            isVisible_congr rfl (hstate.trans hfilter.symm)
          rw [Screened, hvisible]
          exact hn
        exact ih hscreened hstate hrest

/-! ## Where what is left of a stack stands -/

namespace StandsOn

variable {config : Config} {t : Tree} {x : EntryId}

theorem of_suffix (hs : StandsOn t stack x) (h : t.Sound config) (hrest : rest <:+ stack) :
    ∃ a, StandsOn t rest a ∧ a ∈ t.skeleton.line x := by
  induction stack generalizing x with
  | nil =>
    obtain rfl := List.suffix_nil.mp hrest
    exact ⟨x, hs, Skeleton.self_mem_line⟩
  | cons level above ih =>
    rcases List.suffix_cons_iff.mp hrest with rfl | hrest
    · exact ⟨x, hs, Skeleton.self_mem_line⟩
    · obtain ⟨p, -, e, -, habove, -, -, -, hx, hp⟩ := hs.exists_parent h
      obtain ⟨a, ha, hline⟩ := ih habove hrest
      refine ⟨a, ha, ?_⟩
      rw [h.formed.line_eq (Tree.skeleton_eq_some hx) hp]
      exact List.mem_cons_of_mem _ hline

/-- What is left below the top stands on an entry above. -/
theorem of_suffix_tail (hs : StandsOn t stack x) (h : t.Sound config)
    (hrest : rest <:+ stack.tail) (hne : rest ≠ []) :
    ∃ a d, StandsOn t rest a ∧ t.get? a = some d ∧ (a, d) ∈ (t.lineage x).tail := by
  cases stack with
  | nil => exact absurd (List.suffix_nil.mp hrest) hne
  | cons level above =>
    obtain ⟨p, -, e, -, habove, -, -, -, hx, hp⟩ := hs.exists_parent h
    obtain ⟨a, ha, hline⟩ := habove.of_suffix h hrest
    obtain ⟨d, hd⟩ := ha.exists_entry h
    have hxcore := Tree.skeleton_eq_some hx
    have hax : a ≠ x := fun heq =>
      absurd (Skeleton.mem_line_le hline) (Nat.not_le.mpr (heq ▸ h.formed.parent_lt hxcore hp))
    refine ⟨a, d, ha, hd, (h.mem_tail_lineage hx).mpr ⟨(h.mem_lineage hx).mpr ⟨?_, hd⟩, hax⟩⟩
    rw [h.formed.line_eq hxcore hp]
    exact List.mem_cons_of_mem _ hline

end StandsOn

end CategorizedIndex.Navigator
