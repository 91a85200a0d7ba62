import CategorizedIndex.Proofs.Navigator.Screen
import CategorizedIndex.Proofs.Reachable

/-! # What a navigator shows

A move looks for an entry that passes the filter, with one exception: going up takes the
entry above as it was found, whatever the filter says of it by now. So a filter that is
exchanged can leave a navigator below a hidden entry, and the next move up shows it. As long
as the filter stays the same, or passes the entries above the current one, every move ends on
an entry that passes.
-/
namespace CategorizedIndex.Navigator

/-- The filter that a navigator has by now lets an entry through. -/
def Passes (n : Navigator) (e : Entry) : Prop :=
  ∀ visible, n.state.visibility = some visible → visible e = true

variable {config : Config} {t : Tree} {n m : Navigator} {stack base : List LevelCursor}
  {move : Move}

theorem Topped.lands (h : Topped n.isVisible base stack) :
    ∃ y e, (n.withStack stack).currentId? = some y ∧ n.tree.get? y = some e ∧ n.Passes e := by
  obtain ⟨level, above, y, rfl, -, hy, hvisible⟩ := h
  cases he : n.tree.get? y with
  | none =>
    rw [isVisible, he] at hvisible
    cases hvisible
  | some e => exact ⟨y, e, hy, he, (isVisible_eq_true_iff he).mp hvisible⟩

theorem Grounded.lands (h : t.Sound config) (hn : n.Grounded t) (hsingle : move.Single)
    (hm : n.move? move = some m) :
    ∃ y e, m.currentId? = some y ∧ t.get? y = some e ∧ (n.Passes e ∨
      move.Upward ∧ ∃ z, n.currentId? = some z ∧ (y, e) ∈ (t.lineage z).tail) := by
  obtain ⟨stack, rfl, htop | ⟨hup, hne, hleft⟩⟩ := move?_ends hsingle hm
  · obtain ⟨y, e, hy, he, hpasses⟩ := htop.lands
    exact ⟨y, e, hy, hn.1 ▸ he, Or.inl hpasses⟩
  · obtain ⟨rfl, z, hz⟩ := hn
    obtain ⟨y, e, hs, he, hline⟩ := hz.of_suffix_tail h hleft hne
    have hstack : n.stack ≠ [] := fun hnil => by
      rw [hnil] at hleft
      exact hne (List.suffix_nil.mp hleft)
    exact ⟨y, e, hs.currentId?_eq.trans (if_neg hne), he, Or.inr ⟨hup, z,
      hz.currentId?_eq.trans (if_neg hstack), hline⟩⟩

theorem Screened.lands (hn : n.Screened) (hsingle : move.Single) (hm : n.move? move = some m) :
    ∃ y e, m.currentId? = some y ∧ n.tree.get? y = some e ∧ n.Passes e := by
  have hends := move?_ends hsingle hm
  have hscreened := hn.of_moved hends.moved
  obtain ⟨stack, rfl, hstack⟩ := hends
  rcases Rebuilt.topped_or hscreened with hnil | htop
  · rcases hstack with htop | ⟨-, hne, -⟩
    · exact htop.lands
    · exact absurd (List.suffix_nil.mp hnil) hne
  · exact Topped.lands (n := n) htop

variable {name : String} {filter : Option RowFilter} {x : Index}

/-- In every index that is reached and whatever a navigator was told before, a move that is
possible ends on an entry that passes its filter by now, or on an entry above the one before a
move that goes up. If the filter was never exchanged, the entry passes. -/
theorem lands_visible_or_above (hbuild : Index.build name config filter = .ok x)
    (operations : List Operation) (state : NavigatorState) (moves : List Move) :
    let t := (x.run operations).tree
    let n := (start t state).run moves
    (∀ move m, move.Single → n.move? move = some m →
      ∃ y e, m.currentId? = some y ∧ t.get? y = some e ∧ (n.Passes e ∨
        move.Upward ∧ ∃ z, n.currentId? = some z ∧ (y, e) ∈ (t.lineage z).tail)) ∧
    ((∀ other, .adopt other ∈ moves → other.visibility = state.visibility) →
      ∀ move m, move.Single → n.move? move = some m →
        ∃ y e, m.currentId? = some y ∧ t.get? y = some e ∧ n.Passes e) := by
  intro t n
  obtain ⟨T, hsettled, -⟩ := Index.exists_settled_run hbuild operations
  have hn : n.Grounded t := (grounded_start t state).run hsettled.sound moves
  refine ⟨fun move m hsingle hm => hn.lands hsettled.sound hsingle hm,
    fun hsame move m hsingle hm => ?_⟩
  have hstart : (start t state).Screened := .left List.nil_suffix
  have hscreened : n.Screened := hstart.run rfl hsame
  have hlands := hscreened.lands hsingle hm
  rw [hn.1] at hlands
  exact hlands

/-- The first row of a group is hidden, so the way into the group ends on the second. -/
theorem lands_beside_hidden_row :
    let t := (Index.grouped.run [.change (Index.filing 1 (.text "a")),
      .change (Index.filing 2 (.text "a"))]).tree
    let hidesFirst : VisibilityFilter := fun e => e.scopedId != ⟨"desk", 1⟩
    let n := (start t ⟨.start .expanded, .none, some hidesFirst⟩).run [.first]
    Index.build "grouped" Index.grouped.config none = .ok Index.grouped ∧
      ∃ m y e, n.move? (.child .forward) = some m ∧ m.currentId? = some y ∧
        t.get? y = some e ∧ n.Passes e ∧ e.scopedId = ⟨"desk", 2⟩ := by
  intro t hidesFirst n
  have hfound : ((n.move? (.child .forward)).bind fun m => m.currentId?.bind fun y =>
      (t.get? y).map (·.scopedId)) = some ⟨"desk", 2⟩ := by decide +kernel
  obtain ⟨m, hm, hfound⟩ := Option.bind_eq_some_iff.mp hfound
  obtain ⟨y, hy, hfound⟩ := Option.bind_eq_some_iff.mp hfound
  obtain ⟨e, he, hid⟩ := Option.map_eq_some_iff.mp hfound
  have hsame : ∀ other, .adopt other ∈ [Move.first] → other.visibility = some hidesFirst :=
    fun other hmem => nomatch List.mem_singleton.mp hmem
  obtain ⟨y', e', hy', he', hpasses⟩ := (lands_visible_or_above Index.build_grouped
    [.change (Index.filing 1 (.text "a")), .change (Index.filing 2 (.text "a"))]
    ⟨.start .expanded, .none, some hidesFirst⟩ [.first]).2 hsame (.child .forward) m trivial hm
  obtain rfl := Option.some.inj (hy.symm.trans hy')
  obtain rfl := Option.some.inj (he.symm.trans he')
  exact ⟨Index.build_grouped, m, y, e, hm, hy, he, hpasses, hid⟩

/-- Below a group that came to be hidden, the move up is possible and shows the group. -/
theorem parent_is_hidden :
    let t := (Index.grouped.run [.change (Index.filing 1 (.text "a"))]).tree
    let hidesGroups : VisibilityFilter := fun e => !e.isCategory
    let n := (start t (.start .expanded)).run
      [.first, .child .forward, .adopt ⟨.start .expanded, .none, some hidesGroups⟩]
    ∃ m y e, n.move? .parent = some m ∧ m.currentId? = some y ∧ t.get? y = some e ∧
      ¬n.Passes e := by
  intro t hidesGroups n
  have hfound : ((n.move? .parent).bind fun m => m.currentId?.bind fun y =>
      (t.get? y).map hidesGroups) = some false := by decide +kernel
  obtain ⟨m, hm, hfound⟩ := Option.bind_eq_some_iff.mp hfound
  obtain ⟨y, hy, hfound⟩ := Option.bind_eq_some_iff.mp hfound
  obtain ⟨e, he, hhidden⟩ := Option.map_eq_some_iff.mp hfound
  refine ⟨m, y, e, hm, hy, he, fun hpasses => ?_⟩
  have hfilter : n.state.visibility = some hidesGroups := rfl
  exact Bool.noConfusion (hhidden.symm.trans (hpasses hidesGroups hfilter))

end CategorizedIndex.Navigator
