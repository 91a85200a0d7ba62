import CategorizedIndex.Proofs.Navigator.Moves
import CategorizedIndex.Proofs.Navigator.Walk
import CategorizedIndex.Proofs.Reachable

/-! # Single steps from wherever a cursor stands

A position can be reached whatever is collapsed, a child can be entered without expanding
its category, and a filter can turn down what a cursor stands on or below. A step from
there goes to the nearest entry that is eligible: the entries above the cursor are taken
for visible and expanded, all others as the filter and the expansion have them by now.
-/
namespace CategorizedIndex.Navigator

/-- Steps from `p` can lead to `q`. Apart from `p` and the entries above it, `q` and all
above it pass the filter; apart from the entries above `p`, all above `q` are expanded. -/
structure Eligible (n : Navigator) (p q : EntryId) : Prop where
  other : q ≠ p
  below_root : q ≠ Tree.root
  entry : ∃ e, n.tree.get? q = some e
  passes : ∀ a d, (a, d) ∈ n.tree.lineage q → a ∉ (n.tree.lineage p).map (·.1) →
    ∀ visible, n.state.visibility = some visible → visible d = true
  expanded : ∀ a d, (a, d) ∈ (n.tree.lineage q).tail → a ∉ (n.tree.lineage p).tail.map (·.1) →
    n.state.expansion.isExpanded d.scopedId = true

/-- A move goes to the first eligible entry of a list and is impossible exactly if there is
none. -/
structure Reaches (n : Navigator) (p : EntryId) (ahead : List EntryId)
    (o : Option Navigator) : Prop where
  nearest : ∀ m, o = some m → m.tree = n.tree ∧ m.state = n.state ∧
    ∃ skipped q rest, m.currentId? = some q ∧ ahead = skipped ++ q :: rest ∧
      (∀ s ∈ skipped, ¬n.Eligible p s) ∧ n.Eligible p q
  impossible : o = none ↔ ∀ q ∈ ahead, ¬n.Eligible p q

section Viewpoint

variable {config : Config} {T : Table} {n : Navigator} {p q : EntryId} {e pe : Entry}
  {ahead l r : List EntryId} {o : Option Navigator}

theorem eligible_iff (h : n.tree.Sound config) (hp : n.tree.get? p = some pe)
    (hq : n.tree.get? q = some e) :
    n.Eligible p q ↔ q ≠ p ∧ q ≠ Tree.root ∧ n.inReach p q = true := by
  have hpcore := Tree.skeleton_eq_some hp
  have hway : (n.tree.lineage p).map (·.1) = n.tree.skeleton.line p := Tree.lineage_ids h.formed hp
  have htail : ∀ a, a ∈ (n.tree.lineage p).tail.map (·.1) ↔
      a ∈ n.tree.skeleton.line p ∧ a ≠ p := by
    intro a
    rw [List.map_tail, hway, h.formed.mem_tail_line_iff hpcore]
  rw [inReach_eq_true_iff h hp]
  constructor
  · intro heligible
    refine ⟨heligible.other, heligible.below_root, fun a d hmem => ⟨?_, ?_⟩⟩
    · rw [isVisible_eq_true_iff ((h.mem_lineage hq).mp hmem).2, or_iff_not_imp_left]
      intro hout
      exact heligible.passes a d hmem (hway ▸ hout)
    · rw [or_iff_not_imp_left, or_iff_not_imp_left]
      intro haq hout
      exact heligible.expanded a d ((h.mem_tail_lineage hq).mpr ⟨hmem, haq⟩)
        (fun ha => hout ((htail a).mp ha))
  · rintro ⟨hqp, hr, hall⟩
    refine ⟨hqp, hr, ⟨e, hq⟩, fun a d hmem hout => ?_, fun a d hmem hout => ?_⟩
    · have hseen := (hall a d hmem).1.resolve_left (hway ▸ hout)
      exact (isVisible_eq_true_iff ((h.mem_lineage hq).mp hmem).2).mp hseen
    · obtain ⟨hmem, haq⟩ := (h.mem_tail_lineage hq).mp hmem
      exact ((hall a d hmem).2.resolve_left haq).resolve_left fun ha => hout ((htail a).mpr ha)

theorem Reaches.mem (h : n.Reaches p ahead o) {m : Navigator} (hm : o = some m)
    (hq : m.currentId? = some q) : q ∈ ahead := by
  obtain ⟨-, -, skipped, y, rest, hy, rfl, -⟩ := h.nearest m hm
  obtain rfl := Option.some.inj (hy.symm.trans hq)
  exact List.mem_append_right _ List.mem_cons_self

theorem Lands.reaches (h : n.tree.Sound config) (hp : n.tree.get? p = some pe)
    (hahead : ∀ q ∈ ahead, q ≠ p ∧ q ≠ Tree.root ∧ ∃ e, n.tree.get? q = some e)
    (ho : n.Lands o (ahead.find? (n.inReach p))) : n.Reaches p ahead o := by
  have heligible : ∀ q ∈ ahead, (n.Eligible p q ↔ n.inReach p q = true) := by
    intro q hq
    obtain ⟨hqp, hr, e, he⟩ := hahead q hq
    rw [eligible_iff h hp he]
    exact ⟨fun hall => hall.2.2, fun hreach => ⟨hqp, hr, hreach⟩⟩
  constructor
  case nearest =>
    rintro m rfl
    have hcurrent := ho.map_currentId?
    cases hfind : ahead.find? (n.inReach p) with
    | none =>
      rw [hfind] at ho
      cases ho
    | some q =>
      rw [hfind] at ho hcurrent
      obtain ⟨hreach, skipped, rest, hsplit, hskipped⟩ := List.find?_eq_some_iff_append.mp hfind
      obtain ⟨htree, hstate⟩ : m.tree = n.tree ∧ m.state = n.state := by
        cases ho
        exact ⟨rfl, rfl⟩
      refine ⟨htree, hstate, skipped, q, rest, Option.some.inj hcurrent, hsplit, fun s hs => ?_, ?_⟩
      · rw [heligible s (hsplit ▸ List.mem_append_left _ hs)]
        simpa using hskipped s hs
      · exact (heligible q (List.mem_of_find?_eq_some hfind)).mpr hreach
  case impossible =>
    rw [ho.eq_none_iff, List.find?_eq_none]
    exact forall₂_congr fun q hq => not_congr (heligible q hq).symm

theorem steps_reach (h : n.tree.Settled config T) (hs : StandsOn n.tree n.stack p)
    (hr : p ≠ Tree.root) (hsplit : n.tree.preorder = l ++ p :: r) :
    n.Reaches p r n.gotoNext? ∧ n.Reaches p l.reverse n.gotoPrev? := by
  obtain ⟨pe, hp⟩ := hs.exists_entry h.sound
  have hself := inReach_of_mem_line h.sound hp Skeleton.self_mem_line
  have hreach : n.reach p = l.filter (n.inReach p) ++ p :: r.filter (n.inReach p) := by
    rw [reach, hsplit, List.filter_append, List.filter_cons_of_pos hself]
  obtain ⟨hnext, hprev⟩ := steps_from h hs hr hreach
  rw [List.head?_filter] at hnext
  rw [List.getLast?_filter] at hprev
  have hnodup := h.nodup_preorder
  rw [hsplit, List.nodup_middle, List.nodup_cons] at hnodup
  have hother : ∀ q ∈ l ++ r, q ≠ p ∧ q ≠ Tree.root ∧ ∃ e, n.tree.get? q = some e := by
    intro q hq
    have hmem : q ∈ n.tree.preorder := by
      rw [hsplit]
      exact List.perm_middle.mem_iff.mpr (List.mem_cons_of_mem _ hq)
    obtain ⟨hentry, hroot⟩ := h.sound.mem_preorder.mp hmem
    exact ⟨fun hqp => hnodup.1 (hqp ▸ hq), hroot, hentry⟩
  exact ⟨hnext.reaches h.sound hp fun q hq => hother q (List.mem_append_right _ hq),
    hprev.reaches h.sound hp fun q hq => hother q (List.mem_append_left _ (List.mem_reverse.mp hq))⟩

end Viewpoint

variable {name : String} {config : Config} {filter : Option RowFilter} {x : Index}

/-- Wherever the moves and changes of a navigator have left it, a step forward goes to the
first eligible entry behind the current one in depth-first order and a step backward to the
last one before it, judged by the filter and the expansion it has now. So one leads up the
order of positions and the other down. A step for which no entry is eligible leaves the
navigator as it is. -/
theorem steps_to_eligible (hbuild : Index.build name config filter = .ok x)
    (operations : List Operation) (state : NavigatorState) (moves : List Move) :
    let t := (x.run operations).tree
    let n := (start t state).run moves
    ∀ p, n.currentId? = some p → ∃ before behind, t.preorder = before ++ p :: behind ∧
      n.Reaches p behind n.gotoNext? ∧ n.Reaches p before.reverse n.gotoPrev? ∧
      (∀ m q, n.gotoNext? = some m → m.currentId? = some q →
        Position.cmp (t.position p) (t.position q) = .lt) ∧
      (∀ m q, n.gotoPrev? = some m → m.currentId? = some q →
        Position.cmp (t.position q) (t.position p) = .lt) ∧
      ∀ course, n.step? course = none → n.run [.step course] = n := by
  intro t n p hcurrent
  obtain ⟨T, hsettled, -⟩ := Index.exists_settled_run hbuild operations
  have hgrounded : n.Grounded t := (grounded_start t state).run hsettled.sound moves
  obtain ⟨hstands, hr⟩ := hgrounded.standsOn hsettled.sound hcurrent
  obtain ⟨htree, -⟩ := hgrounded
  rw [show (x.run operations).tree = n.tree from htree.symm] at hsettled
  rw [← htree]
  obtain ⟨before, behind, hsplit⟩ := List.append_of_mem
    (hsettled.sound.mem_preorder.mpr ⟨hstands.exists_entry hsettled.sound, hr⟩)
  obtain ⟨hnext, hprev⟩ := steps_reach hsettled hstands hr hsplit
  have hordered := hsettled.pairwise_preorder
  rw [hsplit, List.pairwise_append, List.pairwise_cons] at hordered
  obtain ⟨-, ⟨hbehind, -⟩, hbefore⟩ := hordered
  refine ⟨before, behind, hsplit, hnext, hprev, fun m q hm hq => ?_, fun m q hm hq => ?_,
    fun course hnone => ?_⟩
  · exact hbehind q (hnext.mem hm hq)
  · exact hbefore q (List.mem_reverse.mp (hprev.mem hm hq)) p List.mem_cons_self
  · exact congrArg (Option.getD · n) hnone

/-- The cursor enters a collapsed group, which the filter turns down after that together
with the group inside it. -/
theorem steps_to_eligible_hidden_group :
    let operations : List Operation := [.change (Index.filing 1 (.text "a\\b")),
      .change (Index.filing 2 (.text "a")), .change (Index.filing 3 (.text "c"))]
    let state : NavigatorState := { NavigatorState.start .expanded with
      expansion := (ExpansionSet.start .expanded).collapse (.category 1) }
    let filtered : NavigatorState := { state with
      visibility := some fun e => !e.isCategory || e.scopedId == .category 3 }
    let t := (Index.grouped.run operations).tree
    let n := (start t state).run [.first, .child .backward, .adopt filtered]
    Index.build "grouped" Index.grouped.config none = .ok Index.grouped ∧
      t.preorder = [1, 2, 3, 4, 5, 6] ∧ n.trail = [5, 6] ∧ n.currentId? = some 4 ∧
      n.gotoNext?.map (·.currentId?) = some (some 5) ∧
      n.gotoPrev?.map (·.currentId?) = some (some 1) ∧
      ∃ before behind, t.preorder = before ++ 4 :: behind ∧
        n.Reaches 4 behind n.gotoNext? ∧ n.Reaches 4 before.reverse n.gotoPrev? := by
  intro operations state filtered t n
  have hcurrent : n.currentId? = some 4 := by decide +kernel
  obtain ⟨before, behind, hsplit, hnext, hprev, -⟩ := steps_to_eligible Index.build_grouped
    operations state [.first, .child .backward, .adopt filtered] 4 hcurrent
  exact ⟨Index.build_grouped, by decide +kernel, by decide +kernel, hcurrent, by decide +kernel,
    by decide +kernel, before, behind, hsplit, hnext, hprev⟩

end CategorizedIndex.Navigator
