import CategorizedIndex.Proofs.Navigator.Steps

/-! # Walks from end to end

Entering last children leads to the last entry of a stretch, so a step backward leads to
the entry before the current one in what is in reach from it. From an entry of the trail
that is the trail, so steps in either course go through it entry by entry, and a walk from
one end stops at the other.
-/
namespace CategorizedIndex.Navigator

variable {config : Config} {T : Table} {n : Navigator} {p x y : EntryId} {e pe : Entry}
  {level : LevelCursor} {stack above : List LevelCursor} {o : Option Navigator}
  {l r : List EntryId}

theorem getLast?_stretch_ne_none (hreach : n.inReach p x = true) :
    (n.stretch p x).getLast? ≠ none := by
  rw [stretch_eq hreach]
  intro hnone
  exact List.cons_ne_nil _ _ (List.getLast?_eq_none_iff.mp hnone)

theorem getLast?_append_stretch (hreach : n.inReach p x = true) (l : List EntryId) :
    (l ++ n.stretch p x).getLast? = (n.stretch p x).getLast? := by
  rw [List.getLast?_append]
  cases hlast : (n.stretch p x).getLast? with
  | none => exact absurd hlast (getLast?_stretch_ne_none hreach)
  | some y => rfl

theorem passed_eq (h : n.tree.Sound config) (hs : StandsOn n.tree (level :: above) x) :
    n.passed p (level :: above) =
      n.passed p above ++ n.stretches p (level.beyond .backward).reverse ++ [x] := by
  obtain ⟨-, -, -, k, -, -, -, hrests, -, -⟩ := hs.exists_parent h
  rw [passed, LevelCursor.currentId?, hrests.current, List.append_assoc]
  rfl

section Viewpoint

variable (h : n.tree.Sound config) (hp : n.tree.get? p = some pe)

include h hp

/-- Entering an open entry from behind leads into the last stretch inside it. -/
theorem enter?_last (hs : StandsOn n.tree stack x) (hx : n.tree.get? x = some e)
    (hreach : n.inReach p x = true) (hout : ¬(x ∈ n.tree.skeleton.line p ∧ x ≠ p))
    (hopen : n.isOpen x = true) :
    (∃ child deeper, n.enter? stack x .backward = some (deeper :: stack) ∧
      child ∈ e.children.toList ∧ StandsOn n.tree (deeper :: stack) child.2 ∧
      n.inReach p child.2 = true ∧ child.2 ∉ n.tree.skeleton.line p ∧
      (n.inside p x).getLast? = (n.stretch p child.2).getLast?) ∨
    (n.enter? stack x .backward = none ∧ n.inside p x = []) := by
  have ho := offered_line h hp hx hreach hout hopen .backward
  have hinside : n.inside p x =
      n.stretches p (Course.backward.line e.children.toList).reverse := by
    rw [inside_eq_stretches h hx, Course.line, List.reverse_reverse]
  rcases enter?_spec h hs hx .backward with ⟨child, rest, deeper, henter, hnearest, hdeeper⟩ |
    ⟨hnone, hhidden⟩
  · obtain ⟨hchild, hchildout, -, hstretches⟩ := ho.nearest h hp hnearest
    refine Or.inl ⟨child, deeper, henter, Course.mem_line.mp hnearest.mem, hdeeper, hchild,
      hchildout, ?_⟩
    rw [hinside, hstretches, getLast?_append_stretch hchild]
  · refine Or.inr ⟨hnone, hinside.trans (ho.reverse.stretches_eq_nil h hp fun c hc => ?_)⟩
    exact hhidden c (List.mem_reverse.mp hc)

/-- Entering last children ends on the last entry of the stretch. -/
theorem descendLast_spec {fuel : Nat} (hs : StandsOn n.tree stack x) (hr : x ≠ Tree.root)
    (hreach : n.inReach p x = true) (hout : x ∉ n.tree.skeleton.line p)
    (hfuel : (n.tree.skeleton.below n.tree.nextEntry x).card < fuel) :
    ∃ y, StandsOn n.tree (n.descendLast fuel stack) y ∧ y ≠ Tree.root ∧
      (n.stretch p x).getLast? = some y := by
  induction fuel generalizing stack x with
  | zero => exact absurd hfuel (Nat.not_lt_zero _)
  | succ fuel ih =>
    obtain ⟨e, hx⟩ := hs.exists_entry h
    have hside : ¬(x ∈ n.tree.skeleton.line p ∧ x ≠ p) := fun hway => hout hway.1
    have hlast : (n.stretch p x).getLast? = some ((n.inside p x).getLast?.getD x) := by
      rw [stretch_eq hreach, List.getLast?_cons]
    have hstay : n.inside p x = [] → ∃ y, StandsOn n.tree stack y ∧ y ≠ Tree.root ∧
        (n.stretch p x).getLast? = some y := fun hnil => ⟨x, hs, hr, by rw [hlast, hnil]; rfl⟩
    rw [descendLast, hs.currentId?_eq, if_neg (hs.ne_nil hr)]
    cases hopen : n.isOpen x with
    | false =>
      simp only [hopen, Bool.false_eq_true, if_false]
      exact hstay (inside_eq_nil h hp hx hside hopen)
    | true =>
      simp only [hopen, if_true]
      rcases enter?_last h hp hs hx hreach hside hopen with
        ⟨child, deeper, henter, hmem, hdeeper, hchild, hchildout, hend⟩ | ⟨hnone, hnil⟩
      · have hless := h.card_below_child hx (mem_ids_of_mem hmem)
        obtain ⟨y, hy, hyr, hylast⟩ := ih hdeeper (hdeeper.ne_root h) hchild hchildout (by omega)
        refine ⟨y, ?_, hyr, by rw [hlast, hend, hylast]; rfl⟩
        rw [henter]
        exact hy
      · rw [hnone]
        exact hstay hnil

theorem toDeepestLast_lands (hs : StandsOn n.tree stack x) (hr : x ≠ Tree.root)
    (hreach : n.inReach p x = true) (hout : x ∉ n.tree.skeleton.line p) :
    n.Lands (some (n.withStack (n.toDeepestLast stack))) (n.stretch p x).getLast? := by
  obtain ⟨y, hy, hyr, hlast⟩ := descendLast_spec h hp hs hr hreach hout (h.card_below_lt_size x)
  rw [hlast]
  exact .arrives hy hyr

theorem gotoPrev?_lands (hs : StandsOn n.tree n.stack p) (hr : p ≠ Tree.root)
    (hl : n.passed p n.stack = l ++ [p]) : n.Lands n.gotoPrev? l.getLast? := by
  rw [gotoPrev?, currentId?]
  cases hstack : n.stack with
  | nil => exact absurd hstack (hs.ne_nil hr)
  | cons level above =>
    rw [hstack] at hs hl
    obtain ⟨q, -, -, -, habove, -⟩ := hs.exists_parent h
    have ho := offered_beyond h hp hs Skeleton.self_mem_line .backward
    have hbefore := List.append_cancel_right ((passed_eq h hs).symm.trans hl)
    rw [hs.currentId?_eq, if_neg (List.cons_ne_nil _ _)]
    rcases advance_spec h hs .backward with ⟨child, rest, moved, hmoved, hnearest, hstands⟩ |
      ⟨hfail, hhidden⟩
    · obtain ⟨hchild, hout, -, hstretches⟩ := ho.nearest h hp hnearest
      simp only [hmoved]
      rw [← hbefore, hstretches, ← List.append_assoc, getLast?_append_stretch hchild]
      exact toDeepestLast_lands h hp hstands (hstands.ne_root h) hchild hout
    · have hnil := ho.reverse.stretches_eq_nil h hp fun c hc => hhidden c (List.mem_reverse.mp hc)
      rw [hnil, List.append_nil] at hbefore
      simp only [hfail]
      -- without an earlier sibling the step goes to the parent, unless that is the root
      cases above with
      | nil =>
        rw [← hbefore]
        exact .ends
      | cons level' above' =>
        rw [← hbefore, passed_eq h habove, List.getLast?_concat, if_neg (List.cons_ne_nil _ _)]
        exact .arrives habove (habove.ne_root h)

end Viewpoint

/-- From any entry steps lead to its neighbours in what is in reach. -/
theorem steps_from (h : n.tree.Settled config T) (hs : StandsOn n.tree n.stack p)
    (hr : p ≠ Tree.root) (hreach : n.reach p = l ++ p :: r) :
    n.Lands n.gotoNext? r.head? ∧ n.Lands n.gotoPrev? l.getLast? := by
  obtain ⟨pe, hp⟩ := hs.exists_entry h.sound
  obtain ⟨level, above, hstack⟩ := List.exists_cons_of_ne_nil (hs.ne_nil hr)
  have hpassed := passed_eq (p := p) h.sound (hstack ▸ hs)
  have hsplit := reach_eq_append h.sound hp hs Skeleton.self_mem_line
  rw [hstack, hpassed, List.append_assoc, List.singleton_append, ← hstack] at hsplit
  have hnodup : (n.reach p).Nodup := h.nodup_preorder.sublist List.filter_sublist
  rw [hreach, List.nodup_middle, List.nodup_cons, List.mem_append, not_or] at hnodup
  obtain ⟨⟨hpl, hpr⟩, -⟩ := hnodup
  rw [hreach, List.append_cons_inj_of_notMem hpl hpr] at hsplit
  obtain ⟨rfl, -, rfl⟩ := hsplit
  exact ⟨gotoNext?_lands h.sound hp hs hr, gotoPrev?_lands h.sound hp hs hr (hstack ▸ hpassed)⟩

theorem steps_land (h : n.tree.Settled config T) (hs : StandsOn n.tree n.stack x)
    (hr : x ≠ Tree.root) (htrail : n.trail = l ++ x :: r) :
    n.Lands n.gotoNext? r.head? ∧ n.Lands n.gotoPrev? l.getLast? := by
  have hmem : x ∈ n.trail := by
    rw [htrail]
    exact List.mem_append_right _ List.mem_cons_self
  obtain ⟨e, hx⟩ := hs.exists_entry h.sound
  have hreach := reach_eq_trail h.sound hx (List.mem_filter.mp hmem).2
  exact steps_from h hs hr (hreach.trans htrail)

theorem gotoFirst?_lands (h : n.tree.Sound config) : n.Lands n.gotoFirst? n.trail.head? := by
  obtain ⟨e, hroot, -⟩ := Tree.exists_root h.formed
  rw [← reach_eq_trail h hroot (onTrail_root h), reach_eq]
  exact enter?_lands h hroot .root (inReach_root h hroot) (fun hne => hne.2 rfl) (isOpen_root h)

theorem gotoLast?_lands (h : n.tree.Sound config) : n.Lands n.gotoLast? n.trail.getLast? := by
  obtain ⟨e, hroot, -⟩ := Tree.exists_root h.formed
  rw [← reach_eq_trail h hroot (onTrail_root h), reach_eq]
  unfold gotoLast?
  rcases enter?_last h hroot .root hroot (inReach_root h hroot) (fun hne => hne.2 rfl)
    (isOpen_root h) with
    ⟨child, deeper, henter, -, hdeeper, hchild, hout, hlast⟩ | ⟨hnone, hnil⟩
  · rw [hlast, henter]
    exact toDeepestLast_lands h hroot hdeeper (hdeeper.ne_root h) hchild hout
  · rw [hnil, hnone]
    exact .ends

/-- Taking a step again and again from where a move ended, until there is none, visits
the entries of a list. -/
inductive Visits (step : Navigator → Option Navigator) : Option Navigator → List EntryId → Prop
  | stop : Visits step none []
  | go {m : Navigator} {x : EntryId} {rest : List EntryId} (hcurrent : m.currentId? = some x)
      (hrest : Visits step (step m) rest) : Visits step (some m) (x :: rest)

namespace Lands

variable {z : Option EntryId}

theorem of_withStack (h : (n.withStack stack).Lands o z) : n.Lands o z := by
  cases h with
  | arrives hs hr => exact .arrives hs hr
  | ends => exact .ends

theorem map_currentId? (h : n.Lands o z) : o.map (·.currentId?) = z.map some := by
  cases h with
  | @arrives stack x hs hr =>
    exact congrArg some (hs.currentId?_eq.trans (if_neg (hs.ne_nil hr)))
  | ends => rfl

theorem eq_none_iff (h : n.Lands o z) : o = none ↔ z = none := by
  cases h with
  | arrives => exact iff_of_false (Option.some_ne_none _) (Option.some_ne_none _)
  | ends => exact iff_of_true rfl rfl

theorem visits_next (h : n.tree.Settled config T) (ho : n.Lands o r.head?)
    (htrail : n.trail = l ++ r) : Visits gotoNext? o r := by
  induction r generalizing o l with
  | nil =>
    cases ho
    exact .stop
  | cons x r ih =>
    rw [List.head?_cons] at ho
    have hcurrent := ho.map_currentId?
    cases ho with
    | @arrives stack _ hs hr =>
      have hnext := (steps_land (n := n.withStack stack) h hs hr htrail).1
      refine .go (Option.some.inj hcurrent) (ih (l := l ++ [x]) hnext.of_withStack ?_)
      rw [htrail, List.append_assoc, List.singleton_append]

theorem visits_prev (h : n.tree.Settled config T) (ho : n.Lands o l.getLast?)
    (htrail : n.trail = l ++ r) : Visits gotoPrev? o l.reverse := by
  induction l using List.reverseRecOn generalizing o r with
  | nil =>
    cases ho
    exact .stop
  | append_singleton l x ih =>
    rw [List.getLast?_concat] at ho
    rw [List.append_assoc, List.singleton_append] at htrail
    rw [List.reverse_concat]
    have hcurrent := ho.map_currentId?
    cases ho with
    | @arrives stack _ hs hr =>
      have hprev := (steps_land (n := n.withStack stack) h hs hr htrail).2
      exact .go (Option.some.inj hcurrent) (ih hprev.of_withStack htrail)

end Lands

end CategorizedIndex.Navigator
