import CategorizedIndex.Proofs.Tree.Attach

/-! # Detaching

Taking away an entry without children keeps a tree sound. The skeleton loses that core
and nothing else; counters above go back to what they would be without it, so none is
ever taken below zero.
-/
namespace CategorizedIndex.Tree

variable {config : Config} {t : Tree} {id p : EntryId} {e : Entry}

/-- An entry after a leaf with the given key was taken away from `p`. -/
def afterDetach (F : Skeleton) (p : EntryId) (key : SortKey) (isCategory : Bool) (x : EntryId)
    (e : Entry) : Entry :=
  let linked := if x = p then e.counters.childDetached isCategory else e.counters
  { e with
    children := if x = p then e.children.erase key else e.children
    counters := if x ∈ F.line p then linked.descendantDetached isCategory else linked }

/-- The tree without an entry under `p`. -/
def plucked (t : Tree) (id : EntryId) (e : Entry) (p : EntryId) : Tree :=
  ({ t with arena := t.arena.erase id, unnumbered := t.unnumbered.erase id }.unlink id e p).unindex
    id e.scopedId

theorem detach?_eq (hr : id ≠ root) (hid : t.get? id = some e) (hp : e.parent = some p) :
    t.detach? id = some (e, t.plucked id e p) := by
  rw [detach?, if_neg hr, hid]
  simp only [hp]
  rfl

theorem arena_unindex (t : Tree) (id : EntryId) (s : ScopedId) :
    (t.unindex id s).arena = t.arena ∧ (t.unindex id s).nextEntry = t.nextEntry ∧
      (t.unindex id s).lastCategory = t.lastCategory ∧
      (t.unindex id s).unnumbered = t.unnumbered := by
  unfold unindex
  split <;> exact ⟨rfl, rfl, rfl, rfl⟩

@[simp] theorem nextEntry_plucked : (t.plucked id e p).nextEntry = t.nextEntry := by
  rw [plucked, (arena_unindex _ _ _).2.1]
  simp only [unlink, recount]
  rw [modifyAll_frame]
  rfl

@[simp] theorem lastCategory_plucked : (t.plucked id e p).lastCategory = t.lastCategory := by
  rw [plucked, (arena_unindex _ _ _).2.2.1]
  simp only [unlink, recount]
  rw [modifyAll_frame]
  rfl

theorem mem_unnumbered_plucked {x : EntryId} :
    x ∈ (t.plucked id e p).unnumbered ↔ x ≠ id ∧ (x = p ∨ x ∈ t.unnumbered) := by
  rw [plucked, (arena_unindex _ _ _).2.2.2]
  simp only [unlink, recount]
  rw [modifyAll_frame]
  simp only [modify, Std.ExtTreeSet.mem_erase, Std.ExtTreeSet.mem_insert,
    Std.LawfulEqOrd.compare_eq_iff_eq, ne_eq, eq_comm (a := p), eq_comm (a := id)]
  constructor
  · rintro ⟨hne, h | h⟩
    · exact ⟨hne, Or.inl h⟩
    · exact ⟨hne, Or.inr h.2⟩
  · rintro ⟨hne, h | h⟩
    · exact ⟨hne, Or.inl h⟩
    · exact ⟨hne, Or.inr ⟨hne, h⟩⟩

theorem getElem?_placements_unindex (t : Tree) (id : EntryId) (a s : ScopedId) :
    (t.unindex id a).placements[s]? =
      if a = s then
        match (t.placementsOf s).filter (· != id) with
        | [] => none
        | rest => some rest
      else t.placements[s]? := by
  unfold unindex placementsOf
  rw [Std.ExtTreeMap.getD_eq_getD_getElem?]
  by_cases hs : a = s
  · subst hs
    rw [if_pos rfl]
    cases hp : t.placements[a]? with
    | none => simp [hp]
    | some ids =>
      simp only [Option.getD_some]
      cases hf : ids.filter (· != id) with
      | nil => simp
      | cons b rest => simp
  · rw [if_neg hs]
    cases hp : t.placements[a]? with
    | none => rfl
    | some ids =>
      simp only
      cases hf : ids.filter (· != id) with
      | nil => simp [Std.ExtTreeMap.getElem?_erase, hs]
      | cons b rest => simp [Std.ExtTreeMap.getElem?_insert, hs]

theorem getElem?_placements_plucked (s : ScopedId) :
    (t.plucked id e p).placements[s]? =
      if e.scopedId = s then
        match (t.placementsOf s).filter (· != id) with
        | [] => none
        | rest => some rest
      else t.placements[s]? := by
  have hsame : ({ t with
      arena := t.arena.erase id
      unnumbered := t.unnumbered.erase id }.unlink id e p).placements = t.placements := by
    simp only [unlink, recount]
    rw [modifyAll_frame]
    rfl
  rw [plucked, getElem?_placements_unindex, placementsOf, hsame]
  rfl

theorem skeleton_unindex (t : Tree) (id : EntryId) (s : ScopedId) :
    (t.unindex id s).skeleton = t.skeleton := by
  funext x
  rw [skeleton, get?, (arena_unindex t id s).1]
  rfl

theorem skeleton_unlink (t : Tree) (id : EntryId) (e : Entry) (p : EntryId) :
    (t.unlink id e p).skeleton = t.skeleton := by
  let link (q : Entry) : Entry :=
    { q with
      children := q.children.erase e.key
      counters := q.counters.childDetached e.isCategory }
  exact (skeleton_recount _ p _).trans (skeleton_modify (f := link) (fun _ => rfl) p)

theorem skeleton_erase (t : Tree) (id : EntryId) :
    skeleton { t with arena := t.arena.erase id, unnumbered := t.unnumbered.erase id } =
      t.skeleton.without id := by
  funext x
  by_cases hx : x = id
  · simp [skeleton, get?, hx]
  · simp [skeleton, get?, Std.ExtTreeMap.getElem?_erase, Ne.symm hx, Skeleton.without_of_ne hx]

theorem skeleton_plucked : (t.plucked id e p).skeleton = t.skeleton.without id :=
  (skeleton_unindex _ _ _).trans ((skeleton_unlink _ _ _ _).trans (skeleton_erase t id))

namespace Sound

variable (h : t.Sound config) (hid : t.get? id = some e) (hp : e.parent = some p)
  (hleaf : e.children.toList = [])
include h hid

theorem parent_ne_of_leaf (hleaf : e.children.toList = []) {x : EntryId} {c : Core}
    (hx : t.skeleton x = some c) : c.parent ≠ some id := by
  intro hpar
  have hmem := (h.children hid c.key x).mpr ⟨c, hx, hpar, rfl⟩
  rw [hleaf] at hmem
  cases hmem

theorem formed_without (hp : e.parent = some p) (hleaf : e.children.toList = []) :
    (t.skeleton.without id).WellFormed config t.nextEntry :=
  h.formed.without (h.formed.ne_root (skeleton_eq_some hid) hp)
    fun _ _ hx => h.parent_ne_of_leaf hid hleaf hx

include hp hleaf

omit hp in
theorem line_without {x : EntryId} {c : Core} (hx : t.skeleton x = some c) (hne : x ≠ id) :
    (t.skeleton.without id).line x = t.skeleton.line x :=
  Skeleton.line_congr fun y hy => Skeleton.without_of_ne fun heq => by
    subst heq
    obtain ⟨z, cz, -, hz, hpar⟩ := h.formed.exists_child_of_mem_line hx hy hne.symm
    exact h.parent_ne_of_leaf hid hleaf hz hpar

theorem get?_plucked (x : EntryId) :
    (t.plucked id e p).get? x =
      if x = id then none
      else (t.get? x).map (afterDetach t.skeleton p e.key e.isCategory x) := by
  let removed : Tree := { t with arena := t.arena.erase id, unnumbered := t.unnumbered.erase id }
  let link (q : Entry) : Entry :=
    { q with
      children := q.children.erase e.key
      counters := q.counters.childDetached e.isCategory }
  have hc := skeleton_eq_some hid
  have hremoved : ∀ y, removed.get? y = if y = id then none else t.get? y := by
    intro y
    simp only [removed, get?, Std.ExtTreeMap.getElem?_erase, Std.LawfulEqOrd.compare_eq_iff_eq,
      eq_comm (a := id)]
  have hlink : (removed.modify p link).skeleton = t.skeleton.without id :=
    (skeleton_modify (f := link) (fun _ => rfl) p).trans (skeleton_erase t id)
  obtain ⟨pc, hpc, -⟩ := h.formed.parent_category hc hp
  have hlt := h.formed.parent_lt hc hp
  obtain ⟨pe, hpe, -⟩ := skeleton_eq_some_iff.mp hpc
  have hpid : p ≠ id := hlt.ne
  have hlinked : (removed.modify p link).get? p = some (link pe) := by
    rw [get?_modify, if_pos rfl, hremoved, if_neg hpid, hpe, Option.map_some]
  have hformed : (removed.modify p link).skeleton.WellFormed config t.nextEntry :=
    hlink ▸ h.formed_without hid hp hleaf
  have hline : (removed.modify p link).skeleton.line p = t.skeleton.line p := by
    rw [hlink, h.line_without hid hleaf hpc hpid]
  have hplucked : (t.plucked id e p).get? x =
      ((removed.modify p link).recount p (·.descendantDetached e.isCategory)).get? x := by
    rw [get?, plucked, (arena_unindex _ _ _).1]
    rfl
  rw [hplucked, get?_recount hformed hlinked, hline, get?_modify, hremoved]
  by_cases hx : x = id
  · simp [hx]
  · by_cases hxp : p = x
    · subst hxp
      simp only [hx, if_true, if_false, Option.map_map]
      congr 1
      funext a
      simp [afterDetach, link, Skeleton.self_mem_line]
    · simp only [hx, hxp, if_false]
      congr 1
      funext a
      simp only [afterDetach, Ne.symm hxp, if_false]

theorem get?_plucked_cases {x : EntryId} {e' : Entry}
    (hx : (t.plucked id e p).get? x = some e') :
    x ≠ id ∧ ∃ a, t.get? x = some a ∧ e' = afterDetach t.skeleton p e.key e.isCategory x a := by
  rw [h.get?_plucked hid hp hleaf] at hx
  by_cases hxid : x = id
  · rw [if_pos hxid] at hx
    cases hx
  · rw [if_neg hxid] at hx
    obtain ⟨a, ha, rfl⟩ := Option.map_eq_some_iff.mp hx
    exact ⟨hxid, a, ha, rfl⟩

/-- Counters are taken down to what they are without the leaf. -/
theorem counters_afterDetach {x : EntryId} {a : Entry} (hx : t.get? x = some a) (hne : x ≠ id) :
    (afterDetach t.skeleton p e.key e.isCategory x a).counters =
      (t.skeleton.without id).count t.nextEntry x := by
  have hc := skeleton_eq_some hid
  have hformed := h.formed_without hid hp hleaf
  obtain ⟨pc, hpc, -⟩ := h.formed.parent_category hc hp
  have hlt := h.formed.parent_lt hc hp
  have hpc' : t.skeleton.without id p = some pc :=
    (Skeleton.without_of_ne hlt.ne).trans hpc
  have hcount := Skeleton.count_grow (c := e.core) hformed Skeleton.without_self
    (h.formed.bounded hc) hlt hp hpc' hne
  rw [Skeleton.grow_without hc, h.line_without hid hleaf hpc hlt.ne, ← h.counters hx] at hcount
  simp only [afterDetach, hcount]
  have hcat : e.core.isCategory = e.isCategory := rfl
  rw [hcat]
  by_cases hxp : x = p
  · have hmem : p ∈ t.skeleton.line p := Skeleton.self_mem_line
    simp only [hxp, hmem, if_true]
    cases e.isCategory <;> rfl
  · by_cases hmem : x ∈ t.skeleton.line p
    · simp only [hxp, hmem, if_true, if_false, Counters.descendantDetached_descendantAttached]
    · simp only [hxp, hmem, if_false]

omit hleaf in
theorem children_afterDetach {x : EntryId} {a : Entry} (hx : t.get? x = some a)
    (k : SortKey) (y : EntryId) :
    (k, y) ∈ (afterDetach t.skeleton p e.key e.isCategory x a).children.toList ↔
      ∃ c, t.skeleton.without id y = some c ∧ c.parent = some x ∧ c.key = k := by
  have hc := skeleton_eq_some hid
  have hmem := h.children hx k y
  by_cases hxp : x = p
  · subst hxp
    have hin : (e.key, id) ∈ a.children.toList :=
      (h.children hx e.key id).mpr ⟨e.core, hc, hp, rfl⟩
    simp only [afterDetach, if_true]
    rw [Siblings.mem_erase (h.sorted hx) hin, hmem]
    by_cases hy : y = id
    · subst hy
      simp only [Skeleton.without_self, reduceCtorEq, false_and, exists_false, iff_false, not_and,
        not_exists, not_and]
      intro hne c hc' hpar hk
      obtain rfl := Option.some.inj (hc.symm.trans hc')
      exact hne (by rw [← hk]; rfl)
    · simp only [Skeleton.without_of_ne hy, ne_eq, Prod.mk.injEq, hy, and_false,
        not_false_eq_true, true_and]
  · simp only [afterDetach, hxp, if_false]
    rw [hmem]
    by_cases hy : y = id
    · subst hy
      simp only [Skeleton.without_self, hc, reduceCtorEq, false_and, exists_false, iff_false,
        Option.some.injEq, exists_eq_left', not_and]
      intro hpar
      exact absurd (Option.some.inj (hpar.symm.trans hp)) hxp
    · rw [Skeleton.without_of_ne hy]

/-- Taking a leaf away keeps a tree sound. -/
theorem plucked : (t.plucked id e p).Sound config := by
  have hF : (t.plucked id e p).skeleton = t.skeleton.without id := skeleton_plucked
  have hc := skeleton_eq_some hid
  have hplaced : ∀ s, e.scopedId ≠ s → (t.placementsOf s).filter (· != id) = t.placementsOf s := by
    intro s hs
    rw [h.placements, List.filter_eq_self]
    intro x hx
    obtain ⟨c, hxc, rfl⟩ := (Skeleton.mem_placed h.formed).mp hx
    refine bne_iff_ne.mpr fun heq => hs ?_
    subst heq
    obtain rfl := Option.some.inj (hc.symm.trans hxc)
    rfl
  constructor
  case formed =>
    rw [hF, nextEntry_plucked]
    exact h.formed_without hid hp hleaf
  case sorted =>
    intro x e' hx
    obtain ⟨-, a, ha, rfl⟩ := h.get?_plucked_cases hid hp hleaf hx
    by_cases hxp : x = p
    · simp only [afterDetach, hxp, if_true]
      exact Siblings.sorted_erase (h.sorted ha) _
    · simp only [afterDetach, hxp, if_false]
      exact h.sorted ha
  case children =>
    intro x e' hx k y
    obtain ⟨-, a, ha, rfl⟩ := h.get?_plucked_cases hid hp hleaf hx
    rw [hF]
    exact h.children_afterDetach hid hp ha k y
  case counters =>
    intro x e' hx
    obtain ⟨hne, a, ha, rfl⟩ := h.get?_plucked_cases hid hp hleaf hx
    rw [hF, nextEntry_plucked]
    exact h.counters_afterDetach hid hp hleaf ha hne
  case placements =>
    intro s
    rw [hF, nextEntry_plucked, Skeleton.placed_without, ← h.placements, placementsOf,
      Std.ExtTreeMap.getD_eq_getD_getElem?, getElem?_placements_plucked]
    by_cases hs : e.scopedId = s
    · simp only [hs, if_true]
      cases (t.placementsOf s).filter (· != id) <;> rfl
    · rw [if_neg hs, hplaced s hs, placementsOf, Std.ExtTreeMap.getD_eq_getD_getElem?]
  case indexed =>
    intro s
    rw [getElem?_placements_plucked]
    by_cases hs : e.scopedId = s
    · simp only [hs, if_true]
      cases (t.placementsOf s).filter (· != id) <;> simp
    · rw [if_neg hs]
      exact h.indexed s
  case ranks =>
    intro x e' hx hun i k y hi
    obtain ⟨hne, a, ha, rfl⟩ := h.get?_plucked_cases hid hp hleaf hx
    rw [mem_unnumbered_plucked, not_and, not_or] at hun
    obtain ⟨hxp, hxun⟩ := hun hne
    have hin := (h.children_afterDetach hid hp ha k y).mp (List.mem_of_getElem? hi)
    obtain ⟨c, hy, -⟩ := hin
    have hyid : y ≠ id := (Skeleton.without_eq_some_iff.mp hy).1
    simp only [afterDetach, hxp, if_false] at hi
    rw [h.get?_plucked hid hp hleaf, if_neg hyid, Option.map_map]
    exact h.ranks ha hxun i k y hi

end Sound

end CategorizedIndex.Tree
