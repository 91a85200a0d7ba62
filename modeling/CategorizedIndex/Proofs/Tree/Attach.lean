import CategorizedIndex.Proofs.Tree.Sound

/-! # Attaching

A new entry under a category keeps a tree sound if its core is built as the
configuration says and its label is new there. The skeleton grows by that core under
the next handle, and nothing else about it changes.
-/
namespace CategorizedIndex.Tree

variable {config : Config} {t : Tree} {p : EntryId} {pc : Core}

def afterAttach (F : Skeleton) (p leaf : EntryId) (key : SortKey) (isCategory : Bool)
    (x : EntryId) (e : Entry) : Entry :=
  let linked := if x = p then e.counters.childAttached isCategory else e.counters
  { e with
    children := if x = p then e.children.insert key leaf else e.children
    counters := if x ∈ F.line p then linked.descendantAttached isCategory else linked }

variable {scopedId : ScopedId} {unid : String} {key : SortKey} {values : ColumnValues}

/-- The categories below the root. -/
def categoryCount (t : Tree) : Nat :=
  (t.skeleton.count t.nextEntry root).descendantCategories

def newCore (p : EntryId) (scopedId : ScopedId) (unid : String) (key : SortKey)
    (values : ColumnValues) : Core := ⟨scopedId, unid, key, values, some p⟩

theorem get?_attach (h : t.Sound config) (hp : t.skeleton p = some pc) (x : EntryId) :
    (t.attach p scopedId unid key values).get? x =
      if x = t.nextEntry then some (.new scopedId unid key values (some p))
      else (t.get? x).map
        (afterAttach t.skeleton p t.nextEntry key scopedId.isCategory x) := by
  let link (e : Entry) : Entry :=
    { e with
      children := e.children.insert key t.nextEntry
      counters := e.counters.childAttached scopedId.isCategory }
  have hskel : (t.modify p link).skeleton = t.skeleton := skeleton_modify (f := link) (fun _ => rfl) p
  obtain ⟨pe, hpe, -⟩ := skeleton_eq_some_iff.mp hp
  have hlinked : (t.modify p link).get? p = some (link pe) := by
    rw [get?_modify, if_pos rfl, hpe, Option.map_some]
  have hformed : (t.modify p link).skeleton.WellFormed config t.nextEntry := hskel ▸ h.formed
  have hrecount := get?_recount hformed hlinked (·.descendantAttached scopedId.isCategory) x
  have harena : (t.attach p scopedId unid key values).get? x =
      if x = t.nextEntry then some (.new scopedId unid key values (some p))
      else ((t.modify p link).recount p (·.descendantAttached scopedId.isCategory)).get? x := by
    simp only [attach, get?, Std.ExtTreeMap.getElem?_insert, Std.LawfulEqOrd.compare_eq_iff_eq,
      eq_comm (a := t.nextEntry), link]
  rw [harena, hrecount, hskel, get?_modify]
  by_cases hx : x = p
  · subst hx
    simp only [if_true, Option.map_map]
    congr 2
    funext e
    simp [afterAttach, link, Skeleton.self_mem_line]
  · rw [if_neg (Ne.symm hx)]
    congr 2
    funext e
    simp only [afterAttach, hx, if_false]

theorem skeleton_attach : (t.attach p scopedId unid key values).skeleton =
    t.skeleton.grow t.nextEntry (newCore p scopedId unid key values) := by
  let link (e : Entry) : Entry :=
    { e with
      children := e.children.insert key t.nextEntry
      counters := e.counters.childAttached scopedId.isCategory }
  have hcounted : ((t.modify p link).recount p
      (·.descendantAttached scopedId.isCategory)).skeleton = t.skeleton :=
    (skeleton_recount _ _ _).trans (skeleton_modify (f := link) (fun _ => rfl) p)
  funext x
  by_cases hx : x = t.nextEntry
  · simp only [skeleton, attach, get?, Std.ExtTreeMap.getElem?_insert, hx,
      Std.LawfulEqOrd.compare_eq_iff_eq, if_true, Skeleton.grow_self]
    rfl
  · rw [Skeleton.grow_of_ne hx, ← hcounted]
    simp only [skeleton, attach, get?, Std.ExtTreeMap.getElem?_insert,
      Std.LawfulEqOrd.compare_eq_iff_eq, Ne.symm hx, if_false, link]

theorem modifyAll_frame (t : Tree) (ids : List EntryId) (f : Entry → Entry) :
    t.modifyAll ids f = { t with arena := (t.modifyAll ids f).arena } := by
  induction ids generalizing t with
  | nil => rfl
  | cons a rest ih => exact ih (t.modify a f)

theorem getElem?_placements_attach (s : ScopedId) :
    (t.attach p scopedId unid key values).placements[s]? =
      if scopedId = s then some (t.placementsOf s ++ [t.nextEntry]) else t.placements[s]? := by
  simp only [attach, placementsOf, recount]
  rw [modifyAll_frame, Std.ExtTreeMap.getElem?_insert]
  simp only [Std.LawfulEqOrd.compare_eq_iff_eq]
  split
  · next heq =>
    subst heq
    rfl
  · rfl

theorem placementsOf_attach (s : ScopedId) :
    (t.attach p scopedId unid key values).placementsOf s =
      if scopedId = s then t.placementsOf s ++ [t.nextEntry] else t.placementsOf s := by
  rw [placementsOf, Std.ExtTreeMap.getD_eq_getD_getElem?, getElem?_placements_attach]
  split
  · rfl
  · rw [placementsOf, Std.ExtTreeMap.getD_eq_getD_getElem?]

@[simp] theorem nextEntry_attach :
    (t.attach p scopedId unid key values).nextEntry = t.nextEntry + 1 := rfl

@[simp] theorem lastCategory_attach :
    (t.attach p scopedId unid key values).lastCategory = t.lastCategory := by
  simp only [attach, recount]
  rw [modifyAll_frame]
  rfl

theorem mem_unnumbered_attach {x : EntryId} :
    x ∈ (t.attach p scopedId unid key values).unnumbered ↔ x = p ∨ x ∈ t.unnumbered := by
  simp only [attach, recount]
  rw [modifyAll_frame, Std.ExtTreeSet.mem_insert, Std.LawfulEqOrd.compare_eq_iff_eq,
    eq_comm (a := p)]
  rfl

namespace Sound

variable (h : t.Sound config)
include h

theorem skeleton_nextEntry : t.skeleton t.nextEntry = none := by
  cases hs : t.skeleton t.nextEntry with
  | none => rfl
  | some c => exact absurd (h.formed.bounded hs) (Nat.lt_irrefl _)

theorem get?_nextEntry : t.get? t.nextEntry = none := skeleton_eq_none_iff.mp h.skeleton_nextEntry

/-- Keys of children declare the directions of the configuration. -/
theorem follow {id : EntryId} {e : Entry} (hid : t.get? id = some e) :
    e.children.Follow config.directions := by
  rintro ⟨k, x⟩ hk
  obtain ⟨c, hc, hp, rfl⟩ := (h.children hid k x).mp hk
  exact (h.formed.fits hc (h.formed.ne_root hc hp)).follows

theorem cmp_ne_eq_of_label_ne {id : EntryId} {e : Entry} (hid : t.get? id = some e) {c : Core}
    (hc : c.Fits config)
    (hnew : ∀ x d, t.skeleton x = some d → d.parent = some id → d.label ≠ c.label) :
    ∀ child ∈ e.children.toList, c.key.cmp child.1 ≠ .eq := by
  rintro ⟨k, x⟩ hk heq
  obtain ⟨d, hd, hp, rfl⟩ := (h.children hid k x).mp hk
  have hd' := h.formed.fits hd (h.formed.ne_root hd hp)
  exact hnew x d hd hp (hc.label_eq_of_cmp_eq hd' heq).symm

omit h in
theorem get?_attach_cases (h : t.Sound config) (hp : t.skeleton p = some pc) {x : EntryId}
    {e' : Entry} (hx : (t.attach p scopedId unid key values).get? x = some e') :
    (x = t.nextEntry ∧ e' = .new scopedId unid key values (some p)) ∨
    (x ≠ t.nextEntry ∧ ∃ e, t.get? x = some e ∧
      e' = afterAttach t.skeleton p t.nextEntry key scopedId.isCategory x e) := by
  rw [get?_attach h hp] at hx
  by_cases hxn : x = t.nextEntry
  · rw [if_pos hxn] at hx
    exact Or.inl ⟨hxn, (Option.some.inj hx).symm⟩
  · rw [if_neg hxn] at hx
    obtain ⟨e, he, rfl⟩ := Option.map_eq_some_iff.mp hx
    exact Or.inr ⟨hxn, e, he, rfl⟩

theorem parent_ne_nextEntry {x : EntryId} {c : Core} (hx : t.skeleton x = some c) :
    c.parent ≠ some t.nextEntry := by
  intro hpar
  obtain ⟨qc, hqc, -⟩ := h.formed.parent_category hx hpar
  rw [h.skeleton_nextEntry] at hqc
  cases hqc

theorem children_attach (hp : t.skeleton p = some pc)
    (hfits : (newCore p scopedId unid key values).Fits config)
    (hnew : ∀ x d, t.skeleton x = some d → d.parent = some p →
      d.label ≠ (newCore p scopedId unid key values).label)
    {x : EntryId} {e' : Entry} (hx : (t.attach p scopedId unid key values).get? x = some e')
    (k : SortKey) (y : EntryId) :
    (k, y) ∈ e'.children.toList ↔ ∃ c, (t.attach p scopedId unid key values).skeleton y = some c ∧
      c.parent = some x ∧ c.key = k := by
  rw [skeleton_attach]
  have hold : y ≠ t.nextEntry → ((∃ c, t.skeleton.grow t.nextEntry
      (newCore p scopedId unid key values) y = some c ∧ c.parent = some x ∧ c.key = k) ↔
      ∃ c, t.skeleton y = some c ∧ c.parent = some x ∧ c.key = k) := by
    intro hy
    rw [Skeleton.grow_of_ne hy]
  have hfresh : (∃ c, t.skeleton.grow t.nextEntry (newCore p scopedId unid key values)
      t.nextEntry = some c ∧ c.parent = some x ∧ c.key = k) ↔ x = p ∧ key = k := by
    simp only [Skeleton.grow_self, Option.some.injEq, exists_eq_left']
    simp [newCore, eq_comm]
  rcases get?_attach_cases h hp hx with ⟨rfl, rfl⟩ | ⟨hxn, e, he, rfl⟩
  · refine ⟨fun hmem => absurd hmem List.not_mem_nil, fun hc => ?_⟩
    by_cases hy : y = t.nextEntry
    · rw [hy, hfresh] at hc
      exact absurd hc.1 (h.formed.bounded hp).ne'
    · obtain ⟨c, hc, hpar, -⟩ := (hold hy).mp hc
      exact absurd hpar (h.parent_ne_nextEntry hc)
  · have hmem := h.children he k y
    have hnotin : (k, t.nextEntry) ∉ e.children.toList := by
      intro hin
      obtain ⟨c, hc, -⟩ := (h.children he k _).mp hin
      rw [h.skeleton_nextEntry] at hc
      cases hc
    by_cases hxp : x = p
    · subst hxp
      have hne : ∀ child ∈ e.children.toList, key.cmp child.1 ≠ .eq :=
        h.cmp_ne_eq_of_label_ne he hfits hnew
      simp only [afterAttach, if_true]
      rw [Siblings.mem_insert hne, Prod.mk.injEq]
      by_cases hy : y = t.nextEntry
      · subst hy
        rw [hfresh]
        simp only [and_true, true_and, hnotin, or_false]
        exact eq_comm
      · rw [hold hy, hmem]
        simp only [hy, and_false, false_or]
    · simp only [afterAttach, hxp, if_false]
      by_cases hy : y = t.nextEntry
      · subst hy
        rw [hfresh]
        simp only [hnotin, hxp, false_and]
      · rw [hold hy, hmem]

/-- Attaching keeps a tree sound. -/
theorem attach (hp : t.skeleton p = some pc) (hcat : pc.isCategory = true)
    (hfits : (newCore p scopedId unid key values).Fits config)
    (hnew : ∀ x d, t.skeleton x = some d → d.parent = some p →
      d.label ≠ (newCore p scopedId unid key values).label) :
    (t.attach p scopedId unid key values).Sound config := by
  have hF : (t.attach p scopedId unid key values).skeleton =
      t.skeleton.grow t.nextEntry (newCore p scopedId unid key values) := skeleton_attach
  have hn := h.skeleton_nextEntry
  have hplt := h.formed.bounded hp
  have hformed := h.formed.mono (Nat.le_succ t.nextEntry)
  constructor
  case formed =>
    rw [hF]
    exact hformed.grow hn (Nat.lt_succ_self _) hplt rfl hp hcat hfits hnew
  case sorted =>
    intro x e' hx
    rcases get?_attach_cases h hp hx with ⟨-, rfl⟩ | ⟨-, e, he, rfl⟩
    · exact Siblings.sorted_empty
    · by_cases hxp : x = p
      · subst hxp
        simp only [afterAttach, if_true]
        exact Siblings.sorted_insert hfits.follows (h.follow he)
          (h.cmp_ne_eq_of_label_ne he hfits hnew) (h.sorted he)
      · simp only [afterAttach, hxp, if_false]
        exact h.sorted he
  case children => exact fun hx k y => h.children_attach hp hfits hnew hx k y
  case counters =>
    intro x e' hx
    rw [hF, nextEntry_attach]
    rcases get?_attach_cases h hp hx with ⟨rfl, rfl⟩ | ⟨hxn, e, he, rfl⟩
    · exact (Skeleton.count_grow_self hformed hn (Nat.lt_succ_self _) hplt rfl).symm
    · rw [Skeleton.count_grow hformed hn (Nat.lt_succ_self _) hplt rfl hp hxn,
        Skeleton.count_succ h.formed, ← h.counters he]
      rfl
  case placements =>
    intro s
    rw [placementsOf_attach, hF, nextEntry_attach, Skeleton.placed_grow, h.placements]
    by_cases hs : scopedId = s <;> simp [newCore, hs]
  case indexed =>
    intro s
    rw [getElem?_placements_attach]
    by_cases hs : scopedId = s
    · simp [hs]
    · simp only [hs, if_false]
      exact h.indexed s
  case ranks =>
    intro x e' hx hun i k y hi
    rw [mem_unnumbered_attach, not_or] at hun
    rcases get?_attach_cases h hp hx with ⟨rfl, rfl⟩ | ⟨-, e, he, rfl⟩
    · exact absurd hi (by simp [Entry.new, Siblings.empty])
    · simp only [afterAttach, hun.1, if_false] at hi
      have hrank := h.ranks he hun.2 i k y hi
      have hy : y ≠ t.nextEntry := by
        intro heq
        rw [heq, h.get?_nextEntry] at hrank
        cases hrank
      rw [get?_attach h hp, if_neg hy, Option.map_map]
      exact hrank

/-- An attached category is one more below the root. -/
theorem categoryCount_attach (hp : t.skeleton p = some pc) :
    (t.attach p scopedId unid key values).categoryCount =
      t.categoryCount + if scopedId.isCategory then 1 else 0 := by
  have hn := h.skeleton_nextEntry
  have hplt := h.formed.bounded hp
  have hroot : root ≠ t.nextEntry := (h.formed.bounded h.formed.root).ne
  have hmem : root ∈ t.skeleton.line p := h.formed.root_mem_line hp
  rw [categoryCount, skeleton_attach, nextEntry_attach,
    Skeleton.count_grow (h.formed.mono (Nat.le_succ _)) hn (Nat.lt_succ_self _) hplt rfl hp hroot,
    Skeleton.count_succ h.formed]
  simp only [hmem, if_true, newCore, Core.isCategory, categoryCount]
  cases scopedId.isCategory <;> by_cases hr : root = p <;>
    simp [hr, Counters.descendantAttached, Counters.childAttached]

end Sound

end CategorizedIndex.Tree
