import CategorizedIndex.Proofs.Tree.Detach

/-! # Renumbering

Renumbering changes ranks and nothing else. The children of one entry never have
another parent, so the order in which stale entries are renumbered does not matter, and
afterwards every rank is right.
-/
namespace CategorizedIndex.Tree

variable {config : Config} {t u : Tree}

/-- The trees agree in everything but ranks. -/
structure Reranked (t u : Tree) : Prop where
  entries : ∀ x, (u.get? x).map (fun e => { e with rank := 0 }) =
    (t.get? x).map fun e => { e with rank := 0 }
  placements : u.placements = t.placements
  nextEntry : u.nextEntry = t.nextEntry
  lastCategory : u.lastCategory = t.lastCategory

namespace Reranked

theorem refl (t : Tree) : t.Reranked t := ⟨fun _ => rfl, rfl, rfl, rfl⟩

theorem trans {v : Tree} (h : t.Reranked u) (h' : u.Reranked v) : t.Reranked v where
  entries x := (h'.entries x).trans (h.entries x)
  placements := h'.placements.trans h.placements
  nextEntry := h'.nextEntry.trans h.nextEntry
  lastCategory := h'.lastCategory.trans h.lastCategory

theorem exists_entry (h : t.Reranked u) {x : EntryId} {e' : Entry} (hx : u.get? x = some e') :
    ∃ e, t.get? x = some e ∧ e'.core = e.core ∧ e'.children = e.children ∧
      e'.counters = e.counters := by
  have he := h.entries x
  rw [hx, Option.map_some] at he
  obtain ⟨e, hte, heq⟩ := Option.map_eq_some_iff.mp he.symm
  exact ⟨e, hte, (congrArg Entry.core heq).symm, (congrArg Entry.children heq).symm,
    (congrArg Entry.counters heq).symm⟩

theorem skeleton (h : t.Reranked u) : u.skeleton = t.skeleton := by
  funext x
  have he := congrArg (Option.map Entry.core) (h.entries x)
  rwa [Option.map_map, Option.map_map] at he

end Reranked

def rerank (ids : List (EntryId × Nat)) (t : Tree) : Tree :=
  ids.foldl (fun t child => t.modify child.1 fun e => { e with rank := child.2 + 1 }) t

theorem get?_rerank_of_not_mem {l : List (EntryId × Nat)} {x : EntryId}
    (hx : x ∉ l.map (·.1)) : (rerank l t).get? x = t.get? x := by
  induction l generalizing t with
  | nil => rfl
  | cons child rest ih =>
    rw [List.map_cons, List.mem_cons, not_or] at hx
    rw [rerank, List.foldl_cons, ← rerank, ih hx.2, get?_modify, if_neg (Ne.symm hx.1)]

theorem rank_rerank {l : List (EntryId × Nat)} (hn : (l.map (·.1)).Nodup) {x : EntryId} {i : Nat}
    (hx : (x, i) ∈ l) :
    (rerank l t).get? x = (t.get? x).map fun e => { e with rank := i + 1 } := by
  induction l generalizing t with
  | nil => cases hx
  | cons child rest ih =>
    rw [List.map_cons, List.nodup_cons] at hn
    rw [rerank, List.foldl_cons, ← rerank]
    rcases List.mem_cons.mp hx with rfl | hx
    · rw [get?_rerank_of_not_mem hn.1, get?_modify, if_pos rfl]
    · have hne : child.1 ≠ x := fun heq => hn.1 (heq ▸ List.mem_map_of_mem hx)
      rw [ih hn.2 hx, get?_modify, if_neg hne]

theorem reranked_rerank (l : List (EntryId × Nat)) (t : Tree) : t.Reranked (rerank l t) := by
  induction l generalizing t with
  | nil => exact .refl t
  | cons child rest ih =>
    refine Reranked.trans (u := t.modify child.1 fun e => { e with rank := child.2 + 1 })
      ⟨fun x => ?_, rfl, rfl, rfl⟩ (ih _)
    rw [get?_modify]
    by_cases hx : child.1 = x
    · rw [if_pos hx, Option.map_map]
      rfl
    · rw [if_neg hx]

theorem renumber_eq (t : Tree) (p : EntryId) :
    t.renumber p = rerank (t.childrenOf p).ids.zipIdx t := rfl

theorem reranked_renumber (t : Tree) (p : EntryId) : t.Reranked (t.renumber p) :=
  reranked_rerank _ t

theorem reranked_foldl (l : List EntryId) (t : Tree) : t.Reranked (l.foldl renumber t) := by
  induction l generalizing t with
  | nil => exact .refl t
  | cons p rest ih => exact (reranked_renumber t p).trans (ih _)

theorem reranked_flush (t : Tree) : t.Reranked t.flush.2 := by
  have hr := reranked_foldl (t.unnumbered.toList.filter t.arena.contains) t
  exact ⟨hr.entries, hr.placements, hr.nextEntry, hr.lastCategory⟩

namespace Sound

def RanksRight (t : Tree) (id : EntryId) : Prop :=
  ∀ e, t.get? id = some e → ∀ i k x, e.children.toList[i]? = some (k, x) →
    (t.get? x).map (·.rank) = some (i + 1)

theorem childrenOf_eq {id : EntryId} {e : Entry} (hid : t.get? id = some e) :
    t.childrenOf id = e.children := by
  rw [childrenOf, hid]
  rfl

theorem nodup_ids (h : t.Sound config) {id : EntryId} {e : Entry} (hid : t.get? id = some e) :
    e.children.ids.Nodup := by
  have hkeys : ∀ a ∈ e.children.toList, ∀ b ∈ e.children.toList, a.2 = b.2 → a = b := by
    rintro ⟨k, x⟩ ha ⟨l, y⟩ hb heq
    obtain ⟨c, hc, -, rfl⟩ := (h.children hid k x).mp ha
    obtain ⟨d, hd, -, rfl⟩ := (h.children hid l y).mp hb
    simp only at heq
    subst heq
    rw [Option.some.inj (hc.symm.trans hd)]
  exact (h.sorted hid).nodup.map_on fun a ha b hb heq => hkeys a ha b hb heq

/-- Renumbering one entry makes its ranks right and leaves those of others. -/
theorem ranksRight_renumber (h : t.Sound config) (p : EntryId) : RanksRight (t.renumber p) p := by
  intro e' hp i k x hi
  obtain ⟨e, he, -, hchildren, -⟩ := (reranked_renumber t p).exists_entry hp
  rw [hchildren] at hi
  have hids : e.children.ids[i]? = some x := by
    rw [Siblings.ids, List.getElem?_map, hi]
    rfl
  have hmem : (x, i) ∈ (t.childrenOf p).ids.zipIdx := by
    rw [childrenOf_eq he, List.mk_mem_zipIdx_iff_getElem?]
    exact hids
  have hn : ((t.childrenOf p).ids.zipIdx.map (·.1)).Nodup := by
    rw [childrenOf_eq he, List.zipIdx_map_fst]
    exact h.nodup_ids he
  obtain ⟨c, hc, -⟩ := (h.children he k x).mp (List.mem_of_getElem? hi)
  obtain ⟨a, ha, -⟩ := skeleton_eq_some_iff.mp hc
  rw [renumber_eq, rank_rerank hn hmem, ha]
  rfl

theorem ranksRight_renumber_of_ne (h : t.Sound config) {p q : EntryId} (hne : q ≠ p)
    (hq : RanksRight t q) : RanksRight (t.renumber p) q := by
  intro e' hqe i k x hi
  obtain ⟨e, he, -, hchildren, -⟩ := (reranked_renumber t p).exists_entry hqe
  rw [hchildren] at hi
  have hnot : x ∉ ((t.childrenOf p).ids.zipIdx.map (·.1)) := by
    rw [List.zipIdx_map_fst]
    intro hmem
    obtain ⟨⟨l, y⟩, hly, rfl⟩ := List.mem_map.mp hmem
    obtain ⟨c, hc, hcq, -⟩ := (h.children he k _).mp (List.mem_of_getElem? hi)
    cases hpe : t.get? p with
    | none =>
      rw [Tree.childrenOf, hpe] at hly
      cases hly
    | some pe =>
      rw [childrenOf_eq hpe] at hly
      obtain ⟨d, hd, hdp, -⟩ := (h.children hpe l _).mp hly
      obtain rfl := Option.some.inj (hc.symm.trans hd)
      exact hne (Option.some.inj (hcq.symm.trans hdp))
  rw [renumber_eq, get?_rerank_of_not_mem hnot]
  exact hq e he i k x hi

/-- Everything but ranks survives a change of ranks. -/
theorem reranked (h : t.Sound config) (hu : t.Reranked u)
    (hranks : ∀ id, id ∉ u.unnumbered → RanksRight u id) : u.Sound config where
  formed := by
    rw [hu.skeleton, hu.nextEntry]
    exact h.formed
  sorted hid := by
    obtain ⟨e, he, -, hchildren, -⟩ := hu.exists_entry hid
    rw [hchildren]
    exact h.sorted he
  children hid := by
    obtain ⟨e, he, -, hchildren, -⟩ := hu.exists_entry hid
    rw [hchildren, hu.skeleton]
    exact h.children he
  counters hid := by
    obtain ⟨e, he, -, -, hcounters⟩ := hu.exists_entry hid
    rw [hcounters, hu.skeleton, hu.nextEntry]
    exact h.counters he
  placements s := by
    rw [placementsOf, hu.placements, hu.skeleton, hu.nextEntry]
    exact h.placements s
  indexed s := by
    rw [hu.placements]
    exact h.indexed s
  ranks {id e} hid hun := hranks id hun e hid

theorem unnumbered_renumber (t : Tree) (p : EntryId) : (t.renumber p).unnumbered = t.unnumbered := by
  rw [renumber_eq]
  generalize (t.childrenOf p).ids.zipIdx = l
  induction l generalizing t with
  | nil => rfl
  | cons child rest ih => exact ih _

theorem renumber (h : t.Sound config) (p : EntryId) : (t.renumber p).Sound config := by
  refine h.reranked (reranked_renumber t p) fun id hid => ?_
  rw [unnumbered_renumber] at hid
  by_cases hp : id = p
  · exact hp ▸ h.ranksRight_renumber id
  · exact h.ranksRight_renumber_of_ne hp fun e he => h.ranks he hid

/-- Renumbering in any order makes the ranks of the listed entries right. -/
theorem ranksRight_foldl (h : t.Sound config) (l : List EntryId) {id : EntryId}
    (hid : id ∈ l ∨ RanksRight t id) : RanksRight (l.foldl Tree.renumber t) id := by
  induction l generalizing t with
  | nil => exact hid.resolve_left List.not_mem_nil
  | cons p rest ih =>
    refine ih (h.renumber p) ?_
    by_cases hp : id = p
    · exact Or.inr (hp ▸ h.ranksRight_renumber id)
    · rcases hid with hid | hid
      · exact Or.inl (List.mem_of_ne_of_mem hp hid)
      · exact Or.inr (h.ranksRight_renumber_of_ne hp hid)

/-- After everything stale is renumbered, all ranks are right. -/
theorem flush (h : t.Sound config) : t.flush.2.Sound config := by
  refine h.reranked (u := t.flush.2) ?_ fun id _ => ?_
  · exact reranked_flush t
  · by_cases hlive : t.get? id = none
    · intro e he
      obtain ⟨a, ha, -⟩ := (reranked_flush t).exists_entry he
      rw [hlive] at ha
      cases ha
    · refine h.ranksRight_foldl _ ?_
      by_cases hun : id ∈ t.unnumbered
      · refine Or.inl (List.mem_filter.mpr ⟨Std.ExtTreeSet.mem_toList.mpr hun, ?_⟩)
        rw [Std.ExtTreeMap.contains_eq_isSome_getElem?]
        exact Option.isSome_iff_ne_none.mpr hlive
      · exact Or.inr fun e he => h.ranks he hun

end Sound

@[simp] theorem unnumbered_flush (t : Tree) : t.flush.2.unnumbered = ∅ := rfl

end CategorizedIndex.Tree
