import CategorizedIndex.Proofs.Skeleton.Growth

/-! # Sound trees

A tree is sound when everything it keeps up agrees with its skeleton: the children of
an entry are those that point to it, in the order of their keys, the counters count
them, the index of placements finds every entry, and ranks are right wherever no
renumbering is pending. Soundness also holds in the middle of a commit, where
categories may be empty.
-/
namespace CategorizedIndex.Tree

variable {config : Config} {t : Tree} {id : EntryId} {e : Entry} {c : Core}

def skeleton (t : Tree) : Skeleton := fun id => (t.get? id).map Entry.core

structure Sound (config : Config) (t : Tree) : Prop where
  formed : t.skeleton.WellFormed config t.nextEntry
  sorted : ∀ {id e}, t.get? id = some e → e.children.Sorted
  children : ∀ {id e}, t.get? id = some e → ∀ k x, (k, x) ∈ e.children.toList ↔
    ∃ c, t.skeleton x = some c ∧ c.parent = some id ∧ c.key = k
  counters : ∀ {id e}, t.get? id = some e → e.counters = t.skeleton.count t.nextEntry id
  placements : ∀ s, t.placementsOf s = t.skeleton.placed t.nextEntry s
  indexed : ∀ s : ScopedId, t.placements[s]? ≠ some []
  ranks : ∀ {id e}, t.get? id = some e → id ∉ t.unnumbered →
    ∀ i k x, e.children.toList[i]? = some (k, x) → (t.get? x).map (·.rank) = some (i + 1)

theorem skeleton_eq_some (h : t.get? id = some e) : t.skeleton id = some e.core := by
  rw [skeleton, h, Option.map_some]

theorem skeleton_eq_some_iff : t.skeleton id = some c ↔ ∃ e, t.get? id = some e ∧ e.core = c := by
  rw [skeleton, Option.map_eq_some_iff]

theorem skeleton_eq_none_iff : t.skeleton id = none ↔ t.get? id = none := Option.map_eq_none_iff

/-- The root is a category without a parent. -/
theorem exists_root {n : EntryId} (h : t.skeleton.WellFormed config n) :
    ∃ e, t.get? root = some e ∧ e.scopedId = .root ∧ e.isCategory = true ∧ e.parent = none := by
  obtain ⟨e, he, hcore⟩ := skeleton_eq_some_iff.mp h.root
  have hid : e.scopedId = .root := congrArg Core.scopedId hcore
  have hcat : e.core.isCategory = true := hcore ▸ Core.isCategory_root
  exact ⟨e, he, hid, hcat, congrArg Core.parent hcore⟩

theorem skeleton_modify {f : Entry → Entry} (hf : ∀ e, (f e).core = e.core) (a : EntryId) :
    (t.modify a f).skeleton = t.skeleton := by
  funext x
  rw [skeleton, skeleton, get?_modify]
  by_cases h : a = x
  · simp only [h, if_true, Option.map_map]
    cases t.get? x with
    | none => rfl
    | some e => exact congrArg some (hf e)
  · rw [if_neg h]

theorem skeleton_modifyAll {f : Entry → Entry} (hf : ∀ e, (f e).core = e.core)
    (ids : List EntryId) : (t.modifyAll ids f).skeleton = t.skeleton := by
  induction ids generalizing t with
  | nil => rfl
  | cons a rest ih => exact ih.trans (skeleton_modify hf a)

/-- Counters are no part of the skeleton. -/
theorem skeleton_recount (t : Tree) (id : EntryId) (f : Counters → Counters) :
    (t.recount id f).skeleton = t.skeleton :=
  skeleton_modifyAll (f := fun e => { e with counters := f e.counters }) (fun _ => rfl) _

theorem get?_modifyAll {ids : List EntryId} (hn : ids.Nodup) (f : Entry → Entry) (x : EntryId) :
    (t.modifyAll ids f).get? x = if x ∈ ids then (t.get? x).map f else t.get? x := by
  induction ids generalizing t with
  | nil => rfl
  | cons a rest ih =>
    obtain ⟨ha, hrest⟩ := List.nodup_cons.mp hn
    rw [modifyAll, List.foldl_cons, ← modifyAll, ih hrest, get?_modify]
    by_cases hax : a = x
    · subst hax
      simp [ha]
    · simp [hax, Ne.symm hax]

theorem mem_arena : id ∈ t.arena ↔ ∃ e, t.get? id = some e := by
  rw [Std.ExtTreeMap.mem_iff_isSome_getElem?, Option.isSome_iff_exists]
  rfl

theorem mem_keys_iff : id ∈ t.arena.keys ↔ ∃ e, t.get? id = some e :=
  Std.ExtTreeMap.mem_keys.trans mem_arena

/-- Handles up to a bound that are in use are at most as many as the arena is large. -/
theorem card_live_le (t : Tree) (n : EntryId) :
    ((Finset.range n).filter fun x => (t.get? x).isSome).card ≤ t.arena.size := by
  have hsub : ((Finset.range n).filter fun x => (t.get? x).isSome) ⊆ t.arena.keys.toFinset := by
    intro x hx
    have hsome : (t.get? x).isSome = true := (Finset.mem_filter.mp hx).2
    exact List.mem_toFinset.mpr (mem_keys_iff.mpr (Option.isSome_iff_exists.mp hsome))
  calc _ ≤ t.arena.keys.toFinset.card := Finset.card_le_card hsub
    _ ≤ t.arena.keys.length := List.toFinset_card_le _
    _ = t.arena.size := Std.ExtTreeMap.length_keys

def liveUpTo (t : Tree) (id : EntryId) : Finset EntryId :=
  (Finset.range (id + 1)).filter fun x => (t.get? x).isSome

theorem card_liveUpTo_pos (hid : t.get? id = some e) : 0 < (t.liveUpTo id).card :=
  Finset.card_pos.mpr ⟨id, by simp [liveUpTo, hid]⟩

theorem card_liveUpTo_lt {p q : Nat} (hq : t.get? q = some e) (hlt : p < q) :
    (t.liveUpTo p).card < (t.liveUpTo q).card := by
  refine Finset.card_lt_card ((Finset.ssubset_iff_of_subset fun x hx => ?_).mpr ⟨q, ?_, ?_⟩)
  · simp only [liveUpTo, Finset.mem_filter, Finset.mem_range] at hx ⊢
    exact ⟨by omega, hx.2⟩
  · simp [liveUpTo, hq]
  · simp only [liveUpTo, Finset.mem_filter, Finset.mem_range, not_and]
    omega

theorem climb_none (t : Tree) (fuel : Nat) : t.climb fuel none = [] := by
  cases fuel <;> rfl

/-- Climbing with enough fuel walks the whole way up. -/
theorem climb_eq {n : EntryId} (h : t.skeleton.WellFormed config n) {fuel : Nat}
    (hid : t.get? id = some e) (hfuel : (t.liveUpTo id).card ≤ fuel) :
    t.climb fuel (some id) =
      (t.skeleton.line id).filterMap fun x => (t.get? x).map fun e => (x, e) := by
  induction fuel generalizing id e with
  | zero =>
    have hpos := card_liveUpTo_pos hid
    omega
  | succ fuel ih =>
    have hc := skeleton_eq_some hid
    rw [climb, hid]
    cases hp : e.parent with
    | none =>
      have hline : t.skeleton.line id = [id] := by
        refine Skeleton.line_of_no_parent ?_
        rw [hc]
        exact hp
      simp [hline, climb_none, hid, hp]
    | some p =>
      have hlt := h.parent_lt hc hp
      obtain ⟨pc, hpc, -⟩ := h.parent_category hc hp
      obtain ⟨pe, hpe, -⟩ := skeleton_eq_some_iff.mp hpc
      have hless := card_liveUpTo_lt hid hlt
      simp only [hp, ih hpe (by omega), h.line_eq hc hp, List.filterMap_cons, hid, Option.map_some]

theorem lineage_eq {n : EntryId} (h : t.skeleton.WellFormed config n) (hid : t.get? id = some e) :
    t.lineage id = (t.skeleton.line id).filterMap fun x => (t.get? x).map fun e => (x, e) :=
  climb_eq h hid (card_live_le t _)

theorem lineage_ids {n : EntryId} (h : t.skeleton.WellFormed config n)
    (hid : t.get? id = some e) : (t.lineage id).map (·.1) = t.skeleton.line id := by
  rw [lineage_eq h hid, List.map_filterMap]
  have hlive : ∀ x ∈ t.skeleton.line id, (t.get? x).isSome = true := by
    intro x hx
    obtain ⟨cx, hcx⟩ := h.exists_of_mem_line (skeleton_eq_some hid) hx
    obtain ⟨ex, hex, -⟩ := skeleton_eq_some_iff.mp hcx
    rw [hex]
    rfl
  conv_rhs => rw [← List.filterMap_some (l := t.skeleton.line id)]
  refine List.filterMap_congr fun x hx => ?_
  obtain ⟨ex, hex⟩ := Option.isSome_iff_exists.mp (hlive x hx)
  simp [hex]

/-- Counters change on the way up from an entry and nowhere else. -/
theorem get?_recount {n : EntryId} (h : t.skeleton.WellFormed config n)
    (hid : t.get? id = some e) (f : Counters → Counters) (x : EntryId) :
    (t.recount id f).get? x = (t.get? x).map fun e =>
      { e with counters := if x ∈ t.skeleton.line id then f e.counters else e.counters } := by
  have hn : (t.skeleton.line id).Nodup := h.nodup_line (skeleton_eq_some hid)
  rw [recount, lineage_ids h hid, get?_modifyAll hn]
  by_cases hx : x ∈ t.skeleton.line id
  · simp [hx]
  · simp [hx]

end CategorizedIndex.Tree
