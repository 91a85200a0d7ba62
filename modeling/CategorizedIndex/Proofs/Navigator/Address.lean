import CategorizedIndex.Proofs.Navigator.Moves
import CategorizedIndex.Proofs.Tree.EntryAt
import CategorizedIndex.Proofs.Tree.Placements
import CategorizedIndex.Proofs.Visibility

/-! # Going to an address

A position is resolved from the top level down, and the filter is asked about every entry on
the way. What is reached stands at that position, so an entry can be addressed exactly if it
and everything above it passes, whether or not anything is expanded. An id is looked for at
the positions of its placements, the least position first.
-/
namespace CategorizedIndex.Navigator

variable {config : Config} {T : Table} {n m : Navigator} {x y : EntryId} {e : Entry}
  {stack out : List LevelCursor} {p : Position} {s : ScopedId}

/-- An entry below the root that passes the filter together with everything above it. -/
def Shown (n : Navigator) (y : EntryId) : Prop :=
  y ≠ Tree.root ∧ ∃ e, n.tree.get? y = some e ∧
    ∀ a d, (a, d) ∈ n.tree.lineage y → a ≠ Tree.root → n.Passes d

def VisibleBetween (n : Navigator) (x y : EntryId) : Prop :=
  ∀ a ∈ n.tree.skeleton.line y, a ∈ n.tree.skeleton.line x ∨ n.isVisible a = true

theorem shown_iff (h : n.tree.Sound config) : n.Shown y ↔
    y ≠ Tree.root ∧ (∃ e, n.tree.get? y = some e) ∧ n.VisibleBetween Tree.root y := by
  refine and_congr_right fun _ => ?_
  constructor
  · rintro ⟨e, he, hall⟩
    refine ⟨⟨e, he⟩, fun a ha => ?_⟩
    rw [h.formed.line_root, List.mem_singleton, or_iff_not_imp_left]
    intro hr
    obtain ⟨c, hc⟩ := h.formed.exists_of_mem_line (Tree.skeleton_eq_some he) ha
    obtain ⟨d, hd, -⟩ := Tree.skeleton_eq_some_iff.mp hc
    exact (isVisible_eq_true_iff hd).mpr (hall a d ((h.mem_lineage he).mpr ⟨ha, hd⟩) hr)
  · rintro ⟨⟨e, he⟩, hall⟩
    refine ⟨e, he, fun a d hmem hr => ?_⟩
    obtain ⟨ha, hd⟩ := (h.mem_lineage he).mp hmem
    have hvisible := hall a ha
    rw [h.formed.line_root, List.mem_singleton] at hvisible
    exact (isVisible_eq_true_iff hd).mp (hvisible.resolve_left hr)

/-! ## The stack and the position it stands on -/

theorem StandsOn.mapM_rank (hs : StandsOn n.tree stack x) (h : n.tree.Sound config) :
    (stack.reverse.mapM fun level => (level.currentId?.bind n.tree.get?).map (·.rank)) =
      some (n.tree.position x) := by
  induction stack generalizing x with
  | nil =>
    cases hs
    rw [Tree.position_root h.formed]
    rfl
  | cons level above ih =>
    obtain ⟨p, -, e, k, habove, -, -, hrests, hx, hp⟩ := hs.exists_parent h
    have hcurrent : level.currentId? = some x := by simp [LevelCursor.currentId?, hrests.current]
    rw [List.reverse_cons, List.mapM_append, ih habove, Tree.position_child h.formed hx hp]
    simp [hcurrent, hx]

theorem currentPosition?_eq (hs : StandsOn n.tree n.stack x) (h : n.tree.Sound config) :
    n.currentPosition? = if n.stack = [] then none else some (n.tree.position x) := by
  rw [currentPosition?, hs.mapM_rank h]

/-! ## Resolving a position -/

theorem resolveFrom?_cons (hx : n.tree.get? x = some e) (k : Nat) (rest : Position) :
    n.resolveFrom? x stack (k :: rest) = (e.children.atRank? k).bind fun child =>
      if n.isVisible child.2 = true then
        n.resolveFrom? child.2 (.resting x e.children child :: stack) rest
      else none := by
  rw [resolveFrom?, hx]
  simp only
  cases e.children.atRank? k <;> rfl

/-- The positions that an id is looked for at, the least first. -/
def addresses (n : Navigator) (s : ScopedId) : List Position :=
  (((n.tree.placementsOf s).map n.tree.position).filter (· ≠ [])).mergeSort fun a b =>
    (Position.cmp a b).isLE

theorem pairwise_addresses (n : Navigator) (s : ScopedId) :
    (n.addresses s).Pairwise fun a b => (Position.cmp a b).isLE = true :=
  List.pairwise_mergeSort Position.isLE_trans Position.isLE_total _

section Resolve

variable (h : n.tree.Settled config T)

include h

theorem mem_line_of_descend? (hx : n.tree.get? x = some e) (hy : n.tree.descend? x p = some y) :
    x ∈ n.tree.skeleton.line y := by
  induction p generalizing x e with
  | nil =>
    obtain rfl := Option.some.inj hy
    exact Skeleton.self_mem_line
  | cons k rest ih =>
    obtain ⟨⟨d, hd⟩, -⟩ := (h.descend?_eq_some_iff hx).mp hy
    rw [Tree.descend?_cons, Tree.Sound.childrenOf_eq hx, Option.bind_eq_some_iff] at hy
    obtain ⟨⟨key, c⟩, hchild, hrest⟩ := hy
    obtain ⟨ce, hce, hp, -⟩ := (h.exists_atRank?_iff hx).mp ⟨key, hchild⟩
    exact (h.sound.formed.mem_line_of_parent (Tree.skeleton_eq_some hd) (ih hce hrest)
      (Tree.skeleton_eq_some hce) hp).1

theorem resolveFrom?_spec (hs : StandsOn n.tree stack x) :
    (∀ out, n.resolveFrom? x stack p = some out → ∃ y, n.tree.descend? x p = some y ∧
      n.VisibleBetween x y ∧ StandsOn n.tree out y) ∧
    ∀ y, n.tree.descend? x p = some y → n.VisibleBetween x y →
      ∃ out, n.resolveFrom? x stack p = some out := by
  induction p generalizing stack x with
  | nil =>
    refine ⟨fun out hout => ⟨x, rfl, fun a ha => Or.inl ha, ?_⟩, fun y _ _ => ⟨stack, rfl⟩⟩
    exact Option.some.inj hout ▸ hs
  | cons k rest ih =>
    obtain ⟨e, hx⟩ := hs.exists_entry h.sound
    rw [resolveFrom?_cons hx, Tree.descend?_cons, Tree.Sound.childrenOf_eq hx]
    cases hchild : e.children.atRank? k with
    | none => exact ⟨nofun, nofun⟩
    | some child =>
      obtain ⟨d, hd, hp, -⟩ := (h.exists_atRank?_iff hx).mp ⟨child.1, hchild⟩
      have hmem : child ∈ e.children.toList := by
        obtain ⟨i, -, hi⟩ := Siblings.atRank?_eq_some.mp hchild
        exact List.mem_of_getElem? hi
      have hdeeper : StandsOn n.tree (.resting x e.children child :: stack) child.2 :=
        .level hs (Tree.Sound.childrenOf_eq hx).symm (LevelCursor.rests_resting x hmem)
      have hline := h.sound.formed.line_eq (Tree.skeleton_eq_some hd) hp
      rw [Option.bind_some, Option.bind_some]
      constructor
      · intro out hout
        split at hout
        · next hvisible =>
          obtain ⟨y, hy, hway, hstands⟩ := (ih hdeeper).1 out hout
          refine ⟨y, hy, fun a ha => ?_, hstands⟩
          have hseen := hway a ha
          rw [hline, List.mem_cons] at hseen
          rcases hseen with (rfl | habove) | hseen
          · exact Or.inr hvisible
          · exact Or.inl habove
          · exact Or.inr hseen
        · cases hout
      · intro y hy hway
        have hchildway := mem_line_of_descend? h hd hy
        have hnew : child.2 ∉ n.tree.skeleton.line x := fun hold =>
          absurd (Skeleton.mem_line_le hold)
            (Nat.not_le.mpr (h.sound.formed.parent_lt (Tree.skeleton_eq_some hd) hp))
        rw [if_pos ((hway child.2 hchildway).resolve_left hnew)]
        refine (ih hdeeper).2 y hy fun a ha => (hway a ha).imp_left fun habove => ?_
        rw [hline]
        exact List.mem_cons_of_mem _ habove

theorem gotoPosition?_eq_some_iff : n.gotoPosition? p = some m ↔
    ∃ y stack, n.tree.entryAt? p = some y ∧ n.Shown y ∧ n.resolve? p = some stack ∧
      StandsOn n.tree stack y ∧ m = n.withStack stack := by
  rw [gotoPosition?, Option.map_eq_some_iff]
  constructor
  · rintro ⟨stack, hstack, rfl⟩
    have hresolved := hstack
    rw [resolve?] at hresolved
    split at hresolved
    · cases hresolved
    · next hp =>
      obtain ⟨y, hy, hway, hstands⟩ := (resolveFrom?_spec h .root).1 stack hresolved
      have hentry : n.tree.entryAt? p = some y := by rw [Tree.entryAt?, if_neg hp, hy]
      obtain ⟨hlive, hr, -⟩ := h.entryAt?_eq_some_iff.mp hentry
      exact ⟨y, stack, hentry, (shown_iff h.sound).mpr ⟨hr, hlive, hway⟩, hstack, hstands, rfl⟩
  · rintro ⟨y, stack, -, -, hstack, -, rfl⟩
    exact ⟨stack, hstack, rfl⟩

theorem exists_gotoPosition?_iff :
    (∃ m, n.gotoPosition? p = some m) ↔ ∃ y, n.tree.entryAt? p = some y ∧ n.Shown y := by
  constructor
  · rintro ⟨m, hm⟩
    obtain ⟨y, stack, hy, hshown, -⟩ := (gotoPosition?_eq_some_iff h).mp hm
    exact ⟨y, hy, hshown⟩
  · rintro ⟨y, hy, hshown⟩
    have hp : p ≠ [] := fun hnil => by simp [Tree.entryAt?, hnil] at hy
    rw [Tree.entryAt?, if_neg hp] at hy
    obtain ⟨-, -, hway⟩ := (shown_iff h.sound).mp hshown
    obtain ⟨stack, hstack⟩ := (resolveFrom?_spec h .root).2 y hy hway
    exact ⟨n.withStack stack, by rw [gotoPosition?, resolve?, if_neg hp, hstack]; rfl⟩

theorem currentId?_of_gotoPosition? (hm : n.gotoPosition? p = some m) :
    m.currentId? = n.tree.entryAt? p := by
  obtain ⟨y, stack, hy, ⟨hr, -⟩, -, hstands, rfl⟩ := (gotoPosition?_eq_some_iff h).mp hm
  have hcurrent : (n.withStack stack).currentId? = if stack = [] then none else some y :=
    hstands.currentId?_eq
  rw [hcurrent, if_neg (hstands.ne_nil hr), hy]

theorem lookAt?_eq_some_iff {snapshot : Snapshot} : n.lookAt? p = some snapshot ↔
    ∃ y, n.tree.entryAt? p = some y ∧ n.Shown y ∧ n.tree.snapshot? y = some snapshot := by
  have hcurrent : ∀ {m}, n.gotoPosition? p = some m →
      m.current? = (n.tree.entryAt? p).bind n.tree.snapshot? := by
    intro m hm
    rw [current?, currentId?_of_gotoPosition? h hm]
    obtain ⟨-, stack, -, -, -, -, rfl⟩ := (gotoPosition?_eq_some_iff h).mp hm
    rfl
  rw [lookAt?, Option.bind_eq_some_iff]
  constructor
  · rintro ⟨m, hm, hsnapshot⟩
    obtain ⟨y, hy, hshown⟩ := (exists_gotoPosition?_iff h).mp ⟨m, hm⟩
    rw [hcurrent hm, hy] at hsnapshot
    exact ⟨y, hy, hshown, hsnapshot⟩
  · rintro ⟨y, hy, hshown, hsnapshot⟩
    obtain ⟨m, hm⟩ := (exists_gotoPosition?_iff h).mpr ⟨y, hy, hshown⟩
    exact ⟨m, hm, by rw [hcurrent hm, hy, Option.bind_some, hsnapshot]⟩

/-- Every entry that is shown has a snapshot. -/
theorem Shown.exists_snapshot (hy : n.Shown y) :
    ∃ snapshot, n.tree.snapshot? y = some snapshot := by
  obtain ⟨hr, e, he, -⟩ := hy
  exact Tree.exists_snapshot h.sound.formed he hr

/-! ## Looking for an id -/

theorem mem_addresses : p ∈ n.addresses s ↔
    ∃ y ∈ n.tree.placementsOf s, n.tree.position y = p ∧ y ≠ Tree.root := by
  rw [addresses, List.mem_mergeSort, List.mem_filter, List.mem_map]
  constructor
  · rintro ⟨⟨y, hy, rfl⟩, hp⟩
    obtain ⟨e, he, -⟩ := h.sound.mem_placementsOf.mp hy
    refine ⟨y, hy, rfl, mt (h.sound.position_eq_nil_iff he).mpr ?_⟩
    simpa using hp
  · rintro ⟨y, hy, rfl, hr⟩
    obtain ⟨e, he, -⟩ := h.sound.mem_placementsOf.mp hy
    exact ⟨⟨y, hy, rfl⟩, by simpa using mt (h.sound.position_eq_nil_iff he).mp hr⟩

theorem Shown.entryAt? (hy : n.Shown y) : n.tree.entryAt? (n.tree.position y) = some y := by
  obtain ⟨hr, e, he, -⟩ := hy
  exact h.entryAt?_eq_some_iff.mpr ⟨⟨e, he⟩, hr, rfl⟩

theorem Shown.exists_gotoPosition? (hy : n.Shown y) :
    ∃ m, n.gotoPosition? (n.tree.position y) = some m :=
  (exists_gotoPosition?_iff h).mpr ⟨y, hy.entryAt? h, hy⟩

theorem exists_gotoEntry?_iff :
    (∃ m, n.gotoEntry? s = some m) ↔ ∃ y ∈ n.tree.placementsOf s, n.Shown y := by
  constructor
  · rintro ⟨m, hm⟩
    obtain ⟨p, hp, hm⟩ := List.exists_of_findSome?_eq_some hm
    obtain ⟨y, hy, hshown⟩ := (exists_gotoPosition?_iff h).mp ⟨m, hm⟩
    obtain ⟨z, hz, rfl, -⟩ := (mem_addresses h).mp hp
    obtain ⟨⟨d, hd⟩, -, hposition⟩ := h.entryAt?_eq_some_iff.mp hy
    obtain ⟨e, he, -⟩ := h.sound.mem_placementsOf.mp hz
    obtain rfl := h.position_injective hd he hposition
    exact ⟨y, hz, hshown⟩
  · rintro ⟨y, hy, hshown⟩
    obtain ⟨m, hm⟩ := hshown.exists_gotoPosition? h
    have hmem : n.tree.position y ∈ n.addresses s := (mem_addresses h).mpr ⟨y, hy, rfl, hshown.1⟩
    refine Option.isSome_iff_exists.mp (List.findSome?_isSome_iff.mpr ⟨_, hmem, ?_⟩)
    rw [hm, Option.isSome_some]

/-- The placement that is found comes before all others that are shown. -/
theorem first_of_gotoEntry? (hm : n.gotoEntry? s = some m) :
    ∃ y ∈ n.tree.placementsOf s, n.Shown y ∧ n.gotoPosition? (n.tree.position y) = some m ∧
      ∀ z ∈ n.tree.placementsOf s, n.Shown z →
        Position.cmp (n.tree.position z) (n.tree.position y) ≠ .lt := by
  obtain ⟨tried, p, rest, hsplit, hp, htried⟩ := List.findSome?_eq_some_iff.mp hm
  have hsplit : n.addresses s = tried ++ p :: rest := hsplit
  have hsorted := pairwise_addresses n s
  rw [hsplit, List.pairwise_append, List.pairwise_cons] at hsorted
  obtain ⟨-, ⟨hrest, -⟩, -⟩ := hsorted
  obtain ⟨y, hy, hshown⟩ := (exists_gotoPosition?_iff h).mp ⟨m, hp⟩
  have hmem : p ∈ n.addresses s := hsplit ▸ List.mem_append_right tried List.mem_cons_self
  obtain ⟨z, hz, rfl, -⟩ := (mem_addresses h).mp hmem
  obtain ⟨⟨d, hd⟩, -, hposition⟩ := h.entryAt?_eq_some_iff.mp hy
  obtain ⟨e, he, -⟩ := h.sound.mem_placementsOf.mp hz
  obtain rfl := h.position_injective hd he hposition
  refine ⟨y, hz, hshown, hp, fun w hw hwshown hlt => ?_⟩
  have hmem : n.tree.position w ∈ n.addresses s := (mem_addresses h).mpr ⟨w, hw, rfl, hwshown.1⟩
  rw [hsplit, List.mem_append, List.mem_cons] at hmem
  rcases hmem with hmem | heq | hmem
  · obtain ⟨o, ho⟩ := hwshown.exists_gotoPosition? h
    exact Option.some_ne_none o (ho.symm.trans (htried _ hmem))
  · rw [heq] at hlt
    exact absurd (Std.ReflCmp.compare_self.symm.trans hlt) (by decide)
  · have hle := hrest _ hmem
    rw [Position.cmp_swap, hlt] at hle
    cases hle

end Resolve

end CategorizedIndex.Navigator
