import CategorizedIndex.Proofs.Prepare
import CategorizedIndex.Tree.Integrity

/-! # Steps of the integrity check

What each part of the check does, as equations of computations that may fail, and what a part
has shown when it passes. Nothing is asked of the tree.
-/
namespace CategorizedIndex.Tree

variable {t : Tree} {strict : Bool} {id x y rank : Nat} {rest : List (SortKey × EntryId)}
  {w v : Walk} {visit : EntryId → Except Error Census} {e : Entry}

/-- A child counts once. -/
def one (b : Bool) : Nat := if b then 1 else 0

/-- The walk past a child, below which a census was taken. -/
def Walk.past (w : Walk) (key : SortKey) (child : Entry) (below : Census) : Walk where
  previous := some key
  seenDocument := w.seenDocument || child.isDocument
  childCategories := w.childCategories + one child.isCategory
  census :=
    { categories := w.census.categories + one child.isCategory + below.categories
      documents := w.census.documents + one child.isDocument + below.documents
      reached := w.census.reached + 1 + below.reached }

theorem require_eq_ok_iff {b : Bool} {violation : Violation} {u : Unit} :
    require b violation = .ok u ↔ b = true := by
  cases b <;> simp [require]

theorem checkChild_eq (strict : Bool) (id rank : Nat) (previous : Option SortKey) (key : SortKey)
    (y : EntryId) (child : Entry) :
    checkChild strict id rank previous key y child =
      (require (child.parent == some id) (.wrongParent y id child.parent)).bind fun _ =>
      (compareKeys strict child.key key).bind fun o =>
      (require (o == .eq) (.foreignKey y)).bind fun _ =>
      (require (child.rank == rank) (.wrongRank y child.rank rank)).bind fun _ =>
      match previous with
      | none => .ok ()
      | some previous => (compareKeys strict previous key).bind fun o =>
        require (o == .lt) (.outOfOrder id rank) := by
  cases previous <;> rfl

theorem checkChild_eq_ok_iff {previous : Option SortKey} {key : SortKey} {child : Entry} :
    checkChild strict id rank previous key y child = .ok () ↔
      child.parent = some id ∧ compareKeys strict child.key key = .ok .eq ∧ child.rank = rank ∧
        ∀ p, previous = some p → compareKeys strict p key = .ok .lt := by
  simp only [checkChild_eq, Except.bind_eq_ok, require_eq_ok_iff, beq_iff_eq, exists_const]
  constructor
  · rintro ⟨hparent, o, hkey, rfl, hrank, hlast⟩
    refine ⟨hparent, hkey, hrank, ?_⟩
    rintro p rfl
    simpa only [Except.bind_eq_ok, require_eq_ok_iff, beq_iff_eq, exists_eq_right] using hlast
  · rintro ⟨hparent, hkey, hrank, hprevious⟩
    refine ⟨hparent, .eq, hkey, rfl, hrank, ?_⟩
    cases previous with
    | none => rfl
    | some p => exact Except.bind_eq_ok.mpr ⟨.lt, hprevious p rfl, rfl⟩

theorem checkChildren_cons {key : SortKey} {child : Entry} (hy : t.get? y = some child) :
    checkChildren t strict visit id rank ((key, y) :: rest) w =
      (checkChild strict id rank w.previous key y child).bind fun _ =>
      (require (!(child.isCategory && w.seenDocument))
        (.categoryAfterDocument child.scopedId)).bind fun _ =>
      (visit y).bind fun below =>
      checkChildren t strict visit id (rank + 1) rest (w.past key child below) := by
  rw [checkChildren, hy]
  rfl

theorem checkChildren_cons_of_missing {key : SortKey} (hy : t.get? y = none) :
    checkChildren t strict visit id rank ((key, y) :: rest) w =
      .error (.broken (.missingChild y id)) := by
  rw [checkChildren, hy]

theorem checkChildren_cons_eq_ok_iff {key : SortKey} :
    checkChildren t strict visit id rank ((key, y) :: rest) w = .ok v ↔
      ∃ child below, t.get? y = some child ∧
        checkChild strict id rank w.previous key y child = .ok () ∧
        (child.isCategory = true → w.seenDocument = false) ∧ visit y = .ok below ∧
        checkChildren t strict visit id (rank + 1) rest (w.past key child below) = .ok v := by
  cases hy : t.get? y with
  | none => simp [checkChildren_cons_of_missing hy]
  | some child =>
    rw [checkChildren_cons hy]
    simp only [Except.bind_eq_ok, require_eq_ok_iff, exists_const, Option.some.injEq,
      exists_and_left, exists_eq_left', Bool.not_eq_true', Bool.and_eq_false_imp]
    exact ⟨fun ⟨_, h⟩ => h, fun h => ⟨(), h⟩⟩

theorem firstWrongCounter?_eq_none_iff :
    firstWrongCounter? e w = none ↔ e.counters.children = e.children.size ∧
      e.counters.childCategories = w.childCategories ∧
      e.counters.childDocuments = e.children.size - w.childCategories ∧
      e.counters.descendants = w.census.categories + w.census.documents ∧
      e.counters.descendantCategories = w.census.categories ∧
      e.counters.descendantDocuments = w.census.documents := by
  simp [firstWrongCounter?, List.findSome?_eq_none_iff]

theorem checkBelow_succ (fuel : Nat) (hx : t.get? x = some e) :
    t.checkBelow strict (fuel + 1) x =
      (require (!(e.isCategory && x != root && e.children.isEmpty))
        (.emptyCategory e.scopedId)).bind fun _ =>
      (require (!(e.isDocument && !e.children.isEmpty)) (.documentWithChildren e.scopedId)).bind
        fun _ =>
      (checkChildren t strict (t.checkBelow strict fuel) x 1 e.children.toList
        ⟨none, false, 0, ⟨0, 0, 0⟩⟩).bind fun w =>
      match firstWrongCounter? e w with
      | some violation => .error (.broken violation)
      | none => .ok w.census := by
  rw [checkBelow, hx]
  rfl

theorem checkBelow_succ_of_missing (fuel : Nat) (hx : t.get? x = none) :
    t.checkBelow strict (fuel + 1) x = .error (.broken (.missingEntry x)) := by
  rw [checkBelow, hx]

/-- What the check below an entry has shown when it passes. -/
theorem checkBelow_succ_eq_ok_iff {fuel : Nat} {c : Census} (hx : t.get? x = some e) :
    t.checkBelow strict (fuel + 1) x = .ok c ↔
      (x ≠ root → e.isCategory = true → e.children.toList ≠ []) ∧
      (e.isCategory = false → e.children.toList = []) ∧
      ∃ w, checkChildren t strict (t.checkBelow strict fuel) x 1 e.children.toList
          ⟨none, false, 0, ⟨0, 0, 0⟩⟩ = .ok w ∧
        firstWrongCounter? e w = none ∧ w.census = c := by
  rw [checkBelow_succ fuel hx]
  simp only [Except.bind_eq_ok, require_eq_ok_iff, exists_const]
  refine and_congr ?_ (and_congr ?_ (exists_congr fun w => and_congr_right fun _ => ?_))
  · simp only [ne_eq, ← Siblings.isEmpty_iff]
    by_cases hr : x = root <;> cases e.isCategory <;> simp [hr]
  · rw [← Siblings.isEmpty_iff, Entry.isDocument]
    cases e.isCategory <;> simp
  · cases firstWrongCounter? e w <;> simp

theorem checkPlacements_eq (s : ScopedId) (ids : List EntryId) :
    t.checkPlacements s ids =
      (require (!ids.isEmpty) (.emptyPlacements s)).bind fun _ =>
      (ids.forM fun x =>
        require ((t.get? x).any (·.scopedId == s)) (.stalePlacement x s)).bind fun _ =>
      require (s.isCategory ||
        (ids.filterMap fun x => (t.get? x).bind (·.parent)).eraseDups.length == ids.length)
        (.repeatedPlacement s) := rfl

theorem checkIndex_eq (t : Tree) :
    t.checkIndex =
      (t.placements.toList.forM fun a => t.checkPlacements a.1 a.2).bind fun _ =>
      require (t.placements.toList.foldl (fun count a => count + a.2.length) 0 == t.arena.size)
        (.wrongPlacementCount (t.placements.toList.foldl (fun count a => count + a.2.length) 0)
          t.arena.size) := rfl

theorem verifyIntegrity_eq (t : Tree) (strict : Bool) :
    t.verifyIntegrity strict =
      (t.checkBelow strict (t.arena.size + 1) root).bind fun census =>
      (require (census.reached + 1 == t.arena.size)
        (.unreachable t.arena.size (census.reached + 1))).bind fun _ =>
      t.checkIndex.bind fun _ => require t.unnumbered.isEmpty .pendingRenumbering := rfl

end CategorizedIndex.Tree
