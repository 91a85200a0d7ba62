import CategorizedIndex.Tree.Basic

/-! # Integrity

A check of everything the tree keeps up: links between parents and children agree,
siblings are in order and numbered by rank, categories come before documents and
are not empty, documents are leaves, counters count what is there, and the index
of placements finds every entry. The first violation met is reported.

In a strict index siblings are compared strictly, so two that are not comparable
are reported as well.
-/
namespace CategorizedIndex

namespace Tree

/-- What a descent has counted below an entry, and how many entries it met. -/
structure Census where
  categories : Nat
  documents : Nat
  reached : Nat

def compareKeys (strict : Bool) (a b : SortKey) : Except Error Ordering :=
  if strict then a.tryCmp b else .ok (a.cmp b)

def require (condition : Bool) (violation : Violation) : Except Error Unit :=
  if condition then .ok () else .error (.broken violation)

def checkChild (strict : Bool) (id : EntryId) (rank : Nat) (previous : Option SortKey)
    (key : SortKey) (childId : EntryId) (child : Entry) : Except Error Unit := do
  require (child.parent == some id) (.wrongParent childId id child.parent)
  let o ← compareKeys strict child.key key
  require (o == .eq) (.foreignKey childId)
  require (child.rank == rank) (.wrongRank childId child.rank rank)
  match previous with
  | none => .ok ()
  | some previous =>
    let o ← compareKeys strict previous key
    require (o == .lt) (.outOfOrder id rank)

/-- Progress along the children of one entry. -/
structure Walk where
  previous : Option SortKey
  seenDocument : Bool
  childCategories : Nat
  census : Census

def firstWrongCounter? (e : Entry) (w : Walk) : Option Violation :=
  let c := e.counters
  let size := e.children.size
  [ (CounterName.children, c.children, size),
    (.childCategories, c.childCategories, w.childCategories),
    (.childDocuments, c.childDocuments, size - w.childCategories),
    (.descendants, c.descendants, w.census.categories + w.census.documents),
    (.descendantCategories, c.descendantCategories, w.census.categories),
    (.descendantDocuments, c.descendantDocuments, w.census.documents)
  ].findSome? fun (name, stored, counted) =>
    if stored = counted then none else some (.wrongCounter name e.scopedId stored counted)

/-- Checks the children of one entry in order; `visit` checks what is below one. -/
def checkChildren (t : Tree) (strict : Bool) (visit : EntryId → Except Error Census)
    (id : EntryId) : Nat → List (SortKey × EntryId) → Walk → Except Error Walk
  | _, [], w => .ok w
  | rank, (key, childId) :: rest, w =>
    match t.get? childId with
    | none => .error (.broken (.missingChild childId id))
    | some child => do
      checkChild strict id rank w.previous key childId child
      require (!(child.isCategory && w.seenDocument)) (.categoryAfterDocument child.scopedId)
      let below ← visit childId
      let one (b : Bool) : Nat := if b then 1 else 0
      checkChildren t strict visit id (rank + 1) rest
        { previous := some key
          seenDocument := w.seenDocument || child.isDocument
          childCategories := w.childCategories + one child.isCategory
          census :=
            { categories := w.census.categories + one child.isCategory + below.categories
              documents := w.census.documents + one child.isDocument + below.documents
              reached := w.census.reached + 1 + below.reached } }

/-- Checks an entry and everything below it. Along correct links no descent visits
an entry twice, so it ends before `fuel`, the size of the arena, does. -/
def checkBelow (t : Tree) (strict : Bool) : Nat → EntryId → Except Error Census
  | 0, id => .error (.broken (.endlessDescent id))
  | fuel + 1, id =>
    match t.get? id with
    | none => .error (.broken (.missingEntry id))
    | some e => do
      require (!(e.isCategory && id != root && e.children.isEmpty)) (.emptyCategory e.scopedId)
      require (!(e.isDocument && !e.children.isEmpty)) (.documentWithChildren e.scopedId)
      let w ← checkChildren t strict (t.checkBelow strict fuel) id 1 e.children.toList
        ⟨none, false, 0, ⟨0, 0, 0⟩⟩
      match firstWrongCounter? e w with
      | some violation => .error (.broken violation)
      | none => .ok w.census

/-- Checks the placements of one scoped id. -/
def checkPlacements (t : Tree) (id : ScopedId) (placements : List EntryId) :
    Except Error Unit := do
  require (!placements.isEmpty) (.emptyPlacements id)
  placements.forM fun placement =>
    require ((t.get? placement).any (·.scopedId == id)) (.stalePlacement placement id)
  let parents := placements.filterMap fun placement => (t.get? placement).bind (·.parent)
  require (id.isCategory || parents.eraseDups.length == placements.length)
    (.repeatedPlacement id)

def checkIndex (t : Tree) : Except Error Unit := do
  t.placements.toList.forM fun (id, placements) => t.checkPlacements id placements
  let indexed := t.placements.toList.foldl (fun count (_, ids) => count + ids.length) 0
  require (indexed == t.arena.size) (.wrongPlacementCount indexed t.arena.size)

def verifyIntegrity (t : Tree) (strict : Bool) : Except Error Unit := do
  let census ← t.checkBelow strict (t.arena.size + 1) root
  require (census.reached + 1 == t.arena.size) (.unreachable t.arena.size (census.reached + 1))
  t.checkIndex
  require t.unnumbered.isEmpty .pendingRenumbering

end Tree

end CategorizedIndex
