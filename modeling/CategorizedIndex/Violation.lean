import CategorizedIndex.ScopedId

/-! # Violations of integrity

What a check of the tree can find wrong: with the links between entries, with the
order and numbering of siblings, with the counters, and with the index of
placements.
-/
namespace CategorizedIndex

/-- Handle of an entry. Handles are never reused. -/
abbrev EntryId := Nat

namespace EntryId

def toText (id : EntryId) : String := "Entry(" ++ toString id ++ ")"

def optionText : Option EntryId → String
  | none => "None"
  | some id => "Some(EntryId(" ++ toString id ++ "))"

end EntryId

inductive CounterName
  | children
  | childCategories
  | childDocuments
  | descendants
  | descendantCategories
  | descendantDocuments
  deriving DecidableEq

def CounterName.toText : CounterName → String
  | children => "child_count"
  | childCategories => "child_category_count"
  | childDocuments => "child_document_count"
  | descendants => "descendant_count"
  | descendantCategories => "descendant_category_count"
  | descendantDocuments => "descendant_document_count"

inductive Violation
  | missingEntry (id : EntryId)
  | missingChild (child parent : EntryId)
  | emptyCategory (category : ScopedId)
  | documentWithChildren (document : ScopedId)
  | wrongParent (child listedUnder : EntryId) (pointsTo : Option EntryId)
  | foreignKey (child : EntryId)
  | wrongRank (child : EntryId) (stored rank : Nat)
  | outOfOrder (parent : EntryId) (rank : Nat)
  | categoryAfterDocument (category : ScopedId)
  | wrongCounter (counter : CounterName) (entry : ScopedId) (stored counted : Nat)
  | unreachable (stored reached : Nat)
  | endlessDescent (id : EntryId)
  | emptyPlacements (id : ScopedId)
  | stalePlacement (placement : EntryId) (id : ScopedId)
  | repeatedPlacement (id : ScopedId)
  | wrongPlacementCount (indexed stored : Nat)
  | pendingRenumbering
  deriving DecidableEq

def Violation.message : Violation → String
  | missingEntry id => "dangling child handle " ++ id.toText
  | missingChild child parent =>
    "dangling child handle " ++ child.toText ++ " under " ++ parent.toText
  | emptyCategory category => "empty category " ++ category.toText ++ " survived pruning"
  | documentWithChildren document => "document " ++ document.toText ++ " has children"
  | wrongParent child listedUnder pointsTo =>
    child.toText ++ " listed under " ++ listedUnder.toText ++ " but points to " ++
      EntryId.optionText pointsTo
  | foreignKey child => child.toText ++ " stored under a key that differs from its own"
  | wrongRank child stored rank =>
    child.toText ++ " has sibling index " ++ toString stored ++ " at rank " ++ toString rank
  | outOfOrder parent rank =>
    "children of " ++ parent.toText ++ " are out of order at rank " ++ toString rank
  | categoryAfterDocument category =>
    "category " ++ category.toText ++ " sorts after a document"
  | wrongCounter counter entry stored counted =>
    counter.toText ++ " of " ++ entry.toText ++ " is " ++ toString stored ++
      " but the subtree holds " ++ toString counted
  | unreachable stored reached =>
    toString stored ++ " entries in the arena but " ++ toString reached ++
      " reachable from the root"
  | endlessDescent id => "the descent through " ++ id.toText ++ " does not end"
  | emptyPlacements id => "empty placement list for " ++ id.toText
  | stalePlacement placement id =>
    "stale placement " ++ placement.toText ++ " indexed for " ++ id.toText
  | repeatedPlacement id => id.toText ++ " placed twice under one parent"
  | wrongPlacementCount indexed stored =>
    "id index holds " ++ toString indexed ++ " placements for " ++ toString stored ++ " entries"
  | pendingRenumbering => "sibling renumbering left pending after a batch"

end CategorizedIndex
