import CategorizedIndex.Index

/-! # Sessions

Operations on an index one after the other. The index can be handed on from one to the next, or
stand in one place, where an operation finds what the one before it has left.
-/
namespace CategorizedIndex

/-- What may be done to an index. -/
inductive Operation
  | change (change : Change)
  | withdrawal (origin : String)
  deriving DecidableEq

namespace Index

def changeOf (x : Index) : Operation → Change
  | .change change => change
  | .withdrawal origin => x.withdrawal origin

/-- The index after an operation; one that fails leaves it as it was. -/
def after (x : Index) (operation : Operation) : Index :=
  match operation with
  | .change change => ((x.apply change).toOption.map (·.1)).getD x
  | .withdrawal origin => ((x.removeOrigin origin).toOption.map (·.1)).getD x

def run (x : Index) (operations : List Operation) : Index := operations.foldl after x

/-- The index after changes, all of which have to succeed. -/
def applyAll (x : Index) (changes : List Change) : Except Error Index :=
  changes.foldlM (fun x change => (x.apply change).map (·.1)) x

/-- An operation done in place. An error leaves the index as it stands at that moment. -/
def perform (operation : Operation) : ExceptT Error (StateM Index) Stats := do
  let x ← get
  let batch ← liftExcept ((x.changeOf operation).prepare x.config x.filter)
  if x.config.strict then liftExcept (x.tree.checkKinds x.config batch)
  let (tree, stats) := x.tree.commit x.config batch
  set { x with tree := tree }
  return stats

/-- The results of operations done in place one after the other, and the index after them. -/
def session (x : Index) : List Operation → List (Except Error Stats) × Index
  | [] => ([], x)
  | operation :: rest =>
    let (result, y) := (perform operation).run x
    let (results, z) := session y rest
    (result :: results, z)

end Index

end CategorizedIndex
