import CategorizedIndex.Tree.Basic

/-! # Committing a batch

A batch is committed in four steps: withdrawals take every placement of their ids
away; every row gives up its former placements and, if it has a placing, is placed
once under each category its paths lead to, with categories created on the way;
categories left without children are pruned, up to the first that still has some;
and the children of every entry touched are renumbered.

Counters above a change are adjusted at once. Pruning waits until the rows are
placed, so a category that is refilled by the same batch stays the entry it was.
-/
namespace CategorizedIndex

/-- What a batch did: placements removed and added, rows the filter turned down,
categories created and pruned, and entries whose children were renumbered. -/
structure Stats where
  removed : Nat
  added : Nat
  rejected : Nat
  categoriesCreated : Nat
  categoriesPruned : Nat
  renumberedParents : Nat
  deriving DecidableEq

namespace Stats

def none : Stats := ⟨0, 0, 0, 0, 0, 0⟩

end Stats

namespace Tree

def modify (t : Tree) (id : EntryId) (f : Entry → Entry) : Tree :=
  { t with arena := t.arena.modify id f }

theorem get?_modify (t : Tree) (a b : EntryId) (f : Entry → Entry) :
    (t.modify a f).get? b = if a = b then (t.get? b).map f else t.get? b := by
  unfold get? modify
  rw [Std.ExtTreeMap.getElem?_modify]
  by_cases h : a = b
  · subst h; simp
  · simp [h]

def modifyAll (t : Tree) (ids : List EntryId) (f : Entry → Entry) : Tree :=
  ids.foldl (fun t id => t.modify id f) t

def recount (t : Tree) (id : EntryId) (f : Counters → Counters) : Tree :=
  t.modifyAll ((t.lineage id).map (·.1)) fun e => { e with counters := f e.counters }

/-- Puts a new entry under the next handle. -/
def attach (t : Tree) (parent : EntryId) (scopedId : ScopedId) (unid : String) (key : SortKey)
    (values : ColumnValues) : Tree :=
  let id := t.nextEntry
  let isCategory := scopedId.isCategory
  let linked := t.modify parent fun e =>
    { e with
      children := e.children.insert key id
      counters := e.counters.childAttached isCategory }
  let counted := linked.recount parent (·.descendantAttached isCategory)
  { arena := counted.arena.insert id (.new scopedId unid key values (some parent))
    placements := counted.placements.insert scopedId (counted.placementsOf scopedId ++ [id])
    nextEntry := id + 1
    lastCategory := counted.lastCategory
    unnumbered := counted.unnumbered.insert parent }

def unlink (t : Tree) (id : EntryId) (e : Entry) (parent : EntryId) : Tree :=
  let linked := t.modify parent fun p =>
    { p with
      children := p.children.erase e.key
      counters := p.counters.childDetached e.isCategory }
  let counted := linked.recount parent (·.descendantDetached e.isCategory)
  { counted with unnumbered := (counted.unnumbered.insert parent).erase id }

def unindex (t : Tree) (id : EntryId) (scopedId : ScopedId) : Tree :=
  match t.placements[scopedId]? with
  | none => t
  | some ids =>
    { t with
      placements := match ids.filter (· != id) with
        | [] => t.placements.erase scopedId
        | rest => t.placements.insert scopedId rest }

/-- Takes a childless entry out of the tree. The root stays. -/
def detach? (t : Tree) (id : EntryId) : Option (Entry × Tree) :=
  if id = root then none
  else match t.get? id with
    | none => none
    | some e =>
      let removed := { t with arena := t.arena.erase id, unnumbered := t.unnumbered.erase id }
      let unlinked := match e.parent with
        | some parent => removed.unlink id e parent
        | none => removed
      some (e, unlinked.unindex id e.scopedId)

def findCategory? (t : Tree) (parent : EntryId) (step : CategoryStep) : Option EntryId :=
  (t.childrenOf parent).firstWithin?
    (SortKey.categoryBounds step.column step.value step.descending)

/-- A category shows the value of its own column and nothing else. -/
def categoryValues (config : Config) (step : CategoryStep) : ColumnValues :=
  match config.columns[step.column]? with
  | some column => (∅ : ColumnValues).insert column.item (.ofScalar? step.value)
  | none => ∅

def createCategory (t : Tree) (config : Config) (parent : EntryId) (step : CategoryStep) : Tree :=
  let number := t.lastCategory + 1
  let id := ScopedId.category (UInt64.ofNat number)
  { t with lastCategory := number }.attach parent id ""
    (.category step.column step.value step.descending id) (categoryValues config step)

def renumber (t : Tree) (parent : EntryId) : Tree :=
  (t.childrenOf parent).ids.zipIdx.foldl
    (fun t (child, index) => t.modify child fun e => { e with rank := index + 1 }) t

/-- Prunes an emptied category and every category above that this empties; returns
how many. -/
def pruneFrom (t : Tree) : Nat → EntryId → Nat × Tree
  | 0, _ => (0, t)
  | fuel + 1, id =>
    match t.get? id with
    | none => (0, t)
    | some e =>
      if !e.children.isEmpty || !e.isCategory then (0, t)
      else match t.detach? id with
        | none => (0, t)
        | some (_, rest) =>
          match e.parent with
          | none => (1, rest)
          | some parent =>
            let (count, pruned) := rest.pruneFrom fuel parent
            (count + 1, pruned)

def prune (t : Tree) (candidates : List EntryId) : Nat × Tree :=
  candidates.foldl
    (fun (count, t) id =>
      let (more, pruned) := t.pruneFrom t.arena.size id
      (count + more, pruned))
    (0, t)

/-- Renumbers everything that is stale; returns the count of entries that still
exist. -/
def flush (t : Tree) : Nat × Tree :=
  let stale := t.unnumbered.toList.filter t.arena.contains
  (stale.length, { stale.foldl renumber t with unnumbered := ∅ })

end Tree

/-- A commit under way. -/
structure Work where
  tree : Tree
  stats : Stats
  /-- Entries that lost a child and may have to be pruned. -/
  emptied : List EntryId

namespace Work

def start (t : Tree) : Work := ⟨t, .none, []⟩

def detach (w : Work) (id : EntryId) : Work :=
  match w.tree.detach? id with
  | none => w
  | some (e, t) =>
    { tree := t
      stats := { w.stats with removed := w.stats.removed + 1 }
      emptied := match e.parent with
        | some parent => if parent = Tree.root then w.emptied else w.emptied ++ [parent]
        | none => w.emptied }

def withdraw (w : Work) (id : ScopedId) : Work := (w.tree.placementsOf id).foldl detach w

def findOrCreate (config : Config) (parent : EntryId) (step : CategoryStep) (w : Work) :
    EntryId × Work :=
  match w.tree.findCategory? parent step with
  | some id => (id, w)
  | none =>
    (w.tree.nextEntry,
      { w with
        tree := w.tree.createCategory config parent step
        stats := { w.stats with categoriesCreated := w.stats.categoriesCreated + 1 } })

/-- The category a path leads to from an entry. -/
def resolve (config : Config) (parent : EntryId) : CategoryPath → Work → EntryId × Work
  | [], w => (parent, w)
  | step :: rest, w =>
    let (id, w) := w.findOrCreate config parent step
    resolve config id rest w

/-- The distinct categories that paths lead to, in order. -/
def resolveAll (config : Config) (known : List EntryId) :
    List CategoryPath → Work → List EntryId × Work
  | [], w => (known, w)
  | path :: rest, w =>
    let (id, w) := resolve config Tree.root path w
    resolveAll config (if known.contains id then known else known ++ [id]) rest w

def attachDocument (id : ScopedId) (placing : Placing) (w : Work) (parent : EntryId) : Work :=
  { w with
    tree := w.tree.attach parent id placing.unid (.document placing.slots id) placing.values
    stats := { w.stats with added := w.stats.added + 1 } }

def place (config : Config) (w : Work) (row : PreparedRow) : Work :=
  let w := w.withdraw row.scopedId
  match row.placing with
  | none => { w with stats := { w.stats with rejected := w.stats.rejected + 1 } }
  | some placing =>
    let (parents, w) := resolveAll config [] placing.paths w
    parents.foldl (attachDocument row.scopedId placing) w

def finish (w : Work) : Tree × Stats :=
  let (pruned, t) := w.tree.prune w.emptied
  let (renumbered, t) := t.flush
  (t, { w.stats with categoriesPruned := pruned, renumberedParents := renumbered })

end Work

def Tree.commit (t : Tree) (config : Config) (batch : Batch) : Tree × Stats :=
  let withdrawn := batch.removals.foldl Work.withdraw (.start t)
  (batch.rows.foldl (Work.place config) withdrawn).finish

end CategorizedIndex
