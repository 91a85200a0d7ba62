import CategorizedIndex.Error

/-! # Registries

A registry keeps at most one built value per id, under the version it was built
for. A value is built only when none of the wanted version is kept. Building may
use the registry itself, so what is kept can be different when it ends: a value of
the wanted version that appeared meanwhile wins over the one just built. When
building fails, the outdated value that was found at the start goes away, if it is
still there.
-/
namespace CategorizedIndex

structure Registered (α : Type) where
  version : UInt64
  value : α

structure Registry (α : Type) where
  kept : Std.ExtTreeMap String (Registered α)
  /-- How many times building was begun. -/
  builds : Nat

/-- What a construction comes to: its outcome, the registry it leaves and a report. -/
structure Construction (α β : Type) where
  outcome : Except Error α
  registry : Registry α
  report : β

namespace Registry

variable {α β : Type}

def empty : Registry α := ⟨∅, 0⟩

def version? (r : Registry α) (id : String) : Option UInt64 := (r.kept[id]?).map (·.version)

def contains (r : Registry α) (id : String) : Bool := r.kept.contains id

def find? (r : Registry α) (id : String) (version : UInt64) : Option α :=
  ((r.kept[id]?).filter (·.version == version)).map (·.value)

def ids (r : Registry α) : List String := r.kept.keys

def size (r : Registry α) : Nat := r.kept.size

def keep (r : Registry α) (id : String) (version : UInt64) (value : α) : Registry α :=
  { r with kept := r.kept.insert id ⟨version, value⟩ }

def dispose (r : Registry α) (id : String) : Bool × Registry α :=
  (r.contains id, { r with kept := r.kept.erase id })

/-- Drops what is kept for an id if it has one of the given versions. -/
def dropVersion (r : Registry α) (id : String) (version : Option UInt64) : Registry α :=
  if version.isSome && r.version? id == version then { r with kept := r.kept.erase id } else r

/-- A value that was just built is kept, unless one of its version is there already. -/
def publish (r : Registry α) (id : String) (version : UInt64) (value : α) : α × Registry α :=
  match r.find? id version with
  | some known => (known, r)
  | none => (value, r.keep id version value)

/-- The value of a version, built if it is not kept; there is a report only if it
had to be built. -/
def get (r : Registry α) (id : String) (version : UInt64)
    (build : Registry α → Construction α β) : Construction α (Option β) :=
  match r.find? id version with
  | some value => ⟨.ok value, r, none⟩
  | none =>
    let built := build { r with builds := r.builds + 1 }
    match built.outcome with
    | .ok value =>
      let (value, published) := built.registry.publish id version value
      ⟨.ok value, published, some built.report⟩
    | .error e => ⟨.error e, built.registry.dropVersion id (r.version? id), some built.report⟩

end Registry

end CategorizedIndex
