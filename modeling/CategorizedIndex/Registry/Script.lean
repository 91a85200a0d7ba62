import CategorizedIndex.Registry.Basic

/-! # Requests inside requests

A constructor may use the registry that it builds for, so its requests are answered while
another one waits. Every call is reported with what it found and what it left.
-/
namespace CategorizedIndex.Registry

variable {α β : Type}

/-- Requests one after the other, each chosen by what the ones before it answered, and the
outcome at the end. A constructor is a script of its own. -/
inductive Script (α : Type)
  | done (outcome : Except Error α)
  | get (id : String) (version : UInt64) (build : Script α) (next : Except Error α → Script α)
  | dispose (id : String) (next : Bool → Script α)

/-- What a constructor found when it was called, what it came to, and what it left. -/
structure Building (α : Type) where
  start : Registry α
  outcome : Except Error α
  left : Registry α

/-- A request that was answered, with what its constructor did if it ran. -/
inductive Call (α : Type)
  | fetched (id : String) (version : UInt64) (before : Registry α)
      (built : Option (Building α)) (outcome : Except Error α) (after : Registry α)
  | disposed (id : String) (before : Registry α) (answer : Bool) (after : Registry α)

/-- A constructor under observation. -/
def observed (run : Registry α → Construction α β) (start : Registry α) :
    Construction α (Building α × β) :=
  let built := run start
  ⟨built.outcome, built.registry, (⟨start, built.outcome, built.registry⟩, built.report)⟩

namespace Script

/-- Answers the requests of a script and reports every call, at whatever depth it came up. -/
def run : Script α → Registry α → Construction α (List (Call α))
  | done outcome, r => ⟨outcome, r, []⟩
  | get id version build next, r =>
    let got := r.get id version (observed build.run)
    let inside := got.report.elim [] (·.2)
    let call := Call.fetched id version r (got.report.map (·.1)) got.outcome got.registry
    let rest := (next got.outcome).run got.registry
    ⟨rest.outcome, rest.registry, inside ++ call :: rest.report⟩
  | dispose id next, r =>
    let (answer, after) := r.dispose id
    let rest := (next answer).run after
    ⟨rest.outcome, rest.registry, .disposed id r answer after :: rest.report⟩

end Script

end CategorizedIndex.Registry
