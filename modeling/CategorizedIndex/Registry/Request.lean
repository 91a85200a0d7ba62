import CategorizedIndex.Index
import CategorizedIndex.Registry.Basic

/-! # Requests to a registry of indexes

Requests are answered one after the other. A request for an index says how to
build it: which requests to make first, whether to fail, and from which
configuration; the index is named after the count of builds. A change may be
applied to the index that comes back, which is the one the registry keeps.
-/
namespace CategorizedIndex

inductive Request
  | get (id : String) (version : UInt64) (config : Config) (before : List Request)
      (failure : Option String) (change : Option Change)
  | dispose (id : String)
  | contains (id : String)
  | versionOf (id : String)

mutual

inductive Result
  | index (name : String) (documents : Nat) (before : List Response)
  | failed (e : Error) (before : List Response)
  | flag (answer : Bool)
  | version (version : Option UInt64)

inductive Response
  | mk (result : Result) (builds : Nat) (ids : List String)

end

namespace Request

def buildIndex (name : String) (config : Config) (failure : Option String) :
    Except Error Index :=
  match failure with
  | some message => .error (.reported .config message none)
  | none => Index.build name config none

/-- The index after a change; one that fails leaves it as it was. -/
def applied (x : Index) (change : Option Change) : Index :=
  match change with
  | none => x
  | some change =>
    match x.apply change with
    | .ok (changed, _) => changed
    | .error _ => x

mutual

def run (r : Registry Index) : Request → Response × Registry Index
  | get id version config before failure change =>
    let built := r.get id version fun r =>
      let name := "b" ++ toString r.builds
      let (responses, r) := runAll r before
      ⟨buildIndex name config failure, r, responses⟩
    let before := built.report.getD []
    match built.outcome with
    | .error e =>
      let r := built.registry
      (.mk (.failed e before) r.builds r.ids, r)
    | .ok x =>
      let x := applied x change
      let r := built.registry.keep id version x
      (.mk (.index x.name x.tree.documentCount before) r.builds r.ids, r)
  | dispose id =>
    let (disposed, r) := r.dispose id
    (.mk (.flag disposed) r.builds r.ids, r)
  | contains id => (.mk (.flag (r.contains id)) r.builds r.ids, r)
  | versionOf id => (.mk (.version (r.version? id)) r.builds r.ids, r)

def runAll (r : Registry Index) : List Request → List Response × Registry Index
  | [] => ([], r)
  | request :: rest =>
    let (response, r) := run r request
    let (responses, r) := runAll r rest
    (response :: responses, r)

end

end Request

end CategorizedIndex
