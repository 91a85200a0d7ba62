import CategorizedIndex.Yaml.Node
import CategorizedIndex.Yaml.Token.Lexer

/-! # YAML nodes from tokens

Reading by descent. On every way down at least one token is taken in four steps, so
the number of tokens bounds the depth.
-/
namespace CategorizedIndex.Yaml

/-- What is left to read, and the labels of the names known so far. -/
structure Reading where
  tokens : List Token
  labels : List (String × Nat)

abbrev Handles := List (List Char × Octets)

abbrev Reader (α : Type) : Type := StateT Reading Option α

namespace Reader

def next? : Reader (Option Token) := do
  return (← get).tokens.head?

def advance : Reader Unit := modify fun r => { r with tokens := r.tokens.tail }

/-- A name gets the number of names known before it, also when it is known itself. -/
def label (name : String) : Reader Nat := do
  let r ← get
  let label := r.labels.length
  set { r with labels := (name, label) :: r.labels.filter (·.1 ≠ name) }
  return label

def labelOf (name : String) : Reader Nat := do
  match (← get).labels.lookup name with
  | some label => return label
  | none => failure

def tagOf (handles : Handles) (handle : List Char) (suffix : Octets) : Reader Octets :=
  if handle.isEmpty then return suffix
  else
    match handles.lookup handle with
    | some start => return start ++ suffix
    | none => failure

structure Properties where
  label : Option Nat
  tag : Option Octets

def Properties.isEmpty (p : Properties) : Bool := p.label.isNone && p.tag.isNone

def tag? (handles : Handles) : Reader (Option Octets) := do
  match ← next? with
  | some (.tag handle suffix) =>
    advance
    return some (← tagOf handles handle suffix)
  | _ => return none

def label? : Reader (Option Nat) := do
  match ← next? with
  | some (.anchor name) =>
    advance
    return some (← label name)
  | _ => return none

/-- An anchor and a tag, in either order. -/
def properties (handles : Handles) : Reader Properties := do
  match ← label? with
  | some label => return ⟨some label, ← tag? handles⟩
  | none =>
    match ← tag? handles with
    | some tag => return ⟨← label?, some tag⟩
    | none => return ⟨none, none⟩

def bare (p : Properties) : Reader Node :=
  if p.isEmpty then failure else return .scalar p.label p.tag .plain ""

def atAny (tokens : List Token) : Reader Bool := do
  return (← next?).any tokens.contains

def comma : Reader Unit := do
  if ← atAny [.flowEntry] then advance else failure

mutual

/-- `block` allows collections that are told by indentation, and `loose` also
sequences without an indentation of their own. -/
def node (handles : Handles) (depth : Nat) (block loose : Bool) : Reader Node :=
  match depth with
  | 0 => failure
  | depth + 1 => do
    match ← next? with
    | some (.reference name) =>
      advance
      return .reference (← labelOf name)
    | _ =>
      let p ← properties handles
      match ← next? with
      | some (.scalar style text) =>
        advance
        return .scalar p.label p.tag style text
      | some .flowSequenceStart =>
        advance
        return .sequence p.label (← flowItems handles depth true)
      | some .flowMappingStart =>
        advance
        return .mapping p.label (← flowEntries handles depth true)
      | some .blockEntry =>
        if loose then return .sequence p.label (← looseItems handles depth)
        else bare p
      | some .blockSequenceStart =>
        if block then
          advance
          return .sequence p.label (← blockItems handles depth)
        else bare p
      | some .blockMappingStart =>
        if block then
          advance
          return .mapping p.label (← blockEntries handles depth)
        else bare p
      | _ => bare p
/-- A node, or nothing in front of some tokens. -/
def nodeUnless (ends : List Token) (handles : Handles) (depth : Nat) (block loose : Bool) :
    Reader Node :=
  match depth with
  | 0 => failure
  | depth + 1 => do
    if ← atAny ends then return .nothing else node handles depth block loose

/-- The value of a key, nothing if there is none. -/
def valueOf (ends : List Token) (handles : Handles) (depth : Nat) (block : Bool) :
    Reader Node :=
  match depth with
  | 0 => failure
  | depth + 1 => do
    if ← atAny [.value] then
      advance
      nodeUnless ends handles depth block block
    else return .nothing

def blockItems (handles : Handles) (depth : Nat) : Reader (List Node) :=
  match depth with
  | 0 => failure
  | depth + 1 => do
    match ← next? with
    | some .blockEntry =>
      advance
      let item ← nodeUnless [.blockEntry, .blockEnd] handles depth true false
      return item :: (← blockItems handles depth)
    | some .blockEnd =>
      advance
      return []
    | _ => failure

/-- The items of a sequence that ends where no further item follows. -/
def looseItems (handles : Handles) (depth : Nat) : Reader (List Node) :=
  match depth with
  | 0 => failure
  | depth + 1 => do
    if ← atAny [.blockEntry] then
      advance
      let item ← nodeUnless [.blockEntry, .key, .value, .blockEnd] handles depth true false
      return item :: (← looseItems handles depth)
    else return []

def blockEntries (handles : Handles) (depth : Nat) : Reader (List (Node × Node)) :=
  match depth with
  | 0 => failure
  | depth + 1 => do
    match ← next? with
    | some .key =>
      advance
      let ends := [.key, .value, .blockEnd]
      let key ← nodeUnless ends handles depth true true
      let value ← valueOf ends handles depth true
      return (key, value) :: (← blockEntries handles depth)
    | some .blockEnd =>
      advance
      return []
    | _ => failure

/-- The items of a sequence in brackets. All but the first follow a comma, and a
comma may stand behind the last. -/
def flowItems (handles : Handles) (depth : Nat) (first : Bool) : Reader (List Node) :=
  match depth with
  | 0 => failure
  | depth + 1 => do
    if ← atAny [.flowSequenceEnd] then
      advance
      return []
    else
      unless first do comma
      match ← next? with
      | some .flowSequenceEnd =>
        advance
        return []
      | some .key =>
        advance
        let entry ← flowPair handles depth
        return .mapping none [entry] :: (← flowItems handles depth false)
      | _ =>
        let item ← node handles depth false false
        return item :: (← flowItems handles depth false)

/-- A key and its value as an item of a sequence in brackets. A missing key takes
the token that follows with it. -/
def flowPair (handles : Handles) (depth : Nat) : Reader (Node × Node) :=
  match depth with
  | 0 => failure
  | depth + 1 => do
    let ends := [.flowEntry, .flowSequenceEnd]
    let missing ← atAny (.value :: ends)
    let key ← if missing then advance; pure Node.nothing else node handles depth false false
    return (key, ← valueOf ends handles depth false)

def flowEntries (handles : Handles) (depth : Nat) (first : Bool) :
    Reader (List (Node × Node)) :=
  match depth with
  | 0 => failure
  | depth + 1 => do
    if ← atAny [.flowMappingEnd] then
      advance
      return []
    else
      unless first do comma
      let ends := [.flowEntry, .flowMappingEnd]
      match ← next? with
      | some .flowMappingEnd =>
        advance
        return []
      | some .key =>
        advance
        let key ← nodeUnless (.value :: ends) handles depth false false
        let value ← valueOf ends handles depth false
        return (key, value) :: (← flowEntries handles depth false)
      | _ =>
        let key ← node handles depth false false
        return (key, .nothing) :: (← flowEntries handles depth false)

end

/-! ## Documents -/

def standardHandles : Handles :=
  [ (['!'], Octets.ofChars ['!']),
    (['!', '!'], Octets.ofChars "tag:yaml.org,2002:".toList) ]

/-- The directives up to the start of the document, at most one of each kind. -/
def directives (versioned : Bool) (handles : Handles) : List Token → Option (Handles × List Token)
  | .documentStart :: rest => some (handles ++ standardHandles, rest)
  | .version major minor :: rest =>
    if !versioned && major = 1 && (minor = 1 || minor = 2) then directives true handles rest
    else none
  | .tagHandle handle start :: rest =>
    if (handles.lookup handle).isSome then none
    else directives versioned (handles ++ [(handle, start)]) rest
  | _ => none

def startsDocument : Token → Bool
  | .documentStart | .version .. | .tagHandle .. => true
  | _ => false

def betweenDocuments (t : Token) : Bool := startsDocument t || t = .documentEnd

def run (handles : Handles) (tokens : List Token) : Option (Node × List Token) :=
  (node handles (4 * tokens.length + 4) true false ⟨tokens, []⟩).map fun (root, r) =>
    (root, r.tokens)

def document (tokens : List Token) : Option (Node × List Token) :=
  if tokens.head?.any startsDocument then do
    let (handles, rest) ← directives false [] tokens
    if rest.head?.all betweenDocuments then some (.nothing, rest) else run handles rest
  else if tokens.isEmpty then some (.nothing, [])
  else run standardHandles tokens

end Reader

/-- The content of the only document, and nothing if there is none. -/
def Node.ofTokens? (tokens : List Token) : Option Node := do
  let (root, rest) ← Reader.document tokens
  if rest.all (· = .documentEnd) then some root else none

def Node.ofText? (s : String) : Option Node := do
  Node.ofTokens? (← Token.scan (← Source.ofText? s))

end CategorizedIndex.Yaml
