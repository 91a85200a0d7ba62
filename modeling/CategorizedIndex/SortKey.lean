import CategorizedIndex.Error

/-! # Sort keys

The key that places an entry among its siblings. Categories come before documents
and are grouped by the column they come from; then values are compared slot by
slot, null after every value, each slot in its declared direction; ties fall to
origin and id. Sentinels below and above every value bound the ranges that are
searched for, and are never stored.

Two comparisons share these rules. The strict one refuses values of different
kinds, a slot declared in both directions, and a sentinel met by itself; the
lenient one ranks the kinds and always answers.
-/
namespace CategorizedIndex

/-- A value, or a sentinel below or above every value. -/
inductive Bound (α : Type)
  | low
  | value (a : α)
  | high
  deriving DecidableEq

namespace Bound

variable {α : Type}

def value? : Bound α → Option α
  | value a => some a
  | _ => none

def cmp (f : α → α → Ordering) : Bound α → Bound α → Ordering
  | low, low | high, high => .eq
  | low, _ | _, high => .lt
  | _, low | high, _ => .gt
  | value a, value b => f a b

def tryCmp (f : α → α → Except Error Ordering) : Bound α → Bound α → Except Error Ordering
  | low, low | high, high => .error .repeatedSentinel
  | low, _ | _, high => .ok .lt
  | _, low | high, _ => .ok .gt
  | value a, value b => f a b

theorem cmp_swap {f : α → α → Ordering} (hf : ∀ a b, f b a = (f a b).swap) (a b : Bound α) :
    cmp f b a = (cmp f a b).swap := by
  cases a with
  | low => cases b <;> rfl
  | high => cases b <;> rfl
  | value a =>
    cases b with
    | value b => exact hf a b
    | low => rfl
    | high => rfl

end Bound

/-- One position of a key: a value, where `none` is null, and its direction. -/
structure Slot where
  value : Bound (Option Scalar)
  descending : Bool
  deriving DecidableEq

namespace Slot

/-- An empty text is null. -/
def ofScalar (v : Option Scalar) (descending : Bool) : Slot :=
  ⟨.value (v.filter (!·.isEmptyText)), descending⟩

def lowest : Slot := ⟨.low, false⟩
def highest : Slot := ⟨.high, false⟩

def scalar? (s : Slot) : Option Scalar := s.value.value?.join

def directed (descending : Bool) (o : Ordering) : Ordering := if descending then o.swap else o

def compareScalars (a b : Scalar) : Ordering :=
  (a.cmp? b).getD (compare a.kind.rank b.kind.rank)

def compareValues : Option Scalar → Option Scalar → Ordering
  | none, none => .eq
  | none, some _ => .gt
  | some _, none => .lt
  | some a, some b => compareScalars a b

def cmp (a b : Slot) : Ordering :=
  Bound.cmp (fun x y => directed (a.descending && b.descending) (compareValues x y))
    a.value b.value

def tryCompareValues (position : Nat) : Option Scalar → Option Scalar → Except Error Ordering
  | some a, some b =>
    match a.cmp? b with
    | some o => .ok o
    | none => .error (.keyKinds a b position)
  | a, b => .ok (compareValues a b)

def tryCmp (position : Nat) (a b : Slot) : Except Error Ordering :=
  Bound.tryCmp
    (fun x y =>
      if a.descending ≠ b.descending then .error (.mixedDirections position)
      else (tryCompareValues position x y).map (directed a.descending))
    a.value b.value

end Slot

structure SortKey where
  isCategory : Bool
  /-- The category column that the value comes from; 0 for documents. -/
  column : Bound Nat
  slots : List Slot
  origin : Bound String
  id : UInt64
  deriving DecidableEq

namespace SortKey

def category (column : Nat) (value : Option Scalar) (descending : Bool) (id : ScopedId) : SortKey :=
  ⟨true, .value column, [.ofScalar value descending], .value id.origin, id.id⟩

def document (slots : List Slot) (id : ScopedId) : SortKey :=
  ⟨false, .value 0, slots, .value id.origin, id.id⟩

def maxId : UInt64 := 0xffffffffffffffff

/-- The column as a machine word, whose last value stands above every column. -/
def columnWord (k : SortKey) : Nat :=
  match k.column with
  | .low => 0
  | .value column => column
  | .high => 0xffffffffffffffff

/-- A closed range of keys. -/
structure Range where
  low : SortKey
  high : SortKey
  deriving DecidableEq

/-- Covers the categories of a column that hold the value. -/
def categoryBounds (column : Nat) (value : Option Scalar) (descending : Bool) : Range :=
  let slot := Slot.ofScalar value descending
  ⟨⟨true, .value column, [slot], .low, 0⟩, ⟨true, .value column, [slot], .high, maxId⟩⟩

def openRange (isCategory : Bool) : Range :=
  ⟨⟨isCategory, .value 0, [.lowest], .low, 0⟩, ⟨isCategory, .high, [.highest], .high, maxId⟩⟩

def categories : Range := openRange true

def documents : Range := openRange false

def compareSection : Bool → Bool → Ordering
  | true, false => .lt
  | false, true => .gt
  | _, _ => .eq

theorem compareSection_swap (a b : Bool) : compareSection b a = (compareSection a b).swap := by
  cases a <;> cases b <;> rfl

/-- The first slot that differs decides; slots beyond the shorter list do not count. -/
def compareSlots : List Slot → List Slot → Ordering
  | a :: as, b :: bs => (a.cmp b).then (compareSlots as bs)
  | _, _ => .eq

/-- The lenient comparison, which orders stored siblings. -/
def cmp (a b : SortKey) : Ordering :=
  (compareSection a.isCategory b.isCategory).then <|
  (Bound.cmp compare a.column b.column).then <|
  (compareSlots a.slots b.slots).then <|
  (compare a.slots.length b.slots.length).then <|
  (Bound.cmp compare a.origin b.origin).then (compare a.id b.id)

/-- Goes on to the next comparison only where this one finds no difference. -/
def orElse (first : Except Error Ordering) (next : Unit → Except Error Ordering) :
    Except Error Ordering :=
  match first with
  | .ok .eq => next ()
  | other => other

def tryCompareSlots (position : Nat) : List Slot → List Slot → Except Error Ordering
  | a :: as, b :: bs =>
    orElse (a.tryCmp position b) fun _ => tryCompareSlots (position + 1) as bs
  | _, _ => .ok .eq

/-- The strict comparison. -/
def tryCmp (a b : SortKey) : Except Error Ordering :=
  orElse (.ok (compareSection a.isCategory b.isCategory)) fun _ =>
  orElse (.ok (Bound.cmp compare a.column b.column)) fun _ =>
  orElse (tryCompareSlots 0 a.slots b.slots) fun _ =>
  orElse (.ok (compare a.slots.length b.slots.length)) fun _ =>
  orElse (Bound.tryCmp (fun x y => .ok (compare x y)) a.origin b.origin) fun _ =>
  .ok (compare a.id b.id)

def Range.contains (r : Range) (k : SortKey) : Bool :=
  (r.low.cmp k).isLE && (k.cmp r.high).isLE

end SortKey

end CategorizedIndex
