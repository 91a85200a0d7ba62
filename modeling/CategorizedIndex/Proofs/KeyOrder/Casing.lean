import CategorizedIndex.SortKey

/-! # The order of sort keys under any casing

How characters are brought to lower case matters to the order of keys, but not to its being
one. Every comparison that it is put together from is total by itself, and a slot that has
one direction everywhere is compared by one of them. Two keys compare equal only where they
agree.
-/
namespace CategorizedIndex

open Std

namespace Number

theorem toNat_bits (x : Number) :
    x.bits.toNat = (if x.isNegative then Nat.pow 2 63 else 0) + x.magnitude := by
  have hb : x.bits.toNat < Nat.pow 2 64 := x.bits.toNat_lt
  have hp : Nat.pow 2 63 = 9223372036854775808 := by decide
  have hq : Nat.pow 2 64 = 18446744073709551616 := by decide
  unfold magnitude isNegative
  rw [hp] at *
  rw [hq] at hb
  split
  · next h =>
    have := of_decide_eq_true h
    omega
  · next h =>
    have : ¬ 9223372036854775808 ≤ x.bits.toNat := by simpa using h
    omega

theorem rank_injective {x y : Number} (h : x.rank = y.rank) : x = y := by
  have hx := x.toNat_bits
  have hy := y.toNat_bits
  have hb : x.bits.toNat = y.bits.toNat := by
    unfold rank at h
    cases hnx : x.isNegative <;> cases hny : y.isNegative <;>
      simp only [hnx, hny, if_true, Bool.false_eq_true, if_false] at h hx hy <;> omega
  cases x
  cases y
  exact congrArg Number.mk (UInt64.toNat_inj.mp hb)

instance : TransCmp Number.cmp := inferInstanceAs (TransCmp (compareOn Number.rank))

instance : LawfulEqCmp Number.cmp where
  eq_of_compare h := rank_injective (LawfulEqOrd.eq_of_compare h)

end Number

namespace Timestamp

instance : TransCmp Timestamp.cmp :=
  inferInstanceAs (TransCmp (compareLex (compareOn Timestamp.seconds) (compareOn Timestamp.nanos)))

instance : LawfulEqCmp Timestamp.cmp where
  eq_of_compare {a b} h := by
    obtain ⟨hs, hn⟩ := Ordering.then_eq_eq.mp h
    cases a
    cases b
    simp only [LawfulEqOrd.compare_eq_iff_eq] at hs hn
    simp only [Timestamp.mk.injEq]
    exact ⟨hs, hn⟩

end Timestamp

namespace Scalar

variable (lower : Char → List Char)

/-- Texts by their lower-case forms, and exactly where these agree. -/
def compareTextBy (a b : String) : Ordering :=
  (compare (a.toList.flatMap lower) (b.toList.flatMap lower)).then (compare a.toList b.toList)

/-- Scalars of one kind in their order, of different kinds by the rank of their kinds. -/
def compareBy : Scalar → Scalar → Ordering
  | text a, text b => compareTextBy lower a b
  | number a, number b => a.cmp b
  | timestamp a, timestamp b => a.cmp b
  | a, b => compare a.kind.rank b.kind.rank

instance : TransCmp (compareTextBy lower) :=
  inferInstanceAs (TransCmp (compareLex
    (compareOn fun s : String => s.toList.flatMap lower) (compareOn String.toList)))

instance : LawfulEqCmp (compareTextBy lower) where
  eq_of_compare h :=
    String.toList_inj.mp (LawfulEqOrd.eq_of_compare (Ordering.then_eq_eq.mp h).2)

/-- Scalars of one kind are ordered by at most two of these, and agree on the others. -/
def numberRank : Scalar → Int
  | .number x => x.rank
  | _ => 0

def instantSeconds : Scalar → Int
  | .timestamp t => t.seconds
  | _ => 0

def instantNanos : Scalar → Nat
  | .timestamp t => t.nanos
  | _ => 0

def letters : Scalar → List Char
  | .text s => s.toList
  | _ => []

def compareParts : Scalar → Scalar → Ordering :=
  compareLex (compareOn fun v => v.kind.rank) <|
  compareLex (compareOn numberRank) <|
  compareLex (compareOn instantSeconds) <|
  compareLex (compareOn instantNanos) <|
  compareLex (compareOn fun v => (letters v).flatMap lower) (compareOn letters)

theorem compareBy_eq_compareParts : compareBy lower = compareParts lower := by
  funext a b
  cases a <;> cases b <;>
    simp [compareBy, compareParts, compareLex, compareOn, kind,
      ScalarKind.rank, numberRank, instantSeconds, instantNanos, letters, compareTextBy,
      Number.cmp, Timestamp.cmp] <;>
    rfl

instance : TransCmp (compareBy lower) := by
  rw [compareBy_eq_compareParts]
  unfold compareParts
  infer_instance

instance : LawfulEqCmp (compareBy lower) where
  eq_of_compare {a b} h := by
    match a, b with
    | text s, text t =>
      exact congrArg text (@LawfulEqCmp.eq_of_compare _ (compareTextBy lower) _ _ _ h)
    | number x, number y =>
      exact congrArg number (@LawfulEqCmp.eq_of_compare _ Number.cmp _ _ _ h)
    | timestamp t, timestamp u =>
      exact congrArg timestamp (@LawfulEqCmp.eq_of_compare _ Timestamp.cmp _ _ _ h)
    | text _, number _ | text _, timestamp _ | number _, text _ | number _, timestamp _
    | timestamp _, text _ | timestamp _, number _ => exact nomatch h

end Scalar

namespace Bound

variable {α : Type}

instance (f : α → α → Ordering) [OrientedCmp f] : OrientedCmp (cmp f) where
  eq_swap := cmp_swap (fun _ _ => OrientedCmp.eq_swap) _ _

theorem low_isLE (f : α → α → Ordering) (a : Bound α) : (cmp f low a).isLE = true := by
  cases a <;> rfl

theorem isLE_high (f : α → α → Ordering) (a : Bound α) : (cmp f a high).isLE = true := by
  cases a <;> rfl

instance (f : α → α → Ordering) [TransCmp f] : TransCmp (cmp f) where
  isLE_trans {a b c} hab hbc := by
    match a, b, c with
    | low, _, c => exact low_isLE f c
    | a, _, high => exact isLE_high f a
    | value a, value b, value c => exact @TransCmp.isLE_trans _ f _ _ _ _ hab hbc
    | value _, low, _ => exact absurd hab Bool.false_ne_true
    | high, low, _ => exact absurd hab Bool.false_ne_true
    | high, value _, _ => exact absurd hab Bool.false_ne_true
    | _, value _, low => exact absurd hbc Bool.false_ne_true
    | _, high, low => exact absurd hbc Bool.false_ne_true
    | _, high, value _ => exact absurd hbc Bool.false_ne_true

instance (f : α → α → Ordering) [LawfulEqCmp f] : LawfulEqCmp (cmp f) where
  compare_self {a} := by
    match a with
    | low => rfl
    | high => rfl
    | value a => exact @ReflCmp.compare_self _ f _ a
  eq_of_compare {a b} h := by
    match a, b with
    | low, low => rfl
    | high, high => rfl
    | value a, value b => exact congrArg value (@LawfulEqCmp.eq_of_compare _ f _ _ _ h)
    | low, value _ => exact Ordering.noConfusion h
    | low, high => exact Ordering.noConfusion h
    | value _, low => exact Ordering.noConfusion h
    | value _, high => exact Ordering.noConfusion h
    | high, low => exact Ordering.noConfusion h
    | high, value _ => exact Ordering.noConfusion h

end Bound

/-- A later comparison is transitive where the first one finds no difference. -/
theorem then_isLE_trans {α : Type} {f : α → α → Ordering} [TransCmp f] {a b c : α}
    {oab obc oac : Ordering}
    (h : f a b = .eq → f b c = .eq → oab.isLE = true → obc.isLE = true → oac.isLE = true)
    (hab : ((f a b).then oab).isLE = true) (hbc : ((f b c).then obc).isLE = true) :
    ((f a c).then oac).isLE = true := by
  rw [Ordering.isLE_then_iff_or] at hab hbc ⊢
  rcases hab with hab | ⟨hab, hoab⟩
  · rcases hbc with hbc | ⟨hbc, -⟩
    · exact Or.inl (TransCmp.lt_trans hab hbc)
    · exact Or.inl (TransCmp.lt_of_lt_of_eq hab hbc)
  · rcases hbc with hbc | ⟨hbc, hobc⟩
    · exact Or.inl (TransCmp.lt_of_eq_of_lt hab hbc)
    · exact Or.inr ⟨TransCmp.eq_trans hab hbc, h hab hbc hoab hobc⟩

namespace Slot

variable (lower : Char → List Char)

def compareValuesBy : Option Scalar → Option Scalar → Ordering
  | none, none => .eq
  | none, some _ => .gt
  | some _, none => .lt
  | some a, some b => Scalar.compareBy lower a b

instance : OrientedCmp (compareValuesBy lower) where
  eq_swap {a b} := by
    match a, b with
    | none, none => rfl
    | none, some _ => rfl
    | some _, none => rfl
    | some a, some b => exact @OrientedCmp.eq_swap _ (Scalar.compareBy lower) _ _ _

instance : TransCmp (compareValuesBy lower) where
  isLE_trans {a b c} hab hbc := by
    match a, b, c with
    | none, _, none => rfl
    | some _, _, none => rfl
    | some a, some b, some c =>
      exact @TransCmp.isLE_trans _ (Scalar.compareBy lower) _ _ _ _ hab hbc
    | _, none, some _ => exact absurd hbc Bool.false_ne_true
    | none, some _, some _ => exact absurd hab Bool.false_ne_true

instance : LawfulEqCmp (compareValuesBy lower) where
  eq_of_compare {a b} h := by
    match a, b with
    | none, none => rfl
    | none, some _ => exact Ordering.noConfusion h
    | some _, none => exact Ordering.noConfusion h
    | some a, some b =>
      exact congrArg some (@LawfulEqCmp.eq_of_compare _ (Scalar.compareBy lower) _ _ _ h)

/-- The comparison of values in a declared direction. -/
def compareDirectedBy (descending : Bool) (x y : Option Scalar) : Ordering :=
  directed descending (compareValuesBy lower x y)

theorem directed_eq_eq {descending : Bool} {o : Ordering} :
    directed descending o = .eq ↔ o = .eq := by
  cases descending <;> cases o <;> decide

instance (descending : Bool) : TransCmp (compareDirectedBy lower descending) :=
  match descending with
  | false => inferInstanceAs (TransCmp (compareValuesBy lower))
  | true => by
    have h : compareDirectedBy lower true = fun x y => compareValuesBy lower y x := by
      funext x y
      exact (@OrientedCmp.eq_swap _ (compareValuesBy lower) _ y x).symm
    rw [h]
    infer_instance

instance (descending : Bool) : LawfulEqCmp (compareDirectedBy lower descending) where
  eq_of_compare h := LawfulEqCmp.eq_of_compare (directed_eq_eq.mp h)

/-- The slot holds a sentinel or declares the direction. -/
def Follows (descending : Bool) (s : Slot) : Prop :=
  ∀ v, s.value = .value v → s.descending = descending

/-- A slot that is compared with one of the other direction is compared ascending. -/
def cmpBy (a b : Slot) : Ordering :=
  Bound.cmp (compareDirectedBy lower (a.descending && b.descending)) a.value b.value

theorem cmpBy_of_follows {d : Bool} {a b : Slot} (ha : a.Follows d) (hb : b.Follows d) :
    a.cmpBy lower b = Bound.cmp (compareDirectedBy lower d) a.value b.value := by
  unfold cmpBy
  cases hva : a.value with
  | low => cases b.value <;> rfl
  | high => cases b.value <;> rfl
  | value x =>
    cases hvb : b.value with
    | low => rfl
    | high => rfl
    | value y => simp only [Bound.cmp, ha x hva, hb y hvb, Bool.and_self]

theorem cmpBy_swap (a b : Slot) : b.cmpBy lower a = (a.cmpBy lower b).swap := by
  unfold cmpBy
  rw [Bool.and_comm]
  exact @OrientedCmp.eq_swap _
    (Bound.cmp (compareDirectedBy lower (a.descending && b.descending))) _ _ _

theorem cmpBy_eq_iff (a b : Slot) : a.cmpBy lower b = .eq ↔ a.value = b.value := by
  unfold cmpBy
  generalize (a.descending && b.descending) = d
  exact @LawfulEqCmp.compare_eq_iff_eq _ (Bound.cmp (compareDirectedBy lower d)) _ _ _

end Slot

namespace SortKey

instance : TransCmp compareSection where
  eq_swap {a b} := compareSection_swap b a
  isLE_trans {a b c} hab hbc := by
    cases a <;> cases b <;> cases c <;> first | rfl | assumption

instance : LawfulEqCmp compareSection where
  eq_of_compare {a b} h := by
    match a, b with
    | true, true => rfl
    | false, false => rfl
    | true, false => exact Ordering.noConfusion h
    | false, true => exact Ordering.noConfusion h

variable (lower : Char → List Char)

/-- The first slot that differs decides; slots beyond the shorter list do not count. -/
def compareSlotsBy : List Slot → List Slot → Ordering
  | a :: as, b :: bs => (a.cmpBy lower b).then (compareSlotsBy as bs)
  | _, _ => .eq

theorem compareSlotsBy_swap (as bs : List Slot) :
    compareSlotsBy lower bs as = (compareSlotsBy lower as bs).swap := by
  induction as generalizing bs with
  | nil => cases bs <;> rfl
  | cons a as ih =>
    cases bs with
    | nil => rfl
    | cons b bs =>
      simp only [compareSlotsBy, Ordering.swap_then, ih bs, Slot.cmpBy_swap lower a b]

/-- The comparison of whole lists: a longer list comes after its shorter start. -/
def compareSlotListsBy (as bs : List Slot) : Ordering :=
  (compareSlotsBy lower as bs).then (compare as.length bs.length)

theorem compareSlotListsBy_nil_cons (b : Slot) (bs : List Slot) :
    compareSlotListsBy lower [] (b :: bs) = .lt :=
  Nat.compare_eq_lt.mpr (Nat.succ_pos _)

theorem compareSlotListsBy_cons_nil (a : Slot) (as : List Slot) :
    compareSlotListsBy lower (a :: as) [] = .gt :=
  Nat.compare_eq_gt.mpr (Nat.succ_pos _)

theorem compareSlotListsBy_cons (a b : Slot) (as bs : List Slot) :
    compareSlotListsBy lower (a :: as) (b :: bs) =
      (a.cmpBy lower b).then (compareSlotListsBy lower as bs) := by
  have hl : compare (as.length + 1) (bs.length + 1) = compare as.length bs.length := by
    simp only [Nat.compare_eq_ite_lt, Nat.add_lt_add_iff_right]
  simp only [compareSlotListsBy, compareSlotsBy, List.length_cons, hl, Ordering.then_assoc]

theorem compareSlotListsBy_eq_iff (as bs : List Slot) :
    compareSlotListsBy lower as bs = .eq ↔ as.map (·.value) = bs.map (·.value) := by
  induction as generalizing bs with
  | nil =>
    cases bs with
    | nil => simp [compareSlotListsBy, compareSlotsBy]
    | cons b bs => simp [compareSlotListsBy, compareSlotsBy]
  | cons a as ih =>
    cases bs with
    | nil => simp [compareSlotListsBy, compareSlotsBy]
    | cons b bs =>
      rw [compareSlotListsBy_cons, Ordering.then_eq_eq, Slot.cmpBy_eq_iff, ih bs]
      simp

/-- Every slot declares the direction of its position. -/
def SlotsFollow (direction : Nat → Bool) : List Slot → Prop
  | [] => True
  | s :: rest => s.Follows (direction 0) ∧ SlotsFollow (fun i => direction (i + 1)) rest

theorem slotsFollow_iff {direction : Nat → Bool} {l : List Slot} :
    SlotsFollow direction l ↔ ∀ (i : Nat) s, l[i]? = some s → s.Follows (direction i) := by
  induction l generalizing direction with
  | nil => simp [SlotsFollow]
  | cons a rest ih =>
    rw [SlotsFollow, ih]
    constructor
    · rintro ⟨ha, hrest⟩ i s hs
      cases i with
      | zero => exact Option.some.inj hs ▸ ha
      | succ i => exact hrest i s hs
    · exact fun h => ⟨h 0 a rfl, fun i s hs => h (i + 1) s hs⟩

theorem compareSlotListsBy_isLE_trans {direction : Nat → Bool} {as bs cs : List Slot}
    (ha : SlotsFollow direction as) (hb : SlotsFollow direction bs)
    (hc : SlotsFollow direction cs) (hab : (compareSlotListsBy lower as bs).isLE = true)
    (hbc : (compareSlotListsBy lower bs cs).isLE = true) :
    (compareSlotListsBy lower as cs).isLE = true := by
  induction as generalizing bs cs direction with
  | nil =>
    cases cs with
    | nil => rfl
    | cons c cs => rw [compareSlotListsBy_nil_cons]; rfl
  | cons a as ih =>
    cases bs with
    | nil => rw [compareSlotListsBy_cons_nil] at hab; exact absurd hab Bool.false_ne_true
    | cons b bs =>
      cases cs with
      | nil => rw [compareSlotListsBy_cons_nil] at hbc; exact absurd hbc Bool.false_ne_true
      | cons c cs =>
        rw [compareSlotListsBy_cons] at hab hbc ⊢
        rw [Slot.cmpBy_of_follows lower ha.1 hb.1] at hab
        rw [Slot.cmpBy_of_follows lower hb.1 hc.1] at hbc
        rw [Slot.cmpBy_of_follows lower ha.1 hc.1]
        exact then_isLE_trans (fun _ _ => ih ha.2 hb.2 hc.2) hab hbc

theorem compareSlotListsBy_swap (as bs : List Slot) :
    compareSlotListsBy lower bs as = (compareSlotListsBy lower as bs).swap := by
  have hl : compare bs.length as.length = (compare as.length bs.length).swap :=
    OrientedOrd.eq_swap
  simp only [compareSlotListsBy, Ordering.swap_then, compareSlotsBy_swap lower as bs, hl]

def SlotLists (direction : Nat → Bool) : Type := {l : List Slot // SlotsFollow direction l}

instance (direction : Nat → Bool) :
    TransCmp fun as bs : SlotLists direction => compareSlotListsBy lower as.1 bs.1 where
  eq_swap {as bs} := compareSlotListsBy_swap lower bs.1 as.1
  isLE_trans {as bs cs} := compareSlotListsBy_isLE_trans lower as.2 bs.2 cs.2

def cmpBy (a b : SortKey) : Ordering :=
  (compareSection a.isCategory b.isCategory).then <|
  (Bound.cmp compare a.column b.column).then <|
  (compareSlotListsBy lower a.slots b.slots).then <|
  (Bound.cmp compare a.origin b.origin).then (compare a.id b.id)

theorem cmpBy_swap (a b : SortKey) : b.cmpBy lower a = (a.cmpBy lower b).swap := by
  have hc : Bound.cmp compare b.column a.column = (Bound.cmp compare a.column b.column).swap :=
    OrientedCmp.eq_swap
  have ho : Bound.cmp compare b.origin a.origin = (Bound.cmp compare a.origin b.origin).swap :=
    OrientedCmp.eq_swap
  have hi : compare b.id a.id = (compare a.id b.id).swap := OrientedOrd.eq_swap
  simp only [cmpBy, Ordering.swap_then, compareSection_swap a.isCategory b.isCategory, hc,
    compareSlotListsBy_swap lower a.slots b.slots, ho, hi]

/-- Keys compare equal exactly where they agree in everything but directions. -/
theorem cmpBy_eq_eq_iff (a b : SortKey) :
    a.cmpBy lower b = .eq ↔ a.isCategory = b.isCategory ∧ a.column = b.column ∧
      a.slots.map (·.value) = b.slots.map (·.value) ∧ a.origin = b.origin ∧ a.id = b.id := by
  rw [cmpBy, Ordering.then_eq_eq, Ordering.then_eq_eq, Ordering.then_eq_eq, Ordering.then_eq_eq,
    compareSlotListsBy_eq_iff]
  simp only [LawfulEqCmp.compare_eq_iff_eq]

/-- One direction for each category column and for each position of documents. -/
abbrev Directions := Bool → Bound Nat → Nat → Bool

def Follows (directions : Directions) (k : SortKey) : Prop :=
  SlotsFollow (directions k.isCategory k.column) k.slots

theorem cmpBy_isLE_trans {directions : Directions} {a b c : SortKey} (ha : a.Follows directions)
    (hb : b.Follows directions) (hc : c.Follows directions) (hab : (a.cmpBy lower b).isLE = true)
    (hbc : (b.cmpBy lower c).isLE = true) : (a.cmpBy lower c).isLE = true := by
  unfold cmpBy at hab hbc ⊢
  refine then_isLE_trans (fun hs ht => ?_) hab hbc
  rw [LawfulEqCmp.compare_eq_iff_eq] at hs ht
  refine then_isLE_trans fun hcol hcol' => ?_
  rw [LawfulEqCmp.compare_eq_iff_eq] at hcol hcol'
  unfold Follows at ha hb hc
  rw [hs, hcol] at ha
  rw [← ht, ← hcol'] at hc
  let direction := directions b.isCategory b.column
  refine @then_isLE_trans (SlotLists direction)
    (fun as bs => compareSlotListsBy lower as.1 bs.1) _ ⟨_, ha⟩ ⟨_, hb⟩ ⟨_, hc⟩ _ _ _ fun _ _ => ?_
  exact then_isLE_trans fun _ _ => TransOrd.isLE_trans

/-- Keys that declare the same directions. -/
def Keys (directions : Directions) : Type := {k : SortKey // k.Follows directions}

instance (directions : Directions) :
    TransCmp fun a b : Keys directions => a.1.cmpBy lower b.1 where
  eq_swap {a b} := cmpBy_swap lower b.1 a.1
  isLE_trans {a b c} := cmpBy_isLE_trans lower a.2 b.2 c.2

end SortKey

end CategorizedIndex
