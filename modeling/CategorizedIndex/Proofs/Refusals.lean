import CategorizedIndex.Proofs.KeyOrder
import Mathlib.Data.List.Forall2

/-! # What the strict comparison refuses

The strict comparison goes along two keys as the lenient one does, and fails where it
comes upon slots or origins that clash before anything has decided. Slots clash as equal
sentinels, as values of two directions, or as values of two kinds, in this order; two
keys without a clash are ordered as the lenient comparison orders them.
-/
namespace CategorizedIndex

/-- A comparison that fails with an error of a kind. -/
def FailsWith (r : Except Error Ordering) (kind : ErrorKind) : Prop :=
  ∃ e, r = .error e ∧ e.kind = kind

theorem failsWith_error (e : Error) (kind : ErrorKind) :
    FailsWith (.error e) kind ↔ kind = e.kind := by
  constructor
  · rintro ⟨e', he, rfl⟩
    rw [Except.error.inj he]
  · rintro rfl
    exact ⟨e, rfl, rfl⟩

theorem not_failsWith_ok (o : Ordering) (kind : ErrorKind) : ¬ FailsWith (.ok o) kind := by
  rintro ⟨e, he, -⟩
  cases he

namespace Bound

variable {α : Type} {f : α → α → Except Error Ordering} {a b : Bound α}

/-- Both are the sentinel below, or both the one above. -/
inductive SameSentinel : Bound α → Bound α → Prop
  | low : SameSentinel low low
  | high : SameSentinel high high

theorem SameSentinel.symm (h : a.SameSentinel b) : b.SameSentinel a := by
  cases h with
  | low => exact .low
  | high => exact .high

theorem cmp_of_tryCmp {g : α → α → Ordering} (hfg : ∀ x y o, f x y = .ok o → g x y = o)
    {o : Ordering} (h : tryCmp f a b = .ok o) : cmp g a b = o := by
  cases a <;> cases b
  case value.value x y => exact hfg x y o h
  case low.low => cases h
  case high.high => cases h
  all_goals exact Except.ok.inj h

theorem tryCmp_eq_ok_eq_iff :
    tryCmp f a b = .ok .eq ↔ ∃ x y, a = .value x ∧ b = .value y ∧ f x y = .ok .eq := by
  cases a <;> cases b <;> simp [tryCmp]

theorem failsWith_tryCmp_iff (kind : ErrorKind) :
    FailsWith (tryCmp f a b) kind ↔ (a.SameSentinel b ∧ kind = .invariant) ∨
      ∃ x y, a = .value x ∧ b = .value y ∧ FailsWith (f x y) kind := by
  have hsame : FailsWith (.error .repeatedSentinel) kind ↔ kind = .invariant :=
    failsWith_error _ kind
  cases a with
  | low =>
    cases b with
    | low => simp [tryCmp, hsame, SameSentinel.low]
    | value => simpa [tryCmp, not_failsWith_ok] using nofun
    | high => simpa [tryCmp, not_failsWith_ok] using nofun
  | high =>
    cases b with
    | low => simpa [tryCmp, not_failsWith_ok] using nofun
    | value => simpa [tryCmp, not_failsWith_ok] using nofun
    | high => simp [tryCmp, hsame, SameSentinel.high]
  | value x =>
    cases b with
    | low => simpa [tryCmp, not_failsWith_ok] using nofun
    | value y =>
      have hvalue : ¬ (value x).SameSentinel (value y) := nofun
      simp [tryCmp, hvalue]
    | high => simpa [tryCmp, not_failsWith_ok] using nofun

end Bound

namespace Slot

/-- Neither slot is a sentinel, they have one direction, and nothing tells their values
apart. -/
def Tied (a b : Slot) : Prop :=
  ∃ x y, a.value = .value x ∧ b.value = .value y ∧ a.descending = b.descending ∧
    compareValues x y = .eq

/-- What keeps two slots from being compared, and the kind of error that it leads to. -/
inductive Clash (a b : Slot) : ErrorKind → Prop
  | sentinels (h : a.value.SameSentinel b.value) : Clash a b .invariant
  | directions {x y : Option Scalar} (ha : a.value = .value x) (hb : b.value = .value y)
    (hd : a.descending ≠ b.descending) : Clash a b .invariant
  | kinds {v w : Scalar} (ha : a.value = .value (some v)) (hb : b.value = .value (some w))
    (hd : a.descending = b.descending) (hk : v.kind ≠ w.kind) : Clash a b .comparison

variable {a b : Slot} {kind : ErrorKind} {position : Nat}

theorem Tied.symm (h : a.Tied b) : b.Tied a := by
  obtain ⟨x, y, ha, hb, hd, hxy⟩ := h
  obtain rfl := Std.LawfulEqCmp.eq_of_compare hxy
  exact ⟨x, x, hb, ha, hd.symm, hxy⟩

theorem Clash.symm (h : a.Clash b kind) : b.Clash a kind := by
  cases h with
  | sentinels h => exact .sentinels h.symm
  | directions ha hb hd => exact .directions hb ha hd.symm
  | kinds ha hb hd hk => exact .kinds hb ha hd.symm hk.symm

theorem compareValues_of_tryCompareValues {x y : Option Scalar} {o : Ordering}
    (h : tryCompareValues position x y = .ok o) : compareValues x y = o := by
  cases x with
  | none => cases y <;> exact Except.ok.inj h
  | some v =>
    cases y with
    | none => exact Except.ok.inj h
    | some w =>
      simp only [tryCompareValues] at h
      split at h
      · next o' ho =>
        rw [compareValues, compareScalars, ho, Option.getD_some]
        exact Except.ok.inj h
      · cases h

theorem failsWith_tryCompareValues_iff (x y : Option Scalar) :
    FailsWith (tryCompareValues position x y) kind ↔
      ∃ v w, x = some v ∧ y = some w ∧ v.kind ≠ w.kind ∧ kind = .comparison := by
  cases x with
  | none => simp [tryCompareValues, not_failsWith_ok]
  | some v =>
    cases y with
    | none => simp [tryCompareValues, not_failsWith_ok]
    | some w =>
      simp only [tryCompareValues]
      split
      · next o ho =>
        have hsame : v.kind = w.kind := by
          refine Classical.not_not.mp fun hne => ?_
          rw [Scalar.cmp?_eq_none_iff.mpr hne] at ho
          cases ho
        simp [not_failsWith_ok, hsame]
      · next ho =>
        rw [failsWith_error]
        simp [Error.kind, Scalar.cmp?_eq_none_iff.mp ho]

theorem tryCompareValues_eq_ok_eq_iff (x y : Option Scalar) :
    tryCompareValues position x y = .ok .eq ↔ compareValues x y = .eq := by
  refine ⟨compareValues_of_tryCompareValues, fun h => ?_⟩
  cases hxy : tryCompareValues position x y with
  | ok o => rw [← h, compareValues_of_tryCompareValues hxy]
  | error e =>
    obtain ⟨v, w, rfl, rfl, hne, -⟩ := (failsWith_tryCompareValues_iff x y).mp ⟨e, hxy, rfl⟩
    exact absurd (congrArg Scalar.kind (Option.some.inj (Std.LawfulEqCmp.eq_of_compare h))) hne

theorem cmp_of_tryCmp {o : Ordering} (h : a.tryCmp position b = .ok o) : a.cmp b = o := by
  refine Bound.cmp_of_tryCmp (fun x y o h => ?_) h
  split at h
  · cases h
  · next hd =>
    rw [ne_eq, Classical.not_not] at hd
    cases hxy : tryCompareValues position x y with
    | error e =>
      rw [hxy] at h
      cases h
    | ok o' =>
      rw [hxy] at h
      rw [← hd, Bool.and_self, compareValues_of_tryCompareValues hxy]
      exact Except.ok.inj h

theorem tryCmp_eq_ok_eq_iff : a.tryCmp position b = .ok .eq ↔ a.Tied b := by
  rw [tryCmp, Bound.tryCmp_eq_ok_eq_iff]
  refine exists_congr fun x => exists_congr fun y => and_congr_right fun _ =>
    and_congr_right fun _ => ?_
  by_cases hd : a.descending = b.descending
  · rw [if_neg (not_not.mpr hd), and_iff_right hd, ← tryCompareValues_eq_ok_eq_iff]
    cases tryCompareValues position x y with
    | error e => simp [Except.map]
    | ok o => simp [Except.map, directed_eq_eq]
  · simp [hd]

theorem failsWith_tryCmp_iff : FailsWith (a.tryCmp position b) kind ↔ a.Clash b kind := by
  have hvalues : ∀ x y, FailsWith (if a.descending ≠ b.descending then
      .error (.mixedDirections position)
      else (tryCompareValues position x y).map (directed a.descending)) kind ↔
      (a.descending ≠ b.descending ∧ kind = .invariant) ∨ (a.descending = b.descending ∧
        ∃ v w, x = some v ∧ y = some w ∧ v.kind ≠ w.kind ∧ kind = .comparison) := by
    intro x y
    have hkinds : FailsWith (tryCompareValues position x y) kind ↔ _ :=
      failsWith_tryCompareValues_iff x y
    by_cases hd : a.descending = b.descending
    · simp only [hd, ne_eq, not_true, if_false, false_and, true_and, false_or, ← hkinds]
      cases tryCompareValues position x y with
      | error e => simp [Except.map, failsWith_error]
      | ok o => simp [Except.map, not_failsWith_ok]
    · simp [hd, failsWith_error, Error.kind]
  rw [tryCmp, Bound.failsWith_tryCmp_iff]
  simp only [hvalues]
  constructor
  · rintro (⟨h, rfl⟩ | ⟨x, y, ha, hb, ⟨hd, rfl⟩ | ⟨hd, v, w, rfl, rfl, hk, rfl⟩⟩)
    · exact .sentinels h
    · exact .directions ha hb hd
    · exact .kinds ha hb hd hk
  · intro h
    cases h with
    | sentinels h => exact .inl ⟨h, rfl⟩
    | directions ha hb hd => exact .inr ⟨_, _, ha, hb, .inl ⟨hd, rfl⟩⟩
    | kinds ha hb hd hk => exact .inr ⟨_, _, ha, hb, .inr ⟨hd, _, _, rfl, rfl, hk, rfl⟩⟩

end Slot

namespace SortKey

variable {a b : SortKey} {kind : ErrorKind}

theorem failsWith_orElse_iff {r : Except Error Ordering} {next : Unit → Except Error Ordering} :
    FailsWith (orElse r next) kind ↔
      FailsWith r kind ∨ (r = .ok .eq ∧ FailsWith (next ()) kind) := by
  cases r with
  | error e => simp [orElse]
  | ok o => cases o <;> simp [orElse, not_failsWith_ok]

theorem orElse_eq_ok_eq_iff {r : Except Error Ordering} {next : Unit → Except Error Ordering} :
    orElse r next = .ok .eq ↔ r = .ok .eq ∧ next () = .ok .eq := by
  cases r with
  | error e => simp [orElse]
  | ok o => cases o <;> simp [orElse]

theorem then_of_orElse {r : Except Error Ordering} {next : Unit → Except Error Ordering}
    {first second o : Ordering} (hr : ∀ o, r = .ok o → first = o)
    (hnext : ∀ o, next () = .ok o → second = o) (h : orElse r next = .ok o) :
    first.then second = o := by
  cases r with
  | error e => cases h
  | ok o' =>
    obtain rfl := hr o' rfl
    cases first with
    | eq => exact hnext o h
    | lt => exact Except.ok.inj h
    | gt => exact Except.ok.inj h

theorem compareSlots_of_tryCompareSlots {as bs : List Slot} {position : Nat} {o : Ordering}
    (h : tryCompareSlots position as bs = .ok o) : compareSlots as bs = o := by
  induction as generalizing bs position o with
  | nil => exact Except.ok.inj h
  | cons a as ih =>
    cases bs with
    | nil => exact Except.ok.inj h
    | cons b bs => exact then_of_orElse (fun _ => Slot.cmp_of_tryCmp) (fun _ => ih) h

theorem cmp_of_tryCmp {o : Ordering} (h : a.tryCmp b = .ok o) : a.cmp b = o := by
  have hok : ∀ {o o' : Ordering}, (.ok o : Except Error Ordering) = .ok o' → o = o' :=
    fun h => Except.ok.inj h
  refine then_of_orElse (fun _ => hok) (fun _ => then_of_orElse (fun _ => hok) fun _ =>
    then_of_orElse (fun _ => compareSlots_of_tryCompareSlots) fun _ =>
    then_of_orElse (fun _ => hok) fun _ => then_of_orElse (fun _ => ?_) fun _ => hok) h
  exact Bound.cmp_of_tryCmp fun _ _ _ => hok

/-- Slots clash at a position before which all are tied. -/
def SlotsClash (as bs : List Slot) (kind : ErrorKind) : Prop :=
  ∃ (i : Nat) (s s' : Slot), as[i]? = some s ∧ bs[i]? = some s' ∧ s.Clash s' kind ∧
    ∀ j < i, ∃ u u' : Slot, as[j]? = some u ∧ bs[j]? = some u' ∧ u.Tied u'

theorem SlotsClash.symm {as bs : List Slot} (h : SlotsClash as bs kind) :
    SlotsClash bs as kind := by
  obtain ⟨i, s, s', hs, hs', hclash, hbefore⟩ := h
  refine ⟨i, s', s, hs', hs, hclash.symm, fun j hj => ?_⟩
  obtain ⟨u, u', hu, hu', htied⟩ := hbefore j hj
  exact ⟨u', u, hu', hu, htied.symm⟩

theorem slotsClash_cons_iff (s s' : Slot) (as bs : List Slot) :
    SlotsClash (s :: as) (s' :: bs) kind ↔
      s.Clash s' kind ∨ (s.Tied s' ∧ SlotsClash as bs kind) := by
  constructor
  · rintro ⟨i, u, u', hu, hu', hclash, hbefore⟩
    cases i with
    | zero =>
      obtain rfl := Option.some.inj hu
      obtain rfl := Option.some.inj hu'
      exact .inl hclash
    | succ i =>
      obtain ⟨v, v', hv, hv', htied⟩ := hbefore 0 (Nat.succ_pos i)
      obtain rfl := Option.some.inj hv
      obtain rfl := Option.some.inj hv'
      exact .inr ⟨htied, i, u, u', hu, hu', hclash,
        fun j hj => hbefore (j + 1) (Nat.succ_lt_succ hj)⟩
  · rintro (hclash | ⟨htied, i, u, u', hu, hu', hclash, hbefore⟩)
    · exact ⟨0, s, s', rfl, rfl, hclash, fun j hj => absurd hj (Nat.not_lt_zero j)⟩
    · refine ⟨i + 1, u, u', hu, hu', hclash, fun j hj => ?_⟩
      cases j with
      | zero => exact ⟨s, s', rfl, rfl, htied⟩
      | succ j => exact hbefore j (Nat.lt_of_succ_lt_succ hj)

theorem failsWith_tryCompareSlots_iff {as bs : List Slot} {position : Nat} :
    FailsWith (tryCompareSlots position as bs) kind ↔ SlotsClash as bs kind := by
  induction as generalizing bs position with
  | nil => simp [tryCompareSlots, not_failsWith_ok, SlotsClash]
  | cons s as ih =>
    cases bs with
    | nil => simp [tryCompareSlots, not_failsWith_ok, SlotsClash]
    | cons s' bs =>
      rw [tryCompareSlots, failsWith_orElse_iff, Slot.failsWith_tryCmp_iff,
        Slot.tryCmp_eq_ok_eq_iff, ih, slotsClash_cons_iff]

theorem tryCompareSlots_eq_ok_eq_iff {as bs : List Slot} {position : Nat} :
    (tryCompareSlots position as bs = .ok .eq ∧ as.length = bs.length) ↔
      List.Forall₂ Slot.Tied as bs := by
  induction as generalizing bs position with
  | nil =>
    cases bs with
    | nil => simp [tryCompareSlots]
    | cons s' bs => simp
  | cons s as ih =>
    cases bs with
    | nil => simp
    | cons s' bs =>
      rw [tryCompareSlots, orElse_eq_ok_eq_iff, Slot.tryCmp_eq_ok_eq_iff, List.forall₂_cons,
        ← @ih bs (position + 1), List.length_cons, List.length_cons, Nat.succ_inj,
        and_assoc]

/-- What keeps two keys from being compared: slots that clash, or where all slots are tied,
one sentinel in place of both origins. -/
inductive Clash (a b : SortKey) : ErrorKind → Prop
  | slots {kind : ErrorKind} (hsection : a.isCategory = b.isCategory)
    (hcolumn : a.column = b.column) (h : SlotsClash a.slots b.slots kind) : Clash a b kind
  | origins (hsection : a.isCategory = b.isCategory) (hcolumn : a.column = b.column)
    (htied : List.Forall₂ Slot.Tied a.slots b.slots)
    (h : a.origin.SameSentinel b.origin) : Clash a b .invariant

theorem Clash.symm (h : a.Clash b kind) : b.Clash a kind := by
  cases h with
  | slots hsection hcolumn h => exact .slots hsection.symm hcolumn.symm h.symm
  | origins hsection hcolumn htied h =>
    exact .origins hsection.symm hcolumn.symm
      (htied.flip.imp fun _ _ => Slot.Tied.symm) h.symm

theorem failsWith_tryCmp_iff : FailsWith (a.tryCmp b) kind ↔ a.Clash b kind := by
  have horigin : FailsWith (Bound.tryCmp (fun x y => .ok (compare x y)) a.origin b.origin) kind ↔
      a.origin.SameSentinel b.origin ∧ kind = .invariant := by
    rw [Bound.failsWith_tryCmp_iff]
    simp [not_failsWith_ok]
  simp only [tryCmp, failsWith_orElse_iff, not_failsWith_ok, false_or, or_false, and_false,
    Except.ok.injEq, Std.LawfulEqCmp.compare_eq_iff_eq, failsWith_tryCompareSlots_iff, horigin]
  constructor
  · rintro ⟨hsection, hcolumn, h | ⟨htied, hlength, h, rfl⟩⟩
    · exact .slots hsection hcolumn h
    · exact .origins hsection hcolumn (tryCompareSlots_eq_ok_eq_iff.mp ⟨htied, hlength⟩) h
  · intro h
    cases h with
    | slots hsection hcolumn h => exact ⟨hsection, hcolumn, .inl h⟩
    | origins hsection hcolumn htied h =>
      obtain ⟨htied, hlength⟩ := tryCompareSlots_eq_ok_eq_iff.mpr htied
      exact ⟨hsection, hcolumn, .inr ⟨htied, hlength, h, rfl⟩⟩

theorem tryCmp_swap_eq_ok {o : Ordering} (h : a.tryCmp b = .ok o) :
    b.tryCmp a = .ok o.swap := by
  cases hba : b.tryCmp a with
  | ok o' => rw [← cmp_of_tryCmp hba, cmp_swap, cmp_of_tryCmp h]
  | error e =>
    have hclash : b.Clash a e.kind := failsWith_tryCmp_iff.mp ⟨e, hba, rfl⟩
    have hfails := failsWith_tryCmp_iff.mpr hclash.symm
    rw [h] at hfails
    exact absurd hfails (not_failsWith_ok o e.kind)

/-- Where the strict comparison answers, the lenient one gives the same answer, and the strict
one the reverse with the keys exchanged; it fails either way or not at all, with one kind of
error, and it fails exactly where the keys clash. -/
theorem tryCmp_answers_or_clashes (a b : SortKey) :
    (∀ o, a.tryCmp b = .ok o → a.cmp b = o ∧ b.tryCmp a = .ok o.swap) ∧
      (∀ kind, FailsWith (a.tryCmp b) kind ↔ FailsWith (b.tryCmp a) kind) ∧
      ∀ kind, FailsWith (a.tryCmp b) kind ↔ a.Clash b kind := by
  refine ⟨fun o h => ⟨cmp_of_tryCmp h, tryCmp_swap_eq_ok h⟩, fun kind => ?_,
    fun kind => failsWith_tryCmp_iff⟩
  rw [failsWith_tryCmp_iff, failsWith_tryCmp_iff]
  exact ⟨Clash.symm, Clash.symm⟩

/-- The lower bound of a group stands before each category of the group, and clashes with itself
at the origin, past slots that are tied. -/
theorem tryCmp_lower_bound :
    let low := (categoryBounds 0 (some (.text "Eng")) true).low
    let key := category 0 (some (.text "Eng")) true (.category 3)
    low.tryCmp key = .ok .lt ∧ low.cmp key = .lt ∧ key.tryCmp low = .ok .gt ∧
      FailsWith (low.tryCmp low) .invariant := by
  intro low key
  have hlt : low.tryCmp key = .ok .lt := by decide +kernel
  obtain ⟨hcmp, hswap⟩ := (tryCmp_answers_or_clashes low key).1 .lt hlt
  have htied : List.Forall₂ Slot.Tied low.slots low.slots :=
    .cons ⟨_, _, rfl, rfl, rfl, Std.LawfulEqCmp.compare_eq_iff_eq.mpr rfl⟩ .nil
  exact ⟨hlt, hcmp, hswap,
    ((tryCmp_answers_or_clashes low low).2.2 .invariant).mpr (.origins rfl rfl htied .low)⟩

end SortKey

end CategorizedIndex
