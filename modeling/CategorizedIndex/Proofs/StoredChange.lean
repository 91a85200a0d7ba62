import CategorizedIndex.Json.Codec
import CategorizedIndex.Proofs.Json.Instance
import CategorizedIndex.Proofs.Time.Timestamp

/-! # Stored changes

A change that is stored is loaded as it was: its ids of all sizes, its texts of any characters,
its values of every kind. The libraries for JSON and for timestamps are any that lose nothing.
Of a number this is promised if it is finite and the reader of numbers, which may round, meets
it again.
-/
namespace CategorizedIndex

/-- The texts of timestamps are read back. -/
def Timestamp.Library.Lossless (times : Timestamp.Library) : Prop :=
  ∀ t, times.read? (times.write t) = some t

def ColumnValue.NumbersKept (lib : Json.Library) (v : ColumnValue) : Prop :=
  ∀ x, Scalar.number x ∈ v.scalars → lib.KeepsNumber x

def ColumnValues.NumbersKept (lib : Json.Library) (values : ColumnValues) : Prop :=
  ∀ (item : String) (v : ColumnValue), values[item]? = some v → v.NumbersKept lib

/-- Every number among the values of a change is finite and read back from its numeral. -/
def Change.NumbersKept (lib : Json.Library) (c : Change) : Prop :=
  ∀ (id : UInt64) (a : Addition), c.additions[id]? = some a →
    ColumnValues.NumbersKept lib a.values

variable {lib : Json.Library} {times : Timestamp.Library} {n : lib.Node} {depth : ℕ}

theorem Json.Library.KeepsNumber.same_self {x : Number} (h : lib.KeepsNumber x) :
    x.same x = true := by
  have hfinite : x.magnitude < Number.infinityMagnitude := of_decide_eq_true h.1
  have hnumber : x.isNaN = false := decide_eq_false (Nat.not_lt.mpr hfinite.le)
  simp [Number.same, hnumber]

namespace Scalar

variable {v : Scalar}

theorem legible_toData (hv : ∀ x, v = number x → lib.KeepsNumber x) :
    lib.Legible (depth + 1) (v.toData times) := by
  cases v with
  | text s => exact .variant (.text s)
  | number x => exact .variant (.number (hv x rfl))
  | timestamp t => exact .variant (.text (times.write t))

theorem ofNode?_of_shows (htimes : times.Lossless) (h : lib.Shows (v.toData times) n) :
    ofNode? lib times n = some v := by
  cases v with
  | text s =>
    cases h with
    | variant hn hs => simp [ofNode?, hn, hs.text?]
  | number x =>
    cases h with
    | variant hn hx => simp [ofNode?, hn, hx.number?]
  | timestamp t =>
    cases h with
    | variant hn ht => simp [ofNode?, hn, ht.text?, htimes t]

theorem same_self (hv : ∀ x, v = number x → lib.KeepsNumber x) : v.same v = true := by
  cases v with
  | text s => exact beq_self_eq_true s
  | number x => exact (hv x rfl).same_self
  | timestamp t => exact beq_self_eq_true t

end Scalar

namespace ColumnValue

variable {v : ColumnValue}

theorem legible_toData (hv : v.NumbersKept lib) : lib.Legible (depth + 3) (v.toData times) := by
  cases v with
  | null => exact .mark "Null"
  | single v =>
    exact .variant (Scalar.legible_toData fun x hx => hv x (hx ▸ List.mem_singleton_self v))
  | list vs =>
    refine .variant (.list fun d hd => ?_)
    obtain ⟨v, hmem, rfl⟩ := List.mem_map.mp hd
    exact Scalar.legible_toData fun x hx => hv x (hx ▸ hmem)

theorem ofNode?_of_shows (htimes : times.Lossless) (h : lib.Shows (v.toData times) n) :
    ofNode? lib times n = some v := by
  cases v with
  | null =>
    cases h with
    | mark hn => simp [ofNode?, hn]
  | single v =>
    cases h with
    | variant hn hv => simp [ofNode?, hn, Scalar.ofNode?_of_shows htimes hv]
  | list vs =>
    cases h with
    | variant hn hcontent =>
      cases hcontent with
      | list hitems hds =>
        have hread := Fields.mapM_of_forall₂ hds fun v m => Scalar.ofNode?_of_shows htimes
        simp [ofNode?, hn, hitems, hread]

theorem sameScalars_self {vs : List Scalar} (h : ∀ v ∈ vs, v.same v = true) :
    sameScalars vs vs = true := by
  induction vs with
  | nil => rfl
  | cons v rest ih =>
    obtain ⟨hv, hrest⟩ := List.forall_mem_cons.mp h
    simp [sameScalars, hv, ih hrest]

theorem same_self (hv : v.NumbersKept lib) : v.same v = true := by
  cases v with
  | null => rfl
  | single v => exact Scalar.same_self fun x hx => hv x (hx ▸ List.mem_singleton_self v)
  | list vs =>
    exact sameScalars_self fun v hmem => Scalar.same_self fun x hx => hv x (hx ▸ hmem)

end ColumnValue

namespace ColumnValues

variable {values : ColumnValues}

theorem legible_toData (hvalues : NumbersKept lib values) :
    lib.Legible (depth + 4) (toData times values) := by
  refine .map fun e he => ?_
  obtain ⟨entry, hentry, rfl⟩ := List.mem_map.mp he
  exact ColumnValue.legible_toData
    (hvalues _ _ (Std.ExtTreeMap.mem_toList_iff_getElem?_eq_some.mp hentry))

theorem ofNode?_of_shows (htimes : times.Lossless) (h : lib.Shows (toData times values) n) :
    ofNode? lib times n = some values := by
  cases h with
  | map hn hkeys hds =>
    have hread := Fields.mapM_of_parts hkeys hds fun v m =>
      ColumnValue.ofNode?_of_shows htimes
    simp [ofNode?, hn, hread, foldl_insert_toList]

end ColumnValues

namespace Addition

variable {a : Addition}

theorem legible_toData (ha : ColumnValues.NumbersKept lib a.values) :
    lib.Legible (depth + 5) (a.toData times) := by
  refine .record ?_
  simp only [List.forall_mem_cons]
  exact ⟨.text a.unid, ColumnValues.legible_toData ha, fun _ hf => nomatch hf⟩

theorem ofNode?_of_shows (htimes : times.Lossless) (h : lib.Shows (a.toData times) n) :
    ofNode? lib times n = some a := by
  obtain ⟨ms, hcontents, hds⟩ := h.contents? (by simp)
  obtain _ | ⟨hunid, _ | ⟨hvalues, ⟨⟩⟩⟩ := hds
  simp only [List.map_cons, List.map_nil] at hcontents
  simp [ofNode?, hcontents, hunid.text?, ColumnValues.ofNode?_of_shows htimes hvalues]

end Addition

namespace Change

variable {c : Change}

theorem legible_toData (hc : c.NumbersKept lib) : lib.Legible (depth + 7) (c.toData times) := by
  refine .record ?_
  simp only [List.forall_mem_cons]
  refine ⟨.text c.origin, .list fun d hd => ?_, .wordMap fun e he => ?_, fun _ hf => nomatch hf⟩
  · obtain ⟨id, -, rfl⟩ := List.mem_map.mp hd
    exact .word id
  · obtain ⟨entry, hentry, rfl⟩ := List.mem_map.mp he
    exact Addition.legible_toData
      (hc _ _ (Std.ExtTreeMap.mem_toList_iff_getElem?_eq_some.mp hentry))

theorem removalsOfNode?_of_shows {ids : Std.ExtTreeSet UInt64}
    (h : lib.Shows (.list (ids.toList.map .word)) n) : removalsOfNode? lib n = some ids := by
  cases h with
  | list hn hds =>
    have hread := Fields.mapM_of_forall₂ hds fun id m (hm : lib.Shows (.word id) m) => hm.word?
    simp [removalsOfNode?, hn, hread, foldl_insert_members]

theorem additionsOfNode?_of_shows (htimes : times.Lossless)
    {additions : Std.ExtTreeMap UInt64 Addition}
    (h : lib.Shows (.wordMap (additions.toList.map fun (id, addition) =>
      (id, addition.toData times))) n) :
    additionsOfNode? lib times n = some additions := by
  cases h with
  | wordMap hn hkeys hds =>
    have hread := Fields.mapM_of_parts hkeys hds fun a m => Addition.ofNode?_of_shows htimes
    simp [additionsOfNode?, hn, hread, foldl_insert_toList]

theorem ofNode?_of_shows (htimes : times.Lossless) (h : lib.Shows (c.toData times) n) :
    ofNode? lib times n = some c := by
  obtain ⟨ms, hcontents, hds⟩ := h.contents? (by simp)
  obtain _ | ⟨horigin, _ | ⟨hremovals, _ | ⟨hadditions, ⟨⟩⟩⟩⟩ := hds
  simp only [List.map_cons, List.map_nil] at hcontents
  simp [ofNode?, hcontents, horigin.text?, removalsOfNode?_of_shows hremovals,
    additionsOfNode?_of_shows htimes hadditions]

theorem load?_store (hlib : lib.Lossless) (htimes : times.Lossless) (hc : c.NumbersKept lib) :
    load? lib times (c.store lib times) = some c := by
  obtain ⟨n, hread, hn⟩ := hlib (c.toData times) (legible_toData hc)
  rw [load?, store, hread, Option.bind_some, ofNode?_of_shows htimes hn]

theorem sameItems_self {l : List (String × ColumnValue)} (h : ∀ f ∈ l, f.2.same f.2 = true) :
    sameValues.go l l = true := by
  induction l with
  | nil => rfl
  | cons f rest ih =>
    obtain ⟨hf, hrest⟩ := List.forall_mem_cons.mp h
    simp [sameValues.go, hf, ih hrest]

theorem sameValues_self {values : ColumnValues} (h : ColumnValues.NumbersKept lib values) :
    sameValues values values = true :=
  sameItems_self fun _ hf => ColumnValue.same_self
    (h _ _ (Std.ExtTreeMap.mem_toList_iff_getElem?_eq_some.mp hf))

theorem sameAdditions_self {l : List (UInt64 × Addition)}
    (h : ∀ entry ∈ l, ColumnValues.NumbersKept lib entry.2.values) : sameAdditions l l = true := by
  induction l with
  | nil => rfl
  | cons entry rest ih =>
    obtain ⟨hentry, hrest⟩ := List.forall_mem_cons.mp h
    simp [sameAdditions, sameValues_self hentry, ih hrest]

theorem same_self (hc : c.NumbersKept lib) : c.same c = true := by
  have hadditions := sameAdditions_self (l := c.additions.toList) fun entry hentry =>
    hc _ _ (Std.ExtTreeMap.mem_toList_iff_getElem?_eq_some.mp hentry)
  simp [same, hadditions]

/-- A change that is stored is loaded as this change, which equals itself as a change. -/
theorem stored_round_trip (lib : Json.Library) (times : Timestamp.Library) (hlib : lib.Lossless)
    (htimes : times.Lossless) (c : Change) (hnumbers : c.NumbersKept lib) :
    load? lib times (c.store lib times) = some c ∧ c.same c = true :=
  ⟨load?_store hlib htimes hnumbers, same_self hnumbers⟩

/-- A tenth, a leap second of a year beyond four digits, and the largest id. -/
theorem stored_round_trip_leap_second :
    let tenth : Number := ⟨0x3fb999999999999a⟩
    let leap : Timestamp := ⟨320000000039, 1500000000, by decide⟩
    let values := ((∅ : ColumnValues).insert "sums" (.list [.number tenth, .text "a\"\x01"])).insert
      "seen" (.single (.timestamp leap))
    let c : Change := ⟨"desk", (∅ : Std.ExtTreeSet UInt64).insert 0xffffffffffffffff,
      (∅ : Std.ExtTreeMap UInt64 Addition).insert 7 ⟨"row", values⟩⟩
    Json.library.Lossless ∧ Timestamp.library.Lossless ∧ c.NumbersKept Json.library ∧
      Json.numeral tenth = "0.1" ∧ leap.toData = "+12110-05-25T16:53:60.500Z" ∧
      ofText? c.toText = some c ∧ c.same c = true := by
  intro tenth leap values c
  have hlib := Json.lossless_library
  have htimes : Timestamp.library.Lossless := Timestamp.ofText?_toData
  have htenth : Json.library.KeepsNumber tenth := ⟨by decide, by decide +kernel⟩
  have hkept : c.NumbersKept Json.library := by
    intro id a ha item v hv x hx
    simp only [c, Std.ExtTreeMap.getElem?_insert, Std.ExtTreeMap.getElem?_empty] at ha
    split at ha
    · cases ha
      simp only [values, Std.ExtTreeMap.getElem?_insert, Std.ExtTreeMap.getElem?_empty] at hv
      split at hv
      · cases hv
        simp [ColumnValue.scalars] at hx
      · split at hv
        · cases hv
          have hone : x = tenth := by simpa [ColumnValue.scalars] using hx
          exact hone ▸ htenth
        · cases hv
    · cases ha
  exact ⟨hlib, htimes, hkept, by decide +kernel, by decide +kernel,
    stored_round_trip Json.library Timestamp.library hlib htimes c hkept⟩

end Change

end CategorizedIndex
