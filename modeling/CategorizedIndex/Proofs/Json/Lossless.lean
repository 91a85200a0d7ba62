import CategorizedIndex.Json.Library
import CategorizedIndex.Proofs.Fields

/-! # Libraries that lose nothing

What is relied on of a library for JSON: data that it writes is data that it reads, up to a
depth, if it meets the numbers of this data again in their numerals. What it reads is told by
its answers to whoever knows what to expect.
-/
namespace CategorizedIndex.Json

namespace Library

/-- The value answers, to what its type asks, with the data. -/
inductive Shows (lib : Library) : Data → lib.Node → Prop
  | text {s n} (h : lib.text? n = some s) : Shows lib (.text s) n
  | number {x n} (h : lib.number? n = some x) : Shows lib (.number x) n
  | word {w n} (h : lib.word? n = some w) : Shows lib (.word w) n
  | mark {name n} (h : lib.variant? n = some (name, none)) : Shows lib (.mark name) n
  | variant {name d n m} (h : lib.variant? n = some (name, some m)) (hd : Shows lib d m) :
      Shows lib (.variant name d) n
  | list {ds n ms} (h : lib.items? n = some ms) (hds : List.Forall₂ (Shows lib) ds ms) :
      Shows lib (.list ds) n
  | record {fields n ms} (h : lib.record? n = some (.named ms))
      (hnames : fields.map Prod.fst = ms.map Prod.fst)
      (hds : List.Forall₂ (Shows lib) (fields.map Prod.snd) (ms.map Prod.snd)) :
      Shows lib (.record fields) n
  | map {entries n ms} (h : lib.entries? n = some ms)
      (hkeys : entries.map Prod.fst = ms.map Prod.fst)
      (hds : List.Forall₂ (Shows lib) (entries.map Prod.snd) (ms.map Prod.snd)) :
      Shows lib (.map entries) n
  | wordMap {entries n ms} (h : lib.wordEntries? n = some ms)
      (hkeys : entries.map Prod.fst = ms.map Prod.fst)
      (hds : List.Forall₂ (Shows lib) (entries.map Prod.snd) (ms.map Prod.snd)) :
      Shows lib (.wordMap entries) n

/-- Finite, and read back from its numeral. -/
def KeepsNumber (lib : Library) (x : Number) : Prop :=
  x.isFinite = true ∧ lib.numberOf? (lib.numeral x) = some x

/-- Data of at most this depth whose numbers are kept. -/
inductive Legible (lib : Library) : ℕ → Data → Prop
  | text {depth} (s : String) : Legible lib depth (.text s)
  | number {depth x} (hx : lib.KeepsNumber x) : Legible lib depth (.number x)
  | word {depth} (w : UInt64) : Legible lib depth (.word w)
  | mark {depth} (name : String) : Legible lib depth (.mark name)
  | variant {depth name d} (hd : Legible lib depth d) : Legible lib (depth + 1) (.variant name d)
  | list {depth ds} (hds : ∀ d ∈ ds, Legible lib depth d) : Legible lib (depth + 1) (.list ds)
  | record {depth fields} (hds : ∀ f ∈ fields, Legible lib depth f.2) :
      Legible lib (depth + 1) (.record fields)
  | map {depth entries} (hds : ∀ e ∈ entries, Legible lib depth e.2) :
      Legible lib (depth + 1) (.map entries)
  | wordMap {depth entries} (hds : ∀ e ∈ entries, Legible lib depth e.2) :
      Legible lib (depth + 1) (.wordMap entries)

/-- A reader descends 127 times. -/
def maxDepth : ℕ := 127

/-- What is written is read as the data that it was written from. -/
def Lossless (lib : Library) : Prop :=
  ∀ d, lib.Legible maxDepth d → ∃ n, lib.read? (lib.write d) = some n ∧ lib.Shows d n

end Library

/-! ## Answers -/

namespace Library

variable {lib : Library} {n : lib.Node}

theorem Shows.text? {s : String} (h : lib.Shows (.text s) n) : lib.text? n = some s := by
  cases h with
  | text hn => exact hn

theorem Shows.number? {x : Number} (h : lib.Shows (.number x) n) : lib.number? n = some x := by
  cases h with
  | number hn => exact hn

theorem Shows.word? {w : UInt64} (h : lib.Shows (.word w) n) : lib.word? n = some w := by
  cases h with
  | word hn => exact hn

end Library

/-! ## Records -/

theorem Record.contents?_named {α : Type} {fields : List (String × α)}
    (hdistinct : (fields.map Prod.fst).Nodup) :
    (Record.named fields).contents? (fields.map Prod.fst) =
      some (fields.map fun f => some f.2) := by
  have hfound := fun f (hf : f ∈ fields) => Fields.filter_of_mem hdistinct hf
  have hrepeated : ((fields.map Prod.fst).any fun name =>
      1 < (fields.filter (·.1 == name)).length) = false := by
    rw [List.any_map, List.any_eq_false]
    intro f hf
    simp [hfound f hf]
  have hcontents : (fields.map Prod.fst).map (fun name =>
      (fields.find? (·.1 == name)).map (·.2)) = fields.map fun f => some f.2 := by
    rw [List.map_map]
    refine List.map_congr_left fun f hf => ?_
    simp [← List.head?_filter, hfound f hf]
  rw [Record.contents?, hrepeated, hcontents]
  rfl

theorem Library.Shows.contents? {lib : Library} {fields : List (String × Data)} {n : lib.Node}
    (h : lib.Shows (.record fields) n) (hdistinct : (fields.map Prod.fst).Nodup) :
    ∃ ms, lib.contents? (fields.map Prod.fst) n = some (ms.map some) ∧
      List.Forall₂ lib.Shows (fields.map Prod.snd) ms := by
  cases h with
  | @record _ _ ms hrecord hsame hds =>
    refine ⟨ms.map Prod.snd, ?_, hds⟩
    rw [Library.contents?, hrecord, Option.bind_some, hsame,
      Record.contents?_named (hsame ▸ hdistinct)]
    simp

end CategorizedIndex.Json
