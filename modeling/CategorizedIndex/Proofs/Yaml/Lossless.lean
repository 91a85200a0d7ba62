import CategorizedIndex.Proofs.Fields
import CategorizedIndex.Yaml.Library

/-! # Libraries that lose nothing

What is relied on of a library for YAML: the texts of scalars, of lists and of records which it
writes are read as the data that they were written from.
-/
namespace CategorizedIndex.Yaml

/-- Scalars but for a line break on its own, and lists of records with some of these names. -/
inductive Data.Legible (names : List String) : Data → Prop
  | text (s : String) : Legible names (.text s)
  | char {c : Char} (hc : c ≠ '\n') : Legible names (.char c)
  | bool (b : Bool) : Legible names (.bool b)
  | word (s : String) : Legible names (.word s)
  | present {d : Data} (hd : Legible names d) : Legible names (.present d)
  | list {records : List (List (String × Data))} (hsome : ∀ r ∈ records, r ≠ [])
      (hnames : ∀ r ∈ records, ∀ f ∈ r, f.1 ∈ names)
      (hds : ∀ r ∈ records, ∀ f ∈ r, Legible names f.2) :
      Legible names (.list (records.map .record))

namespace Library

/-- The value answers, to what its type asks, with the data. -/
inductive Shows (lib : Library) : Data → lib.Node → Prop
  | text {s n} (h : lib.text? n = some s) : Shows lib (.text s) n
  | char {c n} (h : lib.char? n = some c) : Shows lib (.char c) n
  | bool {b n} (h : lib.bool? n = some b) : Shows lib (.bool b) n
  | word {s n} (h : lib.word? n = some s) : Shows lib (.word s) n
  | present {d n m} (h : lib.optional? n = some (some m)) (hd : Shows lib d m) :
      Shows lib (.present d) n
  | list {ds n ms} (h : lib.items? n = some ms) (hds : List.Forall₂ (Shows lib) ds ms) :
      Shows lib (.list ds) n
  | record {fields n ms} (h : lib.fields? n = some ms)
      (hnames : fields.map Prod.fst = ms.map Prod.fst)
      (hds : List.Forall₂ (Shows lib) (fields.map Prod.snd) (ms.map Prod.snd)) :
      Shows lib (.record fields) n

/-- A record with some of these names is read as the data that it was written from. -/
def Lossless (lib : Library) (names : List String) : Prop :=
  ∀ fields : List (String × Data), fields ≠ [] → (∀ f ∈ fields, f.1 ∈ names) →
    (∀ f ∈ fields, f.2.Legible names) →
      ∃ n, lib.read? (lib.write (.record fields)) = some n ∧ lib.Shows (.record fields) n

end Library

/-! ## Answers -/

namespace Library

variable {lib : Library} {n m : lib.Node} {d : Data} {α : Type} {a : α}

theorem Shows.text? {s : String} (h : lib.Shows (.text s) n) : lib.text? n = some s := by
  cases h with
  | text hn => exact hn

theorem Shows.char? {c : Char} (h : lib.Shows (.char c) n) : lib.char? n = some c := by
  cases h with
  | char hn => exact hn

theorem Shows.bool? {b : Bool} (h : lib.Shows (.bool b) n) : lib.bool? n = some b := by
  cases h with
  | bool hn => exact hn

theorem Shows.oneOf? {words : List (String × α)} {s : String} (h : lib.Shows (.word s) n)
    (hs : words.lookup s = some a) : lib.oneOf? words n = some a := by
  cases h with
  | word hn => rw [Library.oneOf?, hn, Option.bind_some, hs]

theorem Shows.optionally? {read : lib.Node → Option α} (h : lib.Shows (.present d) n)
    (hread : ∀ m, lib.Shows d m → read m = some a) : lib.optionally? read n = some (some a) := by
  cases h with
  | present hn hd => simp [Library.optionally?, hn, hread _ hd]

structure ShowsFields (lib : Library) (fields : List (String × Data))
    (ms : List (String × lib.Node)) : Prop where
  distinct : (fields.map Prod.fst).Nodup
  names : fields.map Prod.fst = ms.map Prod.fst
  contents : List.Forall₂ lib.Shows (fields.map Prod.snd) (ms.map Prod.snd)

namespace ShowsFields

variable {fields : List (String × Data)} {ms : List (String × lib.Node)} {name : String}
  {read : lib.Node → Option α} {default : α}

theorem field? (h : lib.ShowsFields fields ms) (hf : (name, d) ∈ fields) :
    ∃ m, Yaml.field? ms name = some (some m) ∧ lib.Shows d m := by
  obtain ⟨m, hm, hd⟩ := Fields.exists_of_mem (Fields.forall₂_of_parts h.names h.contents) hf
  refine ⟨m, ?_, hd⟩
  rw [Yaml.field?, Fields.filter_of_mem (h.names ▸ h.distinct) hm]

theorem required? (h : lib.ShowsFields fields ms) (hf : (name, d) ∈ fields)
    (hread : ∀ m, lib.Shows d m → read m = some a) : Yaml.required? ms name read = some a := by
  obtain ⟨m, hm, hd⟩ := h.field? hf
  simp [Yaml.required?, hm, hread m hd]

theorem withDefault?_of_mem (h : lib.ShowsFields fields ms) (hf : (name, d) ∈ fields)
    (hread : ∀ m, lib.Shows d m → read m = some a) :
    withDefault? ms name read default = some a := by
  obtain ⟨m, hm, hd⟩ := h.field? hf
  simp [withDefault?, hm, hread m hd]

theorem withDefault?_of_notMem (h : lib.ShowsFields fields ms)
    (hname : name ∉ fields.map Prod.fst) : withDefault? ms name read default = some default := by
  have hnone : ms.filter (·.1 == name) = [] := by
    rw [List.filter_eq_nil_iff]
    intro m hm hsame
    exact hname (h.names ▸ eq_of_beq hsame ▸ List.mem_map_of_mem hm)
  simp [withDefault?, Yaml.field?, hnone]

end ShowsFields

end Library

end CategorizedIndex.Yaml
