import CategorizedIndex.Proofs.Tree.Prune
import Mathlib.Algebra.Group.Nat.Defs

/-! # Tables of rows

What a tree is meant to show: one placing for each document that was let through. A
document stands once at the end of each of its paths, and between commits every category
leads to a document, so the addresses in use are the starts of those of documents.
-/
namespace CategorizedIndex

/-- The placings of documents by scoped id. -/
abbrev Table := ScopedId → Option Placing

/-- A placing as the configuration prepares it. -/
structure Placing.Fits (config : Config) (p : Placing) : Prop where
  slots : p.slots = Batch.documentSlots config p.values
  paths : p.paths ≠ []
  steps : ∀ path ∈ p.paths, ∀ step ∈ path, step.Fits config

/-- Ids of a batch are those of documents, and its placings are prepared. -/
structure Batch.Fits (config : Config) (b : Batch) : Prop where
  removals : ∀ s ∈ b.removals, s.isCategory = false
  rows : ∀ row ∈ b.rows, row.scopedId.isCategory = false ∧
    ∀ p, row.placing = some p → p.Fits config

namespace Table

def empty : Table := fun _ => none

def set (T : Table) (s : ScopedId) (placing : Option Placing) : Table :=
  fun x => if x = s then placing else T x

@[simp] theorem set_self (T : Table) (s : ScopedId) (placing : Option Placing) :
    T.set s placing s = placing := if_pos rfl

theorem set_of_ne (T : Table) {s x : ScopedId} (placing : Option Placing) (h : x ≠ s) :
    T.set s placing x = T x := if_neg h

def Fits (config : Config) (T : Table) : Prop :=
  ∀ s p, T s = some p → s.isCategory = false ∧ p.Fits config

theorem fits_empty (config : Config) : empty.Fits config := fun _ _ h => nomatch h

theorem Fits.set {config : Config} {T : Table} (h : T.Fits config) {s : ScopedId}
    {placing : Option Placing}
    (hs : ∀ p, placing = some p → s.isCategory = false ∧ p.Fits config) :
    (T.set s placing).Fits config := by
  intro x p hx
  by_cases hxs : x = s
  · rw [hxs, set_self] at hx
    exact hxs ▸ hs p hx
  · rw [set_of_ne T placing hxs] at hx
    exact h x p hx

theorem foldl_set_of_not_mem {α : Type} (id : α → ScopedId) (placing : α → Option Placing)
    {l : List α} {s : ScopedId} (hs : s ∉ l.map id) (T : Table) :
    l.foldl (fun T a => T.set (id a) (placing a)) T s = T s := by
  induction l generalizing T with
  | nil => rfl
  | cons a rest ih =>
    rw [List.map_cons, List.mem_cons, not_or] at hs
    exact (ih hs.2 _).trans (T.set_of_ne _ hs.1)

end Table

def Batch.table (b : Batch) (T : Table) : Table :=
  b.rows.foldl (fun T row => T.set row.scopedId row.placing)
    (b.removals.foldl (fun T s => T.set s none) T)

namespace Batch

variable {b : Batch} {T : Table} {s : ScopedId}

theorem table_of_not_mem (hr : s ∉ b.removals) (hs : s ∉ b.rows.map (·.scopedId)) :
    b.table T s = T s := by
  rw [table, Table.foldl_set_of_not_mem _ _ hs]
  exact Table.foldl_set_of_not_mem id (fun _ => none) (by rwa [List.map_id]) T

theorem table_of_removed (hr : s ∈ b.removals) (hs : s ∉ b.rows.map (·.scopedId)) :
    b.table T s = none := by
  rw [table, Table.foldl_set_of_not_mem _ _ hs]
  have hfold : ∀ (l : List ScopedId) (T : Table), s ∈ l ∨ T s = none →
      l.foldl (fun T s => T.set s none) T s = none := by
    intro l
    induction l with
    | nil => exact fun T h => h.resolve_left List.not_mem_nil
    | cons a rest ih =>
      intro T h
      refine ih (T.set a none) ?_
      by_cases ha : s = a
      · exact Or.inr (ha ▸ T.set_self s none)
      · rw [T.set_of_ne none ha]
        exact h.imp_left (List.mem_of_ne_of_mem ha)
  exact hfold _ _ (Or.inl hr)

theorem table_of_mem (hn : (b.rows.map (·.scopedId)).Nodup) {row : PreparedRow}
    (hrow : row ∈ b.rows) : b.table T row.scopedId = row.placing := by
  unfold table
  generalize b.removals.foldl (fun T s => T.set s none) T = T
  generalize b.rows = rows at hn hrow
  induction rows generalizing T with
  | nil => cases hrow
  | cons a rest ih =>
    obtain ⟨hnot, hrest⟩ := List.nodup_cons.mp hn
    rw [List.foldl_cons]
    rcases List.mem_cons.mp hrow with rfl | hrow
    · exact (Table.foldl_set_of_not_mem _ _ hnot _).trans (T.set_self _ _)
    · exact ih _ hrest hrow

end Batch

theorem Label.map_category_injective : Function.Injective (List.map Label.category) :=
  List.map_injective_iff.mpr fun _ _ => Label.category.inj

namespace Skeleton

def documentAddress (path : CategoryPath) (s : ScopedId) : List Label :=
  path.map .category ++ [.document s]

def documentCore (s : ScopedId) (placing : Placing) (parent : Option EntryId) : Core :=
  ⟨s, placing.unid, .document placing.slots s, placing.values, parent⟩

/-- Documents stand where the table places them, and nowhere else. -/
structure Shows (F : Skeleton) (T : Table) : Prop where
  documents : ∀ {x c}, F x = some c → c.isCategory = false →
    ∃ placing path, T c.scopedId = some placing ∧ path ∈ placing.paths ∧
      F.address x = documentAddress path c.scopedId ∧
      c = documentCore c.scopedId placing c.parent
  complete : ∀ {s placing path}, T s = some placing → path ∈ placing.paths →
    ∃ x c, F x = some c ∧ c.scopedId = s ∧ F.address x = documentAddress path s

theorem documentAddress_injective {path path' : CategoryPath} {s s' : ScopedId}
    (h : documentAddress path s = documentAddress path' s') : path = path' ∧ s = s' := by
  obtain ⟨hpath, hs⟩ := List.append_inj' h rfl
  refine ⟨Label.map_category_injective hpath, ?_⟩
  exact Label.document.inj (List.cons.inj hs).1

variable {config : Config} {F G : Skeleton} {T : Table} {n : EntryId}

theorem Shows.trimmed (h : F.Shows T) (hT : T.Fits config) (htrim : F.Trimmed G)
    (hG : G.WellFormed config n) : G.Shows T where
  documents {x c} hx hd := by
    rw [← htrim.kept.address_eq hG hx]
    exact h.documents (htrim.kept x c hx) hd
  complete {s placing path} hs hpath := by
    obtain ⟨x, c, hx, hcs, ha⟩ := h.complete hs hpath
    have hc : c.isCategory = false := by
      rw [Core.isCategory, hcs]
      exact (hT s placing hs).1
    have hGx := htrim.documents hx hc
    exact ⟨x, c, hGx, hcs, (htrim.kept.address_eq hG hGx).symm.trans ha⟩

theorem Shows.exists_address_iff (h : F.Shows T) (hF : F.WellFormed config n)
    (hfull : ∀ x, ¬ F.Childless x) (A : List Label) :
    (∃ x c, F x = some c ∧ F.address x = A) ↔
      A = [] ∨ ∃ s placing path, T s = some placing ∧ path ∈ placing.paths ∧
        A <+: documentAddress path s := by
  constructor
  · rintro ⟨x, c, hx, rfl⟩
    by_cases hr : x = Tree.root
    · exact Or.inl (hr ▸ hF.address_root)
    · obtain ⟨y, d, hy, hd, hmem⟩ := hF.exists_document hfull hx hr
      obtain ⟨placing, path, hplacing, hpath, haddress, -⟩ := h.documents hy hd
      exact Or.inr ⟨_, placing, path, hplacing, hpath, haddress ▸ hF.address_prefix hy hmem⟩
  · rintro (rfl | ⟨s, placing, path, hs, hpath, hstart⟩)
    · exact ⟨_, _, hF.root, hF.address_root⟩
    · obtain ⟨y, d, hy, -, hy'⟩ := h.complete hs hpath
      obtain ⟨a, ha, rfl⟩ := hF.exists_of_prefix hy (hy' ▸ hstart)
      obtain ⟨c, hc⟩ := hF.exists_of_mem_line hy ha
      exact ⟨a, c, hc, rfl⟩

end Skeleton

namespace Skeleton

def Numbered (F : Skeleton) (last : Nat) : Prop :=
  last < 2 ^ 63 →
    (∀ x c, F x = some c → c.isCategory = true →
      ∃ k ≤ last, c.scopedId = .category (UInt64.ofNat k)) ∧
    ∀ x y c d, F x = some c → F y = some d → c.isCategory = true →
      c.scopedId = d.scopedId → x = y

theorem Numbered.mono {F G : Skeleton} {m n : Nat} (h : F.Numbered m) (hmn : m ≤ n)
    (hsub : ∀ {x c}, G x = some c → c.isCategory = true → F x = some c) : G.Numbered n := by
  intro hn
  obtain ⟨hid, hone⟩ := h (hmn.trans_lt hn)
  refine ⟨fun x c hx hc => ?_, fun x y c d hx hy hc heq => ?_⟩
  · obtain ⟨k, hk, hcat⟩ := hid x c (hsub hx hc) hc
    exact ⟨k, hk.trans hmn, hcat⟩
  · have hd : d.isCategory = true := by
      rw [Core.isCategory, ← heq]
      exact hc
    exact hone x y c d (hsub hx hc) (hsub hy hd) hc heq

end Skeleton

namespace Tree

/-- A tree between commits: it shows its table, every category leads to a document, and
no renumbering is pending. -/
structure Settled (config : Config) (T : Table) (t : Tree) : Prop where
  sound : t.Sound config
  fits : T.Fits config
  shows : t.skeleton.Shows T
  full : ∀ x, ¬ t.skeleton.Childless x
  numbered : t.skeleton.Numbered t.lastCategory
  flushed : t.unnumbered = ∅

end Tree

end CategorizedIndex
