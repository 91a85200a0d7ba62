import CategorizedIndex.Proofs.Table
import CategorizedIndex.Tree.Kinds

/-! # Values of siblings

What stands among the children of one entry at a sort position, read off the tree and
read off the table it shows. Both agree on a settled tree, so whether the siblings of a
tree have one kind of value is decided by the table alone.
-/
namespace CategorizedIndex

/-- The value of a child at a place: a category has one at its own column, a document at
each of its slots. -/
def SortKey.valueIn (place : Replay.Place) (k : SortKey) : Option Scalar :=
  match place with
  | .category column =>
    if k.isCategory ∧ k.column = .value column then k.slots.head?.bind (·.scalar?) else none
  | .document position => if k.isCategory then none else k.slots[position]?.bind (·.scalar?)

namespace Tree

/-- The values at a place among the children of an entry, in their order. -/
def siblingValues (t : Tree) (parent : EntryId) (place : Replay.Place) : List Scalar :=
  (t.childrenOf parent).toList.filterMap fun child => child.1.valueIn place

/-- The values at every place among siblings are of one kind. -/
def OneKind (t : Tree) : Prop :=
  ∀ parent place, ∀ v ∈ t.siblingValues parent place, ∀ w ∈ t.siblingValues parent place,
    v.kind = w.kind

end Tree

namespace Table

def Leads (T : Table) (A : List Label) : Prop :=
  ∃ s placing path, T s = some placing ∧ path ∈ placing.paths ∧
    A <+: Skeleton.documentAddress path s

inductive Holds (T : Table) : List Label → Replay.Place → Scalar → Prop
  | category {s : ScopedId} {placing : Placing} {above rest : CategoryPath} {step : CategoryStep}
    {v : Scalar} (hrow : T s = some placing) (hpath : above ++ step :: rest ∈ placing.paths)
    (hv : step.value = some v) : Holds T (above.map .category) (.category step.column) v
  | document {s : ScopedId} {placing : Placing} {path : CategoryPath} {position : Nat}
    {v : Scalar} (hrow : T s = some placing) (hpath : path ∈ placing.paths)
    (hv : placing.slots[position]?.bind (·.scalar?) = some v) :
    Holds T (path.map .category) (.document position) v

def OneKind (T : Table) : Prop :=
  ∀ A place v w, T.Holds A place v → T.Holds A place w → v.kind = w.kind

variable {T U : Table}

theorem Holds.mono (h : ∀ s p, T s = some p → U s = some p) {A : List Label}
    {place : Replay.Place} {v : Scalar} (hv : T.Holds A place v) : U.Holds A place v := by
  cases hv with
  | category hrow hpath hv => exact .category (h _ _ hrow) hpath hv
  | document hrow hpath hv => exact .document (h _ _ hrow) hpath hv

theorem OneKind.mono (hU : U.OneKind) (h : ∀ s p, T s = some p → U s = some p) : T.OneKind :=
  fun A place v w hv hw => hU A place v w (hv.mono h) (hw.mono h)

theorem Holds.leads {A : List Label} {place : Replay.Place} {v : Scalar}
    (h : T.Holds A place v) : T.Leads A := by
  cases h with
  | @category s placing above rest step _ hrow hpath _ =>
    refine ⟨s, placing, _, hrow, hpath, ?_⟩
    rw [Skeleton.documentAddress, List.map_append, List.append_assoc]
    exact List.prefix_append _ _
  | @document s placing path _ _ hrow hpath _ =>
    exact ⟨s, placing, path, hrow, hpath, List.prefix_append _ _⟩

end Table

namespace Core

variable {config : Config} {c : Core}

theorem Fits.key_of_label (hc : c.Fits config) {step : CategoryStep}
    (h : c.label = .category step) :
    step.Fits config ∧ c.key.isCategory = true ∧ c.key.column = .value step.column ∧
      c.key.slots.head?.bind (·.scalar?) = step.value := by
  cases hc with
  | category s id _ hs hid =>
    simp only [label, isCategory, hid, if_true, Label.category.injEq,
      SortKey.step_category hs] at h
    subst h
    exact ⟨hs, rfl, rfl, congrArg CategoryStep.value (SortKey.step_category hs id)⟩
  | document id _ _ _ hid => simp [label, isCategory, hid] at h

theorem Fits.valueIn_eq_some_iff (hc : c.Fits config) {place : Replay.Place} {v : Scalar} :
    c.key.valueIn place = some v ↔
      (∃ step, c.label = .category step ∧ place = .category step.column ∧ step.value = some v) ∨
      ∃ position, c.isCategory = false ∧ place = .document position ∧
        c.key.slots[position]?.bind (·.scalar?) = some v := by
  cases hcat : c.isCategory with
  | true =>
    obtain ⟨step, hlabel⟩ := exists_step hcat
    obtain ⟨-, hkey, hcolumn, hvalue⟩ := hc.key_of_label hlabel
    constructor
    · intro hv
      cases place with
      | category column =>
        rw [SortKey.valueIn] at hv
        split at hv
        · next hsame =>
          rw [Bound.value.inj (hsame.2.symm.trans hcolumn)]
          exact Or.inl ⟨step, hlabel, rfl, hvalue.symm.trans hv⟩
        · cases hv
      | document position =>
        rw [SortKey.valueIn, hkey, if_pos rfl] at hv
        cases hv
    · rintro (⟨step', hlabel', rfl, hv⟩ | ⟨_, hnot, _⟩)
      · obtain rfl := Label.category.inj (hlabel.symm.trans hlabel')
        rw [SortKey.valueIn, if_pos ⟨hkey, hcolumn⟩, hvalue, hv]
      · cases hnot
  | false =>
    have hkey : c.key.isCategory = false := hc.isCategory_key.trans hcat
    constructor
    · intro hv
      cases place with
      | category column =>
        rw [SortKey.valueIn, if_neg (fun h => Bool.false_ne_true (hkey.symm.trans h.1))] at hv
        cases hv
      | document position =>
        rw [SortKey.valueIn, hkey, if_neg Bool.false_ne_true] at hv
        exact Or.inr ⟨position, rfl, rfl, hv⟩
    · rintro (⟨step, hlabel, -⟩ | ⟨position, -, rfl, hv⟩)
      · rw [label_document hcat] at hlabel
        cases hlabel
      · rw [SortKey.valueIn, hkey, if_neg Bool.false_ne_true, hv]

/-- Values at one slot of keys that agree before their slots stand at one place. -/
theorem Fits.exists_place {d : Core} (hc : c.Fits config) (hd : d.Fits config)
    (hsection : c.key.isCategory = d.key.isCategory) (hcolumn : c.key.column = d.key.column)
    {i : Nat} {v w : Scalar} (hv : c.key.slots[i]?.bind (·.scalar?) = some v)
    (hw : d.key.slots[i]?.bind (·.scalar?) = some w) :
    ∃ place, c.key.valueIn place = some v ∧ d.key.valueIn place = some w := by
  cases hc with
  | category step _ _ _ _ =>
    cases hd with
    | category step' _ _ _ _ =>
      cases i with
      | zero =>
        refine ⟨.category step.column, ?_, ?_⟩
        · rw [SortKey.valueIn, if_pos ⟨rfl, rfl⟩]
          exact hv
        · rw [SortKey.valueIn, if_pos ⟨rfl, hcolumn.symm⟩]
          exact hw
      | succ i => cases hv
    | document _ _ _ _ _ => cases hsection
  | document _ _ _ _ _ =>
    cases hd with
    | category _ _ _ _ _ => cases hsection
    | document _ _ _ _ _ => exact ⟨.document i, hv, hw⟩

end Core

namespace Skeleton

variable {config : Config} {F : Skeleton} {T : Table} {n : EntryId}

/-- What stands at an address with a last label hangs under what stands before it. -/
theorem WellFormed.exists_parent (h : F.WellFormed config n) {x : EntryId} {c : Core}
    (hx : F x = some c) {A : List Label} {l : Label} (ha : F.address x = A ++ [l]) :
    ∃ p pc, c.parent = some p ∧ F p = some pc ∧ F.address p = A ∧ c.label = l := by
  have hr : x ≠ Tree.root := by
    intro hr
    rw [hr, h.address_root] at ha
    simp at ha
  obtain ⟨p, pc, hp, -, hpc, -⟩ := h.parent hx hr
  rw [h.address_eq hx hp] at ha
  obtain ⟨hA, hl⟩ := List.append_inj' ha rfl
  exact ⟨p, pc, hp, hpc, hA, (List.cons.inj hl).1⟩

theorem prefix_documentAddress {A : List Label} {step : CategoryStep} {path : CategoryPath}
    {s : ScopedId} (h : A ++ [.category step] <+: documentAddress path s) :
    ∃ above rest, path = above ++ step :: rest ∧ A = above.map .category := by
  rw [documentAddress, List.prefix_concat_iff] at h
  rcases h with h | h
  · cases (List.cons.inj (List.append_inj' h rfl).2).1
  · obtain ⟨tail, htail⟩ := h
    rw [List.append_assoc] at htail
    obtain ⟨above, rest, rfl, rfl, hrest⟩ := List.map_eq_append_iff.mp htail.symm
    obtain ⟨first, rest, rfl, hfirst, -⟩ := List.map_eq_cons_iff.mp hrest
    exact ⟨above, rest, by rw [Label.category.inj hfirst], rfl⟩

theorem step_prefix (above rest : CategoryPath) (step : CategoryStep) (s : ScopedId) :
    above.map .category ++ [.category step] <+: documentAddress (above ++ step :: rest) s := by
  rw [documentAddress, List.map_append, List.append_assoc, List.prefix_append_right_inj]
  exact List.prefix_append [Label.category step] _

end Skeleton

namespace Tree.Settled

variable {config : Config} {T : Table} {t : Tree}

theorem exists_address_iff (h : t.Settled config T) (A : List Label) :
    (∃ x c, t.skeleton x = some c ∧ t.skeleton.address x = A) ↔ A = [] ∨ T.Leads A :=
  h.shows.exists_address_iff h.sound.formed h.full A

theorem exists_category (h : t.Settled config T) {s : ScopedId} {placing : Placing}
    {above rest : CategoryPath} {step : CategoryStep} (hrow : T s = some placing)
    (hpath : above ++ step :: rest ∈ placing.paths) :
    ∃ y d q qc, t.skeleton y = some d ∧ d.parent = some q ∧ t.skeleton q = some qc ∧
      t.skeleton.address q = above.map .category ∧ d.label = .category step ∧
      t.skeleton.address y = above.map .category ++ [.category step] := by
  have hF := h.sound.formed
  obtain ⟨z, b, hz, -, hza⟩ := h.shows.complete hrow hpath
  have hstart := Skeleton.step_prefix above rest step s
  rw [← hza] at hstart
  obtain ⟨y, hyz, hya⟩ := hF.exists_of_prefix hz hstart
  obtain ⟨d, hd⟩ := hF.exists_of_mem_line hz hyz
  obtain ⟨q, qc, hq, hqc, hqa, hlabel⟩ := hF.exists_parent hd hya
  exact ⟨y, d, q, qc, hd, hq, hqc, hqa, hlabel, hya⟩

theorem exists_placement (h : t.Settled config T) {s : ScopedId} {placing : Placing}
    {path : CategoryPath} (hrow : T s = some placing) (hpath : path ∈ placing.paths) :
    ∃ y d q qc, t.skeleton y = some d ∧ d.parent = some q ∧ t.skeleton q = some qc ∧
      t.skeleton.address q = path.map .category ∧ d.scopedId = s ∧ d.isCategory = false ∧
      d = Skeleton.documentCore s placing d.parent := by
  obtain ⟨y, d, hd, hds, hya⟩ := h.shows.complete hrow hpath
  obtain ⟨q, qc, hq, hqc, hqa, -⟩ := h.sound.formed.exists_parent hd hya
  have hcat : d.isCategory = false := by
    rw [Core.isCategory, hds]
    exact (h.fits s placing hrow).1
  obtain ⟨placing', -, hrow', -, -, hcore⟩ := h.shows.documents hd hcat
  rw [hds, hrow] at hrow'
  obtain rfl := Option.some.inj hrow'
  rw [hds] at hcore
  exact ⟨y, d, q, qc, hd, hq, hqc, hqa, hds, hcat, hcore⟩

variable {U : Table} {x y : EntryId} {c d : Core} {place : Replay.Place} {v : Scalar}

theorem holds_of_led (h : t.Settled config T) (hy : t.skeleton y = some d)
    (hyx : d.parent = some x) (hv : d.key.valueIn place = some v)
    (hleads : d.isCategory = true → U.Leads (t.skeleton.address y))
    (hsame : d.isCategory = false → U d.scopedId = T d.scopedId) :
    U.Holds (t.skeleton.address x) place v := by
  have hF := h.sound.formed
  have haddress := hF.address_eq hy hyx
  rcases (hF.fits hy (hF.ne_root hy hyx)).valueIn_eq_some_iff.mp hv with
    ⟨step, hlabel, rfl, hstep⟩ | ⟨position, hcat, rfl, hslot⟩
  · obtain ⟨s, placing, path, hrow, hpath, hstart⟩ :=
      hleads (Core.isCategory_of_label hlabel)
    rw [haddress, hlabel] at hstart
    obtain ⟨above, rest, rfl, ha⟩ := Skeleton.prefix_documentAddress hstart
    rw [ha]
    exact .category hrow hpath hstep
  · obtain ⟨placing, path, hrow, hpath, hya, hcore⟩ := h.shows.documents hy hcat
    rw [haddress, Core.label_document hcat] at hya
    rw [(List.append_inj' hya rfl).1]
    rw [hcore] at hslot
    exact .document ((hsame hcat).trans hrow) hpath hslot

theorem holds_of_child (h : t.Settled config T) (hy : t.skeleton y = some d)
    (hyx : d.parent = some x) (hv : d.key.valueIn place = some v) :
    T.Holds (t.skeleton.address x) place v := by
  have hF := h.sound.formed
  refine h.holds_of_led hy hyx hv (fun _ => ?_) (fun _ => rfl)
  rcases (h.exists_address_iff _).mp ⟨y, d, hy, rfl⟩ with hnil | hleads
  · rw [hF.address_eq hy hyx] at hnil
    cases List.append_eq_nil_iff.mp hnil |>.2
  · exact hleads

theorem exists_child (h : t.Settled config T) (hx : t.skeleton x = some c)
    (hv : T.Holds (t.skeleton.address x) place v) :
    ∃ y d, t.skeleton y = some d ∧ d.parent = some x ∧ d.key.valueIn place = some v := by
  have hF := h.sound.formed
  generalize hA : t.skeleton.address x = A at hv
  cases hv with
  | category hrow hpath hv =>
    obtain ⟨y, d, q, qc, hd, hq, hqc, hqa, hlabel, -⟩ := h.exists_category hrow hpath
    obtain rfl := hF.address_injective hqc hx (hqa.trans hA.symm)
    have hfits := hF.fits hd (hF.ne_root hd hq)
    exact ⟨y, d, hd, hq, hfits.valueIn_eq_some_iff.mpr (Or.inl ⟨_, hlabel, rfl, hv⟩)⟩
  | document hrow hpath hv =>
    obtain ⟨y, d, q, qc, hd, hq, hqc, hqa, -, hcat, hcore⟩ := h.exists_placement hrow hpath
    obtain rfl := hF.address_injective hqc hx (hqa.trans hA.symm)
    have hfits := hF.fits hd (hF.ne_root hd hq)
    refine ⟨y, d, hd, hq, hfits.valueIn_eq_some_iff.mpr (Or.inr ⟨_, hcat, rfl, ?_⟩)⟩
    rw [hcore]
    exact hv

theorem mem_siblingValues_iff (h : t.Settled config T) (hx : t.skeleton x = some c) :
    v ∈ t.siblingValues x place ↔ T.Holds (t.skeleton.address x) place v := by
  obtain ⟨e, he, -⟩ := Tree.skeleton_eq_some_iff.mp hx
  rw [Tree.siblingValues, Tree.Sound.childrenOf_eq he, List.mem_filterMap]
  constructor
  · rintro ⟨⟨k, y⟩, hmem, hv⟩
    obtain ⟨d, hd, hdx, rfl⟩ := (h.sound.children he k y).mp hmem
    exact h.holds_of_child hd hdx hv
  · intro hv
    obtain ⟨y, d, hd, hdx, hv⟩ := h.exists_child hx hv
    exact ⟨(d.key, y), (h.sound.children he d.key y).mpr ⟨d, hd, hdx, rfl⟩, hv⟩

theorem siblingValues_of_none {x : EntryId} (hx : t.skeleton x = none) (place : Replay.Place) :
    t.siblingValues x place = [] := by
  rw [Tree.siblingValues, Tree.childrenOf, Tree.skeleton_eq_none_iff.mp hx]
  rfl

theorem exists_siblings (h : t.Settled config T) {A : List Label} {place : Replay.Place}
    {v : Scalar} (hv : T.Holds A place v) :
    ∃ x c, t.skeleton x = some c ∧ t.skeleton.address x = A :=
  (h.exists_address_iff A).mpr (Or.inr hv.leads)

theorem oneKind_iff (h : t.Settled config T) : t.OneKind ↔ T.OneKind := by
  constructor
  · intro ht A place v w hv hw
    obtain ⟨x, c, hx, rfl⟩ := h.exists_siblings hv
    exact ht x place v ((h.mem_siblingValues_iff hx).mpr hv) w ((h.mem_siblingValues_iff hx).mpr hw)
  · intro hT x place v hv w hw
    cases hx : t.skeleton x with
    | none =>
      rw [siblingValues_of_none hx] at hv
      cases hv
    | some c =>
      exact hT _ place v w ((h.mem_siblingValues_iff hx).mp hv) ((h.mem_siblingValues_iff hx).mp hw)

end Tree.Settled

end CategorizedIndex
