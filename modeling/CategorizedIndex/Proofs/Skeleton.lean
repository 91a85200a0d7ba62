import CategorizedIndex.Proofs.Core
import Mathlib.Data.Finset.Card
import Mathlib.Data.Finset.Image

/-! # Skeletons

A tree seen through the cores of its entries is its skeleton; lists of children, ranks,
counters and placements only repeat what the skeleton says.

A parent is always older than its children, so the way up from an entry ends at the
root. The labels met on it are the address of the entry, and no two entries share one.
-/
namespace CategorizedIndex

/-- The core of every entry, by handle. -/
abbrev Skeleton := EntryId → Option Core

namespace Skeleton

variable {F G : Skeleton} {n a b id p : EntryId} {c : Core}

def isCategoryAt (F : Skeleton) (id : EntryId) : Bool := (F id).any (·.isCategory)

/-- The entry itself and everything above it, up to the root. -/
def line (F : Skeleton) (id : EntryId) : List EntryId :=
  id :: match (F id).bind (·.parent) with
    | some p => if _h : p < id then line F p else []
    | none => []
termination_by id

/-- The labels from the top level down to the entry; the root has none. -/
def address (F : Skeleton) (id : EntryId) : List Label :=
  (F.line id).reverse.tail.filterMap fun x => (F x).map (·.label)

theorem line_of_parent (hid : F id = some c) (hp : c.parent = some p) (hlt : p < id) :
    F.line id = id :: F.line p := by
  rw [line, hid]
  simp [hp, hlt]

theorem line_of_no_parent (h : (F id).bind (·.parent) = none) : F.line id = [id] := by
  rw [line, h]

theorem self_mem_line : id ∈ F.line id := by
  unfold line
  exact List.mem_cons_self

theorem line_ne_nil : F.line id ≠ [] := List.ne_nil_of_mem self_mem_line

theorem line_congr (h : ∀ x ∈ F.line id, G x = F x) : G.line id = F.line id := by
  induction id using Nat.strong_induction_on with
  | _ id ih =>
    have hid : G id = F id := h id self_mem_line
    rw [line, line, hid]
    cases hp : (F id).bind (·.parent) with
    | none => rfl
    | some p =>
      by_cases hlt : p < id
      · have hline : F.line id = id :: F.line p := by
          rw [line, hp]
          simp [hlt]
        have hrest : G.line p = F.line p :=
          ih p hlt fun x hx => h x (by rw [hline]; exact List.mem_cons_of_mem _ hx)
        simp [hlt, hrest]
      · simp [hlt]

theorem address_congr (h : ∀ x ∈ F.line id, G x = F x) : G.address id = F.address id := by
  rw [address, address, line_congr h]
  refine List.filterMap_congr fun x hx => ?_
  rw [h x (List.mem_reverse.mp (List.mem_of_mem_tail hx))]

theorem mem_line_le (h : a ∈ F.line id) : a ≤ id := by
  induction id using Nat.strong_induction_on with
  | _ id ih =>
    unfold line at h
    rcases List.mem_cons.mp h with rfl | h
    · exact le_rfl
    · cases hp : (F id).bind (·.parent) with
      | none => simp [hp] at h
      | some p =>
        by_cases hlt : p < id
        · simp only [hp, hlt, dite_true] at h
          exact (ih p hlt h).trans hlt.le
        · simp [hp, hlt] at h

inductive Reached (F : Skeleton) : EntryId → Prop
  | root : Reached F Tree.root
  | child {id : EntryId} {c : Core} {p : EntryId} (hid : F id = some c) (hp : c.parent = some p)
    (above : Reached F p) : Reached F id

/-- Every entry but the root hangs under a category that is older, is built as the
configuration says, and differs from its siblings by its label. -/
structure WellFormed (config : Config) (n : EntryId) (F : Skeleton) : Prop where
  bounded : ∀ {id c}, F id = some c → id < n
  root : F Tree.root = some Core.root
  parent : ∀ {id c}, F id = some c → id ≠ Tree.root →
    ∃ p pc, c.parent = some p ∧ p < id ∧ F p = some pc ∧ pc.isCategory = true
  fits : ∀ {id c}, F id = some c → id ≠ Tree.root → c.Fits config
  distinct : ∀ {a b ca cb}, F a = some ca → F b = some cb → a ≠ Tree.root → b ≠ Tree.root →
    ca.parent = cb.parent → ca.label = cb.label → a = b

namespace WellFormed

variable {config : Config} {n : EntryId} {F : Skeleton}

theorem root_iff (h : F.WellFormed config n) {id : EntryId} {c : Core} (hid : F id = some c) :
    id = Tree.root ↔ c.parent = none := by
  constructor
  · rintro rfl
    rw [h.root] at hid
    rw [← Option.some.inj hid]
    rfl
  · intro hc
    refine Classical.byContradiction fun hne => ?_
    obtain ⟨p, -, hp, -⟩ := h.parent hid hne
    rw [hc] at hp
    cases hp

theorem ne_root (h : F.WellFormed config n) {id p : EntryId} {c : Core} (hid : F id = some c)
    (hp : c.parent = some p) : id ≠ Tree.root := by
  intro hr
  rw [(h.root_iff hid).mp hr] at hp
  cases hp

theorem ne_root_of_document (h : F.WellFormed config n) {id : EntryId} {c : Core}
    (hid : F id = some c) (hcat : c.isCategory = false) : id ≠ Tree.root := by
  intro hr
  rw [hr, h.root] at hid
  rw [← Option.some.inj hid, Core.isCategory_root] at hcat
  cases hcat

theorem parent_lt (h : F.WellFormed config n) {id p : EntryId} {c : Core} (hid : F id = some c)
    (hp : c.parent = some p) : p < id := by
  obtain ⟨q, -, hq, hlt, -⟩ := h.parent hid (h.ne_root hid hp)
  rw [hp] at hq
  exact Option.some.inj hq ▸ hlt

/-- Every parent is a category of the skeleton. -/
theorem parent_category (h : F.WellFormed config n) {id p : EntryId} {c : Core}
    (hid : F id = some c) (hp : c.parent = some p) :
    ∃ pc, F p = some pc ∧ pc.isCategory = true := by
  obtain ⟨q, pc, hq, -, hpc, hcat⟩ := h.parent hid (h.ne_root hid hp)
  obtain rfl := Option.some.inj (hp.symm.trans hq)
  exact ⟨pc, hpc, hcat⟩

theorem line_root (h : F.WellFormed config n) : F.line Tree.root = [Tree.root] :=
  line_of_no_parent (by rw [h.root]; rfl)

theorem line_eq (h : F.WellFormed config n) {id p : EntryId} {c : Core} (hid : F id = some c)
    (hp : c.parent = some p) : F.line id = id :: F.line p :=
  line_of_parent hid hp (h.parent_lt hid hp)

theorem reached (h : F.WellFormed config n) {id : EntryId} {c : Core} (hid : F id = some c) :
    F.Reached id := by
  induction id using Nat.strong_induction_on generalizing c with
  | _ id ih =>
    by_cases hr : id = Tree.root
    · exact hr ▸ .root
    · obtain ⟨p, pc, hp, hlt, hpc, -⟩ := h.parent hid hr
      exact .child hid hp (ih p hlt hpc)

theorem exists_of_mem_line (h : F.WellFormed config n) {a id : EntryId} {c : Core}
    (hid : F id = some c) (ha : a ∈ F.line id) : ∃ ca, F a = some ca := by
  have hr := h.reached hid
  clear hid
  induction hr with
  | root =>
    rw [h.line_root, List.mem_singleton] at ha
    exact ⟨_, ha ▸ h.root⟩
  | child hid hp _ ih =>
    rw [h.line_eq hid hp] at ha
    rcases List.mem_cons.mp ha with rfl | ha
    · exact ⟨_, hid⟩
    · exact ih ha

theorem root_mem_line (h : F.WellFormed config n) {id : EntryId} {c : Core}
    (hid : F id = some c) : Tree.root ∈ F.line id := by
  have hr := h.reached hid
  clear hid
  induction hr with
  | root => exact self_mem_line
  | child hid hp _ ih =>
    rw [h.line_eq hid hp]
    exact List.mem_cons_of_mem _ ih

theorem mem_line_trans (h : F.WellFormed config n) {a b id : EntryId} {c : Core}
    (hid : F id = some c) (hb : b ∈ F.line id) (ha : a ∈ F.line b) : a ∈ F.line id := by
  have hr := h.reached hid
  clear hid
  induction hr with
  | root =>
    rw [h.line_root, List.mem_singleton] at hb
    exact hb ▸ ha
  | child hid hp _ ih =>
    rw [h.line_eq hid hp] at hb
    rcases List.mem_cons.mp hb with rfl | hb
    · exact ha
    · rw [h.line_eq hid hp]
      exact List.mem_cons_of_mem _ (ih hb)

theorem nodup_line (h : F.WellFormed config n) {id : EntryId} {c : Core}
    (hid : F id = some c) : (F.line id).Nodup := by
  have hr := h.reached hid
  clear hid
  induction hr with
  | root =>
    rw [h.line_root]
    exact List.nodup_singleton _
  | child hid hp _ ih =>
    rw [h.line_eq hid hp]
    refine List.nodup_cons.mpr ⟨fun hmem => ?_, ih⟩
    exact absurd (mem_line_le hmem) (Nat.not_le.mpr (h.parent_lt hid hp))

/-- Below an entry stands its child on the way. -/
theorem exists_child_of_mem_line (h : F.WellFormed config n) {a id : EntryId} {c : Core}
    (hid : F id = some c) (ha : a ∈ F.line id) (hne : a ≠ id) :
    ∃ x cx, x ∈ F.line id ∧ F x = some cx ∧ cx.parent = some a := by
  have hr := h.reached hid
  clear hid
  induction hr with
  | root =>
    rw [h.line_root, List.mem_singleton] at ha
    exact absurd ha hne
  | @child id c p hid hp _ ih =>
    rw [h.line_eq hid hp] at ha ⊢
    rcases List.mem_cons.mp ha with rfl | ha
    · exact absurd rfl hne
    · by_cases hap : a = p
      · exact ⟨id, c, List.mem_cons_self, hid, hap ▸ hp⟩
      · obtain ⟨x, cx, hx, hcx, hxp⟩ := ih ha hap
        exact ⟨x, cx, List.mem_cons_of_mem _ hx, hcx, hxp⟩

theorem address_root (h : F.WellFormed config n) : F.address Tree.root = [] := by
  rw [address, h.line_root]
  rfl

theorem address_eq (h : F.WellFormed config n) {id p : EntryId} {c : Core} (hid : F id = some c)
    (hp : c.parent = some p) : F.address id = F.address p ++ [c.label] := by
  have hne : (F.line p).reverse ≠ [] := by simpa using line_ne_nil
  rw [address, h.line_eq hid hp, List.reverse_cons, List.tail_append_of_ne_nil hne,
    List.filterMap_append, address]
  simp [hid]

theorem address_eq_nil_iff (h : F.WellFormed config n) {id : EntryId} {c : Core}
    (hid : F id = some c) : F.address id = [] ↔ id = Tree.root := by
  constructor
  · intro ha
    refine Classical.byContradiction fun hr => ?_
    obtain ⟨p, -, hp, -⟩ := h.parent hid hr
    rw [h.address_eq hid hp] at ha
    simp at ha
  · rintro rfl
    exact h.address_root

/-- An address leads to one entry. -/
theorem address_injective (h : F.WellFormed config n) {a b : EntryId} {ca cb : Core}
    (ha : F a = some ca) (hb : F b = some cb) (hab : F.address a = F.address b) : a = b := by
  have hr := h.reached ha
  clear ha
  induction hr generalizing b cb with
  | root =>
    rw [h.address_root] at hab
    exact ((h.address_eq_nil_iff hb).mp hab.symm).symm
  | @child a ca p ha hp _ ih =>
    have hbr : b ≠ Tree.root := by
      rintro rfl
      rw [h.address_root, h.address_eq ha hp] at hab
      simp at hab
    obtain ⟨q, cq, hq, -, hcq, -⟩ := h.parent hb hbr
    rw [h.address_eq ha hp, h.address_eq hb hq] at hab
    obtain ⟨hpq, hl⟩ := List.append_inj' hab rfl
    obtain rfl := ih hcq hpq
    exact h.distinct ha hb (h.ne_root ha hp) hbr (hp.trans hq.symm) (List.cons.inj hl).1

theorem address_prefix (h : F.WellFormed config n) {a id : EntryId} {c : Core}
    (hid : F id = some c) (ha : a ∈ F.line id) : F.address a <+: F.address id := by
  have hr := h.reached hid
  clear hid
  induction hr with
  | root =>
    rw [h.line_root, List.mem_singleton] at ha
    rw [ha]
  | child hid hp _ ih =>
    rw [h.line_eq hid hp] at ha
    rcases List.mem_cons.mp ha with rfl | ha
    · exact List.prefix_rfl
    · rw [h.address_eq hid hp]
      exact (ih ha).trans (List.prefix_append _ _)

theorem exists_of_prefix (h : F.WellFormed config n) {id : EntryId} {c : Core}
    (hid : F id = some c) {start : List Label} (hs : start <+: F.address id) :
    ∃ a ∈ F.line id, F.address a = start := by
  have hr := h.reached hid
  clear hid
  induction hr with
  | root =>
    rw [h.address_root, List.prefix_nil] at hs
    exact ⟨_, self_mem_line, hs ▸ h.address_root⟩
  | @child id c p hid hp _ ih =>
    rw [h.address_eq hid hp, List.prefix_concat_iff] at hs
    rcases hs with rfl | hs
    · exact ⟨id, self_mem_line, h.address_eq hid hp⟩
    · obtain ⟨a, ha, hstart⟩ := ih hs
      refine ⟨a, ?_, hstart⟩
      rw [h.line_eq hid hp]
      exact List.mem_cons_of_mem _ ha

theorem mem_line_iff_prefix (h : F.WellFormed config n) {a id : EntryId} {ca c : Core}
    (ha : F a = some ca) (hid : F id = some c) :
    a ∈ F.line id ↔ F.address a <+: F.address id := by
  refine ⟨h.address_prefix hid, fun hp => ?_⟩
  obtain ⟨b, hb, hab⟩ := h.exists_of_prefix hid hp
  obtain ⟨cb, hcb⟩ := h.exists_of_mem_line hid hb
  exact h.address_injective hcb ha hab ▸ hb

end WellFormed

/-- Every entry of one skeleton is one of the other, with the same core. -/
def KeptIn (F G : Skeleton) : Prop := ∀ x c, F x = some c → G x = some c

namespace KeptIn

variable {config : Config} {F G H : Skeleton} {n x : EntryId} {c : Core}

theorem refl (F : Skeleton) : F.KeptIn F := fun _ _ => id

theorem trans (h : F.KeptIn G) (h' : G.KeptIn H) : F.KeptIn H :=
  fun x c hx => h' x c (h x c hx)

theorem line_eq (h : F.KeptIn G) (hF : F.WellFormed config n) (hx : F x = some c) :
    G.line x = F.line x :=
  line_congr fun y hy => by
    obtain ⟨d, hd⟩ := hF.exists_of_mem_line hx hy
    rw [hd, h y d hd]

theorem address_eq (h : F.KeptIn G) (hF : F.WellFormed config n) (hx : F x = some c) :
    G.address x = F.address x :=
  address_congr fun y hy => by
    obtain ⟨d, hd⟩ := hF.exists_of_mem_line hx hy
    rw [hd, h y d hd]

end KeptIn

end Skeleton

end CategorizedIndex
