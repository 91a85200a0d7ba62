import CategorizedIndex.Proofs.Skeleton

/-! # Leaves that come and go

Entries are attached below others and taken away only when they are childless, so a
skeleton changes by one leaf at a time. The ways up of all other entries stay as they
were, and what is counted below an entry changes by one exactly on the way up from
the leaf.
-/
namespace CategorizedIndex.Skeleton

variable {config : Config} {F : Skeleton} {n i p : EntryId} {c pc : Core}

/-- The skeleton with one more entry. -/
def grow (F : Skeleton) (i : EntryId) (c : Core) : Skeleton :=
  fun x => if x = i then some c else F x

/-- The skeleton without an entry. -/
def without (F : Skeleton) (i : EntryId) : Skeleton := fun x => if x = i then none else F x

@[simp] theorem grow_self : F.grow i c i = some c := if_pos rfl

theorem grow_of_ne {x : EntryId} (h : x ≠ i) : F.grow i c x = F x := if_neg h

@[simp] theorem without_self : F.without i i = none := if_pos rfl

theorem without_of_ne {x : EntryId} (h : x ≠ i) : F.without i x = F x := if_neg h

theorem without_eq_some_iff {x : EntryId} {d : Core} :
    F.without i x = some d ↔ x ≠ i ∧ F x = some d := by
  unfold without
  by_cases h : x = i <;> simp [h]

theorem grow_without (h : F i = some c) : (F.without i).grow i c = F := by
  funext x
  by_cases hx : x = i
  · rw [hx, grow_self, h]
  · rw [grow_of_ne hx, without_of_ne hx]

/-- Entries directly below an entry. -/
def kids (F : Skeleton) (n id : EntryId) : Finset EntryId :=
  (Finset.range n).filter fun x => (F x).bind (·.parent) = some id

/-- Entries below an entry at any depth. -/
def below (F : Skeleton) (n id : EntryId) : Finset EntryId :=
  (Finset.range n).filter fun x => (F x).isSome ∧ x ≠ id ∧ id ∈ F.line x

def categoriesIn (F : Skeleton) (s : Finset EntryId) : Finset EntryId :=
  s.filter fun x => F.isCategoryAt x = true

def documentsIn (F : Skeleton) (s : Finset EntryId) : Finset EntryId :=
  s.filter fun x => F.isCategoryAt x = false

/-- What the counters of an entry have to say. -/
def count (F : Skeleton) (n id : EntryId) : Counters where
  children := (F.kids n id).card
  childCategories := (F.categoriesIn (F.kids n id)).card
  childDocuments := (F.documentsIn (F.kids n id)).card
  descendants := (F.below n id).card
  descendantCategories := (F.categoriesIn (F.below n id)).card
  descendantDocuments := (F.documentsIn (F.below n id)).card

/-- Handles of a scoped id, oldest first. -/
def placed (F : Skeleton) (n : EntryId) (s : ScopedId) : List EntryId :=
  (List.range n).filter fun x => (F x).any (·.scopedId == s)

theorem mem_kids {x id : EntryId} (h : F.WellFormed config n) :
    x ∈ F.kids n id ↔ ∃ c, F x = some c ∧ c.parent = some id := by
  rw [kids, Finset.mem_filter, Finset.mem_range, Option.bind_eq_some_iff]
  constructor
  · rintro ⟨-, hx⟩
    exact hx
  · rintro ⟨c, hx, hp⟩
    exact ⟨h.bounded hx, c, hx, hp⟩

theorem mem_below {x id : EntryId} (h : F.WellFormed config n) :
    x ∈ F.below n id ↔ (∃ c, F x = some c) ∧ x ≠ id ∧ id ∈ F.line x := by
  rw [below, Finset.mem_filter, Finset.mem_range, Option.isSome_iff_exists]
  constructor
  · rintro ⟨-, hx⟩
    exact hx
  · rintro ⟨⟨c, hx⟩, hne, hmem⟩
    exact ⟨h.bounded hx, ⟨c, hx⟩, hne, hmem⟩

theorem mem_placed {x : EntryId} {s : ScopedId} (h : F.WellFormed config n) :
    x ∈ F.placed n s ↔ ∃ c, F x = some c ∧ c.scopedId = s := by
  rw [placed, List.mem_filter, List.mem_range, Option.any_eq_true]
  simp only [beq_iff_eq]
  constructor
  · rintro ⟨-, hx⟩
    exact hx
  · rintro ⟨c, hx, hs⟩
    exact ⟨h.bounded hx, c, hx, hs⟩

theorem nodup_placed (F : Skeleton) (n : EntryId) (s : ScopedId) : (F.placed n s).Nodup :=
  List.nodup_range.filter _

namespace WellFormed

theorem mono (h : F.WellFormed config n) {m : EntryId} (hnm : n ≤ m) : F.WellFormed config m where
  bounded hid := (h.bounded hid).trans_le hnm
  root := h.root
  parent := h.parent
  fits := h.fits
  distinct := h.distinct

theorem not_mem_line (h : F.WellFormed config n) (hi : F i = none) {x : EntryId} {d : Core}
    (hx : F x = some d) : i ∉ F.line x := by
  intro hmem
  obtain ⟨ci, hci⟩ := h.exists_of_mem_line hx hmem
  rw [hi] at hci
  cases hci

theorem line_grow (h : F.WellFormed config n) (hi : F i = none) {x : EntryId} {d : Core}
    (hx : F x = some d) : (F.grow i c).line x = F.line x :=
  line_congr fun _ hy => grow_of_ne fun heq => h.not_mem_line hi hx (heq ▸ hy)

theorem line_grow_self (h : F.WellFormed config n) (hi : F i = none) (hp : c.parent = some p)
    (hpc : F p = some pc) (hlt : p < i) : (F.grow i c).line i = i :: F.line p := by
  rw [line_of_parent grow_self hp hlt, h.line_grow hi hpc]

/-- Only a fresh label may be added below an entry, and only below a category. -/
theorem grow (h : F.WellFormed config n) (hi : F i = none) (hin : i < n) (hlt : p < i)
    (hp : c.parent = some p) (hpc : F p = some pc) (hcat : pc.isCategory = true)
    (hfits : c.Fits config)
    (hnew : ∀ x d, F x = some d → d.parent = some p → d.label ≠ c.label) :
    (F.grow i c).WellFormed config n where
  bounded {id d} hid := by
    by_cases hx : id = i
    · exact hx ▸ hin
    · exact h.bounded ((grow_of_ne hx).symm.trans hid)
  root := by
    have hr : Tree.root ≠ i := (Nat.zero_le p).trans_lt hlt |>.ne
    rw [grow_of_ne hr, h.root]
  parent {id d} hid hr := by
    by_cases hx : id = i
    · subst hx
      rw [grow_self] at hid
      obtain rfl := Option.some.inj hid
      exact ⟨p, pc, hp, hlt, (grow_of_ne hlt.ne).trans hpc, hcat⟩
    · rw [grow_of_ne hx] at hid
      obtain ⟨q, qc, hq, hqlt, hqc, hqcat⟩ := h.parent hid hr
      have hqi : q ≠ i := by
        intro heq
        rw [heq, hi] at hqc
        cases hqc
      exact ⟨q, qc, hq, hqlt, (grow_of_ne hqi).trans hqc, hqcat⟩
  fits {id d} hid hr := by
    by_cases hx : id = i
    · subst hx
      rw [grow_self] at hid
      exact Option.some.inj hid ▸ hfits
    · exact h.fits ((grow_of_ne hx).symm.trans hid) hr
  distinct {a b ca cb} ha hb har hbr hpar hlab := by
    by_cases hai : a = i
    · by_cases hbi : b = i
      · exact hai.trans hbi.symm
      · rw [hai, grow_self] at ha
        rw [grow_of_ne hbi] at hb
        obtain rfl := Option.some.inj ha
        exact absurd hlab.symm (hnew b cb hb (hpar.symm.trans hp))
    · rw [grow_of_ne hai] at ha
      by_cases hbi : b = i
      · rw [hbi, grow_self] at hb
        obtain rfl := Option.some.inj hb
        exact absurd hlab (hnew a ca ha (hpar.trans hp))
      · rw [grow_of_ne hbi] at hb
        exact h.distinct ha hb har hbr hpar hlab

/-- An entry without children may go. -/
theorem without (h : F.WellFormed config n) (hr : i ≠ Tree.root)
    (hleaf : ∀ x d, F x = some d → d.parent ≠ some i) : (F.without i).WellFormed config n where
  bounded hid := h.bounded (without_eq_some_iff.mp hid).2
  root := by rw [without_of_ne hr.symm, h.root]
  parent {id d} hid hidr := by
    obtain ⟨hx, hid⟩ := without_eq_some_iff.mp hid
    obtain ⟨q, qc, hq, hqlt, hqc, hqcat⟩ := h.parent hid hidr
    refine ⟨q, qc, hq, hqlt, without_eq_some_iff.mpr ⟨fun heq => ?_, hqc⟩, hqcat⟩
    exact hleaf id d hid (heq ▸ hq)
  fits hid hidr := h.fits (without_eq_some_iff.mp hid).2 hidr
  distinct ha hb := h.distinct (without_eq_some_iff.mp ha).2 (without_eq_some_iff.mp hb).2

end WellFormed

theorem kids_grow (hi : F i = none) (hin : i < n) (hp : c.parent = some p) (x : EntryId) :
    (F.grow i c).kids n x = if x = p then insert i (F.kids n x) else F.kids n x := by
  ext y
  simp only [kids, Finset.mem_filter, Finset.mem_range]
  by_cases hy : y = i
  · subst hy
    by_cases hx : x = p
    · simp [hx, hp, hin]
    · simp [hx, hp, hi, Ne.symm hx]
  · by_cases hx : x = p <;> simp [hx, hy, grow_of_ne hy]

theorem below_grow (h : F.WellFormed config n) (hi : F i = none) (hin : i < n) (hlt : p < i)
    (hp : c.parent = some p) (hpc : F p = some pc) {x : EntryId} (hx : x ≠ i) :
    (F.grow i c).below n x = if x ∈ F.line p then insert i (F.below n x) else F.below n x := by
  ext y
  simp only [below, Finset.mem_filter, Finset.mem_range]
  by_cases hy : y = i
  · subst hy
    rw [h.line_grow_self hi hp hpc hlt]
    by_cases hmem : x ∈ F.line p
    · simp [hmem, hin, Ne.symm hx]
    · simp [hmem, hx, hi]
  · have hiff : (y < n ∧ (F.grow i c y).isSome ∧ y ≠ x ∧ x ∈ (F.grow i c).line y) ↔
        (y < n ∧ (F y).isSome ∧ y ≠ x ∧ x ∈ F.line y) := by
      rw [grow_of_ne hy]
      cases hFy : F y with
      | none => simp
      | some d => rw [h.line_grow hi hFy]
    rw [hiff]
    split <;> simp [hy]

theorem kids_fresh (hi : F i = none) (x : EntryId) : i ∉ F.kids n x := by simp [kids, hi]

theorem below_fresh (hi : F i = none) (x : EntryId) : i ∉ F.below n x := by simp [below, hi]

theorem isCategoryAt_grow_of_ne {x : EntryId} (hx : x ≠ i) :
    (F.grow i c).isCategoryAt x = F.isCategoryAt x := by
  rw [isCategoryAt, isCategoryAt, grow_of_ne hx]

theorem categoriesIn_grow {s : Finset EntryId} (hs : i ∉ s) :
    (F.grow i c).categoriesIn s = F.categoriesIn s :=
  Finset.filter_congr fun x hx => by
    have hne : x ≠ i := fun heq => hs (heq ▸ hx)
    rw [isCategoryAt_grow_of_ne hne]

theorem documentsIn_grow {s : Finset EntryId} (hs : i ∉ s) :
    (F.grow i c).documentsIn s = F.documentsIn s :=
  Finset.filter_congr fun x hx => by
    have hne : x ≠ i := fun heq => hs (heq ▸ hx)
    rw [isCategoryAt_grow_of_ne hne]

theorem card_categoriesIn_insert {s : Finset EntryId} (hs : i ∉ s) :
    ((F.grow i c).categoriesIn (insert i s)).card =
      (F.categoriesIn s).card + if c.isCategory then 1 else 0 := by
  have hnot : i ∉ F.categoriesIn s := fun hmem => hs (Finset.mem_of_mem_filter i hmem)
  rw [← categoriesIn_grow (c := c) hs] at hnot ⊢
  unfold categoriesIn at hnot ⊢
  rw [Finset.filter_insert, isCategoryAt, grow_self, Option.any_some]
  cases c.isCategory with
  | true => simp [Finset.card_insert_of_notMem hnot]
  | false => simp

theorem card_documentsIn_insert {s : Finset EntryId} (hs : i ∉ s) :
    ((F.grow i c).documentsIn (insert i s)).card =
      (F.documentsIn s).card + if c.isCategory then 0 else 1 := by
  have hnot : i ∉ F.documentsIn s := fun hmem => hs (Finset.mem_of_mem_filter i hmem)
  rw [← documentsIn_grow (c := c) hs] at hnot ⊢
  unfold documentsIn at hnot ⊢
  rw [Finset.filter_insert, isCategoryAt, grow_self, Option.any_some]
  cases c.isCategory with
  | true => simp
  | false => simp [Finset.card_insert_of_notMem hnot]

theorem count_grow (h : F.WellFormed config n) (hi : F i = none) (hin : i < n) (hlt : p < i)
    (hp : c.parent = some p) (hpc : F p = some pc) {x : EntryId} (hx : x ≠ i) :
    (F.grow i c).count n x =
      let linked := if x = p then (F.count n x).childAttached c.isCategory else F.count n x
      if x ∈ F.line p then linked.descendantAttached c.isCategory else linked := by
  have hk := kids_fresh (n := n) hi x
  have hb := below_fresh (n := n) hi x
  simp only [count, kids_grow hi hin hp, below_grow h hi hin hlt hp hpc hx]
  by_cases hxp : x = p
  · subst hxp
    have hmem : x ∈ F.line x := self_mem_line
    simp only [hmem, if_true, card_categoriesIn_insert hk, card_categoriesIn_insert hb,
      card_documentsIn_insert hk, card_documentsIn_insert hb, Finset.card_insert_of_notMem hk,
      Finset.card_insert_of_notMem hb]
    cases c.isCategory <;> rfl
  · by_cases hmem : x ∈ F.line p
    · simp only [hxp, hmem, if_true, if_false, categoriesIn_grow hk, documentsIn_grow hk,
        card_categoriesIn_insert hb, card_documentsIn_insert hb, Finset.card_insert_of_notMem hb]
      cases c.isCategory <;> rfl
    · simp only [hxp, hmem, if_false, categoriesIn_grow hk, documentsIn_grow hk,
        categoriesIn_grow hb, documentsIn_grow hb]

theorem count_eq_none {id : EntryId} (hk : F.kids n id = ∅) (hb : F.below n id = ∅) :
    F.count n id = .none := by
  simp [count, hk, hb, categoriesIn, documentsIn, Counters.none]

theorem count_grow_self (h : F.WellFormed config n) (hi : F i = none) (hin : i < n) (hlt : p < i)
    (hp : c.parent = some p) : (F.grow i c).count n i = .none := by
  refine count_eq_none ?_ ?_
  · rw [kids_grow hi hin hp, if_neg hlt.ne']
    refine Finset.eq_empty_of_forall_notMem fun x hx => ?_
    obtain ⟨d, hd, hdi⟩ := (mem_kids h).mp hx
    obtain ⟨qc, hqc, -⟩ := h.parent_category hd hdi
    rw [hi] at hqc
    cases hqc
  · refine Finset.eq_empty_of_forall_notMem fun x hx => ?_
    simp only [below, Finset.mem_filter] at hx
    obtain ⟨-, hsome, hne, hmem⟩ := hx
    rw [grow_of_ne hne, Option.isSome_iff_exists] at hsome
    obtain ⟨d, hd⟩ := hsome
    rw [h.line_grow hi hd] at hmem
    exact h.not_mem_line hi hd hmem

theorem count_succ (h : F.WellFormed config n) (id : EntryId) :
    F.count (n + 1) id = F.count n id := by
  have hn : F n = none := by
    cases hFn : F n with
    | none => rfl
    | some c => exact absurd (h.bounded hFn) (lt_irrefl n)
  have hk : F.kids (n + 1) id = F.kids n id := by
    simp [kids, Finset.range_add_one, Finset.filter_insert, hn]
  have hb : F.below (n + 1) id = F.below n id := by
    simp [below, Finset.range_add_one, Finset.filter_insert, hn]
  simp only [count, hk, hb]

theorem placed_grow (F : Skeleton) (n : EntryId) (c : Core) (s : ScopedId) :
    (F.grow n c).placed (n + 1) s = F.placed n s ++ if c.scopedId = s then [n] else [] := by
  have hold : ∀ x ∈ List.range n, (F.grow n c x).any (·.scopedId == s) =
      (F x).any (·.scopedId == s) := by
    intro x hx
    rw [grow_of_ne (List.mem_range.mp hx).ne]
  rw [placed, List.range_succ, List.filter_append, List.filter_congr hold, placed]
  congr 1
  by_cases hs : c.scopedId = s <;> simp [hs]

theorem placed_without (F : Skeleton) (n i : EntryId) (s : ScopedId) :
    (F.without i).placed n s = (F.placed n s).filter (· != i) := by
  rw [placed, placed, List.filter_filter]
  refine List.filter_congr fun x _ => ?_
  by_cases hx : x = i
  · simp [hx]
  · simp [hx, without_of_ne hx]

end CategorizedIndex.Skeleton
