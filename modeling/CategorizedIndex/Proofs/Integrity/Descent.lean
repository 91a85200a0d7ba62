import CategorizedIndex.Proofs.Integrity.Placements
import CategorizedIndex.Proofs.SiblingOrder
import CategorizedIndex.Proofs.Skeleton.Census
import Mathlib.Algebra.BigOperators.Group.Finset.Piecewise
import Mathlib.Algebra.GroupWithZero.Nat

/-! # The descent of the integrity check

The descent passes on every settled tree. The census that it takes below an entry adds
up to the counters there, since each child is visited once; siblings are strictly
comparable in a strict index because they have one kind of value at every place.
-/
namespace CategorizedIndex.Tree

variable {config : Config} {t : Tree} {T : Table} {strict : Bool} {id rank : Nat}
  {rest : List (SortKey × EntryId)} {w : Walk}

structure Orderly (t : Tree) (strict : Bool) (id rank : Nat) (rest : List (SortKey × EntryId))
    (w : Walk) : Prop where
  children : ∀ i k y, rest[i]? = some (k, y) → ∃ child, t.get? y = some child ∧
    child.parent = some id ∧ child.key = k ∧ child.rank = rank + i
  reflexive : ∀ c ∈ rest, compareKeys strict c.1 c.1 = .ok .eq
  increasing : (w.previous.toList ++ rest.map (·.1)).Pairwise fun a b =>
    compareKeys strict a b = .ok .lt
  seen : w.seenDocument = true → ∀ c ∈ rest, t.skeleton.isCategoryAt c.2 = false
  sections : rest.Pairwise fun a b =>
    t.skeleton.isCategoryAt b.2 = true → t.skeleton.isCategoryAt a.2 = true

theorem isCategoryAt_eq {y : EntryId} {e : Entry} (h : t.get? y = some e) :
    t.skeleton.isCategoryAt y = e.isCategory := by
  rw [Skeleton.isCategoryAt, skeleton_eq_some h]
  rfl

theorem Orderly.check_first {key : SortKey} {y : EntryId} {child : Entry}
    (h : Orderly t strict id rank ((key, y) :: rest) w) (hy : t.get? y = some child) :
    checkChild strict id rank w.previous key y child = .ok () ∧
      (child.isCategory = true → w.seenDocument = false) := by
  obtain ⟨child', hy', hparent, hkey, hrank⟩ := h.children 0 key y rfl
  obtain rfl := Option.some.inj (hy'.symm.trans hy)
  constructor
  · refine checkChild_eq_ok_iff.mpr ⟨hparent, ?_, hrank, fun p hp => ?_⟩
    · exact hkey ▸ h.reflexive _ List.mem_cons_self
    · have hpair := h.increasing
      rw [hp] at hpair
      exact (List.pairwise_cons.mp hpair).1 key List.mem_cons_self
  · intro hcat
    rw [← isCategoryAt_eq hy] at hcat
    refine Bool.eq_false_iff.mpr fun hw => ?_
    exact Bool.noConfusion (hcat.symm.trans (h.seen hw (key, y) List.mem_cons_self))

/-- Past the first child the walk is as orderly as before. -/
theorem Orderly.past {key : SortKey} {y : EntryId} {child : Entry} (below : Census)
    (h : Orderly t strict id rank ((key, y) :: rest) w) (hy : t.get? y = some child) :
    Orderly t strict id (rank + 1) rest (w.past key child below) := by
  obtain ⟨hfirst, hsections⟩ := List.pairwise_cons.mp h.sections
  constructor
  case children =>
    intro i k z hz
    obtain ⟨e, he, hep, hek, her⟩ := h.children (i + 1) k z hz
    exact ⟨e, he, hep, hek, by omega⟩
  case reflexive =>
    intro c hc
    exact h.reflexive c (List.mem_cons_of_mem _ hc)
  case increasing =>
    have hpair := h.increasing
    rw [List.map_cons] at hpair
    exact (List.pairwise_append.mp hpair).2.1
  case seen =>
    intro hdoc c hc
    rcases Bool.or_eq_true_iff.mp hdoc with hdoc | hdoc
    · exact h.seen hdoc c (List.mem_cons_of_mem _ hc)
    · refine Bool.eq_false_iff.mpr fun hctrue => ?_
      have hthis := hfirst c hc hctrue
      rw [isCategoryAt_eq hy] at hthis
      rw [Entry.isDocument, hthis] at hdoc
      cases hdoc
  case sections => exact hsections

/-- The walk succeeds and counts every child with what is below it. -/
theorem checkChildren_eq_ok {visit : EntryId → Except Error Census} {census : EntryId → Census}
    (h : Orderly t strict id rank rest w) (hvisit : ∀ c ∈ rest, visit c.2 = .ok (census c.2)) :
    ∃ v, checkChildren t strict visit id rank rest w = .ok v ∧
      v.childCategories = w.childCategories +
        (rest.map fun c => one (t.skeleton.isCategoryAt c.2)).sum ∧
      v.census.categories = w.census.categories + (rest.map fun c =>
        one (t.skeleton.isCategoryAt c.2) + (census c.2).categories).sum ∧
      v.census.documents = w.census.documents + (rest.map fun c =>
        one (!t.skeleton.isCategoryAt c.2) + (census c.2).documents).sum ∧
      v.census.reached = w.census.reached + (rest.map fun c => 1 + (census c.2).reached).sum := by
  induction rest generalizing rank w with
  | nil => exact ⟨w, rfl, rfl, rfl, rfl, rfl⟩
  | cons first rest ih =>
    obtain ⟨key, y⟩ := first
    obtain ⟨child, hy, -⟩ := h.children 0 key y rfl
    obtain ⟨hchild, hseen⟩ := h.check_first hy
    obtain ⟨v, hv, hcategories, hcc, hcd, hcr⟩ :=
      ih (h.past (census y) hy) fun c hc => hvisit c (List.mem_cons_of_mem _ hc)
    have hrun := checkChildren_cons_eq_ok_iff.mpr
      ⟨child, census y, hy, hchild, hseen, hvisit (key, y) List.mem_cons_self, hv⟩
    have hcat := isCategoryAt_eq hy
    have hdoc : child.isDocument = !t.skeleton.isCategoryAt y := by rw [hcat, Entry.isDocument]
    refine ⟨v, hrun, ?_, ?_, ?_, ?_⟩
    · simp only [hcategories, Walk.past, List.map_cons, List.sum_cons, hcat]
      omega
    · simp only [hcc, Walk.past, List.map_cons, List.sum_cons, hcat]
      omega
    · simp only [hcd, Walk.past, List.map_cons, List.sum_cons, hdoc]
      omega
    · simp only [hcr, Walk.past, List.map_cons, List.sum_cons]
      omega

theorem Settled.compareKeys_children (h : t.Settled config T) (hone : strict = true → T.OneKind)
    {e : Entry} (hid : t.get? id = some e) {a b : SortKey × EntryId}
    (ha : a ∈ e.children.toList) (hb : b ∈ e.children.toList) :
    compareKeys strict a.1 b.1 = .ok (a.1.cmp b.1) := by
  cases strict with
  | false => rfl
  | true => exact h.tryCmp_children (hone rfl) hid ha hb

/-- No category follows a document. -/
theorem Sound.sections (h : t.Sound config) {e : Entry} (hid : t.get? id = some e) :
    e.children.toList.Pairwise fun a b =>
      t.skeleton.isCategoryAt b.2 = true → t.skeleton.isCategoryAt a.2 = true := by
  refine List.Pairwise.imp_of_mem (fun {a b} ha hb hlt hcat => ?_) (h.sorted hid)
  obtain ⟨k, x⟩ := a
  obtain ⟨l, y⟩ := b
  obtain ⟨c, hx, hxp, rfl⟩ := (h.children hid k x).mp ha
  obtain ⟨d, hy, hyp, rfl⟩ := (h.children hid l y).mp hb
  have hc := h.formed.fits hx (h.formed.ne_root hx hxp)
  have hd := h.formed.fits hy (h.formed.ne_root hy hyp)
  rw [Skeleton.isCategoryAt, hx, Option.any_some]
  rw [Skeleton.isCategoryAt, hy, Option.any_some] at hcat
  exact hc.isCategory_of_cmp_lt hd hlt hcat

theorem Settled.orderly (h : t.Settled config T) (hone : strict = true → T.OneKind) {e : Entry}
    (hid : t.get? id = some e) :
    Orderly t strict id 1 e.children.toList ⟨none, false, 0, ⟨0, 0, 0⟩⟩ := by
  constructor
  case children =>
    intro i k y hi
    have hrank := h.rank_eq hid hi
    obtain ⟨c, hy, hp, hk⟩ := (h.sound.children hid k y).mp (List.mem_of_getElem? hi)
    obtain ⟨child, hchild, rfl⟩ := skeleton_eq_some_iff.mp hy
    rw [hchild, Option.map_some] at hrank
    exact ⟨child, hchild, hp, hk, by rw [Option.some.inj hrank, Nat.add_comm]⟩
  case reflexive =>
    intro c hc
    rw [h.compareKeys_children hone hid hc hc, SortKey.cmp_self]
  case increasing =>
    rw [Option.toList_none, List.nil_append, List.pairwise_map]
    refine List.Pairwise.imp_of_mem (fun {a b} ha hb hlt => ?_) (h.sound.sorted hid)
    rw [h.compareKeys_children hone hid ha hb, hlt]
  case seen =>
    intro hseen
    exact Bool.noConfusion hseen
  case sections => exact h.sound.sections hid

theorem Sound.sum_children (h : t.Sound config) {e : Entry} (hid : t.get? id = some e)
    (f : EntryId → Nat) :
    (e.children.toList.map fun c => f c.2).sum = ∑ y ∈ t.skeleton.kids t.nextEntry id, f y := by
  rw [← h.toFinset_ids hid, List.sum_toFinset f (h.nodup_ids hid), Siblings.ids, List.map_map]
  rfl

/-- What the check counts below an entry. -/
def census (t : Tree) (id : EntryId) : Census :=
  let c := t.skeleton.count t.nextEntry id
  ⟨c.descendantCategories, c.descendantDocuments, c.descendants⟩

theorem sum_one_categories (F : Skeleton) (s : Finset EntryId) :
    ∑ y ∈ s, one (F.isCategoryAt y) = (F.categoriesIn s).card := by
  rw [Skeleton.categoriesIn, Finset.card_filter]
  rfl

theorem Sound.sum_descendantCategories (h : t.Sound config) (id : EntryId) :
    ∑ y ∈ t.skeleton.kids t.nextEntry id,
      (one (t.skeleton.isCategoryAt y) + (t.census y).categories) =
      (t.census id).categories :=
  (h.formed.card_below_filter id fun x => t.skeleton.isCategoryAt x = true).symm

theorem Sound.sum_descendantDocuments (h : t.Sound config) (id : EntryId) :
    ∑ y ∈ t.skeleton.kids t.nextEntry id,
      (one (!t.skeleton.isCategoryAt y) + (t.census y).documents) =
      (t.census id).documents := by
  have hsum := h.formed.card_below_filter id fun x => t.skeleton.isCategoryAt x = false
  refine Eq.trans (Finset.sum_congr rfl fun y _ => ?_) hsum.symm
  cases t.skeleton.isCategoryAt y <;> rfl

theorem Sound.sum_descendants (h : t.Sound config) (id : EntryId) :
    ∑ y ∈ t.skeleton.kids t.nextEntry id, (1 + (t.census y).reached) = (t.census id).reached := by
  have hsum := h.formed.card_below_filter id fun _ => True
  simp only [Finset.filter_true, if_true] at hsum
  exact hsum.symm

theorem Sound.firstWrongCounter?_eq_none (h : t.Sound config) {e : Entry}
    (hid : t.get? id = some e) {v : Walk}
    (hchildren : v.childCategories = (t.skeleton.count t.nextEntry id).childCategories)
    (hcensus : v.census = t.census id) : firstWrongCounter? e v = none := by
  have hcounters := h.counters hid
  have hsize : e.children.size = (t.skeleton.count t.nextEntry id).children := by
    have hcard := List.toFinset_card_of_nodup (h.nodup_ids hid)
    rw [h.toFinset_ids hid, Siblings.ids, List.length_map] at hcard
    exact hcard.symm
  have hsplit := Skeleton.count_children t.skeleton t.nextEntry id
  have hbelow := Skeleton.count_descendants t.skeleton t.nextEntry id
  rw [firstWrongCounter?_eq_none_iff, hcounters, hsize, hchildren, hcensus]
  exact ⟨rfl, rfl, by omega, hbelow, rfl, rfl⟩

theorem Settled.children_ne_nil (h : t.Settled config T) {e : Entry} (hid : t.get? id = some e)
    (hr : id ≠ root) (hcat : e.isCategory = true) : e.children.toList ≠ [] := by
  intro hnil
  exact h.full id ((childless_iff h.sound hid).mpr ⟨hr, hcat, (Siblings.isEmpty_iff _).mpr hnil⟩)

theorem Settled.children_eq_nil (h : t.Settled config T) {e : Entry} (hid : t.get? id = some e)
    (hcat : e.isCategory = false) : e.children.toList = [] := by
  refine List.eq_nil_iff_forall_not_mem.mpr ?_
  rintro ⟨k, y⟩ hmem
  obtain ⟨c, hy, hp, -⟩ := (h.sound.children hid k y).mp hmem
  obtain ⟨qc, hqc, hqcat⟩ := h.sound.formed.parent_category hy hp
  rw [← Option.some.inj ((skeleton_eq_some hid).symm.trans hqc)] at hqcat
  exact Bool.noConfusion (hcat.symm.trans hqcat)

theorem Settled.checkBelow_eq_ok (h : t.Settled config T) (hone : strict = true → T.OneKind)
    {fuel : Nat} {e : Entry} (hid : t.get? id = some e)
    (hfuel : (t.skeleton.below t.nextEntry id).card < fuel) :
    t.checkBelow strict fuel id = .ok (t.census id) := by
  induction fuel generalizing id e with
  | zero => omega
  | succ fuel ih =>
    have hvisit : ∀ c ∈ e.children.toList, t.checkBelow strict fuel c.2 = .ok (t.census c.2) := by
      rintro ⟨k, y⟩ hmem
      obtain ⟨c, hy, hp, -⟩ := (h.sound.children hid k y).mp hmem
      obtain ⟨child, hchild, -⟩ := skeleton_eq_some_iff.mp hy
      refine ih hchild ?_
      have hsub : t.skeleton.within t.nextEntry y ⊆ t.skeleton.below t.nextEntry id := by
        rw [h.sound.formed.below_eq id]
        exact Finset.subset_biUnion_of_mem _ ((Skeleton.mem_kids h.sound.formed).mpr ⟨c, hy, hp⟩)
      have hcard := Finset.card_le_card hsub
      rw [Skeleton.within, Finset.card_insert_of_notMem h.sound.formed.not_mem_below_self] at hcard
      simp only
      omega
    obtain ⟨v, hv, hchildren, hcategories, hdocuments, hreached⟩ :=
      checkChildren_eq_ok (h.orderly hone hid) hvisit
    simp only [h.sound.sum_children hid fun y => one (t.skeleton.isCategoryAt y),
      h.sound.sum_children hid fun y =>
        one (t.skeleton.isCategoryAt y) + (t.census y).categories,
      h.sound.sum_children hid fun y =>
        one (!t.skeleton.isCategoryAt y) + (t.census y).documents,
      h.sound.sum_children hid fun y => 1 + (t.census y).reached,
      sum_one_categories, h.sound.sum_descendantCategories, h.sound.sum_descendantDocuments,
      h.sound.sum_descendants, Nat.zero_add] at hchildren hcategories hdocuments hreached
    have hcensus : v.census = t.census id := by
      cases hvc : v.census
      rw [hvc] at hcategories hdocuments hreached
      simp only at hcategories hdocuments hreached
      rw [hcategories, hdocuments, hreached]
    exact (checkBelow_succ_eq_ok_iff hid).mpr ⟨h.children_ne_nil hid, h.children_eq_nil hid, v, hv,
      h.sound.firstWrongCounter?_eq_none hid hchildren hcensus, hcensus⟩

end CategorizedIndex.Tree
