import CategorizedIndex.Proofs.Shape.Descent

/-! # What a passing check has seen

Where the check passes below an entry, each child names the entry and stands at its rank
under its own key, neighbours are in order, no category follows a document, and the
counters are those of the entries that were met: the children, and everything that the
lists of children lead to.
-/
namespace CategorizedIndex.Tree

open Relation

variable {t : Tree} {strict : Bool} {id x y rank fuel : Nat} {rest : List (SortKey × EntryId)}
  {w v : Walk} {visit : EntryId → Except Error Census} {e : Entry} {c : Census}

structure Walked (t : Tree) (strict : Bool) (id rank : Nat) (rest : List (SortKey × EntryId))
    (w : Walk) : Prop where
  children : ∀ i k y, rest[i]? = some (k, y) → ∃ child, t.get? y = some child ∧
    child.parent = some id ∧ child.rank = rank + i ∧ compareKeys strict child.key k = .ok .eq
  increasing : (w.previous.toList ++ rest.map (·.1)).IsChain fun a b =>
    compareKeys strict a b = .ok .lt
  seen : w.seenDocument = true → ∀ c ∈ rest, ¬ t.InSection true c.2
  sections : rest.Pairwise fun a b => t.InSection true b.2 → t.InSection true a.2

theorem walked_of_checkChildren (h : checkChildren t strict visit id rank rest w = .ok v) :
    Walked t strict id rank rest w := by
  induction rest generalizing rank w with
  | nil =>
    constructor
    case children => exact fun i k y hi => absurd hi (by simp)
    case increasing => cases w.previous <;> simp
    case seen => exact fun _ c hc => absurd hc List.not_mem_nil
    case sections => exact .nil
  | cons first rest ih =>
    obtain ⟨key, y⟩ := first
    obtain ⟨child, below, hy, hchild, hseen, -, hrest⟩ := checkChildren_cons_eq_ok_iff.mp h
    obtain ⟨hparent, hkey, hrank, hprevious⟩ := checkChild_eq_ok_iff.mp hchild
    have hwalked := ih hrest
    have hlater : child.isCategory = false → ∀ c ∈ rest, ¬ t.InSection true c.2 := by
      intro hcat
      refine hwalked.seen ?_
      simp [Walk.past, Entry.isDocument, hcat]
    constructor
    case children =>
      intro i k z hi
      cases i with
      | zero =>
        obtain ⟨rfl, rfl⟩ := Prod.mk.inj (Option.some.inj hi)
        exact ⟨child, hy, hparent, hrank, hkey⟩
      | succ i =>
        obtain ⟨d, hd, hdp, hdr, hdk⟩ := hwalked.children i k z hi
        exact ⟨d, hd, hdp, by omega, hdk⟩
    case increasing =>
      have hchain := hwalked.increasing
      cases hw : w.previous with
      | none => exact hchain
      | some p => exact List.isChain_cons_cons.mpr ⟨hprevious p hw, hchain⟩
    case seen =>
      intro hw c hc
      rcases List.mem_cons.mp hc with rfl | hc
      · rw [inSection_iff_of_get? hy]
        exact fun hcat => Bool.noConfusion (hw.symm.trans (hseen hcat))
      · exact hwalked.seen (by simp [Walk.past, hw]) c hc
    case sections =>
      refine List.pairwise_cons.mpr ⟨fun c hc hcat => ?_, hwalked.sections⟩
      rw [inSection_iff_of_get? hy]
      cases hchildcat : child.isCategory with
      | true => rfl
      | false => exact absurd hcat (hlater hchildcat c hc)

def censusOf (t : Tree) (l : List EntryId) : Census where
  categories := l.countP t.skeleton.isCategoryAt
  documents := l.countP fun y => !t.skeleton.isCategoryAt y
  reached := l.length

theorem census_of_checkChildren {lower : EntryId → List EntryId}
    (h : checkChildren t strict visit id rank rest w = .ok v)
    (hvisit : ∀ y c, visit y = .ok c → c = t.censusOf (lower y)) :
    let met := t.censusOf (rest.flatMap fun c => c.2 :: lower c.2)
    v.childCategories = w.childCategories + (rest.map (·.2)).countP t.skeleton.isCategoryAt ∧
      v.census.categories = w.census.categories + met.categories ∧
      v.census.documents = w.census.documents + met.documents ∧
      v.census.reached = w.census.reached + met.reached := by
  induction rest generalizing rank w with
  | nil =>
    obtain rfl := Except.ok.inj h
    exact ⟨rfl, rfl, rfl, rfl⟩
  | cons first rest ih =>
    obtain ⟨key, y⟩ := first
    obtain ⟨child, below, hy, -, -, hbelow, hrest⟩ := checkChildren_cons_eq_ok_iff.mp h
    obtain rfl := hvisit y below hbelow
    obtain ⟨hchildren, hcategories, hdocuments, hreached⟩ := ih hrest
    have hcat := isCategoryAt_eq hy
    simp only [Walk.past, censusOf, Entry.isDocument] at hchildren hcategories hdocuments hreached
    simp only [censusOf, List.map_cons, List.flatMap_cons, List.cons_append, List.countP_cons,
      List.countP_append, List.length_cons, List.length_append, hcat]
    cases hchild : child.isCategory with
    | true =>
      simp only [hchild, one, if_true, Bool.not_true, Bool.false_eq_true, if_false]
        at hchildren hcategories hdocuments ⊢
      omega
    | false =>
      simp only [hchild, one, if_true, Bool.not_false, Bool.false_eq_true, if_false]
        at hchildren hcategories hdocuments ⊢
      omega

def countersOf (t : Tree) (children lower : List EntryId) : Counters where
  children := children.length
  childCategories := children.countP t.skeleton.isCategoryAt
  childDocuments := children.countP fun y => !t.skeleton.isCategoryAt y
  descendants := lower.length
  descendantCategories := lower.countP t.skeleton.isCategoryAt
  descendantDocuments := lower.countP fun y => !t.skeleton.isCategoryAt y

structure Seen (t : Tree) (strict : Bool) (fuel : Nat) (x : EntryId) (e : Entry) : Prop where
  full : x ≠ root → e.isCategory = true → e.children.toList ≠ []
  leaves : e.isCategory = false → e.children.toList = []
  walked : Walked t strict x 1 e.children.toList ⟨none, false, 0, ⟨0, 0, 0⟩⟩
  below : ∀ y ∈ e.children.ids, t.checkBelow strict fuel y =
    .ok (t.censusOf (t.below fuel y))
  counters : e.counters = t.countersOf e.children.ids (t.below (fuel + 1) x)

theorem checkChildren_visits (h : checkChildren t strict visit id rank rest w = .ok v) :
    ∀ a ∈ rest, ∃ c, visit a.2 = .ok c := by
  induction rest generalizing rank w with
  | nil => exact fun a ha => absurd ha List.not_mem_nil
  | cons first rest ih =>
    obtain ⟨key, y⟩ := first
    obtain ⟨child, below, -, -, -, hbelow, hrest⟩ := checkChildren_cons_eq_ok_iff.mp h
    exact List.forall_mem_cons.mpr ⟨⟨below, hbelow⟩, ih hrest⟩

theorem length_eq_sections (t : Tree) (l : List EntryId) :
    l.length = l.countP t.skeleton.isCategoryAt +
      l.countP fun y => !t.skeleton.isCategoryAt y := by
  rw [List.length_eq_countP_add_countP t.skeleton.isCategoryAt]
  simp

/-- Counters that no check turned down are those of what was counted. -/
theorem counters_eq_countersOf {lower : List EntryId}
    (h : firstWrongCounter? e w = none)
    (hkids : w.childCategories = e.children.ids.countP t.skeleton.isCategoryAt)
    (hcensus : w.census = t.censusOf lower) :
    e.counters = t.countersOf e.children.ids lower := by
  obtain ⟨hc, hcc, hcd, hd, hdc, hdd⟩ := firstWrongCounter?_eq_none_iff.mp h
  have hsize : e.children.size = e.children.ids.length := (List.length_map _).symm
  have hids := t.length_eq_sections e.children.ids
  have hlower := t.length_eq_sections lower
  rw [hkids, hsize] at hcd
  rw [hcensus, censusOf] at hd hdc hdd
  calc e.counters = ⟨e.counters.children, e.counters.childCategories, e.counters.childDocuments,
        e.counters.descendants, e.counters.descendantCategories,
        e.counters.descendantDocuments⟩ := rfl
    _ = t.countersOf e.children.ids lower := by
      rw [countersOf, hc, hcc, hd, hdc, hdd, hkids, hsize, hlower, hcd]
      rw [show e.children.ids.length - e.children.ids.countP t.skeleton.isCategoryAt =
        e.children.ids.countP fun y => !t.skeleton.isCategoryAt y by omega]

/-- The check of an entry passes with the numbers of what the lists of children lead to. -/
theorem checkBelow_eq_ok_inv (h : t.checkBelow strict fuel x = .ok c) :
    ∃ f e, fuel = f + 1 ∧ t.get? x = some e ∧ Seen t strict f x e ∧
      c = t.censusOf (t.below fuel x) := by
  induction fuel generalizing x c with
  | zero => cases h
  | succ fuel ih =>
    cases hx : t.get? x with
    | none =>
      rw [checkBelow_succ_of_missing fuel hx] at h
      cases h
    | some e =>
      obtain ⟨hfull, hleaves, w, hw, hright, hc⟩ := (checkBelow_succ_eq_ok_iff hx).mp h
      have hcensus : ∀ y c, t.checkBelow strict fuel y = .ok c →
          c = t.censusOf (t.below fuel y) := by
        intro y c hy
        obtain ⟨-, -, -, -, -, hc⟩ := ih hy
        exact hc
      have hlower : (e.children.toList.flatMap fun a => a.2 :: t.below fuel a.2) =
          t.below (fuel + 1) x := by
        rw [below_succ, Sound.childrenOf_eq hx, Siblings.ids, List.flatMap_map]
      obtain ⟨hkids, hcategories, hdocuments, hreached⟩ := census_of_checkChildren hw hcensus
      simp only [hlower, censusOf, Nat.zero_add] at hkids hcategories hdocuments hreached
      have hmet : w.census = t.censusOf (t.below (fuel + 1) x) := by
        rw [censusOf, ← hcategories, ← hdocuments, ← hreached]
      refine ⟨fuel, e, rfl, rfl, ⟨hfull, hleaves, walked_of_checkChildren hw, fun y hy => ?_, ?_⟩,
        hc.symm.trans hmet⟩
      · obtain ⟨a, ha, rfl⟩ := List.mem_map.mp hy
        obtain ⟨c, hc⟩ := checkChildren_visits hw a ha
        rw [hc, hcensus _ _ hc]
      · exact counters_eq_countersOf hright hkids hmet

end CategorizedIndex.Tree
