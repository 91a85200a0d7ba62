import CategorizedIndex.Proofs.Commit.Books
import CategorizedIndex.Proofs.Tree.Groups
import CategorizedIndex.Proofs.Tree.Placements

/-! # Balancing a commit

The books of a commit name entries by their handles. Documents come and go with the
placements of their ids, categories with their chains, and the counters of the root hold what
was there together with what came and without what went.
-/
namespace CategorizedIndex.Tree

variable {config : Config} {t u : Tree} {stats : Stats} {k : Nat} {x p : EntryId} {e : Entry}

/-- The chains of the categories below the root. -/
def chains (t : Tree) : Finset CategoryPath :=
  (t.arena.keys.toFinset.filter fun x =>
    x ≠ root ∧ (t.get? x).any (·.isCategory) = true).image t.groups

/-- Children of an entry under handles that were given since. -/
def newChildren (t u : Tree) (p : EntryId) : Finset EntryId :=
  (u.childrenOf p).ids.toFinset.filter (t.nextEntry ≤ ·)

/-- Former children of an entry that are gone. -/
def lostChildren (t u : Tree) (p : EntryId) : Finset EntryId :=
  (t.childrenOf p).ids.toFinset.filter (· ∉ u.arena)

theorem not_mem_arena : x ∉ t.arena ↔ t.skeleton x = none := by
  rw [mem_arena, skeleton_eq_none_iff, not_exists, Option.eq_none_iff_forall_ne_some]

theorem mem_chains {chain : CategoryPath} : chain ∈ t.chains ↔
    ∃ x e, t.get? x = some e ∧ e.isCategory = true ∧ x ≠ root ∧ t.groups x = chain := by
  rw [chains, Finset.mem_image]
  refine exists_congr fun x => ?_
  rw [Finset.mem_filter, List.mem_toFinset, mem_keys_iff,
    Option.any_eq_true]
  constructor
  · rintro ⟨⟨-, hr, e, he, hcat⟩, hchain⟩
    exact ⟨e, he, hcat, hr, hchain⟩
  · rintro ⟨e, he, hcat, hr, hchain⟩
    exact ⟨⟨⟨e, he⟩, hr, e, he, hcat⟩, hchain⟩

namespace Sound

theorem mem_ofKind_iff_entry (h : t.Sound config) {isCategory : Bool} :
    x ∈ t.ofKind isCategory ↔ ∃ e, t.get? x = some e ∧ e.isCategory = isCategory := by
  rw [h.mem_ofKind]
  constructor
  · rintro ⟨c, hc, hkind⟩
    obtain ⟨e, he, rfl⟩ := skeleton_eq_some_iff.mp hc
    exact ⟨e, he, hkind⟩
  · rintro ⟨e, he, hkind⟩
    exact ⟨e.core, skeleton_eq_some he, hkind⟩

theorem toFinset_childrenOf (h : t.Sound config) (p : EntryId) :
    (t.childrenOf p).ids.toFinset = t.kids p := by
  cases hp : t.get? p with
  | some e =>
    rw [childrenOf_eq hp]
    exact h.toFinset_ids hp
  | none =>
    have hkids : t.kids p = ∅ := h.formed.kids_eq_empty (skeleton_eq_none_iff.mpr hp)
    rw [hkids, childrenOf, hp]
    rfl

theorem card_documents (h : t.Sound config) (hroot : t.get? root = some e) :
    e.counters.descendantDocuments = (t.ofKind false).card := by
  have hset : t.skeleton.documentsIn (t.skeleton.below t.nextEntry root) = t.ofKind false := by
    ext x
    rw [h.mem_ofKind, Skeleton.documentsIn, Finset.mem_filter, Skeleton.mem_below h.formed,
      Skeleton.isCategoryAt]
    constructor
    · rintro ⟨⟨⟨c, hx⟩, -⟩, hdoc⟩
      rw [hx] at hdoc
      exact ⟨c, hx, hdoc⟩
    · rintro ⟨c, hx, hdoc⟩
      refine ⟨⟨⟨c, hx⟩, h.formed.ne_root_of_document hx hdoc, h.formed.root_mem_line hx⟩, ?_⟩
      rw [hx]
      exact hdoc
  rw [h.counters hroot, ← hset]
  rfl

theorem card_categories (h : t.Sound config) (hroot : t.get? root = some e) :
    e.counters.descendantCategories + 1 = (t.ofKind true).card := by
  have hset : t.skeleton.categoriesIn (t.skeleton.below t.nextEntry root) =
      (t.ofKind true).erase root := by
    ext x
    rw [Finset.mem_erase, h.mem_ofKind, Skeleton.categoriesIn, Finset.mem_filter,
      Skeleton.mem_below h.formed, Skeleton.isCategoryAt_eq_true]
    constructor
    · rintro ⟨⟨-, hne, -⟩, hcat⟩
      exact ⟨hne, hcat⟩
    · rintro ⟨hne, c, hx, hcat⟩
      exact ⟨⟨⟨c, hx⟩, hne, h.formed.root_mem_line hx⟩, c, hx, hcat⟩
  have hmem : root ∈ t.ofKind true :=
    h.mem_ofKind.mpr ⟨_, h.formed.root, Core.isCategory_root⟩
  rw [h.counters hroot, ← Finset.card_erase_add_one hmem, ← hset]
  rfl

end Sound

theorem card_came_went (before after : Finset EntryId) :
    after.card + (before \ after).card = before.card + (after \ before).card := by
  have hold := Finset.card_sdiff_add_card_inter before after
  have hnew := Finset.card_sdiff_add_card_inter after before
  rw [Finset.inter_comm] at hnew
  omega

namespace Recorded

theorem core_eq (h : t.Recorded u k stats) (ht : t.Sound config) {d : Entry}
    (hx : t.get? x = some d) (hx' : u.get? x = some e) : d.core = e.core := by
  have hold := h.old (ht.formed.bounded (skeleton_eq_some hx)) (skeleton_eq_some hx')
  exact Option.some.inj ((skeleton_eq_some hx).symm.trans hold)

theorem groups_eq (h : t.Recorded u k stats) (ht : t.Sound config) (hu : u.Sound config)
    {d : Entry} (hx : t.get? x = some d) (hx' : u.get? x = some e) (hcat : d.isCategory = true) :
    t.groups x = u.groups x := by
  have hlt : x < t.nextEntry := ht.formed.bounded (skeleton_eq_some hx)
  have hcat' : e.isCategory = true :=
    (congrArg Core.isCategory (h.core_eq ht hx hx')).symm.trans hcat
  have haddress : t.skeleton.address x = u.skeleton.address x := by
    refine Skeleton.address_congr fun y hy => ?_
    obtain ⟨c, hc⟩ := hu.formed.exists_of_mem_line (skeleton_eq_some hx') hy
    rw [hc, h.old ((Skeleton.mem_line_le hy).trans_lt hlt) hc]
  rw [address_eq_groups ht.formed hx hcat, address_eq_groups hu.formed hx' hcat'] at haddress
  exact Label.map_category_injective haddress

theorem changed_iff (h : t.Recorded u k stats) (ht : t.Sound config) (hu : u.Sound config)
    (p : EntryId) :
    t.kids p ≠ u.kids p ↔ (t.newChildren u p).Nonempty ∨ (t.lostChildren u p).Nonempty := by
  have hnew : t.newChildren u p = u.kids p \ t.kids p := by
    ext x
    rw [newChildren, hu.toFinset_childrenOf, Finset.mem_filter, Finset.mem_sdiff]
    refine and_congr_right fun hx => ?_
    obtain ⟨c, hc, hcp⟩ := hu.mem_kids.mp hx
    constructor
    · intro hle hmem
      obtain ⟨d, hd, -⟩ := ht.mem_kids.mp hmem
      exact absurd (ht.formed.bounded hd) (Nat.not_lt.mpr hle)
    · intro hnot
      exact Nat.le_of_not_lt fun hlt => hnot (ht.mem_kids.mpr ⟨c, h.old hlt hc, hcp⟩)
  have hlost : t.lostChildren u p = t.kids p \ u.kids p := by
    ext x
    rw [lostChildren, ht.toFinset_childrenOf, Finset.mem_filter, Finset.mem_sdiff, not_mem_arena]
    refine and_congr_right fun hx => ?_
    obtain ⟨c, hc, hcp⟩ := ht.mem_kids.mp hx
    constructor
    · intro hnone hmem
      obtain ⟨d, hd, -⟩ := hu.mem_kids.mp hmem
      exact nomatch hnone.symm.trans hd
    · refine fun hnot => Option.eq_none_iff_forall_ne_some.mpr fun d hd => hnot ?_
      have hdc := h.old (ht.formed.bounded hc) hd
      obtain rfl := Option.some.inj (hc.symm.trans hdc)
      exact hu.mem_kids.mpr ⟨c, hd, hcp⟩
  rw [hnew, hlost, Finset.nonempty_iff_ne_empty, Finset.nonempty_iff_ne_empty, ← not_and_or,
    Finset.sdiff_eq_empty_iff_subset, Finset.sdiff_eq_empty_iff_subset]
  exact not_congr ⟨fun heq => ⟨heq.ge, heq.le⟩, fun ⟨hle, hge⟩ => hge.antisymm hle⟩

end Recorded

theorem card_chains_sdiff (ht : t.Sound config) (hu : u.Sound config)
    (hsame : ∀ {a b d e}, t.get? a = some d → u.get? b = some e → d.isCategory = true →
      e.isCategory = true → t.groups a = u.groups b → a = b)
    (hgroups : ∀ {x d e}, t.get? x = some d → u.get? x = some e → d.isCategory = true →
      t.groups x = u.groups x) :
    (u.chains \ t.chains).card = (u.ofKind true \ t.ofKind true).card := by
  have himage : u.chains \ t.chains = (u.ofKind true \ t.ofKind true).image u.groups := by
    ext chain
    rw [Finset.mem_sdiff, Finset.mem_image, mem_chains, mem_chains]
    constructor
    · rintro ⟨⟨x, e, he, hcat, hr, rfl⟩, hnot⟩
      refine ⟨x, Finset.mem_sdiff.mpr ⟨hu.mem_ofKind_iff_entry.mpr ⟨e, he, hcat⟩,
        fun hmem => hnot ?_⟩, rfl⟩
      obtain ⟨d, hd, hdcat⟩ := ht.mem_ofKind_iff_entry.mp hmem
      exact ⟨x, d, hd, hdcat, hr, hgroups hd he hdcat⟩
    · rintro ⟨x, hmem, rfl⟩
      obtain ⟨hin, hnot⟩ := Finset.mem_sdiff.mp hmem
      obtain ⟨e, he, hcat⟩ := hu.mem_ofKind_iff_entry.mp hin
      obtain ⟨r, hr, -, hrcat, -⟩ := exists_root ht.formed
      have hne : x ≠ root := fun heq => hnot (ht.mem_ofKind_iff_entry.mpr ⟨r, heq ▸ hr, hrcat⟩)
      refine ⟨⟨x, e, he, hcat, hne, rfl⟩, ?_⟩
      rintro ⟨y, d, hd, hdcat, -, hchain⟩
      exact hnot (hsame hd he hdcat hcat hchain ▸ ht.mem_ofKind_iff_entry.mpr ⟨d, hd, hdcat⟩)
  rw [himage, Finset.card_image_of_injOn]
  intro a ha b hb hab
  obtain ⟨d, hd, hdcat⟩ := hu.mem_ofKind_iff_entry.mp (Finset.mem_sdiff.mp ha).1
  obtain ⟨e, he, hecat⟩ := hu.mem_ofKind_iff_entry.mp (Finset.mem_sdiff.mp hb).1
  refine hu.formed.address_injective (skeleton_eq_some hd) (skeleton_eq_some he) ?_
  rw [address_eq_groups hu.formed hd hdcat, address_eq_groups hu.formed he hecat]
  exact congrArg _ hab

end CategorizedIndex.Tree
