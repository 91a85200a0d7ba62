import CategorizedIndex.Proofs.Shape.Passing

/-! # What the descent covers

Where the root has no parent, a descent that passes meets no entry twice. So if it meets as
many as there are, it meets them all: every entry is listed under the parent that it names,
and what is met below an entry is what hangs below it.
-/
namespace CategorizedIndex.Tree

open Relation

variable {t : Tree} {strict : Bool} {fuel x y : Nat} {e : Entry} {c : Census}

theorem exists_listed {s : Siblings} (hy : y ∈ s.ids) :
    ∃ (i : Nat) (k : SortKey), s.toList[i]? = some (k, y) := by
  obtain ⟨⟨k, z⟩, hmem, rfl⟩ := List.mem_map.mp hy
  obtain ⟨i, hi⟩ := List.mem_iff_getElem?.mp hmem
  exact ⟨i, k, hi⟩

theorem Seen.hangs (h : Seen t strict fuel x e) (hy : y ∈ e.children.ids) : t.Hangs x y := by
  obtain ⟨i, k, hi⟩ := exists_listed hy
  obtain ⟨child, hchild, hparent, -⟩ := h.walked.children i k y hi
  exact ⟨child, hchild, hparent⟩

/-- A child has one rank, so it is listed once. -/
theorem Seen.nodup_ids (h : Seen t strict fuel x e) : e.children.ids.Nodup := by
  refine List.nodup_iff_getElem?_ne_getElem?.mpr fun i j hij hj heq => ?_
  rw [Siblings.ids, List.getElem?_map, List.getElem?_map] at heq
  rw [Siblings.ids, List.length_map] at hj
  obtain ⟨⟨k, y⟩, hy⟩ : ∃ a, e.children.toList[i]? = some a :=
    ⟨_, List.getElem?_eq_getElem (by omega)⟩
  obtain ⟨⟨l, z⟩, hz⟩ : ∃ a, e.children.toList[j]? = some a := ⟨_, List.getElem?_eq_getElem hj⟩
  rw [hy, hz] at heq
  obtain rfl : y = z := Option.some.inj heq
  obtain ⟨child, hchild, -, hi, -⟩ := h.walked.children i k y hy
  obtain ⟨child', hchild', -, hj, -⟩ := h.walked.children j l y hz
  rw [Option.some.inj (hchild.symm.trans hchild')] at hi
  omega

theorem below_succ_eq (fuel : Nat) (hx : t.get? x = some e) :
    t.below (fuel + 1) x = e.children.ids.flatMap fun y => y :: t.below fuel y := by
  rw [below_succ, Sound.childrenOf_eq hx]

theorem transGen_of_mem_below (h : t.checkBelow strict fuel x = .ok c)
    (hy : y ∈ t.below fuel x) : TransGen t.Hangs x y := by
  induction fuel generalizing x c with
  | zero => cases h
  | succ fuel ih =>
    obtain ⟨f, e, hf, hx, hseen, -⟩ := checkBelow_eq_ok_inv h
    obtain rfl := Nat.succ.inj hf
    rw [below_succ_eq fuel hx] at hy
    obtain ⟨z, hz, hyz⟩ := List.mem_flatMap.mp hy
    rcases List.mem_cons.mp hyz with rfl | hyz
    · exact .single (hseen.hangs hz)
    · exact TransGen.head (hseen.hangs hz) (ih (hseen.below z hz) hyz)

theorem reflTransGen_of_mem_cons_below (h : t.checkBelow strict fuel x = .ok c)
    (hy : y ∈ x :: t.below fuel x) : ReflTransGen t.Hangs x y := by
  rcases List.mem_cons.mp hy with rfl | hy
  · exact .refl
  · exact (transGen_of_mem_below h hy).to_reflTransGen

theorem Rooted.nodup_below (hr : t.Rooted) (hx : t.Attached x)
    (h : t.checkBelow strict fuel x = .ok c) : (x :: t.below fuel x).Nodup := by
  refine List.nodup_cons.mpr
    ⟨fun hself => hr.not_transGen_self hx (transGen_of_mem_below h hself), ?_⟩
  induction fuel generalizing x c with
  | zero => exact List.nodup_nil
  | succ fuel ih =>
    obtain ⟨f, e, hf, hget, hseen, -⟩ := checkBelow_eq_ok_inv h
    obtain rfl := Nat.succ.inj hf
    rw [below_succ_eq fuel hget]
    refine List.nodup_flatMap.mpr ⟨fun y hy => ?_, ?_⟩
    · have hattached := hx.tail (hseen.hangs hy)
      refine List.nodup_cons.mpr ⟨fun hself => ?_, ih hattached (hseen.below y hy)⟩
      exact hr.not_transGen_self hattached (transGen_of_mem_below (hseen.below y hy) hself)
    · refine List.Pairwise.imp_of_mem (fun {a b} ha hb hne z hza hzb => hne ?_) hseen.nodup_ids
      exact hr.eq_of_common hx (hseen.hangs ha) (hseen.hangs hb)
        (reflTransGen_of_mem_cons_below (hseen.below a ha) hza)
        (reflTransGen_of_mem_cons_below (hseen.below b hb) hzb)

/-- The check of an entry that was met passes, and the entry is listed somewhere. -/
theorem exists_pass_of_mem_below (h : t.checkBelow strict fuel x = .ok c)
    (hy : y ∈ t.below fuel x) :
    (∃ f c, t.checkBelow strict f y = .ok c) ∧
      ∃ z d f, t.get? z = some d ∧ Seen t strict f z d ∧ y ∈ d.children.ids := by
  induction fuel generalizing x c with
  | zero => cases h
  | succ fuel ih =>
    obtain ⟨f, e, hf, hx, hseen, -⟩ := checkBelow_eq_ok_inv h
    obtain rfl := Nat.succ.inj hf
    rw [below_succ_eq fuel hx] at hy
    obtain ⟨z, hz, hyz⟩ := List.mem_flatMap.mp hy
    rcases List.mem_cons.mp hyz with rfl | hyz
    · exact ⟨⟨fuel, _, hseen.below y hz⟩, x, e, fuel, hx, hseen, hz⟩
    · exact ih (hseen.below z hz) hyz

theorem ncard_eq_length {l : List EntryId} (hn : l.Nodup) {p : EntryId → Prop}
    (hp : ∀ y, p y ↔ y ∈ l) : {y | p y}.ncard = l.length := by
  have hset : {y | p y} = ↑l.toFinset := by
    ext y
    rw [Set.mem_ofPred_eq, hp, Finset.mem_coe, List.mem_toFinset]
  rw [hset, Set.ncard_coe_finset, List.toFinset_card_of_nodup hn]

theorem ncard_section_eq {l : List EntryId} (hn : l.Nodup) {p : EntryId → Prop}
    (hp : ∀ y, p y ↔ y ∈ l) (hlive : ∀ y ∈ l, ∃ e, t.get? y = some e) {isCategory : Bool} :
    {y | p y ∧ t.InSection isCategory y}.ncard =
      l.countP fun y => t.skeleton.isCategoryAt y == isCategory := by
  rw [List.countP_eq_length_filter]
  refine ncard_eq_length (hn.filter _) fun y => ?_
  rw [List.mem_filter, hp, beq_iff_eq]
  refine and_congr_right fun hy => ?_
  obtain ⟨e, he⟩ := hlive y hy
  rw [inSection_iff_of_get? he, isCategoryAt_eq he]

/-- The root has no parent, and the descent from it passes and meets as many entries as
there are. -/
structure Covered (t : Tree) (strict : Bool) (fuel : Nat) : Prop where
  rooted : t.Rooted
  passes : t.checkBelow strict fuel root = .ok (t.censusOf (t.below fuel root))
  met : (t.below fuel root).length + 1 = t.arena.size

namespace Covered

variable (h : t.Covered strict fuel)

include h

theorem exists_root : ∃ e, t.get? root = some e := by
  obtain ⟨f, e, -, he, -⟩ := checkBelow_eq_ok_inv h.passes
  exact ⟨e, he⟩

theorem mem_below_root (hx : t.get? x = some e) (hne : x ≠ root) : x ∈ t.below fuel root := by
  have hmem := mem_of_length_eq_size (h.rooted.nodup_below .refl h.passes) (fun y hy => ?_)
    h.met hx
  · exact (List.mem_cons.mp hmem).resolve_left hne
  · rcases List.mem_cons.mp hy with rfl | hy
    · exact h.exists_root
    · obtain ⟨z, -, hz⟩ := TransGen.tail'_iff.mp (transGen_of_mem_below h.passes hy)
      exact hz.live

theorem live (hx : t.Attached x) : ∃ e, t.get? x = some e := by
  rcases ReflTransGen.cases_tail hx with rfl | ⟨w, -, hw⟩
  · exact h.exists_root
  · exact hw.live

theorem exists_pass (hx : t.get? x = some e) :
    t.Attached x ∧ ∃ f c, t.checkBelow strict f x = .ok c := by
  by_cases hne : x = root
  · exact hne ▸ ⟨.refl, fuel, _, h.passes⟩
  · have hmem := h.mem_below_root hx hne
    exact ⟨(transGen_of_mem_below h.passes hmem).to_reflTransGen,
      (exists_pass_of_mem_below h.passes hmem).1⟩

theorem exists_seen (hx : t.get? x = some e) : ∃ f, Seen t strict f x e := by
  obtain ⟨-, f, c, hpass⟩ := h.exists_pass hx
  obtain ⟨f', e', -, hx', hseen, -⟩ := checkBelow_eq_ok_inv hpass
  obtain rfl := Option.some.inj (hx.symm.trans hx')
  exact ⟨f', hseen⟩

theorem exists_listing (hx : t.get? x = some e) (hne : x ≠ root) :
    ∃ z d f, t.get? z = some d ∧ Seen t strict f z d ∧ x ∈ d.children.ids :=
  (exists_pass_of_mem_below h.passes (h.mem_below_root hx hne)).2

theorem mem_ids_iff (hx : t.get? x = some e) : y ∈ e.children.ids ↔ t.Hangs x y := by
  obtain ⟨f, hseen⟩ := h.exists_seen hx
  refine ⟨hseen.hangs, fun hy => ?_⟩
  obtain ⟨d, hd⟩ := hy.live
  have hne : y ≠ root := by
    rintro rfl
    exact h.rooted.not_hangs_root hy
  obtain ⟨z, dz, g, hz, hseen', hmem⟩ := h.exists_listing hd hne
  obtain rfl := (hseen'.hangs hmem).unique hy
  obtain rfl := Option.some.inj (hx.symm.trans hz)
  exact hmem

theorem mem_below_iff {f : Nat} (hpass : t.checkBelow strict f x = .ok c) :
    y ∈ t.below f x ↔ TransGen t.Hangs x y := by
  refine ⟨transGen_of_mem_below hpass, fun hxy => ?_⟩
  induction f generalizing x c with
  | zero => cases hpass
  | succ f ih =>
    obtain ⟨g, e, hg, hx, hseen, -⟩ := checkBelow_eq_ok_inv hpass
    obtain rfl := Nat.succ.inj hg
    obtain ⟨z, hz, hzy⟩ := TransGen.head'_iff.mp hxy
    have hmem := (h.mem_ids_iff hx).mpr hz
    rw [below_succ_eq f hx]
    refine List.mem_flatMap.mpr ⟨z, hmem, ?_⟩
    rcases reflTransGen_iff_eq_or_transGen.mp hzy with rfl | hzy
    · exact List.mem_cons_self
    · exact List.mem_cons_of_mem _ (ih (hseen.below z hmem) hzy)

/-- The counters of every entry are the sizes of what hangs below it. -/
theorem counters_eq_tally (hx : t.get? x = some e) : e.counters = t.tally x := by
  obtain ⟨hattached, f, c, hpass⟩ := h.exists_pass hx
  obtain ⟨g, e', hf, hx', hseen, -⟩ := checkBelow_eq_ok_inv hpass
  obtain rfl := Option.some.inj (hx.symm.trans hx')
  have hbelow := (List.nodup_cons.mp (h.rooted.nodup_below hattached hpass)).2
  rw [hf] at hpass hbelow
  have hkids : ∀ y, t.Hangs x y ↔ y ∈ e.children.ids := fun y => (h.mem_ids_iff hx).symm
  have hlower : ∀ y, TransGen t.Hangs x y ↔ y ∈ t.below (g + 1) x :=
    fun y => (h.mem_below_iff hpass).symm
  have hlive : ∀ y ∈ t.below (g + 1) x, ∃ d, t.get? y = some d := by
    intro y hy
    obtain ⟨z, -, hz⟩ := TransGen.tail'_iff.mp ((hlower y).mpr hy)
    exact hz.live
  have hkidsLive : ∀ y ∈ e.children.ids, ∃ d, t.get? y = some d :=
    fun y hy => ((hkids y).mpr hy).live
  rw [hseen.counters, countersOf, tally, ncard_eq_length hseen.nodup_ids hkids,
    ncard_eq_length hbelow hlower, ncard_section_eq hseen.nodup_ids hkids hkidsLive,
    ncard_section_eq hseen.nodup_ids hkids hkidsLive, ncard_section_eq hbelow hlower hlive,
    ncard_section_eq hbelow hlower hlive]
  simp only [beq_true, beq_false]

end Covered

end CategorizedIndex.Tree
