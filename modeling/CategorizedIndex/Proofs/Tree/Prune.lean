import CategorizedIndex.Proofs.Tree.Renumber

/-! # Pruning

Pruning takes childless categories away until none of the candidates, and nothing above
them, is left without children. If every childless category is a candidate, the
categories that remain are those with a document below them.
-/
namespace CategorizedIndex

namespace Skeleton

variable {config : Config} {F G H : Skeleton} {n : EntryId}

/-- A category below the root without children. -/
structure Childless (F : Skeleton) (x : EntryId) : Prop where
  ne_root : x ≠ Tree.root
  category : F.isCategoryAt x = true
  leaf : ∀ y d, F y = some d → d.parent ≠ some x

/-- Nothing but categories was taken away. -/
structure Trimmed (F G : Skeleton) : Prop where
  kept : G.KeptIn F
  documents : ∀ {x c}, F x = some c → c.isCategory = false → G x = some c

namespace Trimmed

theorem refl (F : Skeleton) : F.Trimmed F := ⟨.refl F, fun h _ => h⟩

theorem trans (h : F.Trimmed G) (h' : G.Trimmed H) : F.Trimmed H :=
  ⟨h'.kept.trans h.kept, fun hx hd => h'.documents (h.documents hx hd) hd⟩

theorem without {i : EntryId} (hi : F.isCategoryAt i = true) : F.Trimmed (F.without i) where
  kept _ _ hx := (without_eq_some_iff.mp hx).2
  documents {x c} hx hd := by
    refine without_eq_some_iff.mpr ⟨fun heq => ?_, hx⟩
    rw [heq] at hx
    rw [isCategoryAt, hx, Option.any_some, hd] at hi
    cases hi

end Trimmed

theorem isCategoryAt_eq_true {x : EntryId} :
    F.isCategoryAt x = true ↔ ∃ c, F x = some c ∧ c.isCategory = true := by
  rw [isCategoryAt, Option.any_eq_true]

/-- Below a category that has children wherever it can, there is a document. -/
theorem WellFormed.exists_document (h : F.WellFormed config n) (hfull : ∀ x, ¬ F.Childless x)
    {a : EntryId} {c : Core} (ha : F a = some c) (hr : a ≠ Tree.root) :
    ∃ x d, F x = some d ∧ d.isCategory = false ∧ a ∈ F.line x := by
  -- handles grow downwards and are bounded, so the descent ends
  generalize hk : n - a = k
  induction k using Nat.strong_induction_on generalizing a c with
  | _ k ih =>
    cases hcat : c.isCategory with
    | false => exact ⟨a, c, ha, hcat, self_mem_line⟩
    | true =>
      have hexists : ∃ y d, F y = some d ∧ d.parent = some a := by
        refine Classical.byContradiction fun hnone => hfull a ⟨hr, ?_, fun y d hy hp => ?_⟩
        · exact isCategoryAt_eq_true.mpr ⟨c, ha, hcat⟩
        · exact hnone ⟨y, d, hy, hp⟩
      obtain ⟨y, d, hy, hp⟩ := hexists
      have hlt := h.parent_lt hy hp
      have hyn := h.bounded hy
      have hless : n - y < k := hk ▸ Nat.sub_lt_sub_left (hlt.trans hyn) hlt
      obtain ⟨x, e, hx, he, hmem⟩ := ih (n - y) hless hy (h.ne_root hy hp) rfl
      refine ⟨x, e, hx, he, h.mem_line_trans hx hmem ?_⟩
      rw [h.line_eq hy hp]
      exact List.mem_cons_of_mem _ self_mem_line

end Skeleton

namespace Tree

variable {config : Config} {t u v : Tree}

structure Thinned (config : Config) (t u : Tree) : Prop where
  sound : u.Sound config
  trimmed : t.skeleton.Trimmed u.skeleton
  childless : ∀ x, u.skeleton.Childless x → t.skeleton.Childless x
  nextEntry : u.nextEntry = t.nextEntry
  lastCategory : u.lastCategory = t.lastCategory

namespace Thinned

theorem refl (h : t.Sound config) : Thinned config t t :=
  ⟨h, .refl _, fun _ => id, rfl, rfl⟩

theorem trans (h : Thinned config t u) (h' : Thinned config u v) : Thinned config t v where
  sound := h'.sound
  trimmed := h.trimmed.trans h'.trimmed
  childless x hx := h.childless x (h'.childless x hx)
  nextEntry := h'.nextEntry.trans h.nextEntry
  lastCategory := h'.lastCategory.trans h.lastCategory

end Thinned

theorem childless_without {F : Skeleton} {i p x : EntryId} {c : Core} (hi : F i = some c)
    (hp : c.parent = some p) (hx : (F.without i).Childless x) : F.Childless x ∨ x = p := by
  by_cases hxp : x = p
  · exact Or.inr hxp
  · refine Or.inl ⟨hx.ne_root, ?_, fun y d hy hpar => ?_⟩
    · obtain ⟨d, hd, hcat⟩ := Skeleton.isCategoryAt_eq_true.mp hx.category
      exact Skeleton.isCategoryAt_eq_true.mpr
        ⟨d, (Skeleton.without_eq_some_iff.mp hd).2, hcat⟩
    · by_cases hyi : y = i
      · subst hyi
        obtain rfl := Option.some.inj (hi.symm.trans hy)
        exact hxp (Option.some.inj (hpar.symm.trans hp))
      · exact hx.leaf y d (Skeleton.without_eq_some_iff.mpr ⟨hyi, hy⟩) hpar

theorem childless_iff (h : t.Sound config) {id : EntryId} {e : Entry} (hid : t.get? id = some e) :
    t.skeleton.Childless id ↔ id ≠ root ∧ e.isCategory = true ∧ e.children.isEmpty = true := by
  have hc := skeleton_eq_some hid
  have hcat : t.skeleton.isCategoryAt id = e.isCategory := by
    rw [Skeleton.isCategoryAt, hc]
    rfl
  constructor
  · rintro ⟨hr, hcategory, hleaf⟩
    refine ⟨hr, hcat ▸ hcategory, (Siblings.isEmpty_iff _).mpr ?_⟩
    refine List.eq_nil_iff_forall_not_mem.mpr ?_
    rintro ⟨k, x⟩ hmem
    obtain ⟨d, hd, hp, -⟩ := (h.children hid k x).mp hmem
    exact hleaf x d hd hp
  · rintro ⟨hr, hcategory, hempty⟩
    refine ⟨hr, hcat.trans hcategory, fun y d hy hp => ?_⟩
    have hmem := (h.children hid d.key y).mpr ⟨d, hy, hp, rfl⟩
    rw [(Siblings.isEmpty_iff _).mp hempty] at hmem
    cases hmem

theorem pruneFrom_of_not_childless (h : t.Sound config) {fuel : Nat} {id : EntryId}
    (hid : ¬ t.skeleton.Childless id) : t.pruneFrom fuel id = (0, t) := by
  cases fuel with
  | zero => rfl
  | succ fuel =>
    cases hg : t.get? id with
    | none => simp only [pruneFrom, hg]
    | some e =>
      rw [childless_iff h hg] at hid
      simp only [pruneFrom, hg]
      by_cases hr : id = root
      · subst hr
        split <;> rfl
      · have hstay : (!e.children.isEmpty || !e.isCategory) = true := by
          cases hcat : e.isCategory with
          | false => simp
          | true =>
            cases hempty : e.children.isEmpty with
            | false => rfl
            | true => exact absurd ⟨hr, hcat, hempty⟩ hid
        rw [if_pos hstay]

theorem pruneFrom_of_childless (h : t.Sound config) {id : EntryId}
    (hid : t.skeleton.Childless id) :
    ∃ e p, t.get? id = some e ∧ e.parent = some p ∧ p < id ∧ e.isCategory = true ∧
      e.children.toList = [] ∧
      ∀ fuel, t.pruneFrom (fuel + 1) id =
        (((t.plucked id e p).pruneFrom fuel p).1 + 1, ((t.plucked id e p).pruneFrom fuel p).2) := by
  obtain ⟨c, hc, -⟩ := Skeleton.isCategoryAt_eq_true.mp hid.category
  obtain ⟨e, he, rfl⟩ := skeleton_eq_some_iff.mp hc
  obtain ⟨hr, hcat, hempty⟩ := (childless_iff h he).mp hid
  obtain ⟨p, -, hp, hlt, -⟩ := h.formed.parent hc hr
  refine ⟨e, p, he, hp, hlt, hcat, (Siblings.isEmpty_iff _).mp hempty, fun fuel => ?_⟩
  have hparent : e.parent = some p := hp
  have hgo : (!e.children.isEmpty || !e.isCategory) = false := by simp [hempty, hcat]
  simp only [pruneFrom, he, hgo, Bool.false_eq_true, if_false, detach?_eq hr he hp, hparent]

theorem thinned_pruneFrom (h : t.Sound config) {fuel : Nat} {id : EntryId}
    (hfuel : (t.liveUpTo id).card ≤ fuel) :
    Thinned config t (t.pruneFrom fuel id).2 ∧
      ¬ (t.pruneFrom fuel id).2.skeleton.Childless id := by
  induction fuel generalizing t id with
  | zero =>
    refine ⟨.refl h, fun hid => ?_⟩
    obtain ⟨e, -, he, -⟩ := pruneFrom_of_childless h hid
    have hpos := card_liveUpTo_pos he
    omega
  | succ fuel ih =>
    by_cases hid : t.skeleton.Childless id
    · obtain ⟨e, p, he, hp, hlt, hcat, hleaf, hprune⟩ := pruneFrom_of_childless h hid
      have hu := h.plucked he hp hleaf
      have hskel : (t.plucked id e p).skeleton = t.skeleton.without id := skeleton_plucked
      have hcatAt : t.skeleton.isCategoryAt id = true := hid.category
      have hsub : (t.plucked id e p).liveUpTo p ⊆ t.liveUpTo p := by
        intro x hx
        obtain ⟨hxp, hlive⟩ := Finset.mem_filter.mp hx
        obtain ⟨e', he'⟩ := Option.isSome_iff_exists.mp hlive
        obtain ⟨-, a, ha, -⟩ := h.get?_plucked_cases he hp hleaf he'
        exact Finset.mem_filter.mpr ⟨hxp, by rw [ha]; rfl⟩
      have hfuel' : ((t.plucked id e p).liveUpTo p).card ≤ fuel := by
        have hcard := Finset.card_le_card hsub
        have hless := card_liveUpTo_lt he hlt
        omega
      obtain ⟨hthin, hnot⟩ := ih hu hfuel'
      simp only [hprune]
      have htrim : t.skeleton.Trimmed (t.plucked id e p).skeleton := by
        rw [hskel]
        exact .without hcatAt
      refine ⟨⟨hthin.sound, htrim.trans hthin.trimmed, fun x hx => ?_, ?_, ?_⟩, fun hx => ?_⟩
      · have hchildless := hthin.childless x hx
        rw [hskel] at hchildless
        rcases childless_without (skeleton_eq_some he) hp hchildless with hx' | rfl
        · exact hx'
        · exact absurd hx hnot
      · exact hthin.nextEntry.trans nextEntry_plucked
      · exact hthin.lastCategory.trans lastCategory_plucked
      · obtain ⟨c, hc, -⟩ := Skeleton.isCategoryAt_eq_true.mp hx.category
        have hgone := hthin.trimmed.kept id c hc
        rw [hskel, Skeleton.without_self] at hgone
        cases hgone
    · rw [pruneFrom_of_not_childless h hid]
      exact ⟨.refl h, hid⟩

theorem snd_prune (t : Tree) (candidates : List EntryId) :
    (t.prune candidates).2 =
      candidates.foldl (fun t id => (t.pruneFrom t.arena.size id).2) t := by
  unfold prune
  -- the induction is on the candidates, for every count so far
  generalize 0 = count
  induction candidates generalizing t count with
  | nil => rfl
  | cons id rest ih => exact ih _ _

/-- When every childless category is a candidate, none is left. -/
theorem thinned_prune (h : t.Sound config) (candidates : List EntryId) :
    Thinned config t (t.prune candidates).2 ∧
      ∀ x ∈ candidates, ¬ (t.prune candidates).2.skeleton.Childless x := by
  rw [snd_prune]
  induction candidates generalizing t with
  | nil => exact ⟨.refl h, fun x hx => absurd hx List.not_mem_nil⟩
  | cons id rest ih =>
    obtain ⟨hthin, hnot⟩ := thinned_pruneFrom h (card_live_le t (id + 1))
    obtain ⟨hrest, hnone⟩ := ih hthin.sound
    refine ⟨hthin.trans hrest, fun x hx => ?_⟩
    rcases List.mem_cons.mp hx with rfl | hx
    · intro hx
      exact hnot (hrest.childless x hx)
    · exact hnone x hx

end Tree

end CategorizedIndex
