import CategorizedIndex.Proofs.Commit.Withdraw

/-! # Resolving paths

Following a path finds the category at every step or creates it, so it ends at the
address that the steps spell. Everything created lies on the way up from there.
-/
namespace CategorizedIndex

section Known

variable {α : Type} [BEq α] [LawfulBEq α] {known : List α} {a b : α}

theorem mem_known : b ∈ (if known.contains a then known else known ++ [a]) ↔
    b ∈ known ∨ b = a := by
  split
  · next hc => exact ⟨Or.inl, fun hb => hb.elim id fun hb => hb ▸ List.contains_iff_mem.mp hc⟩
  · rw [List.mem_append, List.mem_singleton]

theorem nodup_known (hn : known.Nodup) :
    (if known.contains a then known else known ++ [a]).Nodup := by
  split
  · exact hn
  · next hc =>
    refine List.nodup_append.mpr ⟨hn, List.nodup_singleton _, fun x hx y hy hxy => ?_⟩
    rw [List.mem_singleton.mp hy] at hxy
    exact hc (List.contains_iff_mem.mpr (hxy ▸ hx))

end Known

namespace ScopedId

theorem toNat_category {k : Nat} (hk : k < 2 ^ 63) :
    (category (UInt64.ofNat k)).id.toNat = 2 ^ 63 + k := by
  have hword : (UInt64.ofNat k).toNat = k := by
    rw [UInt64.toNat_ofNat']
    exact Nat.mod_eq_of_lt (by omega)
  have hor := Nat.two_pow_add_eq_or_of_lt hk 1
  rw [Nat.mul_one] at hor
  rw [category, UInt64.toNat_or, hword, hor]
  rfl

theorem category_injective {j k : Nat} (hj : j < 2 ^ 63) (hk : k < 2 ^ 63)
    (h : category (UInt64.ofNat j) = category (UInt64.ofNat k)) : j = k := by
  have hid := congrArg (fun s => s.id.toNat) h
  simp only [toNat_category hj, toNat_category hk] at hid
  omega

end ScopedId

namespace Work

variable {config : Config} {w : Work} {T : Table} {p : EntryId} {pc : Core}

/-- A path led from `p` to an entry, and only categories on the way were created. -/
structure Led (config : Config) (p : EntryId) (path : CategoryPath) (w : Work)
    (r : EntryId × Work) : Prop where
  sound : r.2.tree.Sound config
  numbered : r.2.tree.skeleton.Numbered r.2.tree.lastCategory
  kept : w.tree.skeleton.KeptIn r.2.tree.skeleton
  category : ∃ c, r.2.tree.skeleton r.1 = some c ∧ c.isCategory = true
  address : r.2.tree.skeleton.address r.1 = w.tree.skeleton.address p ++ path.map .category
  under : p ∈ r.2.tree.skeleton.line r.1
  created : ∀ x c, r.2.tree.skeleton x = some c →
    w.tree.skeleton x = some c ∨ c.isCategory = true ∧ x ∈ r.2.tree.skeleton.line r.1
  emptied : r.2.emptied = w.emptied
  spent : r.2.tree.lastCategory + w.tree.categoryCount =
    w.tree.lastCategory + r.2.tree.categoryCount

theorem spent_trans {a b c i j k : Nat} (h : b + i = a + j) (h' : c + j = b + k) :
    c + i = a + k := by
  omega

theorem led_nil (h : w.tree.Sound config) (hnum : w.tree.skeleton.Numbered w.tree.lastCategory)
    (hp : w.tree.skeleton p = some pc) (hcat : pc.isCategory = true) :
    Led config p [] w (p, w) where
  sound := h
  numbered := hnum
  kept := .refl _
  category := ⟨pc, hp, hcat⟩
  address := (List.append_nil _).symm
  under := Skeleton.self_mem_line
  created _ _ hx := Or.inl hx
  emptied := rfl
  spent := rfl

theorem Led.trans {path path' : CategoryPath} {r v : EntryId × Work} (h : Led config p path w r)
    (h' : Led config r.1 path' r.2 v) : Led config p (path ++ path') w v where
  sound := h'.sound
  numbered := h'.numbered
  kept := h.kept.trans h'.kept
  category := h'.category
  address := by rw [h'.address, h.address, List.map_append, List.append_assoc]
  under := by
    obtain ⟨c, hc, -⟩ := h.category
    obtain ⟨d, hd, -⟩ := h'.category
    refine h'.sound.formed.mem_line_trans hd h'.under ?_
    rw [h'.kept.line_eq h.sound.formed hc]
    exact h.under
  created x c hx := by
    rcases h'.created x c hx with hx | hx
    · rcases h.created x c hx with hx | ⟨hcat, hmem⟩
      · exact Or.inl hx
      · obtain ⟨d, hd, -⟩ := h'.category
        obtain ⟨b, hb, -⟩ := h.category
        refine Or.inr ⟨hcat, h'.sound.formed.mem_line_trans hd h'.under ?_⟩
        rw [h'.kept.line_eq h.sound.formed hb]
        exact hmem
    · exact Or.inr hx
  emptied := h'.emptied.trans h.emptied
  spent := spent_trans h.spent h'.spent

theorem label_categoryCore {step : CategoryStep} (h : step.Fits config) (number : UInt64)
    (values : ColumnValues) (p : EntryId) :
    (Tree.newCore p (.category number) ""
      (.category step.column step.value step.descending (.category number)) values).label =
      .category step := by
  rw [Core.label, Core.isCategory, Tree.newCore, if_pos (ScopedId.isCategory_category number),
    SortKey.step_category h]

/-- A step finds the category with its label. -/
theorem findCategory?_eq_some {t : Tree} (h : t.Sound config) {step : CategoryStep}
    (hstep : step.Fits config) {id : EntryId} (hfind : t.findCategory? p step = some id) :
    ∃ c, t.skeleton id = some c ∧ c.parent = some p ∧ c.label = .category step := by
  obtain ⟨k, hk, hin⟩ := Siblings.firstWithin?_eq_some hfind
  cases hp : t.get? p with
  | none =>
    rw [Tree.childrenOf, hp] at hk
    cases hk
  | some e =>
    rw [Tree.Sound.childrenOf_eq hp] at hk
    obtain ⟨c, hc, hcp, rfl⟩ := (h.children hp k id).mp hk
    have hfits := h.formed.fits hc (h.formed.ne_root hc hcp)
    exact ⟨c, hc, hcp, (hfits.contains_categoryBounds_iff hstep).mp hin⟩

theorem findCategory?_eq_none {t : Tree} (h : t.Sound config) {step : CategoryStep}
    (hstep : step.Fits config) (hp : t.skeleton p = some pc)
    (hfind : t.findCategory? p step = none) {x : EntryId} {d : Core}
    (hx : t.skeleton x = some d) (hd : d.parent = some p) : d.label ≠ .category step := by
  intro hlabel
  obtain ⟨e, he, -⟩ := Tree.skeleton_eq_some_iff.mp hp
  have hmem := (h.children he d.key x).mpr ⟨d, hx, hd, rfl⟩
  have hnone := Siblings.firstWithin?_eq_none.mp hfind (d.key, x)
    (by rw [Tree.Sound.childrenOf_eq he]; exact hmem)
  have hfits := h.formed.fits hx (h.formed.ne_root hx hd)
  rw [(hfits.contains_categoryBounds_iff hstep).mpr hlabel] at hnone
  cases hnone

/-- A category number that was not given before names no category yet. -/
theorem numbered_grow {F : Skeleton} {last : Nat} {i : EntryId} {c : Core}
    (h : F.Numbered last) (hc : c.scopedId = .category (UInt64.ofNat (last + 1))) :
    (F.grow i c).Numbered (last + 1) := by
  intro hlast
  obtain ⟨hid, hone⟩ := h (by omega)
  have hfresh : ∀ x d, F x = some d → d.isCategory = true → d.scopedId ≠ c.scopedId := by
    intro x d hx hd heq
    obtain ⟨k, hk, hkd⟩ := hid x d hx hd
    have := ScopedId.category_injective (by omega) hlast (hkd.symm.trans (heq.trans hc))
    omega
  refine ⟨fun x d hx hd => ?_, fun x y d e hx hy hd heq => ?_⟩
  · by_cases hxi : x = i
    · rw [hxi, Skeleton.grow_self] at hx
      exact ⟨last + 1, le_rfl, Option.some.inj hx ▸ hc⟩
    · rw [Skeleton.grow_of_ne hxi] at hx
      obtain ⟨k, hk, hkd⟩ := hid x d hx hd
      exact ⟨k, by omega, hkd⟩
  · have he : e.isCategory = true := by
      rw [Core.isCategory, ← heq]
      exact hd
    by_cases hxi : x = i
    · by_cases hyi : y = i
      · exact hxi.trans hyi.symm
      · rw [hxi, Skeleton.grow_self] at hx
        rw [Skeleton.grow_of_ne hyi] at hy
        obtain rfl := Option.some.inj hx
        exact absurd heq.symm (hfresh y e hy he)
    · rw [Skeleton.grow_of_ne hxi] at hx
      by_cases hyi : y = i
      · rw [hyi, Skeleton.grow_self] at hy
        obtain rfl := Option.some.inj hy
        exact absurd heq (hfresh x d hx hd)
      · rw [Skeleton.grow_of_ne hyi] at hy
        exact hone x y d e hx hy hd heq

theorem led_found (h : w.tree.Sound config)
    (hnum : w.tree.skeleton.Numbered w.tree.lastCategory) {step : CategoryStep}
    (hstep : step.Fits config) {id : EntryId} (hfind : w.tree.findCategory? p step = some id) :
    Led config p [step] w (id, w) := by
  obtain ⟨c, hc, hcp, hlabel⟩ := findCategory?_eq_some h hstep hfind
  constructor
  case sound => exact h
  case numbered => exact hnum
  case kept => exact .refl _
  case category => exact ⟨c, hc, Core.isCategory_of_label hlabel⟩
  case address =>
    rw [h.formed.address_eq hc hcp, hlabel]
    rfl
  case under =>
    rw [h.formed.line_eq hc hcp]
    exact List.mem_cons_of_mem _ Skeleton.self_mem_line
  case created =>
    intro _ _ hx
    exact Or.inl hx
  case emptied => rfl
  case spent => rfl

theorem sound_lastCategory {t : Tree} (h : t.Sound config) (n : Nat) :
    Tree.Sound config { t with lastCategory := n } :=
  ⟨h.formed, h.sorted, h.children, h.counters, h.placements, h.indexed, h.ranks⟩

theorem led_created (h : w.tree.Sound config)
    (hnum : w.tree.skeleton.Numbered w.tree.lastCategory) (hp : w.tree.skeleton p = some pc)
    (hcat : pc.isCategory = true) {step : CategoryStep} (hstep : step.Fits config)
    (hfind : w.tree.findCategory? p step = none) (stats : Stats) :
    Led config p [step] w
      (w.tree.nextEntry, ⟨w.tree.createCategory config p step, stats, w.emptied⟩) := by
  have hnext := sound_lastCategory h (w.tree.lastCategory + 1)
  let number := UInt64.ofNat (w.tree.lastCategory + 1)
  let c := Tree.newCore p (.category number) ""
    (.category step.column step.value step.descending (.category number))
    (Tree.categoryValues config step)
  have hlabel : c.label = .category step := label_categoryCore hstep number _ p
  have hcc : c.isCategory = true := Core.isCategory_of_label hlabel
  have hfits : c.Fits config := .category step _ _ hstep (ScopedId.isCategory_category number) rfl
  have hskel : (w.tree.createCategory config p step).skeleton =
      w.tree.skeleton.grow w.tree.nextEntry c := Tree.skeleton_attach
  have hsound : (w.tree.createCategory config p step).Sound config := by
    refine hnext.attach hp hcat hfits fun x d hx hd => ?_
    intro heq
    exact findCategory?_eq_none h hstep hp hfind hx hd (heq.trans hlabel)
  have hnew : (w.tree.createCategory config p step).skeleton w.tree.nextEntry = some c := by
    rw [hskel, Skeleton.grow_self]
  have hkept : w.tree.skeleton.KeptIn (w.tree.createCategory config p step).skeleton := by
    intro x d hx
    rw [hskel, Skeleton.grow_of_ne (h.formed.bounded hx).ne, hx]
  constructor
  case sound => exact hsound
  case numbered =>
    have hlast : (w.tree.createCategory config p step).lastCategory = w.tree.lastCategory + 1 :=
      Tree.lastCategory_attach
    simp only
    rw [hskel, hlast]
    exact numbered_grow hnum rfl
  case kept => exact hkept
  case category => exact ⟨c, hnew, hcc⟩
  case address =>
    simp only
    rw [hsound.formed.address_eq hnew rfl, hlabel, hkept.address_eq h.formed hp]
    rfl
  case under =>
    simp only
    rw [hsound.formed.line_eq hnew rfl]
    exact List.mem_cons_of_mem _ Skeleton.self_mem_line
  case created =>
    intro x d hx
    simp only at hx ⊢
    by_cases hxn : x = w.tree.nextEntry
    · rw [hxn, hnew] at hx
      exact Or.inr ⟨Option.some.inj hx ▸ hcc, hxn ▸ Skeleton.self_mem_line⟩
    · rw [hskel, Skeleton.grow_of_ne hxn] at hx
      exact Or.inl hx
  case emptied => rfl
  case spent =>
    have hcount : (w.tree.createCategory config p step).categoryCount =
        w.tree.categoryCount + 1 := by
      rw [Tree.createCategory, hnext.categoryCount_attach hp,
        if_pos (ScopedId.isCategory_category _)]
      rfl
    have hlast : (w.tree.createCategory config p step).lastCategory = w.tree.lastCategory + 1 :=
      Tree.lastCategory_attach
    simp only [hcount, hlast]
    omega

theorem led_findOrCreate (h : w.tree.Sound config)
    (hnum : w.tree.skeleton.Numbered w.tree.lastCategory) (hp : w.tree.skeleton p = some pc)
    (hcat : pc.isCategory = true) {step : CategoryStep} (hstep : step.Fits config) :
    Led config p [step] w (w.findOrCreate config p step) := by
  unfold findOrCreate
  cases hfind : w.tree.findCategory? p step with
  | some id => exact led_found h hnum hstep hfind
  | none => exact led_created h hnum hp hcat hstep hfind _

/-- A path leads to the address that its steps spell. -/
theorem led_resolve (h : w.tree.Sound config)
    (hnum : w.tree.skeleton.Numbered w.tree.lastCategory) (hp : w.tree.skeleton p = some pc)
    (hcat : pc.isCategory = true) {path : CategoryPath}
    (hpath : ∀ step ∈ path, step.Fits config) :
    Led config p path w (resolve config p path w) := by
  induction path generalizing w p pc with
  | nil => exact led_nil h hnum hp hcat
  | cons step rest ih =>
    have hone := led_findOrCreate h hnum hp hcat (hpath step List.mem_cons_self)
    obtain ⟨c, hc, hcc⟩ := hone.category
    exact hone.trans (ih hone.sound hone.numbered hc hcc
      fun s hs => hpath s (List.mem_cons_of_mem _ hs))

end Work

end CategorizedIndex
