import CategorizedIndex.Proofs.Integrity.Intact

/-! # Links to parents in any tree

Nothing is known of a tree here but that its root has no parent. Every other entry names
one parent, so the way up is never a choice: what is reached from the root along these
links lies on no cycle, two children of such an entry have nothing in common below them,
and less hangs below a child than below its parent.
-/
namespace CategorizedIndex.Tree

open Relation

variable {t : Tree} {x y z : EntryId}

/-- Nothing is named as the parent of the root. -/
def Rooted (t : Tree) : Prop := ∀ e, t.get? root = some e → e.parent = none

/-- The root or an entry below it. -/
abbrev Attached (t : Tree) (x : EntryId) : Prop := ReflTransGen t.Hangs root x

theorem Hangs.unique (hx : t.Hangs x y) (hz : t.Hangs z y) : x = z := by
  obtain ⟨e, he, hex⟩ := hx
  obtain ⟨d, hd, hdz⟩ := hz
  obtain rfl := Option.some.inj (he.symm.trans hd)
  exact Option.some.inj (hex.symm.trans hdz)

theorem Hangs.live (h : t.Hangs x y) : ∃ e, t.get? y = some e := by
  obtain ⟨e, he, -⟩ := h
  exact ⟨e, he⟩

theorem transGen_hangs_iff_of_hangs (hz : t.Hangs z y) :
    TransGen t.Hangs x y ↔ ReflTransGen t.Hangs x z := by
  constructor
  · intro hxy
    obtain ⟨w, hxw, hwy⟩ := TransGen.tail'_iff.mp hxy
    exact hwy.unique hz ▸ hxw
  · intro hxz
    exact TransGen.tail' hxz hz

theorem Rooted.not_hangs_root (h : t.Rooted) : ¬ t.Hangs x root := by
  rintro ⟨e, he, hp⟩
  rw [h e he] at hp
  cases hp

theorem Rooted.not_transGen_self (h : t.Rooted) (hx : t.Attached x) :
    ¬ TransGen t.Hangs x x := by
  induction hx with
  | refl =>
    intro hcycle
    obtain ⟨w, -, hw⟩ := TransGen.tail'_iff.mp hcycle
    exact h.not_hangs_root hw
  | tail _ hy ih =>
    intro hcycle
    exact ih (TransGen.head' hy ((transGen_hangs_iff_of_hangs hy).mp hcycle))

theorem above_or_above (hx : ReflTransGen t.Hangs x z) (hy : ReflTransGen t.Hangs y z) :
    ReflTransGen t.Hangs x y ∨ ReflTransGen t.Hangs y x := by
  induction hx with
  | refl => exact .inr hy
  | tail hxw hwz ih =>
    rcases reflTransGen_iff_eq_or_transGen.mp hy with rfl | hyz
    · exact .inl (hxw.tail hwz)
    · exact ih ((transGen_hangs_iff_of_hangs hwz).mp hyz)

theorem Rooted.eq_of_common (h : t.Rooted) {p : EntryId} (hp : t.Attached p)
    (hx : t.Hangs p x) (hy : t.Hangs p y) (hxz : ReflTransGen t.Hangs x z)
    (hyz : ReflTransGen t.Hangs y z) : x = y := by
  have hapart : ∀ {a b}, t.Hangs p a → t.Hangs p b → ReflTransGen t.Hangs a b → a = b := by
    intro a b ha hb hab
    rcases reflTransGen_iff_eq_or_transGen.mp hab with rfl | hab
    · rfl
    · exact absurd (TransGen.head' ha ((transGen_hangs_iff_of_hangs hb).mp hab))
        (h.not_transGen_self hp)
  rcases above_or_above hxz hyz with hxy | hyx
  · exact hapart hx hy hxy
  · exact (hapart hy hx hyx).symm

open Classical in
noncomputable def underneath (t : Tree) (x : EntryId) : Finset EntryId :=
  t.arena.keys.toFinset.filter (TransGen t.Hangs x)

/-- A list of as many different entries as there are holds them all. -/
theorem mem_of_length_eq_size {l : List EntryId} (hn : l.Nodup)
    (hlive : ∀ y ∈ l, ∃ e, t.get? y = some e) (hlength : l.length = t.arena.size) {e : Entry}
    (hx : t.get? x = some e) : x ∈ l := by
  have hsub : l.toFinset ⊆ t.arena.keys.toFinset := by
    intro y hy
    exact List.mem_toFinset.mpr (mem_keys_iff.mpr (hlive y (List.mem_toFinset.mp hy)))
  have hcard : t.arena.keys.toFinset.card ≤ l.toFinset.card := by
    rw [List.toFinset_card_of_nodup hn, hlength]
    exact (List.toFinset_card_le _).trans_eq Std.ExtTreeMap.length_keys
  have hmem : x ∈ t.arena.keys.toFinset := List.mem_toFinset.mpr (mem_keys_iff.mpr ⟨e, hx⟩)
  rw [← Finset.eq_of_subset_of_card_le hsub hcard] at hmem
  exact List.mem_toFinset.mp hmem

theorem mem_underneath : y ∈ t.underneath x ↔ TransGen t.Hangs x y := by
  simp only [underneath, Finset.mem_filter, List.mem_toFinset, mem_keys_iff,
    and_iff_right_iff_imp]
  intro hxy
  obtain ⟨w, -, hw⟩ := TransGen.tail'_iff.mp hxy
  exact hw.live

open Classical in
theorem card_underneath_le (t : Tree) (x : EntryId) : (t.underneath x).card ≤ t.arena.size := by
  calc (t.underneath x).card ≤ t.arena.keys.toFinset.card := Finset.card_filter_le _ _
    _ ≤ t.arena.keys.length := List.toFinset_card_le _
    _ = t.arena.size := Std.ExtTreeMap.length_keys

theorem Rooted.card_underneath_lt (h : t.Rooted) (hx : t.Attached x) (hy : t.Hangs x y) :
    (t.underneath y).card < (t.underneath x).card := by
  refine Finset.card_lt_card ((Finset.ssubset_iff_of_subset fun z hz => ?_).mpr ⟨y, ?_, ?_⟩)
  · exact mem_underneath.mpr (TransGen.head hy (mem_underneath.mp hz))
  · exact mem_underneath.mpr (.single hy)
  · exact fun hself => h.not_transGen_self (hx.tail hy) (mem_underneath.mp hself)

end CategorizedIndex.Tree
