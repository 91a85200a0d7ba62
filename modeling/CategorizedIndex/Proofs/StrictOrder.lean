import CategorizedIndex.Proofs.Refusals
import CategorizedIndex.Proofs.Siblings

/-! # The strict comparison of stored keys

Stored keys that declare the same directions are refused only where two kinds of values
meet. Where none do, the strict comparison answers what the lenient one does.
-/
namespace CategorizedIndex.SortKey

variable {directions : Directions} {a b : SortKey} {kind : ErrorKind}

theorem not_clash (ha : a.Follows directions) (hb : b.Follows directions) (hsa : a.Stored)
    (hsb : b.Stored)
    (hkinds : a.isCategory = b.isCategory → a.column = b.column → ∀ (i : Nat) v w,
      a.slots[i]?.bind (·.scalar?) = some v → b.slots[i]?.bind (·.scalar?) = some w →
      v.kind = w.kind) : ¬ a.Clash b kind := by
  intro hclash
  cases hclash with
  | slots hsection hcolumn h =>
    obtain ⟨i, s, s', hs, hs', hclash, -⟩ := h
    obtain ⟨x, hx⟩ := hsa.slots s (List.mem_of_getElem? hs)
    obtain ⟨y, hy⟩ := hsb.slots s' (List.mem_of_getElem? hs')
    cases hclash with
    | sentinels h =>
      rw [hx, hy] at h
      cases h
    | directions _ _ hd =>
      rw [Follows, hsection, hcolumn] at ha
      exact hd ((slotsFollow_iff.mp ha i s hs x hx).trans (slotsFollow_iff.mp hb i s' hs' y hy).symm)
    | @kinds v w hv hw _ hk =>
      refine hk (hkinds hsection hcolumn i v w ?_ ?_)
      · simp [hs, Slot.scalar?, hv, Bound.value?]
      · simp [hs', Slot.scalar?, hw, Bound.value?]
  | origins _ _ _ h =>
    obtain ⟨o, ho⟩ := hsa.origin
    obtain ⟨o', ho'⟩ := hsb.origin
    rw [ho, ho'] at h
    cases h

theorem tryCmp_eq_ok (ha : a.Follows directions) (hb : b.Follows directions) (hsa : a.Stored)
    (hsb : b.Stored)
    (hkinds : a.isCategory = b.isCategory → a.column = b.column → ∀ (i : Nat) v w,
      a.slots[i]?.bind (·.scalar?) = some v → b.slots[i]?.bind (·.scalar?) = some w →
      v.kind = w.kind) :
    a.tryCmp b = .ok (a.cmp b) := by
  cases h : a.tryCmp b with
  | ok o => rw [cmp_of_tryCmp h]
  | error e =>
    exact absurd (failsWith_tryCmp_iff.mp ⟨e, h, rfl⟩) (not_clash ha hb hsa hsb hkinds)

end CategorizedIndex.SortKey
