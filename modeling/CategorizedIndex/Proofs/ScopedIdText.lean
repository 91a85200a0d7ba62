import CategorizedIndex.Proofs.Text.Digits
import CategorizedIndex.ScopedId

/-! # Scoped ids as text

No two ids are shown alike. An origin is any text and may itself look like an id that is shown;
but the last `#` always ends the origin, since only digits follow it, or a `c` and digits. The
`c` tells categories from documents, and the digits tell what is left of the id.
-/
namespace CategorizedIndex.ScopedId

variable {a b s : ScopedId} {front back front' back' : List Char}

/-- What stands behind the origin and the `#`. -/
def mark (s : ScopedId) : List Char :=
  if s.isCategory then 'c' :: Text.decimal s.number.toNat else Text.decimal s.id.toNat

theorem toList_toText (s : ScopedId) : s.toText.toList = s.origin.toList ++ '#' :: s.mark := by
  unfold toText mark
  split <;> simp [Text.decimal]

theorem hash_notMem_mark (s : ScopedId) : '#' ∉ s.mark := by
  have hdigits : ∀ n, '#' ∉ Text.decimal n := fun n hmem =>
    absurd ((Text.isDigits_decimal n).isDigit '#' hmem) (by decide)
  unfold mark
  split <;> simp [hdigits]

theorem takeWhile_reverse_hash (front : List Char) (hback : '#' ∉ back) :
    (front ++ '#' :: back).reverse.takeWhile (· != '#') = back.reverse := by
  have hall : ∀ c ∈ back.reverse, (c != '#') = true := by
    intro c hc
    rw [bne_iff_ne]
    rintro rfl
    exact hback (List.mem_reverse.mp hc)
  simp [List.takeWhile_append_of_pos hall]

theorem parts_at_last_hash (hback : '#' ∉ back) (hback' : '#' ∉ back')
    (h : front ++ '#' :: back = front' ++ '#' :: back') : front = front' ∧ back = back' := by
  have hread := takeWhile_reverse_hash front hback
  rw [h, takeWhile_reverse_hash front' hback', List.reverse_inj] at hread
  subst hread
  exact ⟨List.append_cancel_right h, rfl⟩

theorem and_categoryFlag (h : s.isCategory = true) : s.id &&& categoryFlag = categoryFlag := by
  have hflag : categoryFlag.toBitVec = BitVec.twoPow 64 63 := rfl
  rw [isCategory, bne_iff_ne, ne_eq] at h
  rw [← UInt64.toBitVec_inj, UInt64.toBitVec_and, hflag, BitVec.and_twoPow] at h ⊢
  split at h
  · next hset => exact if_pos hset
  · exact absurd rfl h

theorem id_eq_of_isCategory (h : s.isCategory = true) : s.id = categoryFlag ||| s.number := by
  have hbits : s.id = (s.id &&& categoryFlag) ||| (s.id &&& ~~~categoryFlag) := by
    apply UInt64.eq_of_toBitVec_eq
    ext i hi
    simp only [UInt64.toBitVec_or, UInt64.toBitVec_and, UInt64.toBitVec_not,
      BitVec.getElem_or, BitVec.getElem_and, BitVec.getElem_not]
    cases categoryFlag.toBitVec[i] <;> simp
  rw [and_categoryFlag h] at hbits
  exact hbits

theorem mark_ne_of_isCategory (ha : a.isCategory = true) (hb : b.isCategory = false) :
    a.mark ≠ b.mark := by
  intro h
  have hdigits := Text.isDigits_decimal b.id.toNat
  simp only [mark, ha, hb, if_true, Bool.false_eq_true, if_false] at h
  exact absurd (hdigits.isDigit 'c' (h ▸ List.mem_cons_self)) (by decide)

theorem id_eq_of_mark_eq (h : a.mark = b.mark) : a.id = b.id := by
  cases ha : a.isCategory with
  | true =>
    cases hb : b.isCategory with
    | true =>
      simp only [mark, ha, hb, if_true, List.cons.injEq, true_and] at h
      have hnumber : a.number = b.number := UInt64.toNat_inj.mp (Text.decimal_injective h)
      rw [id_eq_of_isCategory ha, id_eq_of_isCategory hb, hnumber]
    | false => exact absurd h (mark_ne_of_isCategory ha hb)
  | false =>
    cases hb : b.isCategory with
    | true => exact absurd h.symm (mark_ne_of_isCategory hb ha)
    | false =>
      simp only [mark, ha, hb, Bool.false_eq_true, if_false] at h
      exact UInt64.toNat_inj.mp (Text.decimal_injective h)

/-- Ids that are shown alike are equal, whatever their origins look like. -/
theorem toText_eq_toText_iff (a b : ScopedId) : a.toText = b.toText ↔ a = b := by
  constructor
  · intro h
    have hlist := congrArg String.toList h
    rw [toList_toText, toList_toText] at hlist
    obtain ⟨horigin, hmark⟩ :=
      parts_at_last_hash (hash_notMem_mark a) (hash_notMem_mark b) hlist
    have hid : a.id = b.id := id_eq_of_mark_eq hmark
    cases a
    cases b
    rw [ScopedId.mk.injEq]
    exact ⟨String.toList_inj.mp horigin, hid⟩
  · rintro rfl
    rfl

example : (⟨"desk", categoryFlag ||| 1⟩ : ScopedId).toText = "desk#c1" ∧
    (⟨"desk#c1", 2⟩ : ScopedId).toText = "desk#c1#2" := by decide +kernel

end CategorizedIndex.ScopedId
