import CategorizedIndex.Proofs.Commit.Resolve
import CategorizedIndex.Proofs.SiblingValues

/-! # Parents in a replay

A replay changes no tree, so a category that the batch would create is known by its
parent and its step alone. Such a parent stands at an address, like a live one, and no
two parents stand at the same.
-/
namespace CategorizedIndex

theorem Scalar.cmp?_eq_eq_iff {a b : Scalar} : a.cmp? b = some .eq ↔ a = b := by
  constructor
  · intro h
    have hcmp : Slot.compareScalars a b = .eq := by rw [Slot.compareScalars, h, Option.getD_some]
    exact Std.LawfulEqCmp.eq_of_compare hcmp
  · rintro rfl
    have hcmp : Slot.compareScalars a a = .eq := Std.ReflCmp.compare_self
    cases h : a.cmp? a with
    | none => exact absurd rfl (cmp?_eq_none_iff.mp h)
    | some o =>
      rw [Slot.compareScalars, h, Option.getD_some] at hcmp
      rw [hcmp]

namespace Replay

theorem equalValue_iff {a b : Option Scalar} : equalValue a b = true ↔ a = b := by
  cases a with
  | none => cases b <;> simp [equalValue]
  | some a =>
    cases b with
    | none => simp [equalValue]
    | some b => simp [equalValue, Scalar.cmp?_eq_eq_iff]

/-- The address at which a parent stands, or will stand once it is created. -/
inductive Stands (config : Config) (F : Skeleton) (pending : List PendingCategory) :
    Parent → List Label → Prop
  | live {x : EntryId} {c : Core} (hx : F x = some c) (hcat : c.isCategory = true) :
    Stands config F pending (.live x) (F.address x)
  | pending {i : Nat} {P : Parent} {A : List Label} {step : CategoryStep}
    (hi : pending[i]? = some ⟨P, step.column, step.value⟩) (hstep : step.Fits config)
    (above : Stands config F pending P A) :
    Stands config F pending (.pending i) (A ++ [.category step])

structure Apart (config : Config) (F : Skeleton) (pending : List PendingCategory) : Prop where
  distinct : pending.Nodup
  absent : ∀ x step, ⟨.live x, step.column, step.value⟩ ∈ pending → step.Fits config →
    ∀ y c, F y = some c → c.parent = some x → c.label ≠ .category step

variable {config : Config} {F : Skeleton} {n : EntryId} {pending more : List PendingCategory}
  {P Q : Parent} {A B : List Label}

theorem Stands.mono (h : Stands config F pending P A) (hmore : pending <+: more) :
    Stands config F more P A := by
  obtain ⟨tail, rfl⟩ := hmore
  induction h with
  | live hx hcat => exact .live hx hcat
  | pending hi hstep _ ih =>
    have hlt := (List.getElem?_eq_some_iff.mp hi).1
    exact .pending ((List.getElem?_append_left hlt).trans hi) hstep ih

theorem Stands.unique (h : Stands config F pending P A) (h' : Stands config F pending P B) :
    A = B := by
  induction h generalizing B with
  | live _ _ =>
    cases h' with
    | live _ _ => rfl
  | pending hi hstep _ ih =>
    cases h' with
    | pending hi' hstep' above' =>
      have heq := Option.some.inj (hi.symm.trans hi')
      injection heq with hP hcolumn hvalue
      subst hP
      rw [ih above', hstep.eq hstep' hcolumn hvalue]

theorem Stands.eq_address {x : EntryId} (h : Stands config F pending (.live x) A) :
    A = F.address x := by
  cases h with
  | live _ _ => rfl

/-- What stands below an address stands under the parent there. -/
theorem Stands.cases_snoc (hF : F.WellFormed config n) {l : Label}
    (h : Stands config F pending P (A ++ [l])) :
    (∃ x c q, P = .live x ∧ F x = some c ∧ c.parent = some q ∧ c.label = l ∧
      Stands config F pending (.live q) A) ∨
    ∃ i Q step, P = .pending i ∧ l = .category step ∧ step.Fits config ∧
      pending[i]? = some ⟨Q, step.column, step.value⟩ ∧ Stands config F pending Q A := by
  generalize hC : A ++ [l] = C at h
  cases h with
  | @live x c hx hcat =>
    obtain ⟨q, qc, hq, hqc, hqa, hl⟩ := hF.exists_parent hx hC.symm
    obtain ⟨pc, hpc, hpcat⟩ := hF.parent_category hx hq
    exact Or.inl ⟨x, c, q, rfl, hx, hq, hl, hqa ▸ .live hpc hpcat⟩
  | @pending i Q B step hi hstep above =>
    obtain ⟨rfl, hl⟩ := List.append_inj' hC rfl
    exact Or.inr ⟨i, Q, step, rfl, (List.cons.inj hl).1, hstep, hi, above⟩

theorem Stands.eq_root (hF : F.WellFormed config n) (h : Stands config F pending P []) :
    P = .live Tree.root := by
  generalize hA : ([] : List Label) = A at h
  cases h with
  | live hx _ => rw [(hF.address_eq_nil_iff hx).mp hA.symm]
  | pending _ _ _ => simp at hA

/-- An address belongs to one parent. -/
theorem Stands.injective (hF : F.WellFormed config n) (ha : Apart config F pending)
    (h : Stands config F pending P A) (h' : Stands config F pending Q A) : P = Q := by
  induction A using List.reverseRecOn generalizing P Q with
  | nil => rw [h.eq_root hF, h'.eq_root hF]
  | append_singleton A l ih =>
    rcases h.cases_snoc hF with ⟨x, c, q, rfl, hx, hq, hl, habove⟩ |
      ⟨i, R, step, rfl, rfl, hstep, hi, habove⟩
    · rcases h'.cases_snoc hF with ⟨y, d, q', rfl, hy, hq', hl', habove'⟩ |
        ⟨j, R', step', rfl, rfl, hstep', hj, habove'⟩
      · obtain rfl := Parent.live.inj (ih habove habove')
        have hxr := hF.ne_root hx hq
        have hyr := hF.ne_root hy hq'
        rw [hF.distinct hx hy hxr hyr (hq.trans hq'.symm) (hl.trans hl'.symm)]
      · obtain rfl := ih habove habove'
        exact absurd hl (ha.absent q step' (List.mem_of_getElem? hj) hstep' x c hx hq)
    · rcases h'.cases_snoc hF with ⟨y, d, q', rfl, hy, hq', hl', habove'⟩ |
        ⟨j, R', step', rfl, hl', hstep', hj, habove'⟩
      · obtain rfl := ih habove habove'
        exact absurd hl' (ha.absent q' step (List.mem_of_getElem? hi) hstep y d hy hq')
      · obtain rfl := ih habove habove'
        obtain rfl := Label.category.inj hl'
        have hlt : i < pending.length := (List.getElem?_eq_some_iff.mp hi).1
        rw [(List.getElem?_inj hlt ha.distinct).mp (hi.trans hj.symm)]

theorem apart_nil (config : Config) (F : Skeleton) : Apart config F [] :=
  ⟨List.nodup_nil, fun _ _ h => absurd h List.not_mem_nil⟩

theorem stands_root (hF : F.WellFormed config n) :
    Stands config F pending (.live Tree.root) [] :=
  hF.address_root ▸ .live hF.root Core.isCategory_root

theorem findPending?_eq_some {r : Replay} {step : CategoryStep} {i : Nat}
    (h : r.findPending? P step = some i) :
    r.pending[i]? = some ⟨P, step.column, step.value⟩ := by
  rw [findPending?, List.findIdx?_eq_some_iff_getElem] at h
  obtain ⟨hi, hp, -⟩ := h
  simp only [Bool.and_eq_true, decide_eq_true_eq, equalValue_iff] at hp
  obtain ⟨⟨hP, hcolumn⟩, hvalue⟩ := hp
  rw [List.getElem?_eq_getElem hi, ← hP, ← hcolumn, ← hvalue]

theorem findPending?_eq_none {r : Replay} {step : CategoryStep}
    (h : r.findPending? P step = none) : ⟨P, step.column, step.value⟩ ∉ r.pending := by
  intro hmem
  have hself : equalValue step.value step.value = true := equalValue_iff.mpr rfl
  have hnot := List.findIdx?_eq_none_iff.mp h _ hmem
  simp [hself] at hnot

end Replay

end CategorizedIndex
