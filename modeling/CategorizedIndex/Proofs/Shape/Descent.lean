import CategorizedIndex.Proofs.Shape.Links

/-! # The descent ends

Before the check goes on below a child it has seen that the child names its parent. So on
a tree whose root has no parent it never comes back to an entry, and the bound on its
depth is never met: a larger bound gives the same answer.
-/
namespace CategorizedIndex

/-- A check that was not given up because its descent went too deep. -/
def Finished {α : Type} (r : Except Error α) : Prop :=
  ∀ id, r ≠ .error (.broken (.endlessDescent id))

section Finished

variable {α β : Type}

theorem finished_ok (a : α) : Finished (.ok a) := nofun

theorem finished_error {violation : Violation} (h : ∀ id, violation ≠ .endlessDescent id) :
    Finished (.error (.broken violation) : Except Error α) :=
  fun id heq => h id (Error.broken.inj (Except.error.inj heq))

theorem finished_bind {r : Except Error α} {f : α → Except Error β} (hr : Finished r)
    (hf : ∀ a, r = .ok a → Finished (f a)) : Finished (r.bind f) := by
  cases r with
  | error e => exact fun id heq => hr id (congrArg Except.error (Except.error.inj heq))
  | ok a => exact hf a rfl

theorem finished_forM {l : List α} {f : α → Except Error PUnit} (hf : ∀ a ∈ l, Finished (f a)) :
    Finished (l.forM f) := by
  induction l with
  | nil => exact finished_ok _
  | cons a rest ih =>
    obtain ⟨ha, hrest⟩ := List.forall_mem_cons.mp hf
    exact finished_bind ha fun _ _ => ih hrest

theorem finished_require (b : Bool) {violation : Violation}
    (h : ∀ id, violation ≠ .endlessDescent id) : Finished (Tree.require b violation) := by
  rw [Tree.require]
  split
  · exact finished_ok ()
  · exact finished_error h

end Finished

theorem Bound.finished_tryCmp {α : Type} {f : α → α → Except Error Ordering}
    (hf : ∀ x y, Finished (f x y)) (a b : Bound α) : Finished (tryCmp f a b) := by
  cases a <;> cases b
  case value.value x y => exact hf x y
  all_goals exact nofun

theorem Slot.finished_tryCmp (position : Nat) (a b : Slot) : Finished (a.tryCmp position b) := by
  refine Bound.finished_tryCmp (fun x y => ?_) _ _
  split
  · exact nofun
  · unfold tryCompareValues
    split
    · split <;> exact nofun
    · exact nofun

namespace SortKey

theorem finished_orElse {r : Except Error Ordering} {next : Unit → Except Error Ordering}
    (hr : Finished r) (hnext : Finished (next ())) : Finished (orElse r next) := by
  cases r with
  | error e => exact hr
  | ok o =>
    cases o with
    | eq => exact hnext
    | lt => exact finished_ok _
    | gt => exact finished_ok _

theorem finished_tryCompareSlots (as bs : List Slot) (position : Nat) :
    Finished (tryCompareSlots position as bs) := by
  induction as generalizing bs position with
  | nil => exact finished_ok _
  | cons a as ih =>
    cases bs with
    | nil => exact finished_ok _
    | cons b bs => exact finished_orElse (a.finished_tryCmp position b) (ih bs (position + 1))

theorem finished_tryCmp (a b : SortKey) : Finished (a.tryCmp b) :=
  finished_orElse (finished_ok _) <| finished_orElse (finished_ok _) <|
  finished_orElse (finished_tryCompareSlots _ _ _) <| finished_orElse (finished_ok _) <|
  finished_orElse (Bound.finished_tryCmp (fun _ _ => finished_ok _) _ _) (finished_ok _)

end SortKey

namespace Tree

open Relation

variable {t : Tree} {strict : Bool} {id x y rank : Nat} {rest : List (SortKey × EntryId)}
  {w : Walk} {visit visit' : EntryId → Except Error Census} {fuel : Nat} {e : Entry}

theorem finished_compareKeys (strict : Bool) (a b : SortKey) :
    Finished (compareKeys strict a b) := by
  cases strict with
  | false => exact finished_ok _
  | true => exact SortKey.finished_tryCmp a b

theorem finished_checkChild (previous : Option SortKey) (key : SortKey) (child : Entry) :
    Finished (checkChild strict id rank previous key y child) := by
  rw [checkChild_eq]
  refine finished_bind (finished_require _ nofun) fun _ _ =>
    finished_bind (finished_compareKeys _ _ _) fun _ _ =>
    finished_bind (finished_require _ nofun) fun _ _ =>
    finished_bind (finished_require _ nofun) fun _ _ => ?_
  cases previous with
  | none => exact finished_ok ()
  | some p => exact finished_bind (finished_compareKeys _ _ _) fun _ _ => finished_require _ nofun

theorem finished_checkChildren (hvisit : ∀ y, t.Hangs id y → Finished (visit y)) :
    Finished (checkChildren t strict visit id rank rest w) := by
  induction rest generalizing rank w with
  | nil => exact finished_ok w
  | cons first rest ih =>
    obtain ⟨key, y⟩ := first
    cases hy : t.get? y with
    | none =>
      rw [checkChildren_cons_of_missing hy]
      exact finished_error nofun
    | some child =>
      rw [checkChildren_cons hy]
      refine finished_bind (finished_checkChild _ _ _) fun _ hchild =>
        finished_bind (finished_require _ nofun) fun _ _ => finished_bind ?_ fun _ _ => ih
      exact hvisit y ⟨child, hy, (checkChild_eq_ok_iff.mp hchild).1⟩

/-- The check of children depends only on what is visited: children that name their parent. -/
theorem checkChildren_congr (hvisit : ∀ y, t.Hangs id y → visit y = visit' y) :
    checkChildren t strict visit id rank rest w = checkChildren t strict visit' id rank rest w := by
  induction rest generalizing rank w with
  | nil => rfl
  | cons first rest ih =>
    obtain ⟨key, y⟩ := first
    cases hy : t.get? y with
    | none => rw [checkChildren_cons_of_missing hy, checkChildren_cons_of_missing hy]
    | some child =>
      rw [checkChildren_cons hy, checkChildren_cons hy]
      cases hchild : checkChild strict id rank w.previous key y child with
      | error e => rfl
      | ok u =>
        rw [hvisit y ⟨child, hy, (checkChild_eq_ok_iff.mp hchild).1⟩]
        simp only [ih]

theorem firstWrongCounter?_ne_endless {violation : Violation}
    (h : firstWrongCounter? e w = some violation) (id : EntryId) :
    violation ≠ .endlessDescent id := by
  obtain ⟨counter, -, hcounter⟩ := List.exists_of_findSome?_eq_some h
  rintro rfl
  simp at hcounter

/-- With more levels than entries hang below, the descent is not given up. -/
theorem Rooted.finished_checkBelow (h : t.Rooted) (hx : t.Attached x)
    (hfuel : (t.underneath x).card < fuel) : Finished (t.checkBelow strict fuel x) := by
  induction fuel generalizing x with
  | zero => exact absurd hfuel (Nat.not_lt_zero _)
  | succ fuel ih =>
    cases hget : t.get? x with
    | none =>
      rw [checkBelow_succ_of_missing fuel hget]
      exact finished_error nofun
    | some e =>
      rw [checkBelow_succ fuel hget]
      refine finished_bind (finished_require _ nofun) fun _ _ =>
        finished_bind (finished_require _ nofun) fun _ _ =>
        finished_bind (finished_checkChildren fun y hy => ih (hx.tail hy) ?_) fun w _ => ?_
      · exact Nat.lt_of_lt_of_le (h.card_underneath_lt hx hy) (Nat.le_of_lt_succ hfuel)
      · cases hwrong : firstWrongCounter? e w with
        | none => exact finished_ok _
        | some violation => exact finished_error (firstWrongCounter?_ne_endless hwrong)

/-- Any two bounds with more levels than entries hang below give one answer. -/
theorem Rooted.checkBelow_eq_checkBelow (h : t.Rooted) (hx : t.Attached x) {f g : Nat}
    (hf : (t.underneath x).card < f) (hg : (t.underneath x).card < g) :
    t.checkBelow strict f x = t.checkBelow strict g x := by
  induction f generalizing g x with
  | zero => exact absurd hf (Nat.not_lt_zero _)
  | succ f ih =>
    obtain ⟨g, rfl⟩ := Nat.exists_eq_succ_of_ne_zero (Nat.ne_zero_of_lt hg)
    cases hget : t.get? x with
    | none => rw [checkBelow_succ_of_missing f hget, checkBelow_succ_of_missing g hget]
    | some e =>
      have hvisit : ∀ y, t.Hangs x y → t.checkBelow strict f y = t.checkBelow strict g y := by
        intro y hy
        have hlt := h.card_underneath_lt hx hy
        exact ih (hx.tail hy) (by omega) (by omega)
      rw [checkBelow_succ f hget, checkBelow_succ g hget, checkChildren_congr hvisit]

theorem finished_checkIndex (t : Tree) : Finished t.checkIndex := by
  rw [checkIndex_eq]
  refine finished_bind (finished_forM fun a _ => ?_) fun _ _ => finished_require _ nofun
  rw [checkPlacements_eq]
  exact finished_bind (finished_require _ nofun) fun _ _ =>
    finished_bind (finished_forM fun _ _ => finished_require _ nofun) fun _ _ =>
    finished_require _ nofun

theorem Rooted.finished_verifyIntegrity (h : t.Rooted) : Finished (t.verifyIntegrity strict) := by
  rw [verifyIntegrity_eq]
  exact finished_bind (h.finished_checkBelow .refl (Nat.lt_succ_of_le (t.card_underneath_le root)))
    fun _ _ => finished_bind (finished_require _ nofun) fun _ _ =>
    finished_bind t.finished_checkIndex fun _ _ => finished_require _ nofun

end Tree

end CategorizedIndex
