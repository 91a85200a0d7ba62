import CategorizedIndex.Computation
import CategorizedIndex.Proofs.Prepare.Faults
import CategorizedIndex.Proofs.Reachable

/-! # How changes fail

A change goes through three stages, and the first that turns it down says why: the
origin and the ids, then the value functions, then, in a strict index, the kinds of the
values that its commit would put side by side. Only what passes all three is committed, so a
change that fails has no part in anything that comes after it.
-/
namespace CategorizedIndex.Index

/-- The stages of a change and what each of them decides. -/
structure Decides (x : Index) (change : Change) : Prop where
  refuses : (∃ e, x.apply change = .error e ∧ e.kind = .invalidInput) ↔ change.Refused
  fails : ¬change.Refused →
    ((∃ e, x.apply change = .error e ∧ e.kind = .valueFunction) ↔ change.Fails x.config.columns)
  reports : ∀ e, x.apply change = .error e → e.kind = .valueFunction →
    change.FirstFailure x.config.columns e
  mixes : ¬change.Refused → ¬change.Fails x.config.columns →
    ∃ batch, change.prepare x.config x.filter = .ok batch ∧
      let committed := x.tree.commit x.config batch
      ((∃ e, x.apply change = .error e ∧ e.kind = .comparison) ↔
        x.config.strict = true ∧ ¬committed.1.OneKind) ∧
      (¬(x.config.strict = true ∧ ¬committed.1.OneKind) →
        x.apply change = .ok ({ x with tree := committed.1 }, committed.2))

section Steps

variable {β : Type} (x y : Index)

theorem run_get (next : Index → ExceptT Error (StateM Index) β) :
    (get >>= next).run x = (next x).run x := rfl

theorem run_set (next : PUnit → ExceptT Error (StateM Index) β) :
    (set y >>= next).run x = (next ()).run y := rfl

theorem run_pure (b : β) : (pure b : ExceptT Error (StateM Index) β).run x = (.ok b, x) := rfl

theorem run_liftExcept {α : Type} (r : Except Error α)
    (next : α → ExceptT Error (StateM Index) β) :
    (liftExcept r >>= next).run x = match r with
      | .error e => (.error e, x)
      | .ok a => (next a).run x := by
  cases r <;> rfl

end Steps

theorem run_perform (x : Index) (operation : Operation) :
    (perform operation).run x =
      ((x.apply (x.changeOf operation)).map (·.2), x.after operation) := by
  rw [after_eq, apply_eq, perform, run_get, run_liftExcept]
  cases (x.changeOf operation).prepare x.config x.filter with
  | error e => rfl
  | ok batch =>
    simp only [Except.bind]
    split
    · rw [run_liftExcept]
      cases x.tree.checkKinds x.config batch with
      | error e => rfl
      | ok _ =>
        simp only [run_set, run_pure]
        rfl
    · simp only [run_set, run_pure]
      rfl

variable {x : Index} {change : Change} {batch : Batch} {T : Table}

theorem session_cons_of_error {operation : Operation} {e : Error}
    (h : x.apply (x.changeOf operation) = .error e) (later : List Operation) :
    x.session (operation :: later) = (.error e :: (x.session later).1, (x.session later).2) := by
  rw [session, run_perform, after_eq, h]
  rfl

theorem Maintains.apply_of_prepared (h : x.Maintains T)
    (hprepare : change.prepare x.config x.filter = .ok batch) :
    let committed := x.tree.commit x.config batch
    (x.config.strict = true ∧ ¬committed.1.OneKind ∧
      ∃ e, x.apply change = .error e ∧ e.kind = .comparison) ∨
    (¬(x.config.strict = true ∧ ¬committed.1.OneKind) ∧
      x.apply change = .ok ({ x with tree := committed.1 }, committed.2)) := by
  intro committed
  have happly := x.apply_eq change
  rw [hprepare] at happly
  by_cases hstrict : x.config.strict = true
  · have hb := Change.prepare_fits hprepare
    obtain ⟨hiff, herror⟩ := h.settled.checkKinds_spec (h.oneKind hstrict) hb
      (Change.prepare_nodup hprepare)
    rw [← (h.settled.commit hb).oneKind_iff] at hiff
    cases hcheck : x.tree.checkKinds x.config batch with
    | error e =>
      refine Or.inl ⟨hstrict, fun hone => ?_, e, ?_, ?_⟩
      · exact nomatch hcheck.symm.trans (hiff.mpr hone)
      · simp only [happly, Except.bind, if_pos hstrict, hcheck]
      · obtain ⟨_, _, _, _, rfl, _⟩ := herror e hcheck
        rfl
    | ok _ =>
      refine Or.inr ⟨fun hmixed => hmixed.2 (hiff.mp hcheck), ?_⟩
      simp only [happly, Except.bind, if_pos hstrict, hcheck, committed]
  · refine Or.inr ⟨fun hmixed => hstrict hmixed.1, ?_⟩
    simp only [happly, Except.bind, if_neg hstrict, committed]

theorem exists_error_iff {e : Error} {P : Error → Prop} (h : x.apply change = .error e) :
    (∃ e', x.apply change = .error e' ∧ P e') ↔ P e := by
  simp only [h, Except.error.injEq, exists_eq_left']

theorem not_exists_error {r : Index × Stats} {P : Error → Prop} (h : x.apply change = .ok r) :
    ¬∃ e, x.apply change = .error e ∧ P e := by
  rintro ⟨e, he, -⟩
  exact nomatch he.symm.trans h

theorem Maintains.decides (h : x.Maintains T) (change : Change) : x.Decides change := by
  rcases change.prepare_cases x.config x.filter with
    ⟨hrefused, e, hprepare, hkind⟩ | ⟨hrefused, e, hfirst, hprepare⟩ |
      ⟨hrefused, hfails, batch, hprepare⟩
  · have happly : x.apply change = .error e := by rw [apply_eq, hprepare]; rfl
    refine ⟨(exists_error_iff happly).trans (iff_of_true hkind hrefused),
      fun h => absurd hrefused h, fun e' he' hkind' => ?_, fun h => absurd hrefused h⟩
    obtain rfl := Except.error.inj (happly.symm.trans he')
    exact nomatch hkind.symm.trans hkind'
  · have happly : x.apply change = .error e := by rw [apply_eq, hprepare]; rfl
    have hkind := hfirst.kind_eq
    refine ⟨(exists_error_iff happly).trans (iff_of_false (by rw [hkind]; nofun) hrefused),
      fun _ => (exists_error_iff happly).trans (iff_of_true hkind hfirst.fails),
      fun e' he' _ => ?_, fun _ h => absurd hfirst.fails h⟩
    exact Except.error.inj (happly.symm.trans he') ▸ hfirst
  · have hdecided := h.apply_of_prepared hprepare
    have hother : ∀ {kind}, kind ≠ .comparison →
        ¬∃ e, x.apply change = .error e ∧ e.kind = kind := by
      intro kind hne
      rcases hdecided with ⟨-, -, e, happly, hkind⟩ | ⟨-, happly⟩
      · rw [exists_error_iff happly, hkind]
        exact hne.symm
      · exact not_exists_error happly
    refine ⟨iff_of_false (hother nofun) hrefused, fun _ => iff_of_false (hother nofun) hfails,
      fun e he hkind => absurd ⟨e, he, hkind⟩ (hother nofun), fun _ _ => ⟨batch, hprepare, ?_⟩⟩
    rcases hdecided with ⟨hstrict, hmixed, e, happly, hkind⟩ | ⟨hone, happly⟩
    · exact ⟨(exists_error_iff happly).trans (iff_of_true hkind ⟨hstrict, hmixed⟩),
        fun hone => absurd ⟨hstrict, hmixed⟩ hone⟩
    · exact ⟨iff_of_false (not_exists_error happly) hone, fun _ => happly⟩

variable {name : String} {config : Config} {filter : Option RowFilter}

/-- On every index that is reached the stages decide each change, and an operation that fails
is not seen in anything done later: not in a result, an entry id or a category. -/
theorem decides_and_forgets (hbuild : build name config filter = .ok x)
    (operations : List Operation) :
    let y := x.run operations
    (∀ change, y.Decides change) ∧
    ∀ operation e, y.apply (y.changeOf operation) = .error e → ∀ later,
      y.session (operation :: later) = (.error e :: (y.session later).1, (y.session later).2) := by
  obtain ⟨T, hT⟩ := (maintains_build hbuild).run operations
  exact ⟨hT.decides, fun operation e he later => session_cons_of_error he later⟩

/-- A strict index whose rows have a total, which has to be there for the note that copies it. -/
def summed : Index where
  name := "summed"
  config := ⟨'\\', .expanded, true,
    [⟨"Group", "group", true, some .ascending, none, none⟩,
      ⟨"Total", "total", false, none, none, some (Computation.sum ["price"]).eval⟩,
      ⟨"Note", "note", false, none, none, some (Computation.require "total").eval⟩]⟩
  filter := none
  tree := .empty

/-- A row with a price. -/
def priced (price : Scalar) : Addition :=
  ⟨"unid", (∅ : ColumnValues).insert "price" (.single price)⟩

theorem build_summed : build "summed" summed.config none = .ok summed :=
  build_of_faultless (by decide +kernel)

/-- Of two rows without a total, in a change that also withdraws a row, the lower is reported,
and the withdrawal is undone with it. -/
theorem forgets_row_without_total :
    let y := summed.run [.change ((Change.empty "desk").add 1 (priced (.number .zero)))]
    let change := (((Change.empty "desk").remove 1).add 3 (priced (.text "gift"))).add 2
      (priced (.text "free"))
    let e : Error := .valueFunction "total" "not a number: 'free' (row desk#2)"
    build "summed" summed.config none = .ok summed ∧ y.apply change = .error e ∧
      change.FirstFailure y.config.columns e ∧
      y.session [.change change, .withdrawal "desk"] =
        (.error e :: (y.session [.withdrawal "desk"]).1, (y.session [.withdrawal "desk"]).2) := by
  intro y change e
  obtain ⟨hdecides, hforgets⟩ := decides_and_forgets build_summed
    [.change ((Change.empty "desk").add 1 (priced (.number .zero)))]
  have hresult : (y.apply change).map (·.2) = .error e := by decide +kernel
  have herror : y.apply change = .error e := by
    cases happly : y.apply change with
    | error e' => exact congrArg Except.error (Except.error.inj (happly ▸ hresult))
    | ok r => exact nomatch (happly ▸ hresult : (Except.ok r).map (·.2) = .error e)
  exact ⟨build_summed, herror, (hdecides change).reports e herror rfl,
    hforgets (.change change) e herror [.withdrawal "desk"]⟩

end CategorizedIndex.Index
