import CategorizedIndex.Proofs.Prepare
import Mathlib.Data.Nat.Bitwise

/-! # Faults of a change

The value functions of a row run in the order of their columns. Each sees the provided values
overwritten by the results of those declared before it, and the first that fails ends the
row; the first row that fails, in the order of ids, ends the change. Before any of them runs,
the origin and every id are looked at.
-/
namespace CategorizedIndex

theorem Except.mapM_cases {ε α β : Type} (f : α → Except ε β) (l : List α) :
    (∃ bs, l.mapM f = .ok bs ∧ ∀ a ∈ l, ∃ b, f a = .ok b) ∨
      ∃ before a after e, l = before ++ a :: after ∧ (∀ b ∈ before, ∃ c, f b = .ok c) ∧
        f a = .error e ∧ l.mapM f = .error e := by
  induction l with
  | nil => exact Or.inl ⟨[], rfl, fun _ h => absurd h List.not_mem_nil⟩
  | cons a rest ih =>
    rw [mapM_cons_eq]
    cases ha : f a with
    | error e =>
      exact Or.inr ⟨[], a, rest, e, rfl, fun _ h => absurd h List.not_mem_nil, ha, rfl⟩
    | ok b =>
      rcases ih with ⟨bs, hbs, hrest⟩ | ⟨before, c, after, e, rfl, hbefore, hc, hrest⟩
      · exact Or.inl ⟨b :: bs, by rw [hbs]; rfl, List.forall_mem_cons.mpr ⟨⟨b, ha⟩, hrest⟩⟩
      · refine Or.inr ⟨a :: before, c, after, e, rfl,
          List.forall_mem_cons.mpr ⟨⟨b, ha⟩, hbefore⟩, hc, ?_⟩
        rw [hrest]
        rfl

theorem Except.forM_cases {ε α : Type} (f : α → Except ε Unit) (l : List α) :
    l.forM f = .ok () ∨ ∃ a ∈ l, ∃ e, f a = .error e ∧ l.forM f = .error e := by
  induction l with
  | nil => exact Or.inl rfl
  | cons a rest ih =>
    have hcons : (a :: rest).forM f = (f a).bind fun _ => rest.forM f := rfl
    rw [hcons]
    cases ha : f a with
    | error e => exact Or.inr ⟨a, List.mem_cons_self, e, ha, rfl⟩
    | ok _ =>
      rcases ih with hrest | ⟨b, hb, e, hbe, hrest⟩
      · exact Or.inl hrest
      · exact Or.inr ⟨b, List.mem_cons_of_mem _ hb, e, hbe, hrest⟩

theorem ScopedId.isCategory_iff_testBit {s : ScopedId} :
    s.isCategory = true ↔ s.id.toNat.testBit 63 = true := by
  have hflag : categoryFlag.toNat = 2 ^ 63 := rfl
  rw [isCategory, bne_iff_ne, ne_eq, ← UInt64.toNat_inj, UInt64.toNat_and, hflag,
    Nat.and_two_pow]
  cases s.id.toNat.testBit 63 <;> simp

namespace Row

/-- The row with the result of a column's value function, if it has one, in its place. -/
def overwrite (row : Row) (column : Column) : Row :=
  match column.compute with
  | none => row
  | some compute =>
    match compute row with
    | .ok value => { row with values := row.values.insert column.item value }
    | .error _ => row

/-- The row as the value function at a place among the columns sees it. -/
def seenAt (row : Row) (columns : List Column) (place : Nat) : Row :=
  (columns.take place).foldl overwrite row

/-- The row after all value functions. -/
def filled (row : Row) (columns : List Column) : Row := columns.foldl overwrite row

/-- The column at a place has a value function, which fails with a message. -/
def FailsAt (row : Row) (columns : List Column) (place : Nat) (message : String) : Prop :=
  ∃ column compute, columns[place]? = some column ∧ column.compute = some compute ∧
    compute (row.seenAt columns place) = .error message

/-- No value function fails. -/
def Passes (row : Row) (columns : List Column) : Prop :=
  ∀ place message, ¬row.FailsAt columns place message

/-- The error names the first column that fails, with its message and the row. -/
def FirstFailure (row : Row) (columns : List Column) (e : Error) : Prop :=
  ∃ place column message, columns[place]? = some column ∧ row.FailsAt columns place message ∧
    (∀ earlier < place, ∀ other, ¬row.FailsAt columns earlier other) ∧
    e = .valueFunction column.item (message ++ " (row " ++ row.scopedId.toText ++ ")")

variable {row : Row} {column : Column} {columns rest : List Column} {message : String}
  {place : Nat} {e : Error}

theorem scopedId_overwrite : (row.overwrite column).scopedId = row.scopedId := by
  unfold overwrite
  split
  · rfl
  · split <;> rfl

theorem filled_eq (row : Row) (columns : List Column) :
    row.filled columns = { row with values := (row.filled columns).values } := by
  have hunid : ∀ (row : Row) column, (row.overwrite column).unid = row.unid := by
    intro row column
    unfold overwrite
    split
    · rfl
    · split <;> rfl
  induction columns generalizing row with
  | nil => rfl
  | cons column rest ih =>
    have hrest := ih (row.overwrite column)
    rw [scopedId_overwrite, hunid] at hrest
    exact hrest

theorem failsAt_zero : row.FailsAt (column :: rest) 0 message ↔
    ∃ compute, column.compute = some compute ∧ compute row = .error message := by
  constructor
  · rintro ⟨_, compute, hcolumn, hcompute, hfails⟩
    obtain rfl := Option.some.inj hcolumn
    exact ⟨compute, hcompute, hfails⟩
  · rintro ⟨compute, hcompute, hfails⟩
    exact ⟨column, compute, rfl, hcompute, hfails⟩

theorem failsAt_succ : row.FailsAt (column :: rest) (place + 1) message ↔
    (row.overwrite column).FailsAt rest place message := Iff.rfl

theorem passes_cons : row.Passes (column :: rest) ↔
    (∀ message, ¬row.FailsAt (column :: rest) 0 message) ∧
      (row.overwrite column).Passes rest := by
  constructor
  · intro h
    exact ⟨h 0, fun place message hfails => h (place + 1) message (failsAt_succ.mpr hfails)⟩
  · rintro ⟨hfirst, hrest⟩ place message hfails
    cases place with
    | zero => exact hfirst message hfails
    | succ place => exact hrest place message (failsAt_succ.mp hfails)

theorem FirstFailure.cons (hfirst : ∀ message, ¬row.FailsAt (column :: rest) 0 message)
    (h : (row.overwrite column).FirstFailure rest e) : row.FirstFailure (column :: rest) e := by
  obtain ⟨place, failing, message, hcolumn, hfails, hearlier, rfl⟩ := h
  refine ⟨place + 1, failing, message, hcolumn, failsAt_succ.mpr hfails,
    fun earlier hlt other hother => ?_, by rw [scopedId_overwrite]⟩
  cases earlier with
  | zero => exact hfirst other hother
  | succ earlier =>
    exact hearlier earlier (Nat.lt_of_succ_lt_succ hlt) other (failsAt_succ.mp hother)

theorem FirstFailure.not_passes (h : row.FirstFailure columns e) : ¬row.Passes columns := by
  obtain ⟨place, -, message, -, hfails, -⟩ := h
  exact fun hpasses => hpasses place message hfails

theorem FirstFailure.kind_eq (h : row.FirstFailure columns e) : e.kind = .valueFunction := by
  obtain ⟨_, _, _, _, _, _, rfl⟩ := h
  rfl

end Row

namespace Batch

variable {row : Row} {column : Column} {rest : List Column} {message : String}

theorem computeValues_cons (h : ∀ message, ¬row.FailsAt (column :: rest) 0 message) :
    computeValues (column :: rest) row = computeValues rest (row.overwrite column) := by
  rw [computeValues, Row.overwrite]
  cases hcompute : column.compute with
  | none => rfl
  | some compute =>
    cases hresult : compute row with
    | ok value => simp only [hresult]
    | error message =>
      exact absurd (Row.failsAt_zero.mpr ⟨compute, hcompute, hresult⟩) (h message)

theorem computeValues_of_failsAt_zero (h : row.FailsAt (column :: rest) 0 message) :
    computeValues (column :: rest) row =
      .error (.valueFunction column.item (message ++ " (row " ++ row.scopedId.toText ++ ")")) := by
  obtain ⟨compute, hcompute, hmessage⟩ := Row.failsAt_zero.mp h
  rw [computeValues, hcompute]
  simp only [hmessage]

theorem computeValues_cases (row : Row) (columns : List Column) :
    (row.Passes columns ∧ computeValues columns row = .ok (row.filled columns).values) ∨
      ∃ e, row.FirstFailure columns e ∧ computeValues columns row = .error e := by
  induction columns generalizing row with
  | nil =>
    refine Or.inl ⟨fun place message h => ?_, rfl⟩
    obtain ⟨_, _, hcolumn, _⟩ := h
    cases hcolumn
  | cons column rest ih =>
    by_cases hfirst : ∀ message, ¬row.FailsAt (column :: rest) 0 message
    · rw [computeValues_cons hfirst]
      rcases ih (row.overwrite column) with ⟨hpasses, hok⟩ | ⟨e, hfailure, herror⟩
      · exact Or.inl ⟨Row.passes_cons.mpr ⟨hfirst, hpasses⟩, hok⟩
      · exact Or.inr ⟨e, hfailure.cons hfirst, herror⟩
    · obtain ⟨message, hfails⟩ := not_forall_not.mp hfirst
      refine Or.inr ⟨_, ⟨0, column, message, rfl, hfails, fun _ hlt => ?_, rfl⟩,
        computeValues_of_failsAt_zero hfails⟩
      exact absurd hlt (Nat.not_lt_zero _)

theorem computeValues_of_passes {columns : List Column} (h : row.Passes columns) :
    computeValues columns row = .ok (row.filled columns).values := by
  rcases computeValues_cases row columns with ⟨-, hok⟩ | ⟨e, hfailure, -⟩
  · exact hok
  · exact absurd h hfailure.not_passes

theorem prepareRow_cases (config : Config) (accept : Option RowFilter) (origin : String)
    (id : UInt64) (addition : Addition) :
    (Row.Passes ⟨⟨origin, id⟩, addition.unid, addition.values⟩ config.columns ∧
        ∃ row, prepareRow config accept origin id addition = .ok row) ∨
      ∃ e, Row.FirstFailure ⟨⟨origin, id⟩, addition.unid, addition.values⟩ config.columns e ∧
        prepareRow config accept origin id addition = .error e := by
  rw [prepareRow_eq]
  rcases computeValues_cases ⟨⟨origin, id⟩, addition.unid, addition.values⟩ config.columns with
    ⟨hpasses, hok⟩ | ⟨e, hfailure, herror⟩
  · rw [hok]
    exact Or.inl ⟨hpasses, _, rfl⟩
  · rw [herror]
    exact Or.inr ⟨e, hfailure, rfl⟩

theorem checkOrigin_eq_ok {origin : String} :
    checkOrigin origin = .ok () ↔ origin ≠ "" ∧ origin ≠ ScopedId.categoryOrigin := by
  unfold checkOrigin
  split
  · next hempty => simp [hempty]
  · next hempty =>
    split
    · next hreserved => simp [hreserved]
    · next hreserved => simp [hempty, hreserved]

theorem kind_of_checkOrigin {origin : String} {e : Error} (h : checkOrigin origin = .error e) :
    e.kind = .invalidInput := by
  unfold checkOrigin at h
  split at h
  · exact Except.error.inj h ▸ rfl
  · split at h
    · exact Except.error.inj h ▸ rfl
    · cases h

theorem kind_of_checkId {origin : String} {id : UInt64} {e : Error}
    (h : checkId origin id = .error e) : e.kind = .invalidInput := by
  unfold checkId at h
  split at h
  · exact Except.error.inj h ▸ rfl
  · cases h

end Batch

namespace Change

/-- The row of an addition as it is provided. -/
def rowOf (change : Change) (id : UInt64) (addition : Addition) : Row :=
  ⟨⟨change.origin, id⟩, addition.unid, addition.values⟩

/-- The origin is none that may report, or an id has the bit of the categories. -/
def Refused (change : Change) : Prop :=
  change.origin = "" ∨ change.origin = ScopedId.categoryOrigin ∨
    ∃ id, (id ∈ change.removals ∨ id ∈ change.additions) ∧ id.toNat.testBit 63 = true

/-- Some value function fails on some addition. -/
def Fails (change : Change) (columns : List Column) : Prop :=
  ∃ id addition place message, change.additions[id]? = some addition ∧
    (change.rowOf id addition).FailsAt columns place message

/-- The error is the first failure of the first row with one, in the order of ids. -/
def FirstFailure (change : Change) (columns : List Column) (e : Error) : Prop :=
  ∃ id addition, change.additions[id]? = some addition ∧
    (change.rowOf id addition).FirstFailure columns e ∧
    ∀ lower < id, ∀ other, change.additions[lower]? = some other →
      (change.rowOf lower other).Passes columns

variable {change : Change} {columns : List Column} {e : Error}

theorem FirstFailure.fails (h : change.FirstFailure columns e) : change.Fails columns := by
  obtain ⟨id, addition, hid, ⟨place, -, message, -, hfails, -⟩, -⟩ := h
  exact ⟨id, addition, place, message, hid, hfails⟩

theorem FirstFailure.kind_eq (h : change.FirstFailure columns e) : e.kind = .valueFunction := by
  obtain ⟨_, _, _, hfailure, _⟩ := h
  exact hfailure.kind_eq

theorem not_refused_iff :
    ¬change.Refused ↔ Batch.checkOrigin change.origin = .ok () ∧
      ∀ id ∈ change.removals.toList ++ change.additions.keys,
        Batch.checkId change.origin id = .ok () := by
  have hmem : ∀ id, id ∈ change.removals.toList ++ change.additions.keys ↔
      id ∈ change.removals ∨ id ∈ change.additions := fun id => by
    rw [List.mem_append, Std.ExtTreeSet.mem_toList, Std.ExtTreeMap.mem_keys]
  have hid : ∀ id, Batch.checkId change.origin id = .ok () ↔ ¬id.toNat.testBit 63 = true :=
    fun id => by
      rw [Batch.checkId_eq_ok, Bool.eq_false_iff, ne_eq, ScopedId.isCategory_iff_testBit]
  simp only [Refused, Batch.checkOrigin_eq_ok, hmem, hid, not_or, not_exists, not_and, ne_eq,
    and_assoc]

theorem rows_cases (change : Change) (config : Config) (accept : Option RowFilter) :
    (¬change.Fails config.columns ∧ ∃ rows, (change.additions.toList.mapM fun a =>
        Batch.prepareRow config accept change.origin a.1 a.2) = .ok rows) ∨
      ∃ e, change.FirstFailure config.columns e ∧ (change.additions.toList.mapM fun a =>
        Batch.prepareRow config accept change.origin a.1 a.2) = .error e := by
  have hpasses : ∀ a : UInt64 × Addition,
      (∃ row, Batch.prepareRow config accept change.origin a.1 a.2 = .ok row) →
        (change.rowOf a.1 a.2).Passes config.columns := by
    rintro ⟨id, addition⟩ ⟨row, hrow⟩
    rcases Batch.prepareRow_cases config accept change.origin id addition with
      ⟨h, -⟩ | ⟨e, -, herror⟩
    · exact h
    · rw [herror] at hrow
      cases hrow
  have hmem : ∀ {id addition}, change.additions[id]? = some addition →
      (id, addition) ∈ change.additions.toList :=
    Std.ExtTreeMap.mem_toList_iff_getElem?_eq_some.mpr
  rcases Except.mapM_cases (fun a : UInt64 × Addition =>
      Batch.prepareRow config accept change.origin a.1 a.2) change.additions.toList with
    ⟨rows, hrows, hall⟩ | ⟨before, ⟨id, addition⟩, after, e, hlist, hbefore, hfailing, herror⟩
  · refine Or.inl ⟨?_, rows, hrows⟩
    rintro ⟨id, addition, place, message, hid, hfails⟩
    exact hpasses (id, addition) (hall _ (hmem hid)) place message hfails
  · have hfailure : (change.rowOf id addition).FirstFailure config.columns e := by
      rcases Batch.prepareRow_cases config accept change.origin id addition with
        ⟨-, row, hrow⟩ | ⟨e', h, herror'⟩
      · exact nomatch hfailing.symm.trans hrow
      · exact Except.error.inj (hfailing.symm.trans herror') ▸ h
    have hid : change.additions[id]? = some addition := by
      rw [← Std.ExtTreeMap.mem_toList_iff_getElem?_eq_some, hlist]
      exact List.mem_append_right _ List.mem_cons_self
    have hordered := Std.ExtTreeMap.ordered_keys_toList (t := change.additions)
    rw [hlist] at hordered
    have hafter := (List.pairwise_cons.mp (List.pairwise_append.mp hordered).2.1).1
    refine Or.inr ⟨e, ⟨id, addition, hid, hfailure, fun lower hlt other hother => ?_⟩, herror⟩
    have hlower := hmem hother
    rw [hlist] at hlower
    rcases List.mem_append.mp hlower with hlower | hlower
    · exact hpasses (lower, other) (hbefore _ hlower)
    · rcases List.mem_cons.mp hlower with heq | hlower
      · exact absurd ((Prod.mk.inj heq).1 ▸ hlt) (UInt64.lt_irrefl id)
      · have habove : id < lower := compareOfLessAndEq_eq_lt.mp (hafter _ hlower)
        exact absurd (UInt64.lt_trans habove hlt) (UInt64.lt_irrefl id)

theorem prepare_cases (change : Change) (config : Config) (accept : Option RowFilter) :
    (change.Refused ∧ ∃ e, change.prepare config accept = .error e ∧ e.kind = .invalidInput) ∨
    (¬change.Refused ∧ ∃ e, change.FirstFailure config.columns e ∧
      change.prepare config accept = .error e) ∨
    (¬change.Refused ∧ ¬change.Fails config.columns ∧
      ∃ batch, change.prepare config accept = .ok batch) := by
  rw [prepare_eq]
  cases horigin : Batch.checkOrigin change.origin with
  | error e =>
    refine Or.inl ⟨?_, e, rfl, Batch.kind_of_checkOrigin horigin⟩
    by_contra hrefused
    exact nomatch horigin.symm.trans (not_refused_iff.mp hrefused).1
  | ok _ =>
    simp only [Except.bind]
    rcases Except.forM_cases (Batch.checkId change.origin)
        (change.removals.toList ++ change.additions.keys) with hids | ⟨id, hid, e, he, hids⟩
    · have hrefused := not_refused_iff.mpr ⟨horigin, Except.forM_eq_ok.mp hids⟩
      rw [hids]
      rcases rows_cases change config accept with ⟨hfails, rows, hrows⟩ | ⟨e, hfailure, herror⟩
      · exact Or.inr (Or.inr ⟨hrefused, hfails, _, by rw [hrows]⟩)
      · exact Or.inr (Or.inl ⟨hrefused, e, hfailure, by rw [herror]⟩)
    · rw [hids]
      refine Or.inl ⟨?_, e, rfl, Batch.kind_of_checkId he⟩
      by_contra hrefused
      exact nomatch he.symm.trans ((not_refused_iff.mp hrefused).2 id hid)

theorem passes_of_prepare {config : Config} {accept : Option RowFilter} {batch : Batch}
    (h : change.prepare config accept = .ok batch) {id : UInt64} {addition : Addition}
    (hid : change.additions[id]? = some addition) :
    (change.rowOf id addition).Passes config.columns := by
  rcases change.prepare_cases config accept with ⟨-, e, he, -⟩ | ⟨-, e, -, he⟩ | ⟨-, hfails, -⟩
  · exact nomatch he.symm.trans h
  · exact nomatch he.symm.trans h
  · exact fun place message hfailing => hfails ⟨id, addition, place, message, hid, hfailing⟩

end Change

end CategorizedIndex
