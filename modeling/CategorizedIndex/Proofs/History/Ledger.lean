import CategorizedIndex.Proofs.Reachable

/-! # Ledgers

The rows in force: for each scoped id the addition of the last change that succeeded and
named the id, provided that this change added it and the filter let the row through. What
an index shows after any operations is the table of its ledger.
-/
namespace CategorizedIndex

/-- The additions in force, by scoped id. -/
abbrev Ledger := Std.ExtTreeMap ScopedId Addition

/-- Where a row is placed, if its values can be computed and the filter lets it through. -/
def Addition.placing? (config : Config) (filter : Option RowFilter) (s : ScopedId)
    (a : Addition) : Option Placing :=
  (Batch.prepareRow config filter s.origin s.id a).toOption.bind (·.placing)

theorem Addition.placing?_eq_some {config : Config} {filter : Option RowFilter} {s : ScopedId}
    {a : Addition} {p : Placing} : a.placing? config filter s = some p ↔
      ∃ values, Batch.computeValues config.columns ⟨s, a.unid, a.values⟩ = .ok values ∧
        filter.all (· ⟨s, a.unid, values⟩) = true ∧
        p = ⟨a.unid, values, Batch.documentSlots config values,
          Batch.categoryPaths config values⟩ := by
  have hrow : ∀ values, Batch.placing? config filter ⟨s, a.unid, values⟩ = some p ↔
      filter.all (· ⟨s, a.unid, values⟩) = true ∧ p = ⟨a.unid, values,
        Batch.documentSlots config values, Batch.categoryPaths config values⟩ := by
    intro values
    unfold Batch.placing?
    split
    · next hfilter => simp [hfilter, eq_comm]
    · next hfilter => simp [hfilter]
  unfold placing?
  cases hprepared : Batch.prepareRow config filter s.origin s.id a with
  | error e =>
    constructor
    · intro h
      cases h
    · rintro ⟨values, hvalues, -⟩
      rw [Batch.prepareRow_eq_ok_iff.mpr ⟨values, hvalues, rfl⟩] at hprepared
      cases hprepared
  | ok row =>
    obtain ⟨values, hvalues, rfl⟩ := Batch.prepareRow_eq_ok_iff.mp hprepared
    refine (hrow values).trans ⟨fun h => ⟨values, hvalues, h⟩, ?_⟩
    rintro ⟨values', hvalues', h⟩
    obtain rfl := Except.ok.inj (hvalues.symm.trans hvalues')
    exact h

theorem Addition.unid_of_placing {config : Config} {filter : Option RowFilter} {s : ScopedId}
    {a : Addition} {p : Placing} (h : a.placing? config filter s = some p) : p.unid = a.unid := by
  obtain ⟨values, -, -, rfl⟩ := placing?_eq_some.mp h
  rfl

namespace Change

/-- The change withdraws the id or adds a row under it. -/
def mentions (c : Change) (s : ScopedId) : Bool :=
  c.origin == s.origin && (c.removals.contains s.id || c.additions.contains s.id)

/-- The row that the change puts in force under an id that it mentions. -/
def row? (c : Change) (config : Config) (filter : Option RowFilter) (s : ScopedId) :
    Option Addition :=
  (c.additions[s.id]?).filter fun a => (a.placing? config filter s).isSome

end Change

namespace Index

/-- The changes that succeeded among operations, in their order. -/
def applied (x : Index) : List Operation → List Change
  | [] => []
  | operation :: rest =>
    match x.apply (x.changeOf operation) with
    | .error _ => applied x rest
    | .ok (y, _) => x.changeOf operation :: applied y rest

/-- The last change that succeeded and mentions an id. -/
def lastMention? (x : Index) (operations : List Operation) (s : ScopedId) : Option Change :=
  (x.applied operations).reverse.find? (·.mentions s)

/-- The row in force under an id. -/
def liveRow? (x : Index) (operations : List Operation) (s : ScopedId) : Option Addition :=
  (x.lastMention? operations s).bind (·.row? x.config x.filter s)

/-- All rows in force. -/
def ledger (x : Index) (operations : List Operation) : Ledger :=
  let ids := (x.applied operations).flatMap fun c => c.additions.keys.map (ScopedId.mk c.origin)
  ids.foldl (fun L s => ((x.liveRow? operations s).map (L.insert s)).getD L) ∅

end Index

namespace Ledger

variable {config : Config} {filter : Option RowFilter} {L : Ledger}

def table (config : Config) (filter : Option RowFilter) (L : Ledger) : Table :=
  fun s => (L[s]?).bind (·.placing? config filter s)

theorem getElem?_foldl_insert (row : ScopedId → Option Addition) (ids : List ScopedId)
    (hL : ∀ s, L[s]? = none ∨ L[s]? = row s) (s : ScopedId) :
    (ids.foldl (fun L s => ((row s).map (L.insert s)).getD L) L)[s]? =
      if s ∈ ids then row s else L[s]? := by
  induction ids generalizing L with
  | nil => simp
  | cons a rest ih =>
    have hstep : ∀ x, (((row a).map (L.insert a)).getD L)[x]? =
        if a = x then row x else L[x]? := by
      intro x
      cases ha : row a with
      | none =>
        rw [Option.map_none, Option.getD_none]
        split
        · next hax =>
          subst hax
          exact (hL a).elim (fun h => h.trans ha.symm) id
        · rfl
      | some v =>
        rw [Option.map_some, Option.getD_some, Std.ExtTreeMap.getElem?_insert]
        simp only [Std.LawfulEqOrd.compare_eq_iff_eq]
        split
        · next hax => rw [← hax, ha]
        · rfl
    rw [List.foldl_cons, ih, hstep]
    · by_cases hax : a = s
      · simp [hax]
      · simp [hax, Ne.symm hax]
    · intro x
      rw [hstep]
      split
      · exact Or.inr rfl
      · exact hL x

end Ledger

namespace Index

variable {x y : Index} {T : Table} {operations : List Operation} {c : Change} {s : ScopedId}

theorem exists_of_mem_applied (hc : c ∈ x.applied operations) :
    ∃ batch, c.prepare x.config x.filter = .ok batch := by
  induction operations generalizing x with
  | nil => cases hc
  | cons operation rest ih =>
    unfold applied at hc
    cases happly : x.apply (x.changeOf operation) with
    | error e =>
      rw [happly] at hc
      exact ih hc
    | ok r =>
      obtain ⟨y, stats⟩ := r
      obtain ⟨batch, hprepare, -, hy, -⟩ := apply_eq_ok_iff.mp happly
      rw [happly] at hc
      rcases List.mem_cons.mp hc with rfl | hc
      · exact ⟨batch, hprepare⟩
      · have hrest := ih hc
        rw [hy] at hrest
        exact hrest

theorem lastMention?_eq_some (h : x.lastMention? operations s = some c) :
    c ∈ x.applied operations ∧ c.mentions s = true :=
  ⟨List.mem_reverse.mp (List.mem_of_find?_eq_some h),
    List.find?_some (p := fun c : Change => c.mentions s) h⟩

theorem exists_of_liveRow? {a : Addition} (h : x.liveRow? operations s = some a) :
    ∃ c ∈ x.applied operations, c.origin = s.origin ∧ c.additions[s.id]? = some a ∧
      (a.placing? x.config x.filter s).isSome = true := by
  obtain ⟨c, hc, hrow⟩ := Option.bind_eq_some_iff.mp h
  obtain ⟨hmem, hmentions⟩ := lastMention?_eq_some hc
  obtain ⟨ha, hplacing⟩ := Option.filter_eq_some_iff.mp hrow
  have horigin := (Bool.and_eq_true_iff.mp hmentions).1
  exact ⟨c, hmem, eq_of_beq horigin, ha, hplacing⟩

theorem getElem?_ledger (x : Index) (operations : List Operation) (s : ScopedId) :
    (x.ledger operations)[s]? = x.liveRow? operations s := by
  rw [ledger, Ledger.getElem?_foldl_insert _ _ fun s => Or.inl Std.ExtTreeMap.getElem?_empty]
  split
  · rfl
  · next hs =>
    rw [Std.ExtTreeMap.getElem?_empty]
    cases hrow : x.liveRow? operations s with
    | none => rfl
    | some a =>
      obtain ⟨c, hc, horigin, ha, -⟩ := exists_of_liveRow? hrow
      refine absurd (List.mem_flatMap.mpr ⟨c, hc, List.mem_map.mpr ⟨s.id, ?_, ?_⟩⟩) hs
      · rw [Std.ExtTreeMap.mem_keys, Std.ExtTreeMap.mem_iff_isSome_getElem?, ha]
        rfl
      · rw [horigin]

end Index

theorem Change.mentions_iff {config : Config} {filter : Option RowFilter} {c : Change}
    {batch : Batch} (h : c.prepare config filter = .ok batch) {s : ScopedId} :
    c.mentions s = true ↔ s ∈ batch.removals ∨ s ∈ batch.rows.map (·.scopedId) := by
  obtain ⟨-, -, -, hremovals⟩ := prepare_eq_ok_iff.mp h
  have hmk : ∀ {id : UInt64}, ScopedId.mk c.origin id = s ↔ c.origin = s.origin ∧ id = s.id := by
    cases s
    simp
  rw [mentions, Bool.and_eq_true_iff, Bool.or_eq_true_iff, beq_iff_eq, prepare_ids h, hremovals]
  simp only [List.mem_map, hmk, Std.ExtTreeSet.mem_toList, Std.ExtTreeMap.mem_keys,
    Std.ExtTreeSet.contains_iff_mem, Std.ExtTreeMap.contains_iff_mem]
  grind

theorem Change.table_eq {config : Config} {filter : Option RowFilter} {c : Change} {batch : Batch}
    (h : c.prepare config filter = .ok batch) (T : Table) (s : ScopedId) :
    batch.table T s = if c.mentions s then
      (c.row? config filter s).bind (·.placing? config filter s) else T s := by
  obtain ⟨-, -, hrows, hremovals⟩ := prepare_eq_ok_iff.mp h
  have hids : s ∈ batch.rows.map (·.scopedId) ↔
      c.origin = s.origin ∧ c.additions.contains s.id = true := by
    rw [prepare_ids h, List.mem_map]
    constructor
    · rintro ⟨id, hid, rfl⟩
      exact ⟨rfl, Std.ExtTreeMap.contains_iff_mem.mpr (Std.ExtTreeMap.mem_keys.mp hid)⟩
    · rintro ⟨horigin, hid⟩
      refine ⟨s.id, Std.ExtTreeMap.mem_keys.mpr (Std.ExtTreeMap.contains_iff_mem.mp hid), ?_⟩
      rw [horigin]
  have hmentions : c.mentions s = true ↔
      s ∈ batch.removals ∨ s ∈ batch.rows.map (·.scopedId) := mentions_iff h
  by_cases hs : s ∈ batch.rows.map (·.scopedId)
  · rw [if_pos (hmentions.mpr (Or.inr hs))]
    obtain ⟨row, hrow, rfl⟩ := List.mem_map.mp hs
    obtain ⟨⟨id, a⟩, ha, hprepared⟩ := exists_of_prepared hrows hrow
    have hid : row.scopedId = ⟨c.origin, id⟩ := (Batch.prepareRow_fits hprepared).1
    have hlookup : c.additions[row.scopedId.id]? = some a := by
      rw [hid]
      exact Std.ExtTreeMap.mem_toList_iff_getElem?_eq_some.mp ha
    have hplacing : a.placing? config filter row.scopedId = row.placing := by
      rw [Addition.placing?, hid, hprepared]
      rfl
    rw [Batch.table_of_mem (prepare_nodup h) hrow, row?, hlookup, Option.filter_some, hplacing]
    cases hp : row.placing with
    | none => rfl
    | some p => exact (hplacing.trans hp).symm
  · by_cases hr : s ∈ batch.removals
    · rw [Batch.table_of_removed hr hs, if_pos (hmentions.mpr (Or.inl hr))]
      have hnone : c.additions[s.id]? = none := by
        have horigin : c.origin = s.origin := by
          rw [hremovals] at hr
          obtain ⟨id, -, rfl⟩ := List.mem_map.mp hr
          rfl
        refine Std.ExtTreeMap.getElem?_eq_none_of_contains_eq_false ?_
        exact Bool.eq_false_iff.mpr fun hin => hs (hids.mpr ⟨horigin, hin⟩)
      rw [row?, hnone]
      rfl
    · rw [Batch.table_of_not_mem hr hs, if_neg]
      intro hm
      exact (hmentions.mp hm).elim hr hs

namespace Index

variable {x : Index} {T : Table} {operations : List Operation}

theorem Maintains.run_lastMention (h : x.Maintains T) (operations : List Operation) :
    (x.run operations).Maintains fun s =>
      match x.lastMention? operations s with
      | some c => (c.row? x.config x.filter s).bind (·.placing? x.config x.filter s)
      | none => T s := by
  induction operations generalizing x T with
  | nil => exact h
  | cons operation rest ih =>
    rw [Index.run, List.foldl_cons, after_eq]
    cases happly : x.apply (x.changeOf operation) with
    | error e =>
      have hlast : ∀ s, x.lastMention? (operation :: rest) s = x.lastMention? rest s := by
        intro s
        rw [lastMention?, applied, happly]
        rfl
      simp only [hlast]
      exact ih h
    | ok r =>
      obtain ⟨y, stats⟩ := r
      obtain ⟨batch, hprepare, hy⟩ := h.apply happly
      obtain ⟨_, -, -, hyx, -⟩ := apply_eq_ok_iff.mp happly
      have hlast : ∀ s, x.lastMention? (operation :: rest) s = (y.lastMention? rest s).or
          (if (x.changeOf operation).mentions s then some (x.changeOf operation) else none) := by
        intro s
        rw [lastMention?, applied, happly, lastMention?]
        simp only
        rw [List.reverse_cons, List.find?_append, List.find?_cons, List.find?_nil]
        cases (x.changeOf operation).mentions s <;> rfl
      have hrest := ih hy
      rw [show y.config = x.config by rw [hyx], show y.filter = x.filter by rw [hyx]] at hrest
      refine cast (congrArg _ (funext fun s => ?_)) hrest
      rw [hlast, Change.table_eq hprepare]
      cases y.lastMention? rest s with
      | some c => rfl
      | none =>
        rw [Option.none_or]
        cases (x.changeOf operation).mentions s <;> rfl

theorem maintains_ledger {name : String} {config : Config} {filter : Option RowFilter}
    (hbuild : build name config filter = .ok x) (operations : List Operation) :
    (x.run operations).Maintains ((x.ledger operations).table config filter) := by
  have hrun := (maintains_build hbuild).run_lastMention operations
  have hx := (build_eq_ok hbuild).2
  refine cast (congrArg _ (funext fun s => ?_)) hrun
  rw [Ledger.table, getElem?_ledger, liveRow?, hx]
  cases lastMention? _ operations s <;> rfl

end Index

end CategorizedIndex
