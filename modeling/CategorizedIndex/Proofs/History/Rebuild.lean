import CategorizedIndex.Proofs.History.Ledger
import CategorizedIndex.Proofs.History.NewRows

/-! # Rebuilding from a ledger

The rows in force make up one change for each origin. Applied to an empty index in any
order of the origins, all of these changes succeed: each of them adds rows that were added
before, and no set of siblings gets more kinds of values than it has in the end.
-/
namespace CategorizedIndex

namespace Ledger

/-- Origins of the rows, ascending and without repetition. -/
def origins (L : Ledger) : List String :=
  (Std.ExtTreeSet.ofList (L.keys.map (·.origin)) compare).toList

/-- Ids of the rows of an origin, ascending. -/
def idsOf (L : Ledger) (origin : String) : List UInt64 :=
  (L.keys.filter (·.origin == origin)).map (·.id)

/-- The change that adds every row of an origin. -/
def change (L : Ledger) (origin : String) : Change where
  origin := origin
  removals := ∅
  additions := .ofList ((L.toList.filter (·.1.origin == origin)).map fun row => (row.1.id, row.2))

/-- Every row can be added by a change and is let through. -/
structure Fits (config : Config) (filter : Option RowFilter) (L : Ledger) : Prop where
  ids : ∀ {s : ScopedId} {a : Addition}, L[s]? = some a → s.isCategory = false
  origins : ∀ {s : ScopedId} {a : Addition}, L[s]? = some a → Batch.checkOrigin s.origin = .ok ()
  placed : ∀ {s : ScopedId} {a : Addition}, L[s]? = some a → (a.placing? config filter s).isSome = true

variable {config : Config} {filter : Option RowFilter} {L : Ledger} {origin : String}

theorem mem_origins : origin ∈ L.origins ↔ ∃ (s : ScopedId) (a : Addition),
    L[s]? = some a ∧ s.origin = origin := by
  rw [origins, Std.ExtTreeSet.mem_toList, Std.ExtTreeSet.mem_ofList, List.contains_iff_mem,
    List.mem_map]
  constructor
  · rintro ⟨s, hs, rfl⟩
    rw [Std.ExtTreeMap.mem_keys, Std.ExtTreeMap.mem_iff_isSome_getElem?] at hs
    obtain ⟨a, ha⟩ := Option.isSome_iff_exists.mp hs
    exact ⟨s, a, ha, rfl⟩
  · rintro ⟨s, a, ha, rfl⟩
    refine ⟨s, ?_, rfl⟩
    rw [Std.ExtTreeMap.mem_keys, Std.ExtTreeMap.mem_iff_isSome_getElem?, ha]
    rfl

theorem nodup_origins (L : Ledger) : L.origins.Nodup :=
  Std.ExtTreeSet.distinct_toList.imp fun hne heq =>
    hne (Std.LawfulEqOrd.compare_eq_iff_eq.mpr heq)

theorem getElem?_change (L : Ledger) (origin : String) (id : UInt64) :
    (L.change origin).additions[id]? = L[(⟨origin, id⟩ : ScopedId)]? := by
  unfold change
  simp only
  cases hL : L[(⟨origin, id⟩ : ScopedId)]? with
  | some a =>
    refine Std.ExtTreeMap.getElem?_ofList_of_mem (k := id) Std.ReflOrd.compare_self ?_ ?_
    · refine List.pairwise_map.mpr (List.Pairwise.imp_of_mem (fun {a b} ha hb hab heq => ?_)
        (Std.ExtTreeMap.distinct_keys_toList.sublist List.filter_sublist))
      have hao := eq_of_beq (List.mem_filter.mp ha).2
      have hbo := eq_of_beq (List.mem_filter.mp hb).2
      refine hab (Std.LawfulEqOrd.compare_eq_iff_eq.mpr ?_)
      have hid : a.1.id = b.1.id := Std.LawfulEqOrd.compare_eq_iff_eq.mp heq
      calc a.1 = ⟨a.1.origin, a.1.id⟩ := rfl
        _ = ⟨b.1.origin, b.1.id⟩ := by rw [hao, hbo, hid]
        _ = b.1 := rfl
    · refine List.mem_map.mpr ⟨(⟨origin, id⟩, a), List.mem_filter.mpr ⟨?_, ?_⟩, rfl⟩
      · exact Std.ExtTreeMap.mem_toList_iff_getElem?_eq_some.mpr hL
      · exact beq_self_eq_true origin
  | none =>
    refine Std.ExtTreeMap.getElem?_ofList_of_contains_eq_false ?_
    refine Bool.eq_false_iff.mpr fun hin => ?_
    obtain ⟨p, hp, hpid⟩ := List.mem_map.mp (List.contains_iff_mem.mp hin)
    obtain ⟨⟨s, a⟩, hmem, rfl⟩ := List.mem_map.mp hp
    obtain ⟨hmem, horigin⟩ := List.mem_filter.mp hmem
    have hs : s = ⟨origin, id⟩ := by
      rw [← eq_of_beq horigin, ← hpid]
    have hlookup := Std.ExtTreeMap.mem_toList_iff_getElem?_eq_some.mp hmem
    rw [hs, hL] at hlookup
    cases hlookup

theorem mentions_change (L : Ledger) (origin : String) (s : ScopedId) :
    (L.change origin).mentions s = true ↔ s.origin = origin ∧ ∃ a, L[s]? = some a := by
  have hremovals : (L.change origin).removals.contains s.id = false :=
    Std.ExtTreeSet.contains_empty
  rw [Change.mentions, hremovals, Bool.false_or, Bool.and_eq_true_iff, beq_iff_eq,
    Std.ExtTreeMap.contains_eq_isSome_getElem?, getElem?_change, Option.isSome_iff_exists]
  constructor
  · rintro ⟨horigin, hs⟩
    obtain rfl : origin = s.origin := horigin
    exact ⟨rfl, hs⟩
  · rintro ⟨rfl, hs⟩
    exact ⟨rfl, hs⟩

theorem exists_forall₂ {α β : Type} {R : α → β → Prop} {l : List α} (h : ∀ a ∈ l, ∃ b, R a b) :
    ∃ bs, List.Forall₂ R l bs := by
  induction l with
  | nil => exact ⟨[], .nil⟩
  | cons a rest ih =>
    obtain ⟨b, hb⟩ := h a List.mem_cons_self
    obtain ⟨bs, hbs⟩ := ih fun a ha => h a (List.mem_cons_of_mem _ ha)
    exact ⟨b :: bs, .cons hb hbs⟩

theorem Fits.prepare_change (h : L.Fits config filter) (horigin : origin ∈ L.origins) :
    ∃ batch, (L.change origin).prepare config filter = .ok batch ∧ batch.removals = [] := by
  have hadded : ∀ a ∈ (L.change origin).additions.toList,
      L[(⟨origin, a.1⟩ : ScopedId)]? = some a.2 := by
    intro a ha
    rw [← getElem?_change]
    exact Std.ExtTreeMap.mem_toList_iff_getElem?_eq_some.mp ha
  obtain ⟨rows, hrows⟩ := exists_forall₂ (l := (L.change origin).additions.toList)
    (R := fun a row => Batch.prepareRow config filter origin a.1 a.2 = .ok row) fun a ha => by
      have hplaced := h.placed (hadded a ha)
      unfold Addition.placing? at hplaced
      simp only at hplaced
      cases hrow : Batch.prepareRow config filter origin a.1 a.2 with
      | ok row => exact ⟨row, rfl⟩
      | error e =>
        rw [hrow] at hplaced
        cases hplaced
  have hremovals : (L.change origin).removals.toList = [] := rfl
  refine ⟨⟨[], rows⟩, Change.prepare_eq_ok_iff.mpr ⟨?_, ?_, hrows, ?_⟩, rfl⟩
  · obtain ⟨s, a, ha, rfl⟩ := mem_origins.mp horigin
    exact h.origins ha
  · intro id hid
    rw [hremovals, List.nil_append, Std.ExtTreeMap.mem_keys,
      Std.ExtTreeMap.mem_iff_isSome_getElem?, getElem?_change] at hid
    obtain ⟨a, ha⟩ := Option.isSome_iff_exists.mp hid
    exact h.ids ha
  · rw [hremovals]
    rfl

end Ledger

def Table.ofOrigins (T : Table) (origins : List String) : Table :=
  fun s => if s.origin ∈ origins then T s else none

theorem Table.ofOrigins_le (T : Table) (origins : List String) {s : ScopedId} {p : Placing}
    (h : T.ofOrigins origins s = some p) : T s = some p := by
  unfold ofOrigins at h
  split at h
  · exact h
  · cases h

namespace Index

structure Rebuilding (config : Config) (filter : Option RowFilter) (T : Table) (x : Index) :
    Prop where
  config : x.config = config
  filter : x.filter = filter
  maintains : x.Maintains T
  spent : x.tree.lastCategory = x.tree.categoryCount

variable {name : String} {config : Config} {filter : Option RowFilter} {x : Index} {L : Ledger}

theorem rebuilding_build (hbuild : build name config filter = .ok x) :
    x.Rebuilding config filter Table.empty where
  config := by rw [(build_eq_ok hbuild).2]
  filter := by rw [(build_eq_ok hbuild).2]
  maintains := maintains_build hbuild
  spent := by
    rw [(build_eq_ok hbuild).2]
    have hroot := Tree.get?_empty Tree.root
    rw [if_pos rfl] at hroot
    have hcounters := (Tree.sound_empty config).counters hroot
    exact congrArg Counters.descendantCategories hcounters

theorem Ledger.table_prepare_change {done : List String} {origin : String} {batch : Batch}
    (hL : L.Fits config filter)
    (hprepare : (L.change origin).prepare config filter = .ok batch) :
    batch.table ((L.table config filter).ofOrigins done) =
      (L.table config filter).ofOrigins (done ++ [origin]) := by
  funext s
  rw [Change.table_eq hprepare]
  by_cases hm : (L.change origin).mentions s = true
  · obtain ⟨rfl, a, ha⟩ := (Ledger.mentions_change L origin s).mp hm
    have hlookup : (L.change s.origin).additions[s.id]? = some a :=
      (Ledger.getElem?_change L s.origin s.id).trans ha
    have hrow : (L.change s.origin).row? config filter s = some a := by
      rw [Change.row?, hlookup, Option.filter_some, if_pos (hL.placed ha)]
    rw [if_pos hm, hrow, Table.ofOrigins, if_pos (List.mem_append_right _ List.mem_cons_self)]
    simp only [Ledger.table, ha]
  · rw [if_neg hm, Table.ofOrigins, Table.ofOrigins]
    by_cases hs : s.origin = origin
    · have hnone : L.table config filter s = none := by
        cases ha : L[s]? with
        | some a => exact absurd ((Ledger.mentions_change L origin s).mpr ⟨hs, a, ha⟩) hm
        | none =>
          simp only [Ledger.table, ha]
          rfl
      simp [hnone]
    · simp [hs]

theorem Rebuilding.apply_change {done : List String} {origin : String}
    (hL : L.Fits config filter) (hone : config.strict = true → (L.table config filter).OneKind)
    (h : x.Rebuilding config filter ((L.table config filter).ofOrigins done))
    (horigin : origin ∈ L.origins) (hnew : origin ∉ done) :
    ∃ y stats, x.apply (L.change origin) = .ok (y, stats) ∧
      y.Rebuilding config filter ((L.table config filter).ofOrigins (done ++ [origin])) := by
  let T := L.table config filter
  obtain ⟨batch, hprepare, hremovals⟩ := hL.prepare_change horigin
  have hb := Change.prepare_fits hprepare
  have hn := Change.prepare_nodup hprepare
  have htable : batch.table (T.ofOrigins done) = T.ofOrigins (done ++ [origin]) :=
    Ledger.table_prepare_change hL hprepare
  have hkinds : config.strict = true → (batch.table (T.ofOrigins done)).OneKind := by
    rw [htable]
    intro hstrict
    exact (hone hstrict).mono fun s p hp => Table.ofOrigins_le T _ hp
  have hsettled := h.config ▸ h.maintains.settled
  have hcommit := hsettled.commit hb
  have hprepare' : (L.change origin).prepare x.config x.filter = .ok batch := by
    rw [h.config, h.filter]
    exact hprepare
  have happly := h.maintains.apply_of_oneKind hprepare' fun hstrict => hkinds (h.config ▸ hstrict)
  rw [h.config] at happly
  refine ⟨_, _, happly, ?_⟩
  constructor
  case config => rfl
  case filter => exact h.filter
  case maintains => exact htable ▸ ⟨hcommit, hkinds⟩
  case spent =>
    have hspent := hsettled.spent_commit hb hremovals hn fun row hrow => ?_
    · rw [h.spent] at hspent
      exact Nat.add_right_cancel (hspent.trans (Nat.add_comm _ _))
    · have hid : row.scopedId ∈ batch.rows.map (·.scopedId) := List.mem_map_of_mem hrow
      rw [Change.prepare_ids hprepare] at hid
      obtain ⟨id, -, heq⟩ := List.mem_map.mp hid
      rw [Table.ofOrigins, if_neg]
      rw [← heq]
      exact hnew

theorem Rebuilding.applyAll (hL : L.Fits config filter)
    (hone : config.strict = true → (L.table config filter).OneKind) {done rest : List String}
    (h : x.Rebuilding config filter ((L.table config filter).ofOrigins done))
    (hrest : ∀ origin ∈ rest, origin ∈ L.origins) (hn : (done ++ rest).Nodup) :
    ∃ y, x.applyAll (rest.map L.change) = .ok y ∧
      y.Rebuilding config filter ((L.table config filter).ofOrigins (done ++ rest)) := by
  induction rest generalizing x done with
  | nil =>
    rw [List.append_nil]
    exact ⟨x, rfl, h⟩
  | cons origin rest ih =>
    have hnew : origin ∉ done := fun hmem =>
      (List.nodup_append.mp hn).2.2 _ hmem _ List.mem_cons_self rfl
    obtain ⟨y, stats, happly, hy⟩ :=
      h.apply_change hL hone (hrest origin List.mem_cons_self) hnew
    have hsplit : done ++ origin :: rest = done ++ [origin] ++ rest := by simp
    obtain ⟨z, hz, hrebuilt⟩ := ih hy (fun o ho => hrest o (List.mem_cons_of_mem _ ho))
      (hsplit ▸ hn)
    refine ⟨z, ?_, hsplit ▸ hrebuilt⟩
    rw [Index.applyAll, List.map_cons, List.foldlM_cons, happly]
    exact hz

theorem exists_rebuilt (hbuild : build name config filter = .ok x) (hL : L.Fits config filter)
    (hone : config.strict = true → (L.table config filter).OneKind) {order : List String}
    (horder : order.Perm L.origins) :
    ∃ y, x.applyAll (order.map L.change) = .ok y ∧
      y.Rebuilding config filter (L.table config filter) := by
  have hstart : x.Rebuilding config filter ((L.table config filter).ofOrigins []) :=
    rebuilding_build hbuild
  obtain ⟨y, hy, hrebuilt⟩ := hstart.applyAll hL hone
    (fun origin ho => horder.mem_iff.mp ho) (horder.nodup_iff.mpr L.nodup_origins)
  refine ⟨y, hy, cast (congrArg (fun T => y.Rebuilding config filter T) ?_) hrebuilt⟩
  funext s
  rw [List.nil_append, Table.ofOrigins]
  split
  · rfl
  · next hs =>
    cases ha : L[s]? with
    | none =>
      rw [Ledger.table, ha]
      rfl
    | some a => exact absurd (horder.mem_iff.mpr (Ledger.mem_origins.mpr ⟨s, a, ha, rfl⟩)) hs

theorem fits_ledger (hbuild : build name config filter = .ok x) (operations : List Operation) :
    (x.ledger operations).Fits config filter := by
  have hx := (build_eq_ok hbuild).2
  have hlive : ∀ {s : ScopedId} {a : Addition}, (x.ledger operations)[s]? = some a → ∃ c batch,
      Change.prepare c config filter = .ok batch ∧ c.origin = s.origin ∧
      c.additions[s.id]? = some a ∧ (a.placing? config filter s).isSome = true := by
    intro s a ha
    rw [getElem?_ledger] at ha
    obtain ⟨c, hc, horigin, hadded, hplaced⟩ := exists_of_liveRow? ha
    obtain ⟨batch, hbatch⟩ := exists_of_mem_applied hc
    rw [hx] at hbatch hplaced
    exact ⟨c, batch, hbatch, horigin, hadded, hplaced⟩
  constructor
  · intro s a ha
    obtain ⟨c, batch, hbatch, horigin, hadded, -⟩ := hlive ha
    obtain ⟨-, hids, -⟩ := Change.prepare_eq_ok_iff.mp hbatch
    have hid := hids s.id (List.mem_append_right _ ?_)
    · rwa [horigin] at hid
    · rw [Std.ExtTreeMap.mem_keys, Std.ExtTreeMap.mem_iff_isSome_getElem?, hadded]
      rfl
  · intro s a ha
    obtain ⟨c, batch, hbatch, horigin, -⟩ := hlive ha
    exact horigin ▸ (Change.prepare_eq_ok_iff.mp hbatch).1
  · intro s a ha
    obtain ⟨-, -, -, -, -, hplaced⟩ := hlive ha
    exact hplaced

end Index

end CategorizedIndex
