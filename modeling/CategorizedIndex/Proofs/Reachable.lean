import CategorizedIndex.Index.Session
import CategorizedIndex.Proofs.Commit.Place
import CategorizedIndex.Proofs.Prepare
import CategorizedIndex.Proofs.Replay.Check

/-! # Reachable indexes

An index is reached from an empty one by changes and withdrawals of origins, of which
some may fail; one that fails changes nothing. Every index that is reached shows a
table of rows, and where kinds must not mix the table has one kind at every place.
-/
namespace CategorizedIndex

namespace Tree

theorem get?_empty (x : EntryId) : empty.get? x =
    if x = root then some (.new .root "" (.category 0 none false .root) ∅ none) else none := by
  simp only [get?, empty, Std.ExtTreeMap.getElem?_insert, Std.LawfulEqOrd.compare_eq_iff_eq,
    eq_comm (a := root), Std.ExtTreeMap.getElem?_empty]

theorem skeleton_empty (x : EntryId) :
    empty.skeleton x = if x = root then some Core.root else none := by
  rw [skeleton, get?_empty]
  split <;> rfl

theorem skeleton_empty_eq_some {x : EntryId} {c : Core} (h : empty.skeleton x = some c) :
    x = root ∧ c = Core.root := by
  rw [skeleton_empty] at h
  split at h
  · next hx => exact ⟨hx, (Option.some.inj h).symm⟩
  · cases h

theorem formed_empty (config : Config) : empty.skeleton.WellFormed config empty.nextEntry where
  bounded hx := by
    rw [(skeleton_empty_eq_some hx).1]
    exact Nat.zero_lt_one
  root := by rw [skeleton_empty, if_pos rfl]
  parent hx hr := absurd (skeleton_empty_eq_some hx).1 hr
  fits hx hr := absurd (skeleton_empty_eq_some hx).1 hr
  distinct ha _ har := absurd (skeleton_empty_eq_some ha).1 har

theorem sound_empty (config : Config) : empty.Sound config := by
  have hroot : ∀ {x e}, empty.get? x = some e →
      x = root ∧ e = .new .root "" (.category 0 none false .root) ∅ none := by
    intro x e hx
    rw [get?_empty] at hx
    split at hx
    · next h => exact ⟨h, (Option.some.inj hx).symm⟩
    · cases hx
  have hnoChild : ∀ x c, empty.skeleton x = some c → ∀ p, c.parent ≠ some p := by
    intro x c hx p
    rw [(skeleton_empty_eq_some hx).2]
    intro h
    exact nomatch h
  constructor
  case formed => exact formed_empty config
  case sorted =>
    intro x e hx
    rw [(hroot hx).2]
    exact Siblings.sorted_empty
  case children =>
    intro x e hx k y
    rw [(hroot hx).2]
    exact ⟨fun h => absurd h List.not_mem_nil, fun ⟨c, hc, hp, _⟩ => absurd hp (hnoChild y c hc x)⟩
  case counters =>
    intro x e hx
    obtain ⟨rfl, rfl⟩ := hroot hx
    refine (Skeleton.count_eq_none ?_ ?_).symm
    · refine Finset.eq_empty_of_forall_notMem fun y hy => ?_
      obtain ⟨c, hc, hp⟩ := (Skeleton.mem_kids (formed_empty config)).mp hy
      exact hnoChild y c hc _ hp
    · refine Finset.eq_empty_of_forall_notMem fun y hy => ?_
      obtain ⟨⟨c, hc⟩, hne, -⟩ := (Skeleton.mem_below (formed_empty config)).mp hy
      exact hne (skeleton_empty_eq_some hc).1
  case placements =>
    intro s
    have hplaced : empty.skeleton.placed empty.nextEntry s =
        if ScopedId.root = s then [root] else [] := by
      have hnext : empty.nextEntry = 1 := rfl
      have hcore : empty.skeleton 0 = some Core.root := by rw [skeleton_empty]; rfl
      rw [Skeleton.placed, hnext, List.range_one]
      by_cases hs : ScopedId.root = s
      · simp [hcore, Core.root, hs, root]
      · simp [hcore, Core.root, hs]
    rw [hplaced, placementsOf, Std.ExtTreeMap.getD_eq_getD_getElem?, empty]
    simp only [Std.ExtTreeMap.getElem?_insert, Std.LawfulEqOrd.compare_eq_iff_eq,
      Std.ExtTreeMap.getElem?_empty]
    split <;> rfl
  case indexed =>
    intro s
    unfold empty
    simp only [Std.ExtTreeMap.getElem?_insert, Std.ExtTreeMap.getElem?_empty]
    split <;> simp
  case ranks =>
    intro x e hx _ i k y hi
    rw [(hroot hx).2] at hi
    exact absurd hi (by simp [Entry.new, Siblings.empty])

theorem settled_empty (config : Config) : empty.Settled config Table.empty where
  sound := sound_empty config
  fits := Table.fits_empty config
  shows := by
    constructor
    · intro x c hx hd
      rw [(skeleton_empty_eq_some hx).2, Core.isCategory_root] at hd
      cases hd
    · intro s placing path hs
      cases hs
  full x hx := by
    obtain ⟨c, hc, -⟩ := Skeleton.isCategoryAt_eq_true.mp hx.category
    exact hx.ne_root (skeleton_empty_eq_some hc).1
  numbered _ := by
    refine ⟨fun x c hx _ => ⟨0, le_rfl, ?_⟩, fun x y c d hx hy _ _ => ?_⟩
    · rw [(skeleton_empty_eq_some hx).2]
      rfl
    · rw [(skeleton_empty_eq_some hx).1, (skeleton_empty_eq_some hy).1]
  flushed := rfl

end Tree

namespace Index

theorem after_eq (x : Index) (operation : Operation) :
    x.after operation = ((x.apply (x.changeOf operation)).toOption.map (·.1)).getD x := by
  cases operation <;> rfl

variable {x y : Index} {change : Change} {stats : Stats} {T : Table}

theorem exists_apply_after (hok : (x.apply change).toOption.isSome = true) :
    ∃ stats, x.apply change = .ok (x.after (.change change), stats) := by
  rw [after_eq, changeOf]
  cases hresult : x.apply change with
  | error e =>
    rw [hresult] at hok
    cases hok
  | ok r => exact ⟨r.2, rfl⟩

theorem apply_eq (x : Index) (change : Change) :
    x.apply change = (change.prepare x.config x.filter).bind fun batch =>
      (if x.config.strict then x.tree.checkKinds x.config batch else .ok ()).bind fun _ =>
        .ok ({ x with tree := (x.tree.commit x.config batch).1 },
          (x.tree.commit x.config batch).2) := by
  unfold apply
  cases x.config.strict <;> rfl

/-- An operation succeeds exactly if its change can be prepared and does not mix kinds. -/
theorem apply_eq_ok_iff :
    x.apply change = .ok (y, stats) ↔ ∃ batch,
      change.prepare x.config x.filter = .ok batch ∧
      (x.config.strict = true → x.tree.checkKinds x.config batch = .ok ()) ∧
      y = { x with tree := (x.tree.commit x.config batch).1 } ∧
      stats = (x.tree.commit x.config batch).2 := by
  simp only [apply_eq, Except.bind_eq_ok, Except.ok.injEq, Prod.mk.injEq]
  constructor
  · rintro ⟨batch, hbatch, _, hcheck, rfl, rfl⟩
    refine ⟨batch, hbatch, fun hstrict => ?_, rfl, rfl⟩
    rw [if_pos hstrict] at hcheck
    exact hcheck
  · rintro ⟨batch, hbatch, hcheck, rfl, rfl⟩
    refine ⟨batch, hbatch, (), ?_, rfl, rfl⟩
    split
    · next hstrict => exact hcheck hstrict
    · rfl

/-- The index shows the rows of a table. -/
structure Maintains (x : Index) (T : Table) : Prop where
  settled : x.tree.Settled x.config T
  oneKind : x.config.strict = true → T.OneKind

theorem build_of_faultless {name : String} {config : Config} {filter : Option RowFilter}
    (h : config.fault? = none) : build name config filter = .ok ⟨name, config, filter, .empty⟩ := by
  rw [build, Config.validate_eq_ok_iff.mpr h]
  rfl

theorem build_eq_ok {name : String} {config : Config} {filter : Option RowFilter}
    (h : build name config filter = .ok x) :
    config.validate = .ok () ∧ x = ⟨name, config, filter, .empty⟩ := by
  obtain ⟨_, hvalid, h⟩ := Except.bind_eq_ok.mp h
  exact ⟨hvalid, (Except.ok.inj h).symm⟩

theorem maintains_build {name : String} {config : Config} {filter : Option RowFilter}
    (h : build name config filter = .ok x) : x.Maintains Table.empty := by
  rw [(build_eq_ok h).2]
  refine ⟨Tree.settled_empty config, fun _ A place v w hv => ?_⟩
  cases hv with
  | category hrow _ _ => cases hrow
  | document hrow _ _ => cases hrow

theorem Maintains.checkKinds_iff (h : x.Maintains T) {batch : Batch}
    (hprepare : change.prepare x.config x.filter = .ok batch) (hstrict : x.config.strict = true) :
    x.tree.checkKinds x.config batch = .ok () ↔ (batch.table T).OneKind :=
  (h.settled.checkKinds_spec (h.oneKind hstrict) (Change.prepare_fits hprepare)
    (Change.prepare_nodup hprepare)).1

theorem Maintains.apply_of_oneKind (h : x.Maintains T) {batch : Batch}
    (hprepare : change.prepare x.config x.filter = .ok batch)
    (hone : x.config.strict = true → (batch.table T).OneKind) :
    x.apply change = .ok ({ x with tree := (x.tree.commit x.config batch).1 },
      (x.tree.commit x.config batch).2) :=
  apply_eq_ok_iff.mpr ⟨batch, hprepare,
    fun hstrict => (h.checkKinds_iff hprepare hstrict).mpr (hone hstrict), rfl, rfl⟩

theorem Maintains.apply (h : x.Maintains T) (happly : x.apply change = .ok (y, stats)) :
    ∃ batch, change.prepare x.config x.filter = .ok batch ∧ y.Maintains (batch.table T) := by
  obtain ⟨batch, hprepare, hcheck, rfl, -⟩ := apply_eq_ok_iff.mp happly
  exact ⟨batch, hprepare, h.settled.commit (Change.prepare_fits hprepare),
    fun hstrict => (h.checkKinds_iff hprepare hstrict).mp (hcheck hstrict)⟩

theorem config_after (x : Index) (operation : Operation) :
    (x.after operation).config = x.config ∧ (x.after operation).filter = x.filter := by
  rw [after_eq]
  cases happly : x.apply (x.changeOf operation) with
  | error e => exact ⟨rfl, rfl⟩
  | ok r =>
    obtain ⟨y, stats⟩ := r
    obtain ⟨batch, -, -, rfl, -⟩ := apply_eq_ok_iff.mp happly
    exact ⟨rfl, rfl⟩

theorem config_run (x : Index) (operations : List Operation) :
    (x.run operations).config = x.config ∧ (x.run operations).filter = x.filter := by
  induction operations generalizing x with
  | nil => exact ⟨rfl, rfl⟩
  | cons operation rest ih =>
    obtain ⟨hconfig, hfilter⟩ := ih (x.after operation)
    obtain ⟨hconfig', hfilter'⟩ := config_after x operation
    exact ⟨hconfig.trans hconfig', hfilter.trans hfilter'⟩

/-- One operation leads from a maintained index to a maintained index. -/
theorem Maintains.after (h : x.Maintains T) (operation : Operation) :
    ∃ U, (x.after operation).Maintains U := by
  rw [after_eq]
  cases happly : x.apply (x.changeOf operation) with
  | error e => exact ⟨T, h⟩
  | ok r =>
    obtain ⟨batch, -, hy⟩ := h.apply happly
    exact ⟨batch.table T, hy⟩

theorem Maintains.run (h : x.Maintains T) (operations : List Operation) :
    ∃ U, (x.run operations).Maintains U := by
  induction operations generalizing x T with
  | nil => exact ⟨T, h⟩
  | cons operation rest ih =>
    obtain ⟨U, hU⟩ := h.after operation
    exact ih hU

section Build

variable {name : String} {config : Config} {filter : Option RowFilter}

theorem config_run_build (hbuild : build name config filter = .ok x)
    (operations : List Operation) : (x.run operations).config = config := by
  rw [(config_run x operations).1, (build_eq_ok hbuild).2]

/-- A built index shows some table whatever is done to it. -/
theorem exists_settled_run (hbuild : build name config filter = .ok x)
    (operations : List Operation) :
    ∃ T, (x.run operations).tree.Settled config T ∧ (config.strict = true → T.OneKind) := by
  obtain ⟨T, hsettled, hone⟩ := (maintains_build hbuild).run operations
  rw [config_run_build hbuild operations] at hsettled hone
  exact ⟨T, hsettled, hone⟩

end Build

/-- A strict index whose rows are grouped by one item. -/
def grouped : Index where
  name := "grouped"
  config := ⟨'\\', .expanded, true, [⟨"Group", "group", true, some .ascending, none, none⟩]⟩
  filter := none
  tree := .empty

/-- A change that files one row under a group. -/
def filing (id : UInt64) (group : Scalar) : Change :=
  (Change.empty "desk").add id ⟨"unid", (∅ : ColumnValues).insert "group" (.single group)⟩

theorem build_grouped : build "grouped" grouped.config none = .ok grouped :=
  build_of_faultless (by decide +kernel)

end Index

end CategorizedIndex
