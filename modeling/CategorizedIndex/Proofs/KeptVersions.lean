import CategorizedIndex.Registry.Script

/-! # What a registry keeps

Every request for a value ends with one of two states of its id: the value that it returns is
kept under the version that was asked for, or, if building failed, the version that was found at
the start is gone. Between the look at the registry and this end a constructor may use the
registry for anything, also for the same id, so the promise is made for every request that
comes up while requests are answered, at any depth.
-/
namespace CategorizedIndex.Registry

variable {α β : Type} {r : Registry α} {id other : String} {version u : UInt64} {x : α}

/-- Under an id at most one value is kept. -/
def OnePerId (r : Registry α) : Prop :=
  ∀ id a b, (id, a) ∈ r.kept.toList → (id, b) ∈ r.kept.toList → a = b

theorem onePerId (r : Registry α) : r.OnePerId := by
  intro id a b ha hb
  rw [Std.ExtTreeMap.mem_toList_iff_getElem?_eq_some] at ha hb
  exact Option.some.inj (ha.symm.trans hb)

theorem find?_eq_some_iff : r.find? id version = some x ↔ r.kept[id]? = some ⟨version, x⟩ := by
  rw [find?]
  cases r.kept[id]? with
  | none => simp
  | some kept =>
    obtain ⟨v, y⟩ := kept
    by_cases hv : v = version <;> simp [Option.filter_some, hv]

theorem find?_eq_none_iff : r.find? id version = none ↔ r.version? id ≠ some version := by
  rw [find?, version?, Option.map_eq_none_iff]
  cases r.kept[id]? with
  | none => simp
  | some kept => simp [Option.filter_some]

theorem getElem?_keep_self : (r.keep id version x).kept[id]? = some ⟨version, x⟩ := by simp [keep]

theorem getElem?_keep_of_ne (h : other ≠ id) :
    (r.keep id version x).kept[other]? = r.kept[other]? := by
  simp [keep, Std.ExtTreeMap.getElem?_insert, h.symm]

theorem getElem?_dispose_of_ne (h : other ≠ id) :
    (r.dispose id).2.kept[other]? = r.kept[other]? := by
  simp [dispose, Std.ExtTreeMap.getElem?_erase, h.symm]

theorem publish_spec (r : Registry α) (id : String) (version : UInt64) (x : α) :
    (r.publish id version x).2.kept[id]? = some ⟨version, (r.publish id version x).1⟩ ∧
      ∀ other ≠ id, (r.publish id version x).2.kept[other]? = r.kept[other]? := by
  unfold publish
  cases hfound : r.find? id version with
  | some known => exact ⟨find?_eq_some_iff.mp hfound, fun _ _ => rfl⟩
  | none => exact ⟨getElem?_keep_self, fun _ hother => getElem?_keep_of_ne hother⟩

theorem dropVersion_spec (r : Registry α) (id : String) (found : Option UInt64) :
    (∀ u, found = some u → (r.dropVersion id found).version? id ≠ some u) ∧
      ∀ other ≠ id, (r.dropVersion id found).kept[other]? = r.kept[other]? := by
  unfold dropVersion
  split
  · refine ⟨fun u _ => ?_, fun other hother => getElem?_dispose_of_ne hother⟩
    simp [version?]
  · next hkept =>
    refine ⟨?_, fun _ _ => rfl⟩
    rintro u rfl hversion
    simp [hversion] at hkept

theorem get_of_kept (build : Registry α → Construction α β)
    (h : r.kept[id]? = some ⟨version, x⟩) : r.get id version build = ⟨.ok x, r, none⟩ := by
  rw [get, find?_eq_some_iff.mpr h]

theorem get_of_missing (build : Registry α → Construction α β)
    (h : r.version? id ≠ some version) : ∃ built, built = build { r with builds := r.builds + 1 } ∧
      (r.get id version build).report = some built.report ∧
      ((∃ y, built.outcome = .ok y ∧
          (r.get id version build).outcome = .ok (built.registry.publish id version y).1 ∧
          (r.get id version build).registry = (built.registry.publish id version y).2) ∨
        ∃ e, built.outcome = .error e ∧ (r.get id version build).outcome = .error e ∧
          (r.get id version build).registry = built.registry.dropVersion id (r.version? id)) := by
  refine ⟨_, rfl, ?_⟩
  rw [get, find?_eq_none_iff.mpr h]
  simp only
  cases hbuilt : (build { r with builds := r.builds + 1 }).outcome with
  | ok y => exact ⟨rfl, Or.inl ⟨y, rfl, rfl, rfl⟩⟩
  | error e => exact ⟨rfl, Or.inr ⟨e, rfl, rfl, rfl⟩⟩

theorem report_get (r : Registry α) (id : String) (version : UInt64)
    (build : Registry α → Construction α β) :
    (r.get id version build).report = none ∨
      (r.get id version build).report = some (build { r with builds := r.builds + 1 }).report := by
  by_cases hversion : r.version? id = some version
  · obtain ⟨⟨v, x⟩, hkept, rfl⟩ := Option.map_eq_some_iff.mp hversion
    exact Or.inl (by rw [get_of_kept build hkept])
  · obtain ⟨built, rfl, hreport, -⟩ := get_of_missing build hversion
    exact Or.inr hreport

/-! ## Requests inside requests -/

/-- What a request for a value promises of the registry. -/
structure Fetched (id : String) (version : UInt64) (before : Registry α)
    (built : Option (Building α)) (outcome : Except Error α) (after : Registry α) : Prop where
  unique : after.OnePerId
  /-- The constructor runs only if no value of exactly this version is kept at the start. -/
  builds : built.isSome = true ↔ ∀ x, before.kept[id]? ≠ some ⟨version, x⟩
  /-- It finds the registry as the request found it. -/
  starts : ∀ b, built = some b → b.start.kept = before.kept
  fails : ∀ e, outcome = .error e ↔ ∃ b, built = some b ∧ b.outcome = .error e
  returned : ∀ x, outcome = .ok x → after.kept[id]? = some ⟨version, x⟩
  /-- After a failure a version that was found at the start, which is another one, is gone. -/
  evicted : ∀ e u, outcome = .error e → before.version? id = some u →
    u ≠ version ∧ after.version? id ≠ some u
  /-- What is kept under other ids is as it was, or as the constructor left it. -/
  others : ∀ other ≠ id, after.kept[other]? = (built.elim before (·.left)).kept[other]?

/-- What a disposal promises of the registry. -/
structure Disposed (id : String) (before : Registry α) (answer : Bool) (after : Registry α) :
    Prop where
  unique : after.OnePerId
  answered : answer = before.contains id
  gone : after.kept[id]? = none
  others : ∀ other ≠ id, after.kept[other]? = before.kept[other]?

def Call.Honoured : Call α → Prop
  | .fetched id version before built outcome after =>
    Fetched id version before built outcome after
  | .disposed id before answer after => Disposed id before answer after

theorem disposed_dispose (r : Registry α) (id : String) :
    Disposed id r (r.dispose id).1 (r.dispose id).2 where
  unique := onePerId _
  answered := rfl
  gone := by simp [dispose]
  others _ hother := getElem?_dispose_of_ne hother

theorem fetched_get (r : Registry α) (id : String) (version : UInt64)
    (run : Registry α → Construction α β) :
    let got := r.get id version (observed run)
    Fetched id version r (got.report.map (·.1)) got.outcome got.registry := by
  intro got
  by_cases hversion : r.version? id = some version
  case pos =>
    obtain ⟨⟨v, x⟩, hkept, rfl⟩ := Option.map_eq_some_iff.mp hversion
    have hgot : got = ⟨.ok x, r, none⟩ := get_of_kept (observed run) hkept
    rw [hgot]
    constructor
    case unique => exact onePerId r
    case builds => simp [hkept]
    case starts => simp
    case fails => simp
    case returned =>
      intro y hy
      exact Except.ok.inj hy ▸ hkept
    case evicted => exact fun _ _ he => nomatch he
    case others => exact fun _ _ => rfl
  case neg =>
    obtain ⟨built, hbuilt, hreport, hends⟩ := get_of_missing (observed run) hversion
    have hseen : built.report.1 =
        ⟨{ r with builds := r.builds + 1 }, built.outcome, built.registry⟩ := by rw [hbuilt]; rfl
    rw [show got.report = _ from hreport, Option.map_some, hseen]
    have hmissing : ∀ x, r.kept[id]? ≠ some ⟨version, x⟩ := fun x hx =>
      hversion (by rw [version?, hx, Option.map_some])
    obtain ⟨y, hy, houtcome, hafter⟩ | ⟨e, he, houtcome, hafter⟩ := hends
    · obtain ⟨hkept, hothers⟩ := publish_spec built.registry id version y
      rw [show got.outcome = _ from houtcome, show got.registry = _ from hafter]
      constructor
      case unique => exact onePerId _
      case builds => simp [hmissing]
      case starts => simp
      case fails => simp [hy]
      case returned =>
        intro x hx
        exact Except.ok.inj hx ▸ hkept
      case evicted => exact fun _ _ he => nomatch he
      case others => exact hothers
    · obtain ⟨hdropped, hothers⟩ := dropVersion_spec built.registry id (r.version? id)
      rw [show got.outcome = _ from houtcome, show got.registry = _ from hafter]
      constructor
      case unique => exact onePerId _
      case builds => simp [hmissing]
      case starts => simp
      case fails => simp [he]
      case returned => exact fun _ hx => nomatch hx
      case evicted =>
        intro e' u _ hu
        exact ⟨fun huv => hversion (huv ▸ hu), hdropped u hu⟩
      case others => exact hothers

/-- In every run of requests, each of which may make others while it builds its value, every call
keeps its promise. -/
theorem calls_honoured (script : Script α) (r : Registry α) :
    (script.run r).registry.OnePerId ∧ ∀ call ∈ (script.run r).report, call.Honoured := by
  refine ⟨onePerId _, ?_⟩
  induction script generalizing r with
  | done outcome => exact fun _ hcall => absurd hcall List.not_mem_nil
  | get id version build next ihbuild ihnext =>
    intro call hcall
    simp only [Script.run, List.mem_append, List.mem_cons] at hcall
    rcases hcall with hinside | rfl | hrest
    · rcases r.report_get id version (observed build.run) with hnone | hsome
      · rw [hnone] at hinside
        exact absurd hinside List.not_mem_nil
      · rw [hsome] at hinside
        exact ihbuild _ call hinside
    · exact fetched_get r id version build.run
    · exact ihnext _ _ call hrest
  | dispose id next ih =>
    intro call hcall
    simp only [Script.run, List.mem_cons] at hcall
    rcases hcall with rfl | hrest
    · exact disposed_dispose r id
    · exact ih _ _ call hrest

/-- A constructor asks for another value, renews the very id that it is called for, and fails.
The version that was found at its start is gone, and what it did itself stays. -/
theorem calls_honoured_renewed_id :
    let failing : Script Nat := .get "b" 1 (.done (.ok 7)) fun _ =>
      .get "a" 3 (.done (.ok 30)) fun _ => .done (.error .malformedText)
    let script : Script Nat := .get "a" 1 (.done (.ok 10)) fun _ =>
      .get "a" 2 failing fun outcome => .done outcome
    let calls := (script.run .empty).report
    calls.length = 4 ∧ ∃ before built after,
      .fetched "a" 2 before built (.error .malformedText) after ∈ calls ∧
      Fetched "a" 2 before built (.error .malformedText) after ∧
      before.version? "a" = some 1 ∧ after.version? "a" = some 3 ∧
      after.kept["b"]? = some ⟨1, 7⟩ := by
  intro failing script calls
  have hany : (calls.any fun
      | .fetched id version before _ (.error e) after => id == "a" && version == 2 &&
        e == .malformedText && before.version? "a" == some 1 && after.version? "a" == some 3 &&
        after.find? "b" 1 == some 7
      | _ => false) = true := by decide +kernel
  obtain ⟨call, hmem, htest⟩ := List.any_eq_true.mp hany
  have hhonoured := (calls_honoured script .empty).2 call hmem
  split at htest
  · next before built e after =>
    simp only [Bool.and_eq_true, beq_iff_eq] at htest
    obtain ⟨⟨⟨⟨⟨rfl, rfl⟩, rfl⟩, hbefore⟩, hafter⟩, hother⟩ := htest
    exact ⟨by decide +kernel, before, built, after, hmem, hhonoured, hbefore, hafter,
      find?_eq_some_iff.mp hother⟩
  · cases htest

end CategorizedIndex.Registry
