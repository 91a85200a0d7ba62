import CategorizedIndex.Proofs.Prepare
import CategorizedIndex.Proofs.Text.Blank

/-! # Chains of a row

A row is filed under one chain of steps for each way to choose one scalar of every category
column. Chosen scalars expand to what they hold between separators, and chains that come out
equal are taken once. Equality of numbers takes both zeros for one, so of the two the first
alone counts, although they differ in the order of categories.
-/
namespace CategorizedIndex

/-- A text expands into its non-empty parts between separators, or into null if it has none;
any other scalar expands into itself. -/
inductive Expands (separator : Char) : Scalar → List (Option Scalar) → Prop
  | blank {s : String} (h : ∀ part ∈ s.toList.splitOn separator, part = []) :
      Expands separator (.text s) [none]
  | parts {s : String} {parts : List (List Char)}
      (h : parts = (s.toList.splitOn separator).filter (!·.isEmpty)) (hne : parts ≠ []) :
      Expands separator (.text s) (parts.map fun part => some (.text (String.ofList part)))
  | number (x : Number) : Expands separator (.number x) [some (.number x)]
  | timestamp (t : Timestamp) : Expands separator (.timestamp t) [some (.timestamp t)]

/-- What one choice among the scalars of a column expands into; null if there are none. -/
inductive Chosen (choice : List Scalar → Scalar → Prop) (separator : Char)
    (scalars : List Scalar) : List (Option Scalar) → Prop
  | null (h : scalars = []) : Chosen choice separator scalars [none]
  | scalar {v : Scalar} {values : List (Option Scalar)} (hv : choice scalars v)
      (hvalues : Expands separator v values) : Chosen choice separator scalars values

/-- Choices among the scalars of numbered columns, one after the other. -/
inductive Chains (choice : List Scalar → Scalar → Prop) (separator : Char)
    (row : ColumnValues) : List (Column × Nat) → CategoryPath → Prop
  | nil : Chains choice separator row [] []
  | column {column : Column} {index : Nat} {rest : List (Column × Nat)}
      {values : List (Option Scalar)} {chain : CategoryPath}
      (hvalues : Chosen choice separator (row.getD column.item .null).scalars values)
      (hrest : Chains choice separator row rest chain) :
      Chains choice separator row ((column, index) :: rest)
        (values.map (⟨index, ·, column.isDescending⟩) ++ chain)

/-- A chain of choices for the category columns in the order of their declaration. -/
def Config.Chain (config : Config) (choice : List Scalar → Scalar → Prop) (row : ColumnValues)
    (chain : CategoryPath) : Prop :=
  Chains choice config.separator row (config.columns.zipIdx.filter (·.1.isCategory)) chain

/-- Any of the scalars. -/
def Listed (scalars : List Scalar) (v : Scalar) : Prop := v ∈ scalars

/-- A scalar with no other one before it that is equal as a value. -/
def Counts (scalars : List Scalar) (v : Scalar) : Prop :=
  ∃ before after, scalars = before ++ v :: after ∧ ∀ w ∈ before, w.same v = true → w = v

namespace Batch

variable {separator : Char} {v w : Scalar} {values : List (Option Scalar)}

theorem segments_eq_iff : segments separator v = values ↔ Expands separator v values := by
  constructor
  · rintro rfl
    cases v with
    | number x => exact .number x
    | timestamp t => exact .timestamp t
    | text s =>
      rw [segments, Text.fields_eq_splitOn]
      split
      · next hnil =>
        refine .blank fun part hpart => ?_
        simpa using List.filter_eq_nil_iff.mp hnil part hpart
      · next hne => exact .parts rfl hne
  · intro h
    cases h with
    | number x => rfl
    | timestamp t => rfl
    | @blank s h =>
      have hnil : (s.toList.splitOn separator).filter (!·.isEmpty) = [] :=
        List.filter_eq_nil_iff.mpr fun part hpart => by simp [h part hpart]
      rw [segments, Text.fields_eq_splitOn, hnil]
    | parts h hne =>
      rw [segments, Text.fields_eq_splitOn, ← h]
      split
      · exact absurd rfl hne
      · rfl

end Batch

/-! ## Equality of steps -/

namespace Number

theorem same_iff {x y : Number} : x.same y = true ↔
    x.isNaN = false ∧ y.isNaN = false ∧ (x = y ∨ x.magnitude = 0 ∧ y.magnitude = 0) := by
  have hbits : x.bits = y.bits ↔ x = y := ⟨fun h => by cases x; cases y; exact congrArg mk h,
    congrArg bits⟩
  simp [same, hbits, and_assoc]

theorem same_trans {x y z : Number} (hxy : x.same y = true) (hyz : y.same z = true) :
    x.same z = true := by
  obtain ⟨hx, hy, hxy⟩ := same_iff.mp hxy
  obtain ⟨-, hz, hyz⟩ := same_iff.mp hyz
  refine same_iff.mpr ⟨hx, hz, ?_⟩
  rcases hxy with rfl | ⟨hxzero, hyzero⟩
  · exact hyz
  · rcases hyz with rfl | ⟨-, hzzero⟩
    · exact Or.inr ⟨hxzero, hyzero⟩
    · exact Or.inr ⟨hxzero, hzzero⟩

theorem exists_of_magnitude_eq_zero {x : Number} (h : x.magnitude = 0) :
    ∃ negative, x = ofMagnitude negative 0 := by
  have hbits := x.toNat_bits
  rw [h] at hbits
  refine ⟨x.isNegative, ?_⟩
  rw [ofMagnitude, ← hbits, UInt64.ofNat_toNat]

end Number

theorem Scalar.same_trans {u v w : Scalar} (huv : u.same v = true) (hvw : v.same w = true) :
    u.same w = true := by
  cases u <;> cases v <;> cases w <;> simp only [same, beq_iff_eq, Bool.false_eq_true] at *
  case text => exact huv.trans hvw
  case number => exact Number.same_trans huv hvw
  case timestamp => exact huv.trans hvw

namespace CategoryStep

/-- A step whose value is no number. -/
def Plain (a : CategoryStep) : Prop := ∀ x, a.value ≠ some (.number x)

variable {a b c : CategoryStep} {as bs cs : CategoryPath}

theorem sameValue_trans {u v w : Option Scalar} (huv : sameValue u v = true)
    (hvw : sameValue v w = true) : sameValue u w = true := by
  cases u <;> cases v <;> cases w <;> simp only [sameValue, Bool.false_eq_true] at *
  exact Scalar.same_trans huv hvw

theorem same_iff : a.same b = true ↔ a.column = b.column ∧ sameValue a.value b.value = true ∧
    a.descending = b.descending := by
  simp only [same, Bool.and_eq_true, beq_iff_eq, and_assoc]

theorem samePath_cons : samePath (a :: as) (b :: bs) = true ↔
    a.same b = true ∧ samePath as bs = true := Bool.and_eq_true_iff

theorem samePath_trans (hab : samePath as bs = true) (hbc : samePath bs cs = true) :
    samePath as cs = true := by
  induction as generalizing bs cs with
  | nil =>
    cases bs with
    | nil => exact hbc
    | cons b bs => cases hab
  | cons a as ih =>
    cases bs with
    | nil => cases hab
    | cons b bs =>
      cases cs with
      | nil => cases hbc
      | cons c cs =>
        obtain ⟨hsame, hrest⟩ := samePath_cons.mp hab
        obtain ⟨hsame', hrest'⟩ := samePath_cons.mp hbc
        obtain ⟨hcolumn, hvalue, hdescending⟩ := same_iff.mp hsame
        obtain ⟨hcolumn', hvalue', hdescending'⟩ := same_iff.mp hsame'
        exact samePath_cons.mpr ⟨same_iff.mpr ⟨hcolumn.trans hcolumn',
          sameValue_trans hvalue hvalue', hdescending.trans hdescending'⟩, ih hrest hrest'⟩

theorem Plain.same_iff_eq (ha : a.Plain) : a.same b = true ↔ a = b := by
  have hvalue : sameValue a.value b.value = true ↔ a.value = b.value := by
    cases hav : a.value with
    | none => cases b.value <;> simp [sameValue]
    | some v =>
      cases hbv : b.value with
      | none => simp [sameValue]
      | some w =>
        cases v with
        | number x => exact absurd hav (ha x)
        | text s => cases w <;> simp [sameValue, Scalar.same]
        | timestamp t => cases w <;> simp [sameValue, Scalar.same]
  rw [same_iff, hvalue]
  cases a
  cases b
  simp

theorem samePath_iff_eq (has : ∀ step ∈ as, step.Plain) : samePath as bs = true ↔ as = bs := by
  induction as generalizing bs with
  | nil => cases bs <;> simp [samePath]
  | cons a as ih =>
    obtain ⟨ha, has⟩ := List.forall_mem_cons.mp has
    cases bs with
    | nil => simp [samePath]
    | cons b bs => rw [samePath_cons, ha.same_iff_eq, ih has, List.cons.injEq]

end CategoryStep

namespace Batch

/-! ## Alternatives of a column -/

variable {path : CategoryPath} {paths known before after : List CategoryPath} {index : Nat}
  {column : Column} {row : ColumnValues}

theorem subset_foldl_addPath (paths known : List CategoryPath) :
    known ⊆ paths.foldl addPath known := by
  induction paths generalizing known with
  | nil => exact List.Subset.refl _
  | cons p rest ih =>
    refine List.Subset.trans ?_ (ih (addPath known p))
    unfold addPath
    split
    · exact List.Subset.refl _
    · exact List.subset_append_left _ _

theorem mem_addPath_or (known : List CategoryPath) (path : CategoryPath) :
    path ∈ addPath known path ∨ ∃ k ∈ known, CategoryStep.samePath k path = true := by
  unfold addPath
  split
  · next hany => exact Or.inr (List.any_eq_true.mp hany)
  · exact Or.inl (List.mem_append_right _ (List.mem_singleton.mpr rfl))

theorem kept_or_same (before after : List CategoryPath) (path : CategoryPath) :
    path ∈ (before ++ path :: after).foldl addPath [] ∨
      ∃ k ∈ before, CategoryStep.samePath k path = true ∧
        k ∈ (before ++ path :: after).foldl addPath [] := by
  rw [List.foldl_append, List.foldl_cons]
  have hgrown := subset_foldl_addPath after (addPath (before.foldl addPath []) path)
  rcases mem_addPath_or (before.foldl addPath []) path with hadded | ⟨k, hk, hsame⟩
  · exact Or.inl (hgrown hadded)
  · have hk' : k ∈ addPath (before.foldl addPath []) path :=
      subset_foldl_addPath [path] (before.foldl addPath []) hk
    exact Or.inr ⟨k, (mem_foldl_addPath hk).resolve_left List.not_mem_nil, hsame, hgrown hk'⟩

theorem exists_place_of_kept (h : path ∈ paths.foldl addPath []) :
    ∃ before after, paths = before ++ path :: after ∧
      ∀ k ∈ before, CategoryStep.samePath k path = false := by
  induction paths using List.reverseRecOn with
  | nil => exact absurd h List.not_mem_nil
  | append_singleton rest p ih =>
    rw [List.foldl_append, List.foldl_cons, List.foldl_nil] at h
    by_cases hrest : path ∈ rest.foldl addPath []
    · obtain ⟨before, after, rfl, hbefore⟩ := ih hrest
      exact ⟨before, after ++ [p], by simp, hbefore⟩
    · unfold addPath at h
      split at h
      · exact absurd h hrest
      · next hnew =>
        obtain rfl := List.mem_singleton.mp ((List.mem_append.mp h).resolve_left hrest)
        refine ⟨rest, [], rfl, fun k hk => Bool.eq_false_iff.mpr fun hsame => hnew ?_⟩
        obtain ⟨start, rest', rfl⟩ := List.append_of_mem hk
        rcases kept_or_same start rest' k with hkept | ⟨k', -, hsame', hkept⟩
        · exact List.any_eq_true.mpr ⟨k, hkept, hsame⟩
        · exact List.any_eq_true.mpr ⟨k', hkept, CategoryStep.samePath_trans hsame' hsame⟩

def stepsOf (separator : Char) (index : Nat) (column : Column) (v : Scalar) : CategoryPath :=
  (segments separator v).map (⟨index, ·, column.isDescending⟩)

theorem plain_of_mem_stepsOf (hv : ∀ x, v ≠ .number x) {step : CategoryStep}
    (hstep : step ∈ stepsOf separator index column v) : step.Plain := by
  obtain ⟨value, hvalue, rfl⟩ := List.mem_map.mp hstep
  have hexpands : Expands separator v (segments separator v) := segments_eq_iff.mp rfl
  generalize segments separator v = values at hvalue hexpands
  intro x hx
  obtain rfl : value = some (.number x) := hx
  cases hexpands with
  | blank _ => cases List.mem_singleton.mp hvalue
  | parts _ _ =>
    obtain ⟨part, -, hpart⟩ := List.mem_map.mp hvalue
    cases hpart
  | number y => exact hv y rfl
  | timestamp t => cases List.mem_singleton.mp hvalue

theorem samePath_of_same (h : w.same v = true) : CategoryStep.samePath
    (stepsOf separator index column w) (stepsOf separator index column v) = true := by
  have hplain : (∀ x, w ≠ .number x) → w = v → CategoryStep.samePath
      (stepsOf separator index column w) (stepsOf separator index column v) = true := by
    rintro hw rfl
    exact (CategoryStep.samePath_iff_eq fun _ => plain_of_mem_stepsOf hw).mpr rfl
  cases w with
  | text s =>
    cases v with
    | text t => exact hplain nofun (congrArg Scalar.text (eq_of_beq h))
    | number y => cases h
    | timestamp t => cases h
  | number x =>
    cases v with
    | text t => cases h
    | number y =>
      exact CategoryStep.samePath_cons.mpr ⟨CategoryStep.same_iff.mpr ⟨rfl, h, rfl⟩, rfl⟩
    | timestamp t => cases h
  | timestamp s =>
    cases v with
    | text t => cases h
    | number y => cases h
    | timestamp t => exact hplain nofun (congrArg Scalar.timestamp (eq_of_beq h))

theorem eq_or_same_of_samePath (h : CategoryStep.samePath
    (stepsOf separator index column w) (stepsOf separator index column v) = true) :
    stepsOf separator index column w = stepsOf separator index column v ∨ w.same v = true := by
  have hagree : (∀ x, w ≠ .number x) →
      stepsOf separator index column w = stepsOf separator index column v := fun hw =>
    (CategoryStep.samePath_iff_eq fun _ => plain_of_mem_stepsOf hw).mp h
  cases w with
  | text s => exact Or.inl (hagree nofun)
  | timestamp t => exact Or.inl (hagree nofun)
  | number x =>
    have hnumber : ∀ {b rest}, stepsOf separator index column v = b :: rest →
        CategoryStep.sameValue (some (.number x)) b.value = true := by
      intro b rest hsteps
      rw [hsteps] at h
      exact (CategoryStep.same_iff.mp (CategoryStep.samePath_cons.mp h).1).2.1
    have hplain : (∀ y, v ≠ .number y) → False := by
      intro hv
      cases hsteps : stepsOf separator index column v with
      | nil =>
        rw [hsteps] at h
        cases h
      | cons b rest =>
        have hb : b.Plain := plain_of_mem_stepsOf hv (hsteps ▸ List.mem_cons_self)
        have hvalue := hnumber hsteps
        cases hbv : b.value with
        | none => rw [hbv] at hvalue; cases hvalue
        | some u =>
          rw [hbv] at hvalue
          cases u with
          | number y => exact hb y hbv
          | text s => cases hvalue
          | timestamp t => cases hvalue
    cases v with
    | text s => exact (hplain nofun).elim
    | number y => exact Or.inr (hnumber rfl)
    | timestamp t => exact (hplain nofun).elim

theorem mem_alternatives_iff :
    path ∈ alternatives separator index column row ↔
      ∃ values, Chosen Counts separator (row.getD column.item .null).scalars values ∧
        path = values.map (⟨index, ·, column.isDescending⟩) := by
  unfold alternatives
  split
  · next hnil =>
    constructor
    · intro hpath
      exact ⟨[none], .null hnil, List.mem_singleton.mp hpath⟩
    · rintro ⟨values, hvalues, rfl⟩
      cases hvalues with
      | null _ => exact List.mem_singleton.mpr rfl
      | scalar hv _ =>
        obtain ⟨before, after, hsplit, -⟩ := hv
        rw [hnil] at hsplit
        exact absurd hsplit.symm (List.append_ne_nil_of_right_ne_nil _ (List.cons_ne_nil _ _))
  · next hne =>
    generalize (row.getD column.item .null).scalars = scalars at hne
    constructor
    · intro hpath
      obtain ⟨before, after, hsplit, hbefore⟩ := exists_place_of_kept hpath
      obtain ⟨start, rest, rfl, rfl, hrest⟩ := List.map_eq_append_iff.mp hsplit
      obtain ⟨v, behind, rfl, rfl, -⟩ := List.map_eq_cons_iff.mp hrest
      refine ⟨segments separator v, .scalar ⟨start, behind, rfl, fun w hw hsame => ?_⟩
        (segments_eq_iff.mp rfl), rfl⟩
      have hdiffer := hbefore _ (List.mem_map_of_mem hw)
      exact absurd (samePath_of_same hsame) (Bool.eq_false_iff.mp hdiffer)
    · rintro ⟨values, hvalues, rfl⟩
      cases hvalues with
      | null hnil => exact absurd hnil hne
      | @scalar v _ hv hexpands =>
        obtain ⟨start, behind, rfl, hstart⟩ := hv
        obtain rfl := segments_eq_iff.mpr hexpands
        change stepsOf separator index column v ∈
          ((start ++ v :: behind).map (stepsOf separator index column)).foldl addPath []
        rw [List.map_append, List.map_cons]
        rcases kept_or_same (start.map (stepsOf separator index column))
            (behind.map (stepsOf separator index column)) (stepsOf separator index column v) with
          hkept | ⟨k, hk, hsame, hkept⟩
        · exact hkept
        · obtain ⟨w, hw, rfl⟩ := List.mem_map.mp hk
          rcases eq_or_same_of_samePath hsame with heq | hequal
          · exact heq ▸ hkept
          · exact hstart w hw hequal ▸ hkept

theorem mem_foldl_crossed {columns : List (Column × Nat)} {starts : List CategoryPath} :
    path ∈ columns.foldl (fun paths (column, index) =>
        crossed paths (alternatives separator index column row)) starts ↔
      ∃ start ∈ starts, ∃ chain, Chains Counts separator row columns chain ∧
        path = start ++ chain := by
  induction columns generalizing starts with
  | nil =>
    constructor
    · intro hpath
      exact ⟨path, hpath, [], .nil, (List.append_nil path).symm⟩
    · rintro ⟨start, hstart, chain, hchain, rfl⟩
      cases hchain
      rwa [List.append_nil]
  | cons c rest ih =>
    obtain ⟨column, index⟩ := c
    rw [List.foldl_cons, ih]
    constructor
    · rintro ⟨start', hstart', chain, hchain, rfl⟩
      obtain ⟨start, hstart, hstart'⟩ := List.mem_flatMap.mp hstart'
      obtain ⟨alternative, halternative, rfl⟩ := List.mem_map.mp hstart'
      obtain ⟨values, hvalues, rfl⟩ := mem_alternatives_iff.mp halternative
      exact ⟨start, hstart, _, .column hvalues hchain, List.append_assoc _ _ _⟩
    · rintro ⟨start, hstart, chain, hchain, rfl⟩
      cases hchain with
      | column hvalues hrest =>
        refine ⟨_, List.mem_flatMap.mpr ⟨start, hstart, List.mem_map_of_mem
          (mem_alternatives_iff.mpr ⟨_, hvalues, rfl⟩)⟩, _, hrest, ?_⟩
        exact (List.append_assoc _ _ _).symm

theorem mem_categoryPaths_iff {config : Config} :
    path ∈ categoryPaths config row ↔ config.Chain Counts row path := by
  unfold categoryPaths Config.Chain
  rw [mem_foldl_crossed]
  constructor
  · rintro ⟨start, hstart, chain, hchain, rfl⟩
    rw [List.mem_singleton.mp hstart]
    exact hchain
  · intro hchain
    exact ⟨[], List.mem_singleton.mpr rfl, path, hchain, rfl⟩

end Batch

/-! ## The two zeros -/

namespace Number

def negativeZero : Number := ofMagnitude true 0

end Number

/-- Both zeros are among the scalars. -/
def BothZeros (scalars : List Scalar) : Prop :=
  .number .zero ∈ scalars ∧ .number .negativeZero ∈ scalars

variable {scalars : List Scalar} {v w : Scalar}

theorem Counts.listed (h : Counts scalars v) : Listed scalars v := by
  obtain ⟨before, after, rfl, -⟩ := h
  exact List.mem_append_right _ List.mem_cons_self

theorem Scalar.eq_or_bothZeros (hsame : w.same v = true) (hw : w ∈ scalars) (hv : v ∈ scalars) :
    w = v ∨ BothZeros scalars := by
  cases w <;> cases v <;> simp only [same, beq_iff_eq, Bool.false_eq_true] at hsame
  case text => exact Or.inl (congrArg _ hsame)
  case timestamp => exact Or.inl (congrArg _ hsame)
  case number x y =>
    obtain ⟨-, -, rfl | ⟨hx, hy⟩⟩ := Number.same_iff.mp hsame
    · exact Or.inl rfl
    · obtain ⟨p, rfl⟩ := Number.exists_of_magnitude_eq_zero hx
      obtain ⟨q, rfl⟩ := Number.exists_of_magnitude_eq_zero hy
      cases p <;> cases q
      · exact Or.inl rfl
      · exact Or.inr ⟨hw, hv⟩
      · exact Or.inr ⟨hv, hw⟩
      · exact Or.inl rfl

theorem Listed.counts (hv : Listed scalars v) (hzeros : ¬BothZeros scalars) :
    Counts scalars v := by
  obtain ⟨before, after, hsplit⟩ := List.append_of_mem hv
  refine ⟨before, after, hsplit, fun w hw hsame => ?_⟩
  have hmem : w ∈ scalars := hsplit ▸ List.mem_append_left _ hw
  exact (Scalar.eq_or_bothZeros hsame hmem hv).resolve_right hzeros

theorem Chains.mono {choice choice' : List Scalar → Scalar → Prop} {separator : Char}
    {row : ColumnValues} {columns : List (Column × Nat)} {chain : CategoryPath}
    (h : Chains choice separator row columns chain)
    (hchoice : ∀ c ∈ columns, ∀ v, choice (row.getD c.1.item .null).scalars v →
      choice' (row.getD c.1.item .null).scalars v) :
    Chains choice' separator row columns chain := by
  induction h with
  | nil => exact .nil
  | column hvalues _ ih =>
    obtain ⟨hfirst, hrest⟩ := List.forall_mem_cons.mp hchoice
    refine .column ?_ (ih hrest)
    cases hvalues with
    | null hnil => exact .null hnil
    | scalar hv hexpands => exact .scalar (hfirst _ hv) hexpands

end CategorizedIndex
