import CategorizedIndex.Proofs.Replay.Run

/-! # Rows of a replay

The documents of a row are counted and their slots noted under every parent that its
paths lead to. After the whole batch, every row that is let through is accounted for at
the end of each of its paths, and exactly the placements of the ids that the batch
mentions are detached.
-/
namespace CategorizedIndex.Replay

variable {config : Config} {t : Tree} {U : Table} {r r' : Replay} {P Q : Parent}
  {A : List Label}

structure Gathered (config : Config) (t : Tree) (U : Table) (known : List Parent)
    (paths : List CategoryPath) (r : Replay) (q : List Parent × Replay) : Prop where
  traced : Traced config t U q.2
  grown : Grown t r q.2
  keeps : known ⊆ q.1
  ends : ∀ path ∈ paths, ∃ P ∈ q.1, Stands config t.skeleton q.2.pending P (path.map .category)
  sources : ∀ P ∈ q.1, P ∈ known ∨
    ∃ path ∈ paths, Stands config t.skeleton q.2.pending P (path.map .category)
  taken : ∀ path ∈ paths, PathTaken config t q.2 [] path
  detached : q.2.detached = r.detached

theorem gathered_resolveAll (hs : t.Sound config) (h : Traced config t U r)
    (known : List Parent) {paths : List CategoryPath}
    (hmeant : ∀ path ∈ paths, Meant config U [] path) :
    Gathered config t U known paths r (resolveAll t known paths r) := by
  induction paths generalizing r known with
  | nil =>
    exact ⟨h, .refl t r, List.Subset.refl _, fun _ hp => absurd hp List.not_mem_nil,
      fun _ hP => Or.inl hP, fun _ hp => absurd hp List.not_mem_nil, rfl⟩
  | cons path rest ih =>
    have hone := followed_resolve hs h (stands_root hs.formed) (hmeant path List.mem_cons_self)
    unfold resolveAll
    generalize resolve t (.live Tree.root) path r = q at hone
    obtain ⟨P, v⟩ := q
    simp only
    have hstands : Stands config t.skeleton v.pending P (path.map .category) := hone.stands
    have hrest := ih hone.traced (if known.contains P then known else known ++ [P])
      fun path hp => hmeant path (List.mem_cons_of_mem _ hp)
    have hPmem := hrest.keeps (mem_known.mpr (Or.inr rfl))
    have hPstands := hstands.mono hrest.grown.pending
    constructor
    case traced => exact hrest.traced
    case grown => exact hone.grown.trans hrest.grown
    case keeps =>
      intro Q hQ
      exact hrest.keeps (mem_known.mpr (Or.inl hQ))
    case ends =>
      intro path' hp
      rcases List.mem_cons.mp hp with rfl | hp
      · exact ⟨P, hPmem, hPstands⟩
      · exact hrest.ends path' hp
    case sources =>
      intro Q hQ
      rcases hrest.sources Q hQ with hQ | ⟨path', hp, hQ⟩
      · rcases mem_known.mp hQ with hQ | rfl
        · exact Or.inl hQ
        · exact Or.inr ⟨path, List.mem_cons_self, hPstands⟩
      · exact Or.inr ⟨path', List.mem_cons_of_mem _ hp, hQ⟩
    case taken =>
      intro path' hp
      rcases List.mem_cons.mp hp with rfl | hp
      · exact hone.taken.mono hrest.grown
      · exact hrest.taken path' hp
    case detached => exact hrest.detached.trans hone.detached

/-- Noting the slots of a document that the table places under a parent. -/
theorem traced_noteSlots (h : Traced config t U r)
    (hP : Stands config t.skeleton r.pending P A) {slots : List Slot}
    (hholds : ∀ i v, slots[i]?.bind (·.scalar?) = some v → U.Holds A (.document i) v) :
    Traced config t U (r.noteSlots P slots) ∧ Grown t r (r.noteSlots P slots) ∧
      (r.noteSlots P slots).pending = r.pending ∧
      (r.noteSlots P slots).detached = r.detached ∧
      ∀ i v, slots[i]?.bind (·.scalar?) = some v →
        Noted (r.noteSlots P slots).added P (.document i) v := by
  have hslots : ∀ i v, slots[i]?.bind (·.scalar?) = some v ↔
      ∃ slot, (slot, i) ∈ slots.zipIdx ∧ slot.scalar? = some v := by
    intro i v
    simp only [List.mk_mem_zipIdx_iff_getElem?, Option.bind_eq_some_iff]
  simp only [hslots] at hholds ⊢
  unfold noteSlots
  generalize slots.zipIdx = l at hholds
  induction l generalizing r with
  | nil =>
    exact ⟨h, .refl t r, rfl, rfl, fun i v ⟨_, hmem, _⟩ => absurd hmem List.not_mem_nil⟩
  | cons first rest ih =>
    obtain ⟨slot, position⟩ := first
    rw [List.foldl_cons]
    simp only
    have hrest : ∀ i v, (∃ s, (s, i) ∈ rest ∧ s.scalar? = some v) → U.Holds A (.document i) v :=
      fun i v ⟨s, hmem, hv⟩ => hholds i v ⟨s, List.mem_cons_of_mem _ hmem, hv⟩
    cases hvalue : slot.scalar? with
    | none =>
      obtain ⟨htraced, hgrown, hpending, hdetached, hnoted⟩ := ih h hP hrest
      refine ⟨htraced, hgrown, hpending, hdetached, fun i v ⟨s, hmem, hv⟩ => ?_⟩
      rcases List.mem_cons.mp hmem with heq | hmem
      · obtain ⟨rfl, rfl⟩ := Prod.mk.inj heq
        rw [hvalue] at hv
        cases hv
      · exact hnoted i v ⟨s, hmem, hv⟩
    | some value =>
      have hnote := h.note hP (hholds position value ⟨slot, List.mem_cons_self, hvalue⟩)
      obtain ⟨htraced, hgrown, hpending, hdetached, hnoted⟩ :=
        ih (r := r.note P (.document position) value) hnote hP hrest
      refine ⟨htraced, (grown_note t r P _ value).trans hgrown, hpending, hdetached, ?_⟩
      rintro i v ⟨s, hmem, hv⟩
      rcases List.mem_cons.mp hmem with heq | hmem
      · obtain ⟨rfl, rfl⟩ := Prod.mk.inj heq
        rw [← Option.some.inj (hvalue.symm.trans hv)]
        exact hgrown.noted noted_noteIn_self
      · exact hnoted i v ⟨s, hmem, hv⟩

theorem traced_addDocuments (h : Traced config t U r) {s : ScopedId} {placing : Placing}
    (hrow : U s = some placing) {parents : List Parent}
    (hparents : ∀ P ∈ parents, ∃ path ∈ placing.paths,
      Stands config t.skeleton r.pending P (path.map .category)) :
    let v := parents.foldl (fun r P => (r.addChild P).noteSlots P placing.slots) r
    Traced config t U v ∧ Grown t r v ∧ v.detached = r.detached ∧
      ∀ P ∈ parents, (∀ i w, placing.slots[i]?.bind (·.scalar?) = some w →
        Noted v.added P (.document i) w) ∧ ∀ x, P = .live x → 0 < gain t v x := by
  induction parents generalizing r with
  | nil => exact ⟨h, .refl t r, rfl, fun _ hP => absurd hP List.not_mem_nil⟩
  | cons P rest ih =>
    obtain ⟨path, hpath, hP⟩ := hparents P List.mem_cons_self
    obtain ⟨hpending, -, hdetached⟩ := frame_addChild r P
    have hchild : Traced config t U (r.addChild P) := by
      refine h.addChild fun x hx => ⟨s, placing, path, hrow, hpath, ?_⟩
      subst hx
      rw [← hP.eq_address]
      exact List.prefix_append _ _
    obtain ⟨htraced, hgrown, hpending', hdetached', hnoted⟩ :=
      traced_noteSlots hchild (hpending ▸ hP) fun i v hv => .document hrow hpath hv
    obtain ⟨hlast, hlastgrown, hlastdetached, hlastdone⟩ := ih htraced fun Q hQ => by
      obtain ⟨path', hpath', hQ'⟩ := hparents Q (List.mem_cons_of_mem _ hQ)
      refine ⟨path', hpath', ?_⟩
      rw [hpending', hpending]
      exact hQ'
    refine ⟨hlast, (grown_addChild t r P).trans (hgrown.trans hlastgrown),
      hlastdetached.trans (hdetached'.trans hdetached), fun Q hQ => ?_⟩
    rcases List.mem_cons.mp hQ with rfl | hQ
    · refine ⟨fun i v hv => hlastgrown.noted (hnoted i v hv), fun x hx => ?_⟩
      have hgain : 0 < gain t (r.addChild Q) x := by
        have := (h.gains x).1
        rw [gain_addChild, if_pos hx]
        omega
      exact hgain.trans_le ((hgrown.trans hlastgrown).gains x)
    · exact hlastdone Q hQ

def RowTaken (config : Config) (t : Tree) (r : Replay) (row : PreparedRow) : Prop :=
  ∀ placing, row.placing = some placing → ∀ path ∈ placing.paths,
    PathTaken config t r [] path ∧ DocumentTaken config t r (path.map .category) placing.slots

theorem RowTaken.mono {row : PreparedRow} (h : RowTaken config t r row) (hg : Grown t r r') :
    RowTaken config t r' row := fun placing hp path hpath =>
  ⟨(h placing hp path hpath).1.mono hg, (h placing hp path hpath).2.mono hg⟩

theorem traced_place (hs : t.Sound config) (h : Traced config t U r) {row : PreparedRow}
    (hid : row.scopedId.isCategory = false)
    (hfits : ∀ p, row.placing = some p → p.Fits config)
    (hrow : U row.scopedId = row.placing) :
    Traced config t U (r.place t row) ∧ Grown t r (r.place t row) ∧
      RowTaken config t (r.place t row) row ∧
      ∀ x, x ∈ (r.place t row).detached ↔
        x ∈ r.detached ∨ x ∈ t.placementsOf row.scopedId := by
  obtain ⟨s, placing?⟩ := row
  have hw := withdrawn_withdraw hs r hid
  have htraced := hw.traced h
  unfold place
  cases placing? with
  | none => exact ⟨htraced, hw.grown, fun _ hp => (nomatch hp), hw.detached⟩
  | some placing =>
    have hfit := hfits placing rfl
    have hgather := gathered_resolveAll hs htraced [] fun path hp => meant_path hrow hfit hp
    simp only
    generalize resolveAll t [] placing.paths (r.withdraw t s) = q at hgather
    obtain ⟨parents, v⟩ := q
    simp only at hgather ⊢
    have hparents : ∀ P ∈ parents, ∃ path ∈ placing.paths,
        Stands config t.skeleton v.pending P (path.map .category) := fun P hP =>
      (hgather.sources P hP).resolve_left List.not_mem_nil
    obtain ⟨hdone, hgrown, hdetached, hdocuments⟩ :=
      traced_addDocuments hgather.traced hrow hparents
    refine ⟨hdone, hw.grown.trans (hgather.grown.trans hgrown), fun p hp path hpath => ?_, ?_⟩
    · obtain rfl := Option.some.inj hp
      obtain ⟨P, hP, hstands⟩ := hgather.ends path hpath
      refine ⟨(hgather.taken path hpath).mono hgrown, P, hstands.mono hgrown.pending, ?_⟩
      exact hdocuments P hP
    · intro x
      rw [hdetached, hgather.detached]
      exact hw.detached x

/-- The whole batch is accounted for. -/
structure Ran (config : Config) (t : Tree) (U : Table) (batch : Batch) (r : Replay) : Prop where
  traced : Traced config t U r
  rows : ∀ row ∈ batch.rows, RowTaken config t r row
  detached : ∀ x, x ∈ r.detached ↔
    ∃ s, (s ∈ batch.removals ∨ s ∈ batch.rows.map (·.scopedId)) ∧ x ∈ t.placementsOf s

theorem traced_start (config : Config) (t : Tree) (U : Table) : Traced config t U start := by
  have hgain : ∀ x, gain t start x = 0 := fun x => by simp [gain, start, detachedKids]
  constructor
  case apart => exact apart_nil config t.skeleton
  case created =>
    intro c hc
    exact absurd hc List.not_mem_nil
  case noted =>
    intro c hc
    exact absurd hc List.not_mem_nil
  case pendingGains =>
    intro c hc
    exact absurd hc List.not_mem_nil
  case gains =>
    intro x
    rw [hgain]
    exact ⟨le_rfl, fun h => absurd h (lt_irrefl 0)⟩
  case tidy => exact tidy_nil
  case values =>
    intro a ha
    exact absurd ha List.not_mem_nil

theorem traced_withdrawals (hs : t.Sound config) (h : Traced config t U r) {l : List ScopedId}
    (hl : ∀ s ∈ l, s.isCategory = false) :
    Traced config t U (l.foldl (withdraw t) r) ∧
      ∀ x, x ∈ (l.foldl (withdraw t) r).detached ↔
        x ∈ r.detached ∨ ∃ s ∈ l, x ∈ t.placementsOf s := by
  induction l generalizing r with
  | nil => exact ⟨h, fun x => by simp⟩
  | cons s rest ih =>
    have hw := withdrawn_withdraw hs r (hl s List.mem_cons_self)
    obtain ⟨htraced, hdetached⟩ := ih (hw.traced h) fun a ha => hl a (List.mem_cons_of_mem _ ha)
    refine ⟨htraced, fun x => ?_⟩
    rw [List.foldl_cons, hdetached, hw.detached]
    simp only [List.mem_cons, exists_eq_or_imp, or_assoc]

theorem traced_rows (hs : t.Sound config) (h : Traced config t U r) {rows : List PreparedRow}
    (hrows : ∀ row ∈ rows, row.scopedId.isCategory = false ∧
      (∀ p, row.placing = some p → p.Fits config) ∧ U row.scopedId = row.placing) :
    Traced config t U (rows.foldl (place t) r) ∧ Grown t r (rows.foldl (place t) r) ∧
      (∀ row ∈ rows, RowTaken config t (rows.foldl (place t) r) row) ∧
      ∀ x, x ∈ (rows.foldl (place t) r).detached ↔
        x ∈ r.detached ∨ ∃ s ∈ rows.map (·.scopedId), x ∈ t.placementsOf s := by
  induction rows generalizing r with
  | nil => exact ⟨h, .refl t r, fun _ hr => absurd hr List.not_mem_nil, fun x => by simp⟩
  | cons row rest ih =>
    obtain ⟨hid, hfits, hrow⟩ := hrows row List.mem_cons_self
    obtain ⟨hone, hgrown, htaken, hdetached⟩ := traced_place hs h hid hfits hrow
    obtain ⟨hrest, hrestgrown, hresttaken, hrestdetached⟩ :=
      ih hone fun a ha => hrows a (List.mem_cons_of_mem _ ha)
    refine ⟨hrest, hgrown.trans hrestgrown, fun a ha => ?_, fun x => ?_⟩
    · rcases List.mem_cons.mp ha with rfl | ha
      · exact htaken.mono hrestgrown
      · exact hresttaken a ha
    · rw [List.foldl_cons, hrestdetached, hdetached]
      simp only [List.map_cons, List.mem_cons, exists_eq_or_imp, or_assoc]

/-- A replay of a prepared batch is accounted for by the table after it. -/
theorem ran_run (hs : t.Sound config) {batch : Batch} (hb : batch.Fits config)
    (hn : (batch.rows.map (·.scopedId)).Nodup) (T : Table) :
    Ran config t (batch.table T) batch (run t batch) := by
  obtain ⟨hstart, hremoved⟩ :=
    traced_withdrawals hs (traced_start config t (batch.table T)) hb.removals
  obtain ⟨hrows, -, htaken, hdetached⟩ := traced_rows hs hstart fun row hrow => by
    obtain ⟨hid, hfits⟩ := hb.rows row hrow
    exact ⟨hid, hfits, Batch.table_of_mem hn hrow⟩
  refine ⟨hrows, htaken, fun x => ?_⟩
  rw [run, hdetached, hremoved]
  have hempty : x ∉ start.detached := Std.ExtTreeSet.not_mem_empty
  constructor
  · rintro ((hx | ⟨s, hs, hx⟩) | ⟨s, hs, hx⟩)
    · exact absurd hx hempty
    · exact ⟨s, Or.inl hs, hx⟩
    · exact ⟨s, Or.inr hs, hx⟩
  · rintro ⟨s, hs | hs, hx⟩
    · exact Or.inl (Or.inr ⟨s, hs, hx⟩)
    · exact Or.inr ⟨s, hs, hx⟩

end CategorizedIndex.Replay
