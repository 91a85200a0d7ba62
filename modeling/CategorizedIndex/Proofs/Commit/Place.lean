import CategorizedIndex.Proofs.Commit.Resolve

/-! # Placing rows

A row is placed once under each distinct category its paths lead to. Everything that
was created on the way gets a child, so no new category is left childless, and the
tree shows the table with that row.
-/
namespace CategorizedIndex.Work

variable {config : Config} {w : Work} {T : Table}

structure Gathered (config : Config) (known : List EntryId) (paths : List CategoryPath)
    (w : Work) (r : List EntryId × Work) : Prop where
  sound : r.2.tree.Sound config
  numbered : r.2.tree.skeleton.Numbered r.2.tree.lastCategory
  kept : w.tree.skeleton.KeptIn r.2.tree.skeleton
  nodup : r.1.Nodup
  categories : ∀ id ∈ r.1, ∃ c, r.2.tree.skeleton id = some c ∧ c.isCategory = true
  keeps : known ⊆ r.1
  ends : ∀ path ∈ paths, ∃ id ∈ r.1, r.2.tree.skeleton.address id = path.map .category
  sources : ∀ id ∈ r.1, id ∈ known ∨
    ∃ path ∈ paths, r.2.tree.skeleton.address id = path.map .category
  created : ∀ x c, r.2.tree.skeleton x = some c → w.tree.skeleton x = some c ∨
    c.isCategory = true ∧ ∃ id ∈ r.1, x ∈ r.2.tree.skeleton.line id
  emptied : r.2.emptied = w.emptied
  spent : r.2.tree.lastCategory + w.tree.categoryCount =
    w.tree.lastCategory + r.2.tree.categoryCount

/-- The end of a further path is gathered before those of the rest. -/
theorem Gathered.cons {known : List EntryId} {path : CategoryPath} {rest : List CategoryPath}
    {id : EntryId} {v : Work} {r : List EntryId × Work} (h : w.tree.Sound config)
    (hled : Led config Tree.root path w (id, v))
    (hrest : Gathered config (if known.contains id then known else known ++ [id]) rest v r) :
    Gathered config known (path :: rest) w r := by
  have hidmem := hrest.keeps (mem_known.mpr (Or.inr rfl))
  obtain ⟨c, hc, -⟩ := hled.category
  have hidaddress : r.2.tree.skeleton.address id = path.map .category := by
    rw [hrest.kept.address_eq hled.sound.formed hc, hled.address, h.formed.address_root,
      List.nil_append]
  constructor
  case sound => exact hrest.sound
  case numbered => exact hrest.numbered
  case kept => exact hled.kept.trans hrest.kept
  case nodup => exact hrest.nodup
  case categories => exact hrest.categories
  case keeps =>
    intro x hx
    exact hrest.keeps (mem_known.mpr (Or.inl hx))
  case ends =>
    intro path' hp
    rcases List.mem_cons.mp hp with rfl | hp
    · exact ⟨id, hidmem, hidaddress⟩
    · exact hrest.ends path' hp
  case sources =>
    intro x hx
    rcases hrest.sources x hx with hx | ⟨path', hp, ha⟩
    · rcases mem_known.mp hx with hx | rfl
      · exact Or.inl hx
      · exact Or.inr ⟨path, List.mem_cons_self, hidaddress⟩
    · exact Or.inr ⟨path', List.mem_cons_of_mem _ hp, ha⟩
  case created =>
    intro x d hx
    rcases hrest.created x d hx with hx | hx
    · rcases hled.created x d hx with hx | ⟨hcat, hmem⟩
      · exact Or.inl hx
      · refine Or.inr ⟨hcat, id, hidmem, ?_⟩
        rw [hrest.kept.line_eq hled.sound.formed hc]
        exact hmem
    · exact Or.inr hx
  case emptied => exact hrest.emptied.trans hled.emptied
  case spent => exact spent_trans hled.spent hrest.spent

theorem gathered_resolveAll (h : w.tree.Sound config)
    (hnum : w.tree.skeleton.Numbered w.tree.lastCategory) {known : List EntryId}
    (hn : known.Nodup)
    (hknown : ∀ id ∈ known, ∃ c, w.tree.skeleton id = some c ∧ c.isCategory = true)
    {paths : List CategoryPath} (hpaths : ∀ path ∈ paths, ∀ step ∈ path, step.Fits config) :
    Gathered config known paths w (resolveAll config known paths w) := by
  induction paths generalizing w known with
  | nil =>
    exact ⟨h, hnum, .refl _, hn, hknown, List.Subset.refl _, fun _ hp => absurd hp List.not_mem_nil,
      fun _ hid => Or.inl hid, fun _ _ hx => Or.inl hx, rfl, rfl⟩
  | cons path rest ih =>
    have hled := led_resolve h hnum h.formed.root Core.isCategory_root
      (hpaths path List.mem_cons_self)
    unfold resolveAll
    generalize resolve config Tree.root path w = r at hled ⊢
    obtain ⟨id, v⟩ := r
    have hcategories : ∀ x ∈ (if known.contains id then known else known ++ [id]),
        ∃ c, v.tree.skeleton x = some c ∧ c.isCategory = true := by
      intro x hx
      rcases mem_known.mp hx with hx | rfl
      · obtain ⟨c, hc, hcat⟩ := hknown x hx
        exact ⟨c, hled.kept x c hc, hcat⟩
      · exact hled.category
    exact .cons h hled (ih hled.sound hled.numbered (nodup_known hn) hcategories
      fun path hp => hpaths path (List.mem_cons_of_mem _ hp))

structure Attached (config : Config) (s : ScopedId) (placing : Placing) (parents : List EntryId)
    (w v : Work) : Prop where
  sound : v.tree.Sound config
  numbered : v.tree.skeleton.Numbered v.tree.lastCategory
  kept : w.tree.skeleton.KeptIn v.tree.skeleton
  placed : ∀ p ∈ parents, ∃ x,
    v.tree.skeleton x = some (Skeleton.documentCore s placing (some p))
  fresh : ∀ x c, v.tree.skeleton x = some c → w.tree.skeleton x = some c ∨
    ∃ p ∈ parents, c = Skeleton.documentCore s placing (some p)
  emptied : v.emptied = w.emptied
  lastCategory : v.tree.lastCategory = w.tree.lastCategory
  categoryCount : v.tree.categoryCount = w.tree.categoryCount

theorem label_documentCore {s : ScopedId} (hs : s.isCategory = false) (placing : Placing)
    (parent : Option EntryId) :
    (Skeleton.documentCore s placing parent).label = .document s :=
  Core.label_document hs

theorem attached_one (h : w.tree.Sound config)
    (hnum : w.tree.skeleton.Numbered w.tree.lastCategory) {s : ScopedId}
    (hs : s.isCategory = false) {placing : Placing} (hfits : placing.Fits config)
    {p : EntryId} {pc : Core} (hp : w.tree.skeleton p = some pc) (hpc : pc.isCategory = true)
    (hnew : ∀ x d, w.tree.skeleton x = some d → d.parent = some p → d.label ≠ .document s) :
    Attached config s placing [p] w (attachDocument s placing w p) := by
  let c := Skeleton.documentCore s placing (some p)
  let v := attachDocument s placing w p
  have hlabel : c.label = .document s := label_documentCore hs placing (some p)
  have hcfits : c.Fits config := by
    have hdoc : Core.Fits config ⟨s, placing.unid,
        .document (Batch.documentSlots config placing.values) s, placing.values, some p⟩ :=
      .document s placing.unid placing.values (some p) hs
    rwa [← hfits.slots] at hdoc
  have hskel : v.tree.skeleton = w.tree.skeleton.grow w.tree.nextEntry c :=
    Tree.skeleton_attach
  have hfresh : ∀ x d, v.tree.skeleton x = some d → w.tree.skeleton x = some d ∨ d = c := by
    intro x d hx
    by_cases hxn : x = w.tree.nextEntry
    · rw [hskel, hxn, Skeleton.grow_self] at hx
      exact Or.inr (Option.some.inj hx).symm
    · rw [hskel, Skeleton.grow_of_ne hxn] at hx
      exact Or.inl hx
  have hlast : v.tree.lastCategory = w.tree.lastCategory := Tree.lastCategory_attach
  constructor
  case sound =>
    refine h.attach hp hpc hcfits fun x d hx hd heq => ?_
    exact hnew x d hx hd (heq.trans hlabel)
  case numbered =>
    rw [hlast]
    refine hnum.mono le_rfl fun {x d} hx hd => ?_
    rcases hfresh x d hx with hx | rfl
    · exact hx
    · exact absurd (hd.symm.trans hs) (by decide)
  case kept =>
    intro x d hx
    rw [hskel, Skeleton.grow_of_ne (h.formed.bounded hx).ne, hx]
  case placed =>
    intro q hq
    rw [List.mem_singleton.mp hq]
    exact ⟨w.tree.nextEntry, by rw [hskel, Skeleton.grow_self]⟩
  case fresh =>
    intro x d hx
    exact (hfresh x d hx).imp_right fun hd => ⟨p, List.mem_singleton_self p, hd⟩
  case emptied => rfl
  case lastCategory => exact hlast
  case categoryCount =>
    have hcount : v.tree.categoryCount =
        w.tree.categoryCount + if s.isCategory then 1 else 0 := h.categoryCount_attach hp
    rw [hs] at hcount
    exact hcount

theorem Attached.trans {s : ScopedId} {placing : Placing} {ps qs : List EntryId} {v z : Work}
    (h : Attached config s placing ps w v) (h' : Attached config s placing qs v z) :
    Attached config s placing (ps ++ qs) w z where
  sound := h'.sound
  numbered := h'.numbered
  kept := h.kept.trans h'.kept
  placed p hp := by
    rcases List.mem_append.mp hp with hp | hp
    · obtain ⟨x, hx⟩ := h.placed p hp
      exact ⟨x, h'.kept _ _ hx⟩
    · exact h'.placed p hp
  fresh x c hx := by
    rcases h'.fresh x c hx with hx | ⟨p, hp, hc⟩
    · rcases h.fresh x c hx with hx | ⟨p, hp, hc⟩
      · exact Or.inl hx
      · exact Or.inr ⟨p, List.mem_append_left _ hp, hc⟩
    · exact Or.inr ⟨p, List.mem_append_right _ hp, hc⟩
  emptied := h'.emptied.trans h.emptied
  lastCategory := h'.lastCategory.trans h.lastCategory
  categoryCount := h'.categoryCount.trans h.categoryCount

theorem attached_foldl (h : w.tree.Sound config)
    (hnum : w.tree.skeleton.Numbered w.tree.lastCategory) {s : ScopedId}
    (hs : s.isCategory = false) {placing : Placing} (hfits : placing.Fits config)
    {parents : List EntryId} (hn : parents.Nodup)
    (hcat : ∀ p ∈ parents, ∃ c, w.tree.skeleton p = some c ∧ c.isCategory = true)
    (hnew : ∀ p ∈ parents, ∀ x d, w.tree.skeleton x = some d → d.parent = some p →
      d.label ≠ .document s) :
    Attached config s placing parents w (parents.foldl (attachDocument s placing) w) := by
  induction parents generalizing w with
  | nil =>
    exact ⟨h, hnum, .refl _, fun _ hp => absurd hp List.not_mem_nil, fun _ _ hx => Or.inl hx,
      rfl, rfl, rfl⟩
  | cons p rest ih =>
    obtain ⟨hnot, hrest⟩ := List.nodup_cons.mp hn
    obtain ⟨pc, hp, hpc⟩ := hcat p List.mem_cons_self
    have hone := attached_one h hnum hs hfits hp hpc (hnew p List.mem_cons_self)
    refine hone.trans (ih hone.sound hone.numbered hrest (fun q hq => ?_)
      fun q hq x d hx hd => ?_)
    · obtain ⟨d, hd, hdc⟩ := hcat q (List.mem_cons_of_mem _ hq)
      exact ⟨d, hone.kept q d hd, hdc⟩
    · rcases hone.fresh x d hx with hx | ⟨p', hp', rfl⟩
      · exact hnew q (List.mem_cons_of_mem _ hq) x d hx hd
      · have hpq : p' = q := Option.some.inj hd
        rw [List.mem_singleton.mp hp'] at hpq
        exact absurd (hpq ▸ hq) hnot

theorem Shows.place_rejected (h : w.Shows config T) {s : ScopedId} (hs : s.isCategory = false) :
    (w.place config ⟨s, none⟩).Shows config (T.set s none) := by
  have hw := h.withdraw hs
  exact ⟨hw.sound, hw.fits, hw.rows, hw.noted, hw.numbered⟩

theorem Shows.label_ne (h : w.Shows config T) {s : ScopedId} (hs : T s = none) {x : EntryId}
    {d : Core} (hx : w.tree.skeleton x = some d) : d.label ≠ .document s := by
  intro hlabel
  cases hd : d.isCategory with
  | true =>
    rw [Core.label, hd] at hlabel
    cases hlabel
  | false =>
    obtain ⟨placing, -, hrow, -⟩ := h.rows.documents hx hd
    rw [Core.label, hd] at hlabel
    rw [Label.document.inj hlabel, hs] at hrow
    cases hrow

section Accepted

variable {u v z : Work} {s : ScopedId} {placing : Placing} {parents : List EntryId}

/-- An entry at the end of a path, seen from the finished tree. -/
theorem Attached.address_eq (h : Attached config s placing parents v z)
    (hv : v.tree.Sound config) (hs : s.isCategory = false) {p x : EntryId} {path : CategoryPath}
    {c : Core} (hp : v.tree.skeleton p = some c)
    (ha : v.tree.skeleton.address p = path.map .category)
    (hx : z.tree.skeleton x = some (Skeleton.documentCore s placing (some p))) :
    z.tree.skeleton.address x = Skeleton.documentAddress path s := by
  rw [h.sound.formed.address_eq hx rfl, h.kept.address_eq hv.formed hp, ha,
    label_documentCore hs]
  rfl

variable (hu : u.Shows config (T.set s none)) (hs : s.isCategory = false)
  (hgather : Gathered config [] placing.paths u (parents, v))
  (hattach : Attached config s placing parents v z)

include hu hs hgather hattach

/-- The row joins those that the tree shows. -/
theorem Attached.rows : z.tree.skeleton.Shows (T.set s (some placing)) := by
  have hkept := hgather.kept.trans hattach.kept
  have hF := hu.sound.formed
  constructor
  case documents =>
    intro x c hx hd
    rcases hattach.fresh x c hx with hv | ⟨p, hp, rfl⟩
    · rcases hgather.created x c hv with hold | ⟨hcat, -⟩
      · obtain ⟨placing', path, hrow, hpath, haddress, hcore⟩ := hu.rows.documents hold hd
        have hne : c.scopedId ≠ s := by
          intro heq
          rw [heq, Table.set_self] at hrow
          cases hrow
        rw [Table.set_of_ne T _ hne] at hrow ⊢
        exact ⟨placing', path, hrow, hpath, (hkept.address_eq hF hold).trans haddress, hcore⟩
      · exact absurd (hd.symm.trans hcat) (by decide)
    · obtain ⟨pc, hpc, -⟩ := hgather.categories p hp
      rcases hgather.sources p hp with hnil | ⟨path, hpath, ha⟩
      · exact absurd hnil List.not_mem_nil
      · exact ⟨placing, path, Table.set_self T s _, hpath,
          hattach.address_eq hgather.sound hs hpc ha hx, rfl⟩
  case complete =>
    intro a placing' path ha hpath
    by_cases has : a = s
    · subst has
      rw [Table.set_self] at ha
      obtain rfl := Option.some.inj ha
      obtain ⟨p, hp, haddress⟩ := hgather.ends path hpath
      obtain ⟨pc, hpc, -⟩ := hgather.categories p hp
      obtain ⟨x, hx⟩ := hattach.placed p hp
      exact ⟨x, _, hx, rfl, hattach.address_eq hgather.sound hs hpc haddress hx⟩
    · rw [Table.set_of_ne T _ has] at ha
      have ha' : T.set s none a = some placing' := (Table.set_of_ne T none has).trans ha
      obtain ⟨x, c, hx, hcs, haddress⟩ := hu.rows.complete ha' hpath
      exact ⟨x, c, hkept x c hx, hcs, (hkept.address_eq hF hx).trans haddress⟩

/-- What was created leads to a parent of the document, so it is not childless. -/
theorem Attached.noted (x : EntryId) (hx : z.tree.skeleton.Childless x) : x ∈ z.emptied := by
  rw [hattach.emptied, hgather.emptied]
  obtain ⟨c, hc, hcat⟩ := Skeleton.isCategoryAt_eq_true.mp hx.category
  rcases hattach.fresh x c hc with hv | ⟨p, -, rfl⟩
  · rcases hgather.created x c hv with hold | ⟨-, p, hp, hmem⟩
    · refine hu.noted x ⟨hx.ne_root, ?_, fun y d hy => hx.leaf y d ?_⟩
      · exact Skeleton.isCategoryAt_eq_true.mpr ⟨c, hold, hcat⟩
      · exact (hgather.kept.trans hattach.kept) y d hy
    · obtain ⟨pc, hpc, -⟩ := hgather.categories p hp
      by_cases hxp : x = p
      · obtain ⟨y, hy⟩ := hattach.placed p hp
        exact absurd (congrArg some hxp.symm) (hx.leaf y _ hy)
      · obtain ⟨y, d, -, hy, hd⟩ :=
          hgather.sound.formed.exists_child_of_mem_line hpc hmem hxp
        exact absurd hd (hx.leaf y d (hattach.kept y d hy))
  · exact absurd (hcat.symm.trans hs) (by decide)

end Accepted

theorem Shows.exists_resolved (h : w.Shows config T) {s : ScopedId} (hs : s.isCategory = false)
    {placing : Placing} (hfits : placing.Fits config) :
    ∃ parents v, resolveAll config [] placing.paths (w.withdraw s) = (parents, v) ∧
      w.place config ⟨s, some placing⟩ = parents.foldl (attachDocument s placing) v ∧
      Gathered config [] placing.paths (w.withdraw s) (parents, v) ∧
      ∀ x d, v.tree.skeleton x = some d → d.label ≠ .document s := by
  have hw := h.withdraw hs
  have hgather := gathered_resolveAll hw.sound hw.numbered List.nodup_nil
    (fun _ hid => absurd hid List.not_mem_nil) hfits.steps
  refine ⟨_, _, rfl, rfl, hgather, fun x d hx => ?_⟩
  rcases hgather.created x d hx with hx | ⟨hd, -⟩
  · exact hw.label_ne (Table.set_self T s none) hx
  · rw [Core.label, hd]
    intro heq
    cases heq

theorem Shows.exists_attached (h : w.Shows config T) {s : ScopedId} (hs : s.isCategory = false)
    {placing : Placing} (hfits : placing.Fits config) :
    ∃ parents v, Gathered config [] placing.paths (w.withdraw s) (parents, v) ∧
      Attached config s placing parents v (w.place config ⟨s, some placing⟩) := by
  obtain ⟨parents, v, -, hplace, hgather, hlabels⟩ := h.exists_resolved hs hfits
  rw [hplace]
  exact ⟨parents, v, hgather, attached_foldl hgather.sound hgather.numbered hs hfits
    hgather.nodup hgather.categories fun _ _ x d hx _ => hlabels x d hx⟩

theorem Shows.place_accepted (h : w.Shows config T) {s : ScopedId} (hs : s.isCategory = false)
    {placing : Placing} (hfits : placing.Fits config) :
    (w.place config ⟨s, some placing⟩).Shows config (T.set s (some placing)) := by
  have hw := h.withdraw hs
  obtain ⟨parents, v, hgather, hattach⟩ := h.exists_attached hs hfits
  constructor
  case sound => exact hattach.sound
  case fits => exact h.fits.set fun p hp => ⟨hs, Option.some.inj hp ▸ hfits⟩
  case rows => exact hattach.rows hw hs hgather
  case noted => exact hattach.noted hw hs hgather
  case numbered => exact hattach.numbered

theorem Shows.place (h : w.Shows config T) {row : PreparedRow}
    (hs : row.scopedId.isCategory = false) (hfits : ∀ p, row.placing = some p → p.Fits config) :
    (w.place config row).Shows config (T.set row.scopedId row.placing) := by
  obtain ⟨s, placing⟩ := row
  cases placing with
  | none => exact h.place_rejected hs
  | some placing => exact h.place_accepted hs (hfits placing rfl)

theorem Shows.places (h : w.Shows config T) {rows : List PreparedRow}
    (hrows : ∀ row ∈ rows, row.scopedId.isCategory = false ∧
      ∀ p, row.placing = some p → p.Fits config) :
    (rows.foldl (Work.place config) w).Shows config
      (rows.foldl (fun T row => T.set row.scopedId row.placing) T) := by
  induction rows generalizing w T with
  | nil => exact h
  | cons row rest ih =>
    obtain ⟨hs, hfits⟩ := hrows row List.mem_cons_self
    exact ih (h.place hs hfits) fun r hr => hrows r (List.mem_cons_of_mem _ hr)

theorem Shows.trimmed_finish (h : w.Shows config T) :
    w.tree.skeleton.Trimmed w.finish.1.skeleton := by
  obtain ⟨hthin, -⟩ := Tree.thinned_prune h.sound w.emptied
  have hflush := Tree.reranked_flush (w.tree.prune w.emptied).2
  have htree : w.finish.1 = (w.tree.prune w.emptied).2.flush.2 := rfl
  rw [htree, hflush.skeleton]
  exact hthin.trimmed

/-- Pruning and renumbering settle the tree. -/
theorem Shows.finish (h : w.Shows config T) : w.finish.1.Settled config T := by
  obtain ⟨hthin, hnone⟩ := Tree.thinned_prune h.sound w.emptied
  have hflush := Tree.reranked_flush (w.tree.prune w.emptied).2
  have htree : w.finish.1 = (w.tree.prune w.emptied).2.flush.2 := rfl
  rw [htree]
  constructor
  case sound => exact hthin.sound.flush
  case fits => exact h.fits
  case shows =>
    rw [hflush.skeleton]
    exact h.rows.trimmed h.fits hthin.trimmed hthin.sound.formed
  case full =>
    intro x hx
    rw [hflush.skeleton] at hx
    exact hnone x (h.noted x (hthin.childless x hx)) hx
  case numbered =>
    rw [hflush.skeleton, hflush.lastCategory, hthin.lastCategory]
    exact h.numbered.mono le_rfl fun hx _ => hthin.trimmed.kept _ _ hx
  case flushed => exact Tree.unnumbered_flush _

end CategorizedIndex.Work

namespace CategorizedIndex.Tree

theorem Settled.commit {config : Config} {T : Table} {t : Tree} (h : t.Settled config T)
    {batch : Batch} (hb : batch.Fits config) :
    (t.commit config batch).1.Settled config (batch.table T) :=
  (((Work.shows_start h).withdrawals hb.removals).places hb.rows).finish

end CategorizedIndex.Tree
