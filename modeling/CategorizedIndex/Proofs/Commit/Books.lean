import CategorizedIndex.Proofs.Commit.Tally
import CategorizedIndex.Proofs.Identity.Continues
import CategorizedIndex.Proofs.Identity.Kept

/-! # The books of a commit

Only documents that were there from the start are withdrawn, since no row is placed before
it gives up its former placements. A category that is created gets a document below it that
stays, so only categories that were there from the start are pruned.
-/
namespace CategorizedIndex

namespace Skeleton

variable {config : Config} {F G : Skeleton} {m n x : EntryId}

def Borne (n : EntryId) (F : Skeleton) : Prop :=
  ∀ {x c}, n ≤ x → F x = some c → ∃ y d, F y = some d ∧ d.isCategory = false ∧ x ∈ F.line y

theorem Borne.not_childless (h : F.Borne m) (hF : F.WellFormed config n) (hx : m ≤ x) :
    ¬ F.Childless x := by
  intro hchildless
  obtain ⟨c, hc, hcat⟩ := isCategoryAt_eq_true.mp hchildless.category
  obtain ⟨y, d, hy, hd, hmem⟩ := h hx hc
  by_cases hxy : x = y
  · rw [hxy, hy] at hc
    rw [Option.some.inj hc, hcat] at hd
    cases hd
  · obtain ⟨z, e, -, hz, hzx⟩ := hF.exists_child_of_mem_line hy hmem hxy
    exact hchildless.leaf z e hz hzx

theorem Borne.trimmed (h : F.Borne m) (htrim : F.Trimmed G) (hG : G.WellFormed config n) :
    G.Borne m := by
  intro x c hx hc
  obtain ⟨y, d, hy, hd, hmem⟩ := h hx (htrim.kept x c hc)
  have hGy := htrim.documents hy hd
  exact ⟨y, d, hGy, hd, htrim.kept.line_eq hG hGy ▸ hmem⟩

end Skeleton

namespace Tree

variable {config : Config} {t u : Tree} {stats : Stats} {k : Nat}

/-- Pruning from an entry counts the categories it takes. -/
theorem Tallied.pruneFrom (h : t.Tallied u k stats) (ht : t.Sound config) (hu : u.Sound config)
    (hborne : u.skeleton.Borne t.nextEntry) (fuel : Nat) (id : EntryId) :
    t.Tallied (u.pruneFrom fuel id).2 k
      { stats with categoriesPruned := stats.categoriesPruned + (u.pruneFrom fuel id).1 } := by
  induction fuel generalizing u stats id with
  | zero => exact h
  | succ fuel ih =>
    by_cases hid : u.skeleton.Childless id
    · obtain ⟨e, p, he, hp, -, hcat, hleaf, hprune⟩ := pruneFrom_of_childless hu hid
      have hold : id < t.nextEntry :=
        Nat.lt_of_not_le fun hle => hborne.not_childless hu.formed hle hid
      have hv := hu.plucked he hp hleaf
      have hpluck := h.pluck ht hu he hp hold hv
      have htrim : u.skeleton.Trimmed (u.plucked id e p).skeleton := by
        rw [skeleton_plucked]
        exact .without hid.category
      have hrest := ih hpluck hv (hborne.trimmed htrim hv.formed) p
      rw [hcat] at hrest
      simp only [hprune]
      rw [Nat.add_comm _ 1, ← Nat.add_assoc]
      exact hrest
    · rw [pruneFrom_of_not_childless hu hid]
      exact h

theorem Tallied.prune (h : t.Tallied u k stats) (hnone : stats.categoriesPruned = 0)
    (ht : t.Sound config) (hu : u.Sound config) (hborne : u.skeleton.Borne t.nextEntry)
    (candidates : List EntryId) :
    t.Tallied (u.prune candidates).2 k
      { stats with categoriesPruned := (u.prune candidates).1 } := by
  have hstart : t.Tallied u k { stats with categoriesPruned := 0 } := by
    rw [← hnone]
    exact h
  -- the induction is on the candidates, for every count so far
  unfold Tree.prune
  generalize 0 = count at hstart
  clear h hnone
  induction candidates generalizing u count with
  | nil => exact hstart
  | cons id rest ih =>
    obtain ⟨hthin, -⟩ := thinned_pruneFrom hu (card_live_le u (id + 1))
    exact ih hthin.sound (hborne.trimmed hthin.trimmed hthin.sound.formed) _
      (hstart.pruneFrom ht hu hborne u.arena.size id)

end Tree

namespace Work

variable {config : Config} {t : Tree} {w : Work} {T : Table} {k : Nat} {s : ScopedId} {c : Core}
  {p id : EntryId} {pc : Core}

theorem tallied_detach (h : t.Tallied w.tree k w.stats) (ht : t.Sound config)
    (hw : w.tree.Sound config) (hid : w.tree.skeleton id = some c) (hdoc : c.isCategory = false)
    (hold : id < t.nextEntry) : t.Tallied (w.detach id).tree k (w.detach id).stats := by
  obtain ⟨e, p, he, rfl, hp, hleaf, hdetach⟩ := detach_document hw hid hdoc
  have hpluck := h.pluck ht hw he hp hold (hw.plucked he hp hleaf)
  rw [show e.isCategory = false from hdoc] at hpluck
  rw [hdetach]
  exact hpluck

theorem tallied_foldl_detach (h : t.Tallied w.tree k w.stats) (ht : t.Sound config)
    (hw : w.tree.Sound config) {ids : List EntryId} (hn : ids.Nodup)
    (hids : ∀ x ∈ ids, x < t.nextEntry ∧ ∃ c, w.tree.skeleton x = some c ∧ c.isCategory = false) :
    t.Tallied (ids.foldl detach w).tree k (ids.foldl detach w).stats := by
  induction ids generalizing w with
  | nil => exact h
  | cons id rest ih =>
    obtain ⟨hnot, hrest⟩ := List.nodup_cons.mp hn
    obtain ⟨hold, c, hc, hdoc⟩ := hids id List.mem_cons_self
    have hone := withdrawn_detach hw hc hdoc
    refine ih (tallied_detach h ht hw hc hdoc hold) hone.sound hrest fun x hx => ?_
    obtain ⟨hxold, d, hd, hddoc⟩ := hids x (List.mem_cons_of_mem _ hx)
    refine ⟨hxold, d, ?_, hddoc⟩
    rw [hone.skeleton]
    refine Skeleton.withoutAll_eq_some_iff.mpr ⟨fun hmem => ?_, hd⟩
    exact hnot (List.mem_singleton.mp hmem ▸ hx)

theorem tallied_withdraw (h : t.Tallied w.tree k w.stats) (ht : t.Sound config)
    (hw : w.tree.Sound config) (hs : s.isCategory = false)
    (hold : ∀ x c, w.tree.skeleton x = some c → c.scopedId = s → x < t.nextEntry) :
    t.Tallied (w.withdraw s).tree k (w.withdraw s).stats := by
  rw [withdraw, hw.placements]
  refine tallied_foldl_detach h ht hw (Skeleton.nodup_placed _ _ _) fun x hx => ?_
  obtain ⟨c, hc, rfl⟩ := (Skeleton.mem_placed hw.formed).mp hx
  exact ⟨hold x c hc rfl, c, hc, hs⟩

theorem tallied_findOrCreate (h : t.Tallied w.tree k w.stats) (ht : t.Sound config)
    (hw : w.tree.Sound config) (hnum : w.tree.skeleton.Numbered w.tree.lastCategory)
    (hp : w.tree.skeleton p = some pc) (hcat : pc.isCategory = true) {step : CategoryStep}
    (hstep : step.Fits config) :
    t.Tallied (w.findOrCreate config p step).2.tree k (w.findOrCreate config p step).2.stats := by
  unfold findOrCreate
  cases hfind : w.tree.findCategory? p step with
  | some id => exact h
  | none =>
    have hcreated := (led_created hw hnum hp hcat hstep hfind w.stats).sound
    have hnumbered : t.Tallied { w.tree with lastCategory := w.tree.lastCategory + 1 } k w.stats :=
      ⟨⟨h.nextEntry, h.old, h.lasting, h.came, h.went, h.rejected⟩, h.stale⟩
    have hattach := hnumbered.attach ht (sound_lastCategory hw _) hp hcreated
    rw [ScopedId.isCategory_category] at hattach
    exact hattach

theorem tallied_resolve (h : t.Tallied w.tree k w.stats) (ht : t.Sound config)
    (hw : w.tree.Sound config) (hnum : w.tree.skeleton.Numbered w.tree.lastCategory)
    (hp : w.tree.skeleton p = some pc) (hcat : pc.isCategory = true) {path : CategoryPath}
    (hpath : ∀ step ∈ path, step.Fits config) :
    t.Tallied (resolve config p path w).2.tree k (resolve config p path w).2.stats := by
  induction path generalizing w p pc with
  | nil => exact h
  | cons step rest ih =>
    have hstep := hpath step List.mem_cons_self
    have hone := led_findOrCreate hw hnum hp hcat hstep
    obtain ⟨c, hc, hcc⟩ := hone.category
    exact ih (tallied_findOrCreate h ht hw hnum hp hcat hstep) hone.sound hone.numbered hc hcc
      fun s hs => hpath s (List.mem_cons_of_mem _ hs)

theorem tallied_resolveAll (h : t.Tallied w.tree k w.stats) (ht : t.Sound config)
    (hw : w.tree.Sound config) (hnum : w.tree.skeleton.Numbered w.tree.lastCategory)
    (known : List EntryId) {paths : List CategoryPath}
    (hpaths : ∀ path ∈ paths, ∀ step ∈ path, step.Fits config) :
    t.Tallied (resolveAll config known paths w).2.tree k
      (resolveAll config known paths w).2.stats := by
  induction paths generalizing w known with
  | nil => exact h
  | cons path rest ih =>
    have hpath := hpaths path List.mem_cons_self
    have hled := led_resolve hw hnum hw.formed.root Core.isCategory_root hpath
    exact ih (tallied_resolve h ht hw hnum hw.formed.root Core.isCategory_root hpath) hled.sound
      hled.numbered _ fun path hp => hpaths path (List.mem_cons_of_mem _ hp)

theorem tallied_attachDocuments (h : t.Tallied w.tree k w.stats) (ht : t.Sound config)
    (hw : w.tree.Sound config) (hnum : w.tree.skeleton.Numbered w.tree.lastCategory)
    (hs : s.isCategory = false) {placing : Placing} (hfits : placing.Fits config)
    {parents : List EntryId} (hn : parents.Nodup)
    (hcat : ∀ p ∈ parents, ∃ c, w.tree.skeleton p = some c ∧ c.isCategory = true)
    (hnew : ∀ p ∈ parents, ∀ x d, w.tree.skeleton x = some d → d.parent = some p →
      d.label ≠ .document s) :
    t.Tallied (parents.foldl (attachDocument s placing) w).tree k
      (parents.foldl (attachDocument s placing) w).stats := by
  induction parents generalizing w with
  | nil => exact h
  | cons p rest ih =>
    obtain ⟨hnot, hrest⟩ := List.nodup_cons.mp hn
    obtain ⟨pc, hp, hpc⟩ := hcat p List.mem_cons_self
    have hone := attached_one hw hnum hs hfits hp hpc (hnew p List.mem_cons_self)
    have hattach := h.attach ht hw hp hone.sound
    rw [hs] at hattach
    refine ih hattach hone.sound hone.numbered hrest (fun q hq => ?_) fun q hq x d hx hd => ?_
    · obtain ⟨d, hd, hdc⟩ := hcat q (List.mem_cons_of_mem _ hq)
      exact ⟨d, hone.kept q d hd, hdc⟩
    · rcases hone.fresh x d hx with hx | ⟨p', hp', rfl⟩
      · exact hnew q (List.mem_cons_of_mem _ hq) x d hx hd
      · have hpq : p' = q := Option.some.inj hd
        rw [List.mem_singleton.mp hp'] at hpq
        exact absurd (hpq ▸ hq) hnot

theorem Shows.tallied_place (hw : w.Shows config T) (h : t.Tallied w.tree k w.stats)
    (ht : t.Sound config) {row : PreparedRow} (hs : row.scopedId.isCategory = false)
    (hfits : ∀ p, row.placing = some p → p.Fits config)
    (hold : ∀ x c, w.tree.skeleton x = some c → c.scopedId = row.scopedId → x < t.nextEntry) :
    t.Tallied (w.place config row).tree (k + if row.placing.isNone then 1 else 0)
      (w.place config row).stats := by
  have hwithdrawn := tallied_withdraw h ht hw.sound hs hold
  have hu := hw.withdraw hs
  obtain ⟨s, placing⟩ := row
  cases placing with
  | none =>
    exact ⟨⟨hwithdrawn.nextEntry, hwithdrawn.old, hwithdrawn.lasting, hwithdrawn.came,
      hwithdrawn.went, congrArg (· + 1) hwithdrawn.rejected⟩, hwithdrawn.stale⟩
  | some placing =>
    have hplacing := hfits placing rfl
    obtain ⟨parents, v, hresolve, hplace, hgather, hlabels⟩ := hw.exists_resolved hs hplacing
    have hresolved := tallied_resolveAll hwithdrawn ht hu.sound hu.numbered [] hplacing.steps
    rw [hresolve] at hresolved
    rw [hplace]
    exact tallied_attachDocuments hresolved ht hgather.sound hgather.numbered hs hplacing
      hgather.nodup hgather.categories fun _ _ x d hx _ => hlabels x d hx

def turnedDown (rows : List PreparedRow) : Nat := rows.countP (·.placing.isNone)

structure Booked (t : Tree) (ids : List ScopedId) (rows : List PreparedRow) (w : Work) :
    Prop where
  tallied : t.Tallied w.tree (turnedDown rows) w.stats
  gone : ∀ {x c}, x < t.nextEntry → w.tree.skeleton x = some c → c.isCategory = false →
    c.scopedId ∉ ids ∧ c.scopedId ∉ rows.map (·.scopedId)
  came : ∀ {x c}, t.nextEntry ≤ x → w.tree.skeleton x = some c → c.isCategory = false →
    c.scopedId ∈ rows.map (·.scopedId)
  borne : w.tree.skeleton.Borne t.nextEntry

namespace Booked

variable {ids : List ScopedId} {rows : List PreparedRow}

theorem start (h : t.Settled config T) : Booked t [] [] (.start t) where
  tallied := .refl h.flushed
  gone _ _ _ := ⟨List.not_mem_nil, List.not_mem_nil⟩
  came hle hx _ := absurd (h.sound.formed.bounded hx) (Nat.not_lt.mpr hle)
  borne hle hx := absurd (h.sound.formed.bounded hx) (Nat.not_lt.mpr hle)

theorem lt_of_nil (h : Booked t ids [] w) {x : EntryId} (hx : w.tree.skeleton x = some c) :
    x < t.nextEntry := by
  refine Nat.lt_of_not_le fun hle => ?_
  obtain ⟨y, d, hy, hd, hmem⟩ := h.borne hle hx
  exact List.not_mem_nil (h.came (hle.trans (Skeleton.mem_line_le hmem)) hy hd)

theorem withdraw (h : Booked t ids [] w) (ht : t.Sound config) (hw : w.tree.Sound config)
    (hs : s.isCategory = false) : Booked t (ids ++ [s]) [] (w.withdraw s) := by
  have hmem : ∀ {x c}, (w.withdraw s).tree.skeleton x = some c ↔
      c.scopedId ≠ s ∧ w.tree.skeleton x = some c := skeleton_withdraw hw hs
  have hold : ∀ {x c}, (w.withdraw s).tree.skeleton x = some c → x < t.nextEntry :=
    fun hx => h.lt_of_nil (hmem.mp hx).2
  constructor
  case tallied => exact tallied_withdraw h.tallied ht hw hs fun x c hx _ => h.lt_of_nil hx
  case gone =>
    intro x c hlt hx hdoc
    obtain ⟨hne, hx⟩ := hmem.mp hx
    rw [List.mem_append, List.mem_singleton, not_or]
    exact ⟨⟨(h.gone hlt hx hdoc).1, hne⟩, List.not_mem_nil⟩
  case came => exact fun hle hx _ => absurd (hold hx) (Nat.not_lt.mpr hle)
  case borne => exact fun hle hx => absurd (hold hx) (Nat.not_lt.mpr hle)

theorem withdrawals (h : Booked t ids [] w) (ht : t.Sound config) (hw : w.Shows config T)
    {l : List ScopedId} (hl : ∀ s ∈ l, s.isCategory = false) :
    Booked t (ids ++ l) [] (l.foldl Work.withdraw w) := by
  induction l generalizing ids w T with
  | nil => rwa [List.append_nil]
  | cons s rest ih =>
    have hs := hl s List.mem_cons_self
    have hrest := ih (h.withdraw ht hw.sound hs) (hw.withdraw hs)
      fun a ha => hl a (List.mem_cons_of_mem _ ha)
    rwa [List.append_assoc] at hrest

/-- What a row brings is its document, or a category above it. -/
theorem borne_place (hborne : w.tree.skeleton.Borne t.nextEntry) (hw : w.Shows config T)
    {row : PreparedRow} (hs : row.scopedId.isCategory = false)
    (hfits : ∀ p, row.placing = some p → p.Fits config)
    (hold : ∀ x c, w.tree.skeleton x = some c → c.scopedId = row.scopedId → x < t.nextEntry) :
    (w.place config row).tree.skeleton.Borne t.nextEntry := by
  have hu := hw.withdraw hs
  have hwithdrawn : (w.withdraw row.scopedId).tree.skeleton.Borne t.nextEntry := by
    intro x c hle hx
    obtain ⟨y, d, hy, hd, hmem⟩ := hborne hle ((skeleton_withdraw hw.sound hs).mp hx).2
    have hne : d.scopedId ≠ row.scopedId := fun heq =>
      absurd (hold y d hy heq) (Nat.not_lt.mpr (hle.trans (Skeleton.mem_line_le hmem)))
    have hyu := (skeleton_withdraw hw.sound hs).mpr ⟨hne, hy⟩
    exact ⟨y, d, hyu, hd, (keptIn_withdraw hw.sound hs).line_eq hu.sound.formed hyu ▸ hmem⟩
  obtain ⟨s, placing⟩ := row
  cases placing with
  | none =>
    intro x c hle hx
    exact hwithdrawn hle hx
  | some placing =>
    obtain ⟨parents, v, hgather, hattach⟩ := hw.exists_attached hs (hfits placing rfl)
    have hkept := hgather.kept.trans hattach.kept
    intro x c hle hx
    rcases hattach.fresh x c hx with hv | ⟨p, -, rfl⟩
    · rcases hgather.created x c hv with hold | ⟨-, p, hp, hmem⟩
      · obtain ⟨y, d, hy, hd, hmem⟩ := hwithdrawn hle hold
        exact ⟨y, d, hkept y d hy, hd, (hkept.line_eq hu.sound.formed hy).symm ▸ hmem⟩
      · obtain ⟨y, hy⟩ := hattach.placed p hp
        obtain ⟨pc, hpc, -⟩ := hgather.categories p hp
        refine ⟨y, _, hy, hs, ?_⟩
        rw [hattach.sound.formed.line_eq hy rfl, hattach.kept.line_eq hgather.sound.formed hpc]
        exact List.mem_cons_of_mem _ hmem
    · exact ⟨x, _, hx, hs, Skeleton.self_mem_line⟩

/-- A document after a row is one of that row or was there before. -/
theorem scopedId_place (hw : w.Shows config T) {row : PreparedRow}
    (hs : row.scopedId.isCategory = false) (hfits : ∀ p, row.placing = some p → p.Fits config)
    {x : EntryId} (hx : (w.place config row).tree.skeleton x = some c)
    (hdoc : c.isCategory = false) :
    c.scopedId = row.scopedId ∨ (w.withdraw row.scopedId).tree.skeleton x = some c := by
  obtain ⟨s, placing⟩ := row
  cases placing with
  | none => exact Or.inr hx
  | some placing =>
    obtain ⟨parents, v, hgather, hattach⟩ := hw.exists_attached hs (hfits placing rfl)
    rcases hattach.fresh x c hx with hv | ⟨p, -, rfl⟩
    · rcases hgather.created x c hv with hold | ⟨hcat, -⟩
      · exact Or.inr hold
      · exact absurd (hdoc.symm.trans hcat) (by decide)
    · exact Or.inl rfl

theorem place (h : Booked t ids rows w) (ht : t.Sound config) (hw : w.Shows config T)
    {row : PreparedRow} (hs : row.scopedId.isCategory = false)
    (hfits : ∀ p, row.placing = some p → p.Fits config)
    (hnew : row.scopedId ∉ rows.map (·.scopedId)) :
    Booked t ids (rows ++ [row]) (w.place config row) := by
  have hold : ∀ x c, w.tree.skeleton x = some c → c.scopedId = row.scopedId →
      x < t.nextEntry := by
    intro x c hx heq
    refine Nat.lt_of_not_le fun hle => hnew ?_
    exact heq ▸ h.came hle hx ((congrArg ScopedId.isCategory heq).trans hs)
  constructor
  case tallied =>
    have htallied := hw.tallied_place h.tallied ht hs hfits hold
    have hcount : turnedDown (rows ++ [row]) =
        turnedDown rows + if row.placing.isNone then 1 else 0 := by
      rw [turnedDown, List.countP_append, List.countP_singleton, turnedDown]
    rwa [hcount]
  case gone =>
    intro x c hlt hx hdoc
    have hwithdrawn : (w.withdraw row.scopedId).tree.skeleton x = some c := by
      rcases (continues_replaced w hs).entry hx with hx | ⟨hle, -⟩
      · exact hx
      · have hnext := h.tallied.nextEntry.trans (continues_withdraw w row.scopedId).nextEntry
        exact absurd (hlt.trans_le hnext) (Nat.not_lt.mpr hle)
    obtain ⟨hne, hx⟩ := (skeleton_withdraw hw.sound hs).mp hwithdrawn
    obtain ⟨hids, hrows⟩ := h.gone hlt hx hdoc
    rw [List.map_append, List.mem_append, List.map_singleton, List.mem_singleton, not_or]
    exact ⟨hids, hrows, hne⟩
  case came =>
    intro x c hle hx hdoc
    rw [List.map_append, List.mem_append, List.map_singleton, List.mem_singleton]
    rcases scopedId_place hw hs hfits hx hdoc with heq | hx
    · exact Or.inr heq
    · exact Or.inl (h.came hle ((skeleton_withdraw hw.sound hs).mp hx).2 hdoc)
  case borne => exact borne_place h.borne hw hs hfits hold

theorem places (h : Booked t ids rows w) (ht : t.Sound config) (hw : w.Shows config T)
    {l : List PreparedRow} (hl : ∀ row ∈ l, row.scopedId.isCategory = false ∧
      ∀ p, row.placing = some p → p.Fits config)
    (hn : ((rows ++ l).map (·.scopedId)).Nodup) :
    Booked t ids (rows ++ l) (l.foldl (Work.place config) w) := by
  induction l generalizing rows w T with
  | nil => rwa [List.append_nil]
  | cons row rest ih =>
    obtain ⟨hs, hfits⟩ := hl row List.mem_cons_self
    have hsplit : rows ++ row :: rest = (rows ++ [row]) ++ rest := by
      rw [List.append_assoc, List.singleton_append]
    have hnew : row.scopedId ∉ rows.map (·.scopedId) := by
      rw [List.map_append, List.map_cons] at hn
      exact fun hmem => List.disjoint_of_nodup_append hn hmem List.mem_cons_self
    rw [hsplit] at hn ⊢
    exact ih (h.place ht hw hs hfits hnew) (hw.place hs hfits)
      (fun r hr => hl r (List.mem_cons_of_mem _ hr)) hn

end Booked

end Work

namespace Tree

variable {config : Config} {t u v : Tree} {T : Table} {stats : Stats} {k : Nat} {batch : Batch}

def changedParents (t u : Tree) : Finset EntryId :=
  (Finset.range u.nextEntry).filter fun p => (u.skeleton p).isSome ∧ t.kids p ≠ u.kids p

theorem Recorded.reranked (h : t.Recorded u k stats) (hv : u.Reranked v) :
    t.Recorded v k stats where
  nextEntry := hv.nextEntry ▸ h.nextEntry
  old hlt hx := h.old hlt (hv.skeleton ▸ hx)
  lasting hle hlt := by
    rw [hv.skeleton]
    exact h.lasting hle (hv.nextEntry ▸ hlt)
  came := by
    unfold ofKind
    rw [hv.skeleton, hv.nextEntry]
    exact h.came
  went := by
    unfold ofKind
    rw [hv.skeleton, hv.nextEntry]
    exact h.went
  rejected := h.rejected

/-- What is renumbered in the end is what has stale ranks. -/
theorem Tallied.fst_flush (h : t.Tallied u k stats) (hu : u.Sound config) :
    u.flush.1 = (t.changedParents u.flush.2).card := by
  have hflush := reranked_flush u
  have hn : (u.unnumbered.toList.filter u.arena.contains).Nodup :=
    (Std.ExtTreeSet.distinct_toList.imp fun hne heq =>
      hne (Std.LawfulEqOrd.compare_eq_iff_eq.mpr heq)).filter _
  have hset : (u.unnumbered.toList.filter u.arena.contains).toFinset =
      t.changedParents u.flush.2 := by
    ext p
    have hlive : u.arena.contains p = (u.skeleton p).isSome := by
      rw [Std.ExtTreeMap.contains_eq_isSome_getElem?, skeleton, get?, Option.isSome_map]
    have hkids : u.flush.2.kids p = u.kids p := by
      rw [kids, kids, hflush.skeleton, hflush.nextEntry]
    rw [List.mem_toFinset, List.mem_filter, Std.ExtTreeSet.mem_toList, h.stale, hlive,
      changedParents, Finset.mem_filter, Finset.mem_range, hkids, hflush.skeleton,
      hflush.nextEntry, Option.isSome_iff_exists]
    constructor
    · rintro ⟨⟨⟨c, hc⟩, hne⟩, -⟩
      exact ⟨hu.formed.bounded hc, ⟨c, hc⟩, hne⟩
    · rintro ⟨-, hc, hne⟩
      exact ⟨⟨hc, hne⟩, hc⟩
  rw [← hset, List.toFinset_card_of_nodup hn]
  rfl

structure Booked (t : Tree) (batch : Batch) (u : Tree) (stats : Stats) : Prop where
  counted : t.Recorded u (Work.turnedDown batch.rows) stats
  renumbered : stats.renumberedParents = (t.changedParents u).card
  gone : ∀ {x c}, x < t.nextEntry → u.skeleton x = some c → c.isCategory = false →
    c.scopedId ∉ batch.removals ∧ c.scopedId ∉ batch.rows.map (·.scopedId)
  came : ∀ {x c}, t.nextEntry ≤ x → u.skeleton x = some c → c.isCategory = false →
    c.scopedId ∈ batch.rows.map (·.scopedId)

section Commit

variable (h : t.Settled config T) (hb : batch.Fits config)
  (hn : (batch.rows.map (·.scopedId)).Nodup)
include h hb hn

theorem Settled.booked_filled :
    Work.Booked t batch.removals batch.rows (Work.filled config t batch) :=
  ((Work.Booked.start h).withdrawals h.sound (Work.shows_start h) hb.removals).places h.sound
    ((Work.shows_start h).withdrawals hb.removals) hb.rows hn

/-- Whatever the candidates are, what pruning takes away is counted. -/
theorem Settled.tallied_prune_filled (candidates : List EntryId) :
    t.Tallied ((Work.filled config t batch).tree.prune candidates).2
      (Work.turnedDown batch.rows)
      { (Work.filled config t batch).stats with
        categoriesPruned := ((Work.filled config t batch).tree.prune candidates).1 } := by
  have hw := h.shows_filled hb
  have hbooked := h.booked_filled hb hn
  have hnone : (Work.filled config t batch).stats.categoriesPruned = 0 := by
    have hwent := hbooked.tallied.went true
    rw [Finset.sdiff_eq_empty_iff_subset.mpr, Finset.card_empty] at hwent
    · exact hwent.symm
    · intro x hx
      obtain ⟨c, hc, hcat⟩ := h.sound.mem_ofKind.mp hx
      exact hw.sound.mem_ofKind.mpr ⟨c, h.keptBut_filled hb x c hc (Or.inl hcat), hcat⟩
  exact hbooked.tallied.prune hnone h.sound hw.sound hbooked.borne candidates

/-- A commit keeps its books. -/
theorem Settled.booked_commit :
    t.Booked batch (t.commit config batch).1 (t.commit config batch).2 := by
  have hw := h.shows_filled hb
  have hbooked := h.booked_filled hb hn
  have htallied := h.tallied_prune_filled hb hn (Work.filled config t batch).emptied
  have htrim := hw.trimmed_finish
  obtain ⟨hthin, -⟩ := thinned_prune hw.sound (Work.filled config t batch).emptied
  rw [Work.commit_eq]
  constructor
  case counted =>
    have hcounted := htallied.toRecorded.reranked (reranked_flush _)
    exact ⟨hcounted.nextEntry, hcounted.old, hcounted.lasting, hcounted.came, hcounted.went,
      hcounted.rejected⟩
  case renumbered => exact htallied.fst_flush hthin.sound
  case gone => exact fun hlt hx hdoc => hbooked.gone hlt (htrim.kept _ _ hx) hdoc
  case came => exact fun hle hx hdoc => hbooked.came hle (htrim.kept _ _ hx) hdoc

end Commit

end Tree

end CategorizedIndex
