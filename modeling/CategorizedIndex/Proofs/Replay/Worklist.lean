import CategorizedIndex.Proofs.Replay.Pruned

/-! # The worklist of pruned categories

Candidates are taken one by one. A category whose children are all gone is entered and
takes one child from its parent, which becomes a candidate again. Candidates never run
out before every category without a document is entered.
-/
namespace CategorizedIndex.Replay

variable {config : Config} {t : Tree} {T U : Table} {batch : Batch} {r : Replay}
  {work : List EntryId} {growth : Std.ExtTreeMap EntryId Int}
  {pruned : Std.ExtTreeSet EntryId} {x : EntryId} {c : Core}

def Fruitless (t : Tree) (U : Table) (x : EntryId) : Prop :=
  x ≠ Tree.root ∧ (∃ c, t.skeleton x = some c ∧ c.isCategory = true) ∧
    ¬ U.Leads (t.skeleton.address x)

def prunedKids (t : Tree) (pruned : Std.ExtTreeSet EntryId) (x : EntryId) : Finset EntryId :=
  (t.skeleton.kids t.nextEntry x).filter fun y => y ∈ pruned

structure Pruning (t : Tree) (U : Table) (r : Replay) (work : List EntryId)
    (growth : Std.ExtTreeMap EntryId Int) (pruned : Std.ExtTreeSet EntryId) : Prop where
  taken : ∀ x, growth.getD x 0 = r.growth.getD x 0 - (prunedKids t pruned x).card
  fruitless : ∀ x ∈ pruned, Fruitless t U x
  waiting : ∀ x c, t.skeleton x = some c → c.isCategory = true → x ≠ Tree.root → x ∉ pruned →
    ((t.skeleton.kids t.nextEntry x).card : Int) + growth.getD x 0 ≤ 0 → x ∈ work

theorem Pruning.positive_iff (h : t.Settled config T) (hb : batch.Fits config)
    (hr : Ran config t U batch r) (hp : Pruning t U r work growth pruned) (x : EntryId) :
    0 < ((t.skeleton.kids t.nextEntry x).card : Int) + growth.getD x 0 ↔
      0 < gain t r x ∨ ∃ y d, t.skeleton y = some d ∧ d.parent = some x ∧ y ∉ r.detached ∧
        y ∉ pruned := by
  have hdisjoint : Disjoint (detachedKids t r x) (prunedKids t pruned x) := by
    refine Finset.disjoint_left.mpr fun y hdet hpr => ?_
    obtain ⟨-, ⟨d, hd, hcat⟩, -⟩ := hp.fruitless y (Finset.mem_filter.mp hpr).2
    rw [hr.isCategory_of_detached h hb hd (Finset.mem_filter.mp hdet).2] at hcat
    cases hcat
  have hsub : detachedKids t r x ∪ prunedKids t pruned x ⊆ t.skeleton.kids t.nextEntry x :=
    Finset.union_subset (Finset.filter_subset _ _) (Finset.filter_subset _ _)
  have hcard := Finset.card_le_card hsub
  have hunion := Finset.card_union_of_disjoint hdisjoint
  have hgain := (hr.traced.gains x).1
  have hgrowth := hp.taken x
  rw [gain] at hgain ⊢
  constructor
  · intro hpos
    refine Classical.byContradiction fun hnone => ?_
    rw [not_or] at hnone
    have hall : t.skeleton.kids t.nextEntry x ⊆
        detachedKids t r x ∪ prunedKids t pruned x := by
      intro y hy
      obtain ⟨d, hd, hdx⟩ := (Skeleton.mem_kids h.sound.formed).mp hy
      refine Classical.byContradiction fun hnot => hnone.2 ⟨y, d, hd, hdx, ?_, ?_⟩
      · intro hdet
        exact hnot (Finset.mem_union_left _ (Finset.mem_filter.mpr ⟨hy, hdet⟩))
      · intro hpr
        exact hnot (Finset.mem_union_right _ (Finset.mem_filter.mpr ⟨hy, hpr⟩))
    have hle := Finset.card_le_card hall
    have hnot := hnone.1
    omega
  · rintro (hpos | ⟨y, d, hy, hyx, hdet, hpr⟩)
    · omega
    · have hmem : y ∈ t.skeleton.kids t.nextEntry x :=
        (Skeleton.mem_kids h.sound.formed).mpr ⟨d, hy, hyx⟩
      have hnot : y ∉ detachedKids t r x ∪ prunedKids t pruned x := by
        rw [Finset.mem_union, not_or]
        exact ⟨fun hm => hdet (Finset.mem_filter.mp hm).2, fun hm => hpr (Finset.mem_filter.mp hm).2⟩
      have hlt := Finset.card_lt_card
        ((Finset.ssubset_iff_of_subset hsub).mpr ⟨y, hmem, hnot⟩)
      omega

theorem Pruning.fruitless_of_le (h : t.Settled config T) (hb : batch.Fits config)
    (htarget : Target batch T U) (hr : Ran config t U batch r)
    (hp : Pruning t U r work growth pruned) (hx : t.skeleton x = some c)
    (hcat : c.isCategory = true) (hroot : x ≠ Tree.root)
    (hle : ((t.skeleton.kids t.nextEntry x).card : Int) + growth.getD x 0 ≤ 0) :
    Fruitless t U x := by
  have hnone := mt (hp.positive_iff h hb hr x).mpr (Int.not_lt.mpr hle)
  rw [not_or] at hnone
  refine ⟨hroot, ⟨c, hx, hcat⟩, fun hleads => ?_⟩
  rcases (hr.leads_iff h hb htarget hx hcat).mp hleads with hgain | ⟨y, d, hy, hyx, hdet, hd⟩
  · exact hnone.1 hgain
  · refine hnone.2 ⟨y, d, hy, hyx, hdet, fun hpr => ?_⟩
    obtain ⟨-, ⟨d', hd', hcat'⟩, hnot⟩ := hp.fruitless y hpr
    obtain rfl := Option.some.inj (hy.symm.trans hd')
    exact hnot (hd hcat')

/-- When no candidate is left, every category that leads nowhere was entered. -/
theorem Pruning.complete (h : t.Settled config T) (hb : batch.Fits config)
    (htarget : Target batch T U) (hr : Ran config t U batch r)
    (hp : Pruning t U r [] growth pruned) (hx : Fruitless t U x) : x ∈ pruned := by
  generalize hk : t.nextEntry - x = k
  induction k using Nat.strong_induction_on generalizing x with
  | _ k ih =>
    obtain ⟨hroot, ⟨c, hc, hcat⟩, hnot⟩ := hx
    refine Classical.byContradiction fun hpr => ?_
    have hpos : 0 < ((t.skeleton.kids t.nextEntry x).card : Int) + growth.getD x 0 :=
      Int.not_le.mp fun hle => absurd (hp.waiting x c hc hcat hroot hpr hle) List.not_mem_nil
    refine hnot ((hr.leads_iff h hb htarget hc hcat).mpr ?_)
    refine ((hp.positive_iff h hb hr x).mp hpos).imp_right ?_
    rintro ⟨y, d, hy, hyx, hdet, hypr⟩
    refine ⟨y, d, hy, hyx, hdet, fun hdcat => Classical.byContradiction fun hleads => hypr ?_⟩
    have hlt := h.sound.formed.parent_lt hy hyx
    have hyn := h.sound.formed.bounded hy
    have hless : t.nextEntry - y < k := hk ▸ Nat.sub_lt_sub_left (hlt.trans hyn) hlt
    exact ih _ hless ⟨h.sound.formed.ne_root hy hyx, ⟨d, hy, hdcat⟩, hleads⟩ rfl

/-- A candidate that stays is struck from the list. -/
theorem Pruning.skip {id : EntryId} (hp : Pruning t U r (id :: work) growth pruned)
    (hid : ∀ c, t.skeleton id = some c → c.isCategory = true → id ≠ Tree.root → id ∉ pruned →
      0 < ((t.skeleton.kids t.nextEntry id).card : Int) + growth.getD id 0) :
    Pruning t U r work growth pruned where
  taken := hp.taken
  fruitless := hp.fruitless
  waiting x c hx hcat hroot hpr hle := by
    rcases List.mem_cons.mp (hp.waiting x c hx hcat hroot hpr hle) with rfl | hmem
    · exact absurd hle (Int.not_le.mpr (hid c hx hcat hroot hpr))
    · exact hmem

theorem mem_insert_pruned {id x : EntryId} :
    x ∈ pruned.insert id ↔ x = id ∨ x ∈ pruned := by
  rw [Std.ExtTreeSet.mem_insert, Std.LawfulEqOrd.compare_eq_iff_eq, eq_comm (a := id)]

theorem card_prunedKids_insert (h : t.Settled config T) {id p : EntryId}
    (hid : t.skeleton id = some c) (hparent : c.parent = some p) (hpr : id ∉ pruned) :
    (prunedKids t (pruned.insert id) x).card =
      (prunedKids t pruned x).card + if x = p then 1 else 0 := by
  have hkid : id ∈ t.skeleton.kids t.nextEntry x ↔ x = p := by
    rw [Skeleton.mem_kids h.sound.formed]
    constructor
    · rintro ⟨d, hd, hdx⟩
      obtain rfl := Option.some.inj (hid.symm.trans hd)
      exact Option.some.inj (hdx.symm.trans hparent)
    · rintro rfl
      exact ⟨c, hid, hparent⟩
  by_cases hx : x = p
  · have hset : prunedKids t (pruned.insert id) x = insert id (prunedKids t pruned x) := by
      ext y
      simp only [prunedKids, Finset.mem_filter, Finset.mem_insert, mem_insert_pruned]
      constructor
      · rintro ⟨hy, rfl | hyp⟩
        · exact Or.inl rfl
        · exact Or.inr ⟨hy, hyp⟩
      · rintro (rfl | ⟨hy, hyp⟩)
        · exact ⟨hkid.mpr hx, Or.inl rfl⟩
        · exact ⟨hy, Or.inr hyp⟩
    have hnot : id ∉ prunedKids t pruned x := fun hm => hpr (Finset.mem_filter.mp hm).2
    rw [hset, Finset.card_insert_of_notMem hnot, if_pos hx]
  · have hset : prunedKids t (pruned.insert id) x = prunedKids t pruned x := by
      refine Finset.filter_congr fun y hy => ?_
      rw [mem_insert_pruned]
      exact ⟨fun hyp => hyp.resolve_left fun heq => hx (hkid.mp (heq ▸ hy)), Or.inr⟩
    rw [hset, if_neg hx, Nat.add_zero]

theorem Pruning.enter (h : t.Settled config T) {id p : EntryId}
    (hp : Pruning t U r (id :: work) growth pruned) (hid : t.skeleton id = some c)
    (hparent : c.parent = some p) (hpr : id ∉ pruned) (hfruitless : Fruitless t U id) :
    Pruning t U r (p :: work) (growth.insert p (growth.getD p 0 - 1)) (pruned.insert id) := by
  have hinsert : ∀ x, (growth.insert p (growth.getD p 0 - 1)).getD x 0 =
      growth.getD x 0 - if x = p then 1 else 0 := by
    intro x
    simp only [Std.ExtTreeMap.getD_insert, Std.LawfulEqOrd.compare_eq_iff_eq, eq_comm (a := p)]
    by_cases hx : x = p
    · simp [hx]
    · simp [hx]
  constructor
  case taken =>
    intro x
    rw [hinsert, hp.taken, card_prunedKids_insert h hid hparent hpr]
    split <;> omega
  case fruitless =>
    intro x hx
    rcases mem_insert_pruned.mp hx with rfl | hx
    · exact hfruitless
    · exact hp.fruitless x hx
  case waiting =>
    intro x d hx hcat hroot hxpr hle
    rw [mem_insert_pruned, not_or] at hxpr
    rw [hinsert] at hle
    by_cases hxp : x = p
    · exact hxp ▸ List.mem_cons_self
    · rw [if_neg hxp, Int.sub_zero] at hle
      have hwait := hp.waiting x d hx hcat hroot hxpr.2 hle
      exact List.mem_cons_of_mem _ (List.mem_of_ne_of_mem hxpr.1 hwait)

def unentered (t : Tree) (pruned : Std.ExtTreeSet EntryId) : Finset EntryId :=
  (Finset.range t.nextEntry).filter fun x => (t.get? x).isSome ∧ x ∉ pruned

theorem card_unentered_insert {id : EntryId} (h : t.Settled config T)
    (hid : t.skeleton id = some c) (hpr : id ∉ pruned) :
    (unentered t (pruned.insert id)).card < (unentered t pruned).card := by
  obtain ⟨e, he, -⟩ := Tree.skeleton_eq_some_iff.mp hid
  refine Finset.card_lt_card ((Finset.ssubset_iff_of_subset fun x hx => ?_).mpr ⟨id, ?_, ?_⟩)
  · simp only [unentered, Finset.mem_filter, Std.ExtTreeSet.mem_insert, not_or] at hx ⊢
    exact ⟨hx.1, hx.2.1, hx.2.2.2⟩
  · simp only [unentered, Finset.mem_filter, Finset.mem_range, he, Option.isSome_some, true_and]
    exact ⟨h.sound.formed.bounded hid, hpr⟩
  · simp [unentered]

/-- A worklist under way: the candidates left, the growth that remains, and the categories
entered so far. -/
structure Worklist where
  work : List EntryId
  growth : Std.ExtTreeMap EntryId Int
  pruned : Std.ExtTreeSet EntryId

def Worklist.size (t : Tree) (s : Worklist) : Nat := s.work.length + (unentered t s.pruned).card

/-- A candidate that was struck from the list is passed over, or it is entered and its parent
becomes a candidate. -/
def Worklist.take (t : Tree) (id : EntryId) (s : Worklist) : Worklist :=
  match t.get? id with
  | none => s
  | some e =>
    if e.isRoot || !e.isCategory || s.pruned.contains id ||
        0 < (e.counters.children : Int) + s.growth.getD id 0 then s
    else match e.parent with
      | none => { s with pruned := s.pruned.insert id }
      | some parent =>
        ⟨parent :: s.work, s.growth.insert parent (s.growth.getD parent 0 - 1),
          s.pruned.insert id⟩

theorem prunedFrom_cons (t : Tree) (fuel : Nat) (id : EntryId) (rest : List EntryId)
    (growth : Std.ExtTreeMap EntryId Int) (pruned : Std.ExtTreeSet EntryId) :
    prunedFrom t (fuel + 1) (id :: rest) growth pruned =
      let s := Worklist.take t id ⟨rest, growth, pruned⟩
      prunedFrom t fuel s.work s.growth s.pruned := by
  rw [prunedFrom, Worklist.take]
  cases t.get? id with
  | none => rfl
  | some e =>
    simp only
    split
    · rfl
    · cases e.parent <;> rfl

abbrev Worklist.Keeps (s : Worklist) (t : Tree) (U : Table) (r : Replay) : Prop :=
  Pruning t U r s.work s.growth s.pruned

/-- Dealing with a candidate keeps the promise and leaves less to be done. -/
theorem Pruning.take (h : t.Settled config T) (hb : batch.Fits config)
    (htarget : Target batch T U) (hr : Ran config t U batch r) {id : EntryId}
    (hp : Pruning t U r (id :: work) growth pruned) :
    (Worklist.take t id ⟨work, growth, pruned⟩).Keeps t U r ∧
      (Worklist.take t id ⟨work, growth, pruned⟩).size t <
        Worklist.size t ⟨id :: work, growth, pruned⟩ := by
  have hstruck : Worklist.size t ⟨work, growth, pruned⟩ <
      Worklist.size t ⟨id :: work, growth, pruned⟩ :=
    Nat.add_lt_add_right (Nat.lt_succ_self _) _
  unfold Worklist.take
  cases hid : t.get? id with
  | none =>
    refine ⟨hp.skip fun c hc => ?_, hstruck⟩
    rw [Tree.skeleton_eq_none_iff.mpr hid] at hc
    cases hc
  | some e =>
    have hc := Tree.skeleton_eq_some hid
    have hchildren : (e.counters.children : Int) =
        ((t.skeleton.kids t.nextEntry id).card : Int) := by
      rw [h.sound.counters hid]
      rfl
    have hroot : e.isRoot = true ↔ id = Tree.root := by
      rw [h.sound.formed.root_iff hc, Entry.isRoot, Option.isNone_iff_eq_none]
      rfl
    simp only [hchildren]
    split
    · next hskip =>
      refine ⟨hp.skip fun c' hc' hcat hne hpr => ?_, hstruck⟩
      obtain rfl := Option.some.inj (hc.symm.trans hc')
      simp only [Bool.or_eq_true, Bool.not_eq_true', decide_eq_true_eq] at hskip
      rcases hskip with ((hr' | hcat') | hpr') | hpos
      · exact absurd (hroot.mp hr') hne
      · exact absurd (hcat'.symm.trans hcat) (by decide)
      · exact absurd (Std.ExtTreeSet.mem_iff_contains.mpr hpr') hpr
      · exact hpos
    · next hgo =>
      simp only [Bool.or_eq_true, Bool.not_eq_true', decide_eq_true_eq, not_or,
        Bool.not_eq_false, Int.not_lt, Bool.not_eq_true] at hgo
      obtain ⟨⟨⟨hne, hcat⟩, hpr⟩, hle⟩ := hgo
      have hne' : id ≠ Tree.root := by
        intro heq
        rw [hroot.mpr heq] at hne
        cases hne
      have hpr' : id ∉ pruned := by
        intro hm
        rw [Std.ExtTreeSet.mem_iff_contains.mp hm] at hpr
        cases hpr
      obtain ⟨p, -, hparent, -⟩ := h.sound.formed.parent hc hne'
      have hp' : e.parent = some p := hparent
      simp only [hp']
      refine ⟨hp.enter h hc hparent hpr' ?_, ?_⟩
      · exact hp.fruitless_of_le h hb htarget hr hc hcat hne' hle
      · -- the parent takes the place of the candidate, and one entry more is entered
        exact Nat.add_lt_add_left (card_unentered_insert h hc hpr') _

theorem Pruning.mem_prunedFrom (h : t.Settled config T) (hb : batch.Fits config)
    (htarget : Target batch T U) (hr : Ran config t U batch r)
    (hp : Pruning t U r work growth pruned) {fuel : Nat}
    (hfuel : work.length + (unentered t pruned).card ≤ fuel) (x : EntryId) :
    x ∈ prunedFrom t fuel work growth pruned ↔ Fruitless t U x := by
  induction fuel generalizing work growth pruned with
  | zero =>
    have hnil : work = [] := List.eq_nil_of_length_eq_zero (by omega)
    subst hnil
    unfold prunedFrom
    exact ⟨hp.fruitless x, hp.complete h hb htarget hr⟩
  | succ fuel ih =>
    cases work with
    | nil =>
      rw [prunedFrom]
      · exact ⟨hp.fruitless x, hp.complete h hb htarget hr⟩
      · intro hz
        exact Nat.noConfusion hz
    | cons id rest =>
      obtain ⟨hkeeps, hless⟩ := hp.take h hb htarget hr
      rw [prunedFrom_cons]
      exact ih hkeeps (Nat.le_of_lt_succ (hless.trans_le hfuel))

theorem pruning_start (h : t.Settled config T) : Pruning t U r r.candidates r.growth ∅ := by
  have hnone : ∀ x, prunedKids t ∅ x = ∅ := fun x =>
    Finset.filter_eq_empty_iff.mpr fun y _ => Std.ExtTreeSet.not_mem_empty
  constructor
  case taken =>
    intro x
    rw [hnone, Finset.card_empty, Int.natCast_zero, Int.sub_zero]
  case fruitless =>
    intro x hx
    exact absurd hx Std.ExtTreeSet.not_mem_empty
  case waiting =>
    intro x c hx hcat hroot _ hle
    have hkids : 0 < (t.skeleton.kids t.nextEntry x).card := by
      refine Finset.card_pos.mpr (Finset.nonempty_iff_ne_empty.mpr fun hempty => ?_)
      refine h.full x ⟨hroot, Skeleton.isCategoryAt_eq_true.mpr ⟨c, hx, hcat⟩, fun y d hy hp => ?_⟩
      have hmem := (Skeleton.mem_kids h.sound.formed).mpr ⟨d, hy, hp⟩
      rw [hempty] at hmem
      cases hmem
    have hneg : r.growth.getD x 0 < 0 := by omega
    rw [Std.ExtTreeMap.getD_eq_getD_getElem?] at hneg
    cases hg : r.growth[x]? with
    | none =>
      rw [hg] at hneg
      exact absurd hneg (lt_irrefl 0)
    | some m =>
      rw [hg, Option.getD_some] at hneg
      refine List.mem_map.mpr ⟨(x, m), List.mem_filter.mpr ⟨?_, decide_eq_true hneg⟩, rfl⟩
      exact Std.ExtTreeMap.mem_toList_iff_getElem?_eq_some.mpr hg

theorem card_unentered_le (t : Tree) (pruned : Std.ExtTreeSet EntryId) :
    (unentered t pruned).card ≤ t.arena.size := by
  have hsub : unentered t pruned ⊆
      (Finset.range t.nextEntry).filter fun x => (t.get? x).isSome :=
    fun y hy => Finset.mem_filter.mpr
      ⟨(Finset.mem_filter.mp hy).1, (Finset.mem_filter.mp hy).2.1⟩
  exact (Finset.card_le_card hsub).trans (Tree.card_live_le t t.nextEntry)

theorem Ran.mem_pruned_iff (h : t.Settled config T) (hb : batch.Fits config)
    (htarget : Target batch T U) (hr : Ran config t U batch r) (x : EntryId) :
    x ∈ r.pruned t ↔ Fruitless t U x :=
  (pruning_start h).mem_prunedFrom h hb htarget hr
    (Nat.add_le_add_left (card_unentered_le t ∅) _) x

end CategorizedIndex.Replay
