import CategorizedIndex.Proofs.Replay.Notes
import CategorizedIndex.Proofs.Replay.Stands

/-! # Replaying a batch

A replay is traced against the table that the batch leads to: whatever it creates leads
to a document of that table, whatever it notes is held by that table, and an entry gains
children only where the table has a document below it. In the other direction, the end
of every path that is followed, and every step on the way, is accounted for.
-/
namespace CategorizedIndex.Replay

variable {config : Config} {t : Tree} {U : Table} {r r' : Replay} {P Q : Parent}
  {A : List Label}

/-- Children of an entry that the batch takes away. -/
def detachedKids (t : Tree) (r : Replay) (x : EntryId) : Finset EntryId :=
  (t.skeleton.kids t.nextEntry x).filter fun y => y ∈ r.detached

/-- How many children an entry gains, apart from those it loses. -/
def gain (t : Tree) (r : Replay) (x : EntryId) : Int :=
  r.growth.getD x 0 + (detachedKids t r x).card

structure Traced (config : Config) (t : Tree) (U : Table) (r : Replay) : Prop where
  apart : Apart config t.skeleton r.pending
  created : ∀ c ∈ r.pending, ∃ step A, c = ⟨c.parent, step.column, step.value⟩ ∧
    step.Fits config ∧ Stands config t.skeleton r.pending c.parent A ∧
    U.Leads (A ++ [.category step])
  noted : ∀ c ∈ r.pending, ∀ v, c.value = some v → Noted r.added c.parent (.category c.column) v
  pendingGains : ∀ c ∈ r.pending, ∀ x, c.parent = .live x → 0 < gain t r x
  gains : ∀ x, 0 ≤ gain t r x ∧ (0 < gain t r x → U.Leads (t.skeleton.address x))
  tidy : Tidy r.added
  values : ∀ a ∈ r.added, ∀ v ∈ a.values,
    ∃ A, Stands config t.skeleton r.pending a.parent A ∧ U.Holds A a.place v

/-- A later state of the same replay. -/
structure Grown (t : Tree) (r r' : Replay) : Prop where
  pending : r.pending <+: r'.pending
  noted : ∀ {P place v}, Noted r.added P place v → Noted r'.added P place v
  gains : ∀ x, gain t r x ≤ gain t r' x

namespace Grown

theorem refl (t : Tree) (r : Replay) : Grown t r r := ⟨List.prefix_rfl, id, fun _ => le_rfl⟩

theorem trans {r'' : Replay} (h : Grown t r r') (h' : Grown t r' r'') : Grown t r r'' where
  pending := h.pending.trans h'.pending
  noted hn := h'.noted (h.noted hn)
  gains x := (h.gains x).trans (h'.gains x)

end Grown

def StepTaken (config : Config) (t : Tree) (r : Replay) (A : List Label) (step : CategoryStep) :
    Prop :=
  ∃ P Q, Stands config t.skeleton r.pending P A ∧
    Stands config t.skeleton r.pending Q (A ++ [.category step]) ∧
    ((∃ y, Q = .live y) ∨
      ∀ v, step.value = some v → Noted r.added P (.category step.column) v)

def DocumentTaken (config : Config) (t : Tree) (r : Replay) (A : List Label)
    (slots : List Slot) : Prop :=
  ∃ P, Stands config t.skeleton r.pending P A ∧
    (∀ i v, slots[i]?.bind (·.scalar?) = some v → Noted r.added P (.document i) v) ∧
    ∀ x, P = .live x → 0 < gain t r x

theorem StepTaken.mono {step : CategoryStep} (h : StepTaken config t r A step)
    (hg : Grown t r r') : StepTaken config t r' A step := by
  obtain ⟨P, Q, hP, hQ, htaken⟩ := h
  refine ⟨P, Q, hP.mono hg.pending, hQ.mono hg.pending, ?_⟩
  exact htaken.imp_right fun hnoted v hv => hg.noted (hnoted v hv)

theorem DocumentTaken.mono {slots : List Slot} (h : DocumentTaken config t r A slots)
    (hg : Grown t r r') : DocumentTaken config t r' A slots := by
  obtain ⟨P, hP, hnoted, hgain⟩ := h
  exact ⟨P, hP.mono hg.pending, fun i v hv => hg.noted (hnoted i v hv),
    fun x hx => (hgain x hx).trans_le (hg.gains x)⟩

def PathTaken (config : Config) (t : Tree) (r : Replay) (A : List Label)
    (path : CategoryPath) : Prop :=
  ∀ above step rest, path = above ++ step :: rest →
    StepTaken config t r (A ++ above.map .category) step

theorem PathTaken.mono {path : CategoryPath} (h : PathTaken config t r A path)
    (hg : Grown t r r') : PathTaken config t r' A path :=
  fun above step rest hpath => (h above step rest hpath).mono hg

theorem pathTaken_cons {step : CategoryStep} {rest : CategoryPath}
    (hstep : StepTaken config t r A step)
    (hrest : PathTaken config t r (A ++ [.category step]) rest) :
    PathTaken config t r A (step :: rest) := by
  intro above step' rest' hpath
  cases above with
  | nil =>
    obtain ⟨rfl, rfl⟩ := List.cons.inj hpath
    rw [List.map_nil, List.append_nil]
    exact hstep
  | cons first above =>
    obtain ⟨rfl, htail⟩ := List.cons.inj hpath
    have h := hrest above step' rest' htail
    rw [List.append_assoc] at h
    exact h

/-! ## Changes of growth -/

theorem getD_growth_grow (r : Replay) (p : EntryId) (n : Int) (x : EntryId) :
    (r.grow p n).growth.getD x 0 = r.growth.getD x 0 + if p = x then n else 0 := by
  simp only [grow, Std.ExtTreeMap.getD_insert, Std.LawfulEqOrd.compare_eq_iff_eq]
  by_cases h : p = x
  · simp [h]
  · simp [h]

theorem gain_grow (t : Tree) (r : Replay) (p : EntryId) (n : Int) (x : EntryId) :
    gain t (r.grow p n) x = gain t r x + if p = x then n else 0 := by
  have hkids : detachedKids t (r.grow p n) x = detachedKids t r x := rfl
  rw [gain, getD_growth_grow, hkids, gain]
  omega

/-- Taking a child away loses it without a gain. -/
theorem gain_detachOne (h : t.Sound config) {id : EntryId} {c : Core} {p : EntryId}
    (hid : t.skeleton id = some c) (hp : c.parent = some p) (r : Replay) (x : EntryId) :
    gain t (r.detachOne t id) x = gain t r x := by
  obtain ⟨e, he, rfl⟩ := Tree.skeleton_eq_some_iff.mp hid
  have hparent : (t.get? id).bind (·.parent) = some p := by
    rw [he]
    exact hp
  unfold detachOne
  by_cases hin : id ∈ r.detached
  · rw [if_pos (Std.ExtTreeSet.mem_iff_contains.mp hin)]
  · rw [if_neg fun hc => hin (Std.ExtTreeSet.mem_iff_contains.mpr hc)]
    simp only [hparent]
    rw [gain_grow, gain, gain]
    have hkids : ∀ y, y ∈ detachedKids t { r with detached := r.detached.insert id } x ↔
        y ∈ detachedKids t r x ∨ (y = id ∧ p = x) := by
      intro y
      simp only [detachedKids, Finset.mem_filter, Skeleton.mem_kids h.formed,
        Std.ExtTreeSet.mem_insert, Std.LawfulEqOrd.compare_eq_iff_eq]
      constructor
      · rintro ⟨hy, rfl | hdet⟩
        · obtain ⟨d, hd, hdx⟩ := hy
          rw [← Option.some.inj (hid.symm.trans hd)] at hdx
          exact Or.inr ⟨rfl, Option.some.inj (hp.symm.trans hdx)⟩
        · exact Or.inl ⟨hy, hdet⟩
      · rintro (⟨hy, hdet⟩ | ⟨rfl, rfl⟩)
        · exact ⟨hy, Or.inr hdet⟩
        · exact ⟨⟨_, hid, hp⟩, Or.inl rfl⟩
    by_cases hpx : p = x
    · have hset : detachedKids t { r with detached := r.detached.insert id } x =
          insert id (detachedKids t r x) := by
        ext y
        rw [hkids, Finset.mem_insert, or_comm]
        simp [hpx]
      have hnot : id ∉ detachedKids t r x := fun hmem => hin (Finset.mem_filter.mp hmem).2
      rw [hset, Finset.card_insert_of_notMem hnot, if_pos hpx]
      push_cast
      omega
    · have hset : detachedKids t { r with detached := r.detached.insert id } x =
          detachedKids t r x := by
        ext y
        rw [hkids]
        simp [hpx]
      rw [hset, if_neg hpx, Int.add_zero]

theorem mem_detached_detachOne (t : Tree) (r : Replay) (id x : EntryId) :
    x ∈ (r.detachOne t id).detached ↔ x ∈ r.detached ∨ x = id := by
  unfold detachOne
  by_cases hin : id ∈ r.detached
  · rw [if_pos (Std.ExtTreeSet.mem_iff_contains.mp hin)]
    exact ⟨Or.inl, fun h => h.elim (fun h => h) fun h => h ▸ hin⟩
  · rw [if_neg fun hc => hin (Std.ExtTreeSet.mem_iff_contains.mpr hc)]
    have hinsert : x ∈ r.detached.insert id ↔ x ∈ r.detached ∨ x = id := by
      rw [Std.ExtTreeSet.mem_insert, Std.LawfulEqOrd.compare_eq_iff_eq, eq_comm (a := id), or_comm]
    split <;> exact hinsert

theorem pending_detachOne (t : Tree) (r : Replay) (id : EntryId) :
    (r.detachOne t id).pending = r.pending ∧ (r.detachOne t id).added = r.added := by
  unfold detachOne
  split
  · exact ⟨rfl, rfl⟩
  · simp only
    split <;> exact ⟨rfl, rfl⟩

/-- Nothing but detached entries and the growth changed, and no gain. -/
structure Withdrawn (t : Tree) (gone : List EntryId) (r r' : Replay) : Prop where
  pending : r'.pending = r.pending
  added : r'.added = r.added
  gain : ∀ x, gain t r' x = gain t r x
  detached : ∀ x, x ∈ r'.detached ↔ x ∈ r.detached ∨ x ∈ gone

theorem withdrawn_withdraw (h : t.Sound config) (r : Replay) {s : ScopedId}
    (hs : s.isCategory = false) : Withdrawn t (t.placementsOf s) r (r.withdraw t s) := by
  have hdoc : ∀ x ∈ t.placementsOf s, ∃ c p, t.skeleton x = some c ∧ c.parent = some p := by
    intro x hx
    rw [h.placements] at hx
    obtain ⟨c, hc, hcs⟩ := (Skeleton.mem_placed h.formed).mp hx
    have hr := h.formed.ne_root_of_document hc ((congrArg ScopedId.isCategory hcs).trans hs)
    obtain ⟨p, -, hp, -⟩ := h.formed.parent hc hr
    exact ⟨c, p, hc, hp⟩
  unfold withdraw
  generalize t.placementsOf s = ids at hdoc
  induction ids generalizing r with
  | nil => exact ⟨rfl, rfl, fun _ => rfl, fun x => by simp⟩
  | cons id rest ih =>
    obtain ⟨c, p, hc, hp⟩ := hdoc id List.mem_cons_self
    have hrest := ih (r.detachOne t id) fun x hx => hdoc x (List.mem_cons_of_mem _ hx)
    obtain ⟨hpending, hadded⟩ := pending_detachOne t r id
    refine ⟨hrest.pending.trans hpending, hrest.added.trans hadded, fun x => ?_, fun x => ?_⟩
    · exact (hrest.gain x).trans (gain_detachOne h hc hp r x)
    · have hone := mem_detached_detachOne t r id x
      rw [List.mem_cons, ← or_assoc, ← hone]
      exact hrest.detached x

theorem Withdrawn.grown {gone : List EntryId} (h : Withdrawn t gone r r') : Grown t r r' where
  pending := h.pending ▸ List.prefix_rfl
  noted := by
    rw [h.added]
    exact id
  gains x := (h.gain x).ge

theorem Withdrawn.traced {gone : List EntryId} (h : Withdrawn t gone r r')
    (hr : Traced config t U r) : Traced config t U r' := by
  constructor
  case apart => exact h.pending ▸ hr.apart
  case created => exact h.pending ▸ hr.created
  case noted =>
    rw [h.pending, h.added]
    exact hr.noted
  case pendingGains =>
    intro c hc x hx
    rw [h.gain]
    exact hr.pendingGains c (h.pending ▸ hc) x hx
  case gains =>
    intro x
    rw [h.gain]
    exact hr.gains x
  case tidy => exact h.added ▸ hr.tidy
  case values =>
    rw [h.pending, h.added]
    exact hr.values

end CategorizedIndex.Replay
