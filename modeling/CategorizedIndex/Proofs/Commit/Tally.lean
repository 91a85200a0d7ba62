import CategorizedIndex.Proofs.Commit.Place
import CategorizedIndex.Proofs.Skeleton.Census

/-! # Tallies

A tree is edited one leaf at a time: a new entry comes under the next handle, or an entry
that was there from the start goes. As long as nothing that came goes again, what came and
what went can be read off the first tree and the last, and the entries whose children are
stale are those whose children differ.
-/
namespace CategorizedIndex

namespace Stats

/-- Entries of a kind that a batch attached. -/
def came (s : Stats) (isCategory : Bool) : Nat :=
  if isCategory then s.categoriesCreated else s.added

/-- Entries of a kind that a batch detached. -/
def went (s : Stats) (isCategory : Bool) : Nat :=
  if isCategory then s.categoriesPruned else s.removed

def attached (s : Stats) (isCategory : Bool) : Stats :=
  if isCategory then { s with categoriesCreated := s.categoriesCreated + 1 }
  else { s with added := s.added + 1 }

def detached (s : Stats) (isCategory : Bool) : Stats :=
  if isCategory then { s with categoriesPruned := s.categoriesPruned + 1 }
  else { s with removed := s.removed + 1 }

variable (s : Stats) (a b : Bool)

@[simp] theorem came_attached :
    (s.attached a).came b = s.came b + if a = b then 1 else 0 := by
  cases a <;> cases b <;> rfl

@[simp] theorem went_attached : (s.attached a).went b = s.went b := by
  cases a <;> cases b <;> rfl

@[simp] theorem came_detached : (s.detached a).came b = s.came b := by
  cases a <;> cases b <;> rfl

@[simp] theorem went_detached :
    (s.detached a).went b = s.went b + if a = b then 1 else 0 := by
  cases a <;> cases b <;> rfl

@[simp] theorem rejected_attached : (s.attached a).rejected = s.rejected := by cases a <;> rfl

@[simp] theorem rejected_detached : (s.detached a).rejected = s.rejected := by cases a <;> rfl

end Stats

namespace Skeleton

variable {config : Config} {F : Skeleton} {n x p : EntryId}

/-- The categories, or the documents. -/
def ofKind (F : Skeleton) (n : EntryId) (isCategory : Bool) : Finset EntryId :=
  (Finset.range n).filter fun x => (F x).any (·.isCategory == isCategory)

theorem mem_ofKind (h : F.WellFormed config n) {isCategory : Bool} :
    x ∈ F.ofKind n isCategory ↔ ∃ c, F x = some c ∧ c.isCategory = isCategory := by
  rw [ofKind, Finset.mem_filter, Finset.mem_range, Option.any_eq_true]
  simp only [beq_iff_eq]
  exact ⟨And.right, fun ⟨c, hx, hc⟩ => ⟨h.bounded hx, c, hx, hc⟩⟩

theorem WellFormed.kids_eq_empty (h : F.WellFormed config n) (hp : F p = none) :
    F.kids n p = ∅ := by
  refine Finset.eq_empty_of_forall_notMem fun x hx => ?_
  obtain ⟨c, hc, hcp⟩ := (mem_kids h).mp hx
  obtain ⟨pc, hpc, -⟩ := h.parent_category hc hcp
  rw [hp] at hpc
  cases hpc

end Skeleton

namespace Tree

variable {config : Config} {t u : Tree} {stats : Stats} {rejected : Nat} {x p id : EntryId}
  {isCategory : Bool}

def ofKind (t : Tree) (isCategory : Bool) : Finset EntryId :=
  t.skeleton.ofKind t.nextEntry isCategory

def kids (t : Tree) (p : EntryId) : Finset EntryId := t.skeleton.kids t.nextEntry p

theorem Sound.mem_ofKind (h : t.Sound config) :
    x ∈ t.ofKind isCategory ↔ ∃ c, t.skeleton x = some c ∧ c.isCategory = isCategory :=
  Skeleton.mem_ofKind h.formed

theorem Sound.mem_ofKind_iff (h : t.Sound config) {c : Core} (hx : t.skeleton x = some c) :
    x ∈ t.ofKind isCategory ↔ c.isCategory = isCategory := by
  rw [h.mem_ofKind, hx]
  simp only [Option.some.injEq, exists_eq_left']

theorem Sound.not_mem_ofKind (h : t.Sound config) (hx : t.skeleton x = none) :
    x ∉ t.ofKind isCategory := by
  rw [h.mem_ofKind, hx]
  simp

theorem Sound.mem_kids (h : t.Sound config) :
    x ∈ t.kids p ↔ ∃ c, t.skeleton x = some c ∧ c.parent = some p := Skeleton.mem_kids h.formed

section Steps

variable {s : ScopedId} {unid : String} {key : SortKey} {values : ColumnValues} {e : Entry}

theorem ofKind_attach (hu : u.Sound config) (hv : (u.attach p s unid key values).Sound config) :
    (u.attach p s unid key values).ofKind isCategory =
      if s.isCategory = isCategory then insert u.nextEntry (u.ofKind isCategory)
      else u.ofKind isCategory := by
  have hnew : (newCore p s unid key values).isCategory = s.isCategory := rfl
  ext x
  rw [hv.mem_ofKind, skeleton_attach]
  by_cases hx : x = u.nextEntry
  · simp only [hx, Skeleton.grow_self, Option.some.injEq, exists_eq_left', hnew]
    split
    · next hkind => simp [hkind]
    · next hkind => simp [hkind, hu.mem_ofKind, hu.skeleton_nextEntry]
  · rw [Skeleton.grow_of_ne hx]
    split <;> simp [hx, hu.mem_ofKind]

theorem kids_attach (hu : u.Sound config) (hv : (u.attach p s unid key values).Sound config)
    (x : EntryId) : (u.attach p s unid key values).kids x =
      if x = p then insert u.nextEntry (u.kids x) else u.kids x := by
  ext y
  rw [hv.mem_kids, skeleton_attach]
  by_cases hy : y = u.nextEntry
  · simp only [hy, Skeleton.grow_self, Option.some.injEq, exists_eq_left', newCore]
    split
    · next hx => simp [hx]
    · next hx => simp [Ne.symm hx, hu.mem_kids, hu.skeleton_nextEntry]
  · rw [Skeleton.grow_of_ne hy]
    split <;> simp [hy, hu.mem_kids]

theorem ofKind_plucked (hu : u.Sound config) (hv : (u.plucked id e p).Sound config) :
    (u.plucked id e p).ofKind isCategory = (u.ofKind isCategory).erase id := by
  ext x
  rw [hv.mem_ofKind, skeleton_plucked, Finset.mem_erase, hu.mem_ofKind]
  simp only [Skeleton.without_eq_some_iff, and_assoc, exists_and_left]

theorem kids_plucked (hu : u.Sound config) (hv : (u.plucked id e p).Sound config) (x : EntryId) :
    (u.plucked id e p).kids x = (u.kids x).erase id := by
  ext y
  rw [hv.mem_kids, skeleton_plucked, Finset.mem_erase, hu.mem_kids]
  simp only [Skeleton.without_eq_some_iff, and_assoc, exists_and_left]

end Steps

structure Recorded (t u : Tree) (rejected : Nat) (stats : Stats) : Prop where
  nextEntry : t.nextEntry ≤ u.nextEntry
  old : ∀ {x c}, x < t.nextEntry → u.skeleton x = some c → t.skeleton x = some c
  lasting : ∀ {x}, t.nextEntry ≤ x → x < u.nextEntry → ∃ c, u.skeleton x = some c
  came : ∀ isCategory, (u.ofKind isCategory \ t.ofKind isCategory).card = stats.came isCategory
  went : ∀ isCategory, (t.ofKind isCategory \ u.ofKind isCategory).card = stats.went isCategory
  rejected : stats.rejected = rejected

structure Tallied (t u : Tree) (rejected : Nat) (stats : Stats) : Prop
    extends t.Recorded u rejected stats where
  stale : ∀ p, p ∈ u.unnumbered ↔ (∃ c, u.skeleton p = some c) ∧ t.kids p ≠ u.kids p

namespace Tallied

/-- A tree without stale ranks starts a tally. -/
theorem refl (h : t.unnumbered = ∅) : t.Tallied t 0 .none where
  nextEntry := le_rfl
  old _ hx := hx
  lasting hle hlt := absurd hlt (Nat.not_lt.mpr hle)
  came isCategory := by
    rw [Finset.sdiff_self, Finset.card_empty]
    cases isCategory <;> rfl
  went isCategory := by
    rw [Finset.sdiff_self, Finset.card_empty]
    cases isCategory <;> rfl
  rejected := rfl
  stale p := by simp [h]

section Steps

variable {s : ScopedId} {unid : String} {key : SortKey} {values : ColumnValues} {e : Entry}
  {pc c : Core}

/-- A new entry is counted as one that came. -/
theorem attach (h : t.Tallied u rejected stats) (ht : t.Sound config) (hu : u.Sound config)
    (hp : u.skeleton p = some pc) (hv : (u.attach p s unid key values).Sound config) :
    t.Tallied (u.attach p s unid key values) rejected (stats.attached s.isCategory) := by
  have hfresh : t.skeleton u.nextEntry = none := Option.eq_none_iff_forall_ne_some.mpr
    fun c hc => absurd (ht.formed.bounded hc) (Nat.not_lt.mpr h.nextEntry)
  refine ⟨⟨?nextEntry, ?old, ?lasting, ?came, ?went, ?rejected⟩, ?stale⟩
  case nextEntry => exact h.nextEntry.trans (Nat.le_succ _)
  case old =>
    intro x c hlt hx
    rw [skeleton_attach, Skeleton.grow_of_ne (hlt.trans_le h.nextEntry).ne] at hx
    exact h.old hlt hx
  case lasting =>
    intro x hle hlt
    rw [skeleton_attach]
    rcases Nat.lt_succ_iff_lt_or_eq.mp hlt with hlt | rfl
    · rw [Skeleton.grow_of_ne hlt.ne]
      exact h.lasting hle hlt
    · exact ⟨_, Skeleton.grow_self⟩
  case came =>
    intro isCategory
    rw [ofKind_attach hu hv, Stats.came_attached, ← h.came]
    split
    · rw [Finset.insert_sdiff_of_notMem _ (ht.not_mem_ofKind hfresh), Finset.card_insert_of_notMem]
      exact fun hmem => hu.not_mem_ofKind hu.skeleton_nextEntry (Finset.mem_sdiff.mp hmem).1
    · rfl
  case went =>
    intro isCategory
    rw [ofKind_attach hu hv, Stats.went_attached, ← h.went]
    split
    · rw [Finset.sdiff_insert_of_notMem (ht.not_mem_ofKind hfresh)]
    · rfl
  case rejected => exact (Stats.rejected_attached _ _).trans h.rejected
  case stale =>
    intro q
    rw [mem_unnumbered_attach, kids_attach hu hv, skeleton_attach, h.stale]
    by_cases hqp : q = p
    · have hne : p ≠ u.nextEntry := (hu.formed.bounded hp).ne
      have hkids : t.kids p ≠ insert u.nextEntry (u.kids p) := by
        intro heq
        obtain ⟨c, hc, -⟩ := ht.mem_kids.mp (heq ▸ Finset.mem_insert_self _ _)
        rw [hfresh] at hc
        cases hc
      simp [hqp, Skeleton.grow_of_ne hne, hp, hkids]
    · by_cases hq : q = u.nextEntry
      · have hbefore : t.kids u.nextEntry = ∅ := ht.formed.kids_eq_empty hfresh
        have hnow : u.kids u.nextEntry = ∅ := hu.formed.kids_eq_empty hu.skeleton_nextEntry
        simp [hq, hbefore, hnow, hu.skeleton_nextEntry, (hu.formed.bounded hp).ne']
      · simp only [hqp, false_or, if_false, Skeleton.grow_of_ne hq]

/-- An entry that goes is counted if it was there from the start. -/
theorem pluck (h : t.Tallied u rejected stats) (ht : t.Sound config) (hu : u.Sound config)
    (hid : u.get? id = some e) (hp : e.parent = some p) (hold : id < t.nextEntry)
    (hv : (u.plucked id e p).Sound config) :
    t.Tallied (u.plucked id e p) rejected (stats.detached e.isCategory) := by
  have hc := skeleton_eq_some hid
  have hct := h.old hold hc
  have hkind : ∀ {isCategory}, id ∈ u.ofKind isCategory ↔ e.isCategory = isCategory :=
    hu.mem_ofKind_iff hc
  have hkindOld : ∀ {isCategory}, id ∈ t.ofKind isCategory ↔ e.isCategory = isCategory :=
    ht.mem_ofKind_iff hct
  refine ⟨⟨?nextEntry, ?old, ?lasting, ?came, ?went, ?rejected⟩, ?stale⟩
  case nextEntry => exact h.nextEntry.trans_eq nextEntry_plucked.symm
  case old =>
    intro x c hlt hx
    rw [skeleton_plucked, Skeleton.without_eq_some_iff] at hx
    exact h.old hlt hx.2
  case lasting =>
    intro x hle hlt
    rw [nextEntry_plucked] at hlt
    rw [skeleton_plucked, Skeleton.without_of_ne (hold.trans_le hle).ne']
    exact h.lasting hle hlt
  case came =>
    intro isCategory
    rw [ofKind_plucked hu hv, Stats.came_detached, ← h.came, Finset.erase_sdiff_comm,
      Finset.erase_eq_of_notMem]
    intro hmem
    obtain ⟨hin, hnot⟩ := Finset.mem_sdiff.mp hmem
    exact hnot (hkindOld.mpr (hkind.mp hin))
  case went =>
    intro isCategory
    rw [ofKind_plucked hu hv, Stats.went_detached, ← h.went]
    split
    · next heq =>
      rw [Finset.sdiff_erase (hkindOld.mpr heq), Finset.card_insert_of_notMem]
      exact fun hmem => (Finset.mem_sdiff.mp hmem).2 (hkind.mpr heq)
    · next hne => rw [Finset.erase_eq_of_notMem fun hmem => hne (hkind.mp hmem), Nat.add_zero]
  case rejected => exact (Stats.rejected_detached _ _).trans h.rejected
  case stale =>
    intro q
    rw [mem_unnumbered_plucked, kids_plucked hu hv, skeleton_plucked, h.stale]
    by_cases hqid : q = id
    · simp [hqid]
    · rw [Skeleton.without_of_ne hqid]
      by_cases hqp : q = p
      · obtain ⟨pc, hpc, -⟩ := hu.formed.parent_category hc hp
        have hkids : t.kids p ≠ (u.kids p).erase id := by
          intro heq
          have hmem : id ∈ t.kids p := ht.mem_kids.mpr ⟨_, hct, hp⟩
          exact Finset.notMem_erase id _ (heq ▸ hmem)
        simp [hqp ▸ hqid, hqp, hpc, hkids]
      · have hnot : id ∉ u.kids q := by
          intro hmem
          obtain ⟨d, hd, hdq⟩ := hu.mem_kids.mp hmem
          obtain rfl := Option.some.inj (hc.symm.trans hd)
          exact hqp (Option.some.inj (hdq.symm.trans hp))
        rw [Finset.erase_eq_of_notMem hnot]
        simp [hqid, hqp]

end Steps

end Tallied

end Tree

end CategorizedIndex
