import CategorizedIndex.Tree.Kinds
import Mathlib.Data.List.Pairwise

/-! # Notes of added values

A replay notes, for each set of siblings, the first value of each kind that is added to
it. Every set has one entry, the kinds within an entry differ, and the kind of every
value that was added is there.
-/
namespace CategorizedIndex.Replay

variable {P Q : Parent} {place place' : Place} {value v : Scalar} {l : List AddedValues}

/-- A value of that kind is noted for a set of siblings. -/
def Noted (l : List AddedValues) (P : Parent) (place : Place) (v : Scalar) : Prop :=
  ∃ a ∈ l, a.parent = P ∧ a.place = place ∧ ∃ w ∈ a.values, w.kind = v.kind

structure Tidy (l : List AddedValues) : Prop where
  kinds : ∀ a ∈ l, a.values.Pairwise (·.kind ≠ ·.kind)
  sets : l.Pairwise fun a b => ¬ (a.parent = b.parent ∧ a.place = b.place)

theorem tidy_nil : Tidy [] := ⟨fun _ h => absurd h List.not_mem_nil, .nil⟩

theorem Tidy.eq_of_set (h : Tidy l) {a b : AddedValues} (ha : a ∈ l) (hb : b ∈ l)
    (hP : a.parent = b.parent) (hplace : a.place = b.place) : a = b := by
  refine Classical.byContradiction fun hne => ?_
  have hsymm : Std.Symm fun a b : AddedValues => ¬ (a.parent = b.parent ∧ a.place = b.place) :=
    ⟨fun a b hab hba => hab ⟨hba.1.symm, hba.2.symm⟩⟩
  exact h.sets.forall ha hb hne ⟨hP, hplace⟩

theorem noteValue_set (value : Scalar) (a : AddedValues) :
    (noteValue value a).parent = a.parent ∧ (noteValue value a).place = a.place := by
  unfold noteValue
  split <;> exact ⟨rfl, rfl⟩

theorem mem_noteValue {a : AddedValues} (h : v ∈ (noteValue value a).values) :
    v ∈ a.values ∨ v = value := by
  unfold noteValue at h
  split at h
  · exact Or.inl h
  · exact (List.mem_append.mp h).imp_right List.mem_singleton.mp

theorem mem_noteValue_of_mem {a : AddedValues} (h : v ∈ a.values) :
    v ∈ (noteValue value a).values := by
  unfold noteValue
  split
  · exact h
  · exact List.mem_append_left _ h

theorem exists_kind_noteValue (value : Scalar) (a : AddedValues) :
    ∃ w ∈ (noteValue value a).values, w.kind = value.kind := by
  unfold noteValue
  split
  · next h =>
    obtain ⟨w, hw, hkind⟩ := List.any_eq_true.mp h
    exact ⟨w, hw, beq_iff_eq.mp hkind⟩
  · exact ⟨value, List.mem_append_right _ List.mem_cons_self, rfl⟩

theorem kinds_noteValue {a : AddedValues} (h : a.values.Pairwise (·.kind ≠ ·.kind)) :
    (noteValue value a).values.Pairwise (·.kind ≠ ·.kind) := by
  unfold noteValue
  split
  · exact h
  · next hnot =>
    refine List.pairwise_append.mpr ⟨h, List.pairwise_singleton _ _, fun w hw x hx => ?_⟩
    rw [List.mem_singleton.mp hx]
    intro hkind
    exact hnot (List.any_eq_true.mpr ⟨w, hw, beq_iff_eq.mpr hkind⟩)

/-- Every noted value was there before or is the one that is noted now. -/
theorem mem_noteIn {a : AddedValues} (ha : a ∈ noteIn P place value l) (hv : v ∈ a.values) :
    (∃ b ∈ l, b.parent = a.parent ∧ b.place = a.place ∧ v ∈ b.values) ∨
      (a.parent = P ∧ a.place = place ∧ v = value) := by
  induction l with
  | nil =>
    rw [noteIn, List.mem_singleton] at ha
    subst ha
    exact Or.inr ⟨rfl, rfl, List.mem_singleton.mp hv⟩
  | cons b rest ih =>
    unfold noteIn at ha
    split at ha
    · next hset =>
      simp only [Bool.and_eq_true, decide_eq_true_eq] at hset
      rcases List.mem_cons.mp ha with rfl | ha
      · obtain ⟨hP, hplace⟩ := noteValue_set value b
        rcases mem_noteValue hv with hv | rfl
        · exact Or.inl ⟨b, List.mem_cons_self, hP.symm, hplace.symm, hv⟩
        · exact Or.inr ⟨hP.trans hset.1, hplace.trans hset.2, rfl⟩
      · exact Or.inl ⟨a, List.mem_cons_of_mem _ ha, rfl, rfl, hv⟩
    · rcases List.mem_cons.mp ha with rfl | ha
      · exact Or.inl ⟨a, List.mem_cons_self, rfl, rfl, hv⟩
      · rcases ih ha with ⟨c, hc, hcv⟩ | h
        · exact Or.inl ⟨c, List.mem_cons_of_mem _ hc, hcv⟩
        · exact Or.inr h

theorem noted_noteIn_self : Noted (noteIn P place value l) P place value := by
  induction l with
  | nil => exact ⟨_, List.mem_cons_self, rfl, rfl, value, List.mem_cons_self, rfl⟩
  | cons b rest ih =>
    unfold noteIn
    split
    · next hset =>
      simp only [Bool.and_eq_true, decide_eq_true_eq] at hset
      obtain ⟨hP, hplace⟩ := noteValue_set value b
      exact ⟨_, List.mem_cons_self, hP.trans hset.1, hplace.trans hset.2,
        exists_kind_noteValue value b⟩
    · obtain ⟨a, ha, h⟩ := ih
      exact ⟨a, List.mem_cons_of_mem _ ha, h⟩

/-- What was noted stays noted. -/
theorem Noted.noteIn (h : Noted l Q place' v) :
    Noted (Replay.noteIn P place value l) Q place' v := by
  obtain ⟨a, ha, hQ, hplace, w, hw, hkind⟩ := h
  induction l with
  | nil => exact absurd ha List.not_mem_nil
  | cons b rest ih =>
    unfold Replay.noteIn
    split
    · rcases List.mem_cons.mp ha with rfl | ha
      · obtain ⟨hP', hplace'⟩ := noteValue_set value a
        exact ⟨_, List.mem_cons_self, hP'.trans hQ, hplace'.trans hplace, w,
          mem_noteValue_of_mem hw, hkind⟩
      · exact ⟨a, List.mem_cons_of_mem _ ha, hQ, hplace, w, hw, hkind⟩
    · rcases List.mem_cons.mp ha with rfl | ha
      · exact ⟨a, List.mem_cons_self, hQ, hplace, w, hw, hkind⟩
      · obtain ⟨c, hc, h⟩ := ih ha
        exact ⟨c, List.mem_cons_of_mem _ hc, h⟩

theorem set_of_mem_noteIn {a : AddedValues} (ha : a ∈ noteIn P place value l) :
    (a.parent = P ∧ a.place = place) ∨ ∃ b ∈ l, b.parent = a.parent ∧ b.place = a.place := by
  induction l with
  | nil =>
    rw [noteIn, List.mem_singleton] at ha
    exact Or.inl ⟨ha ▸ rfl, ha ▸ rfl⟩
  | cons b rest ih =>
    unfold noteIn at ha
    split at ha
    · rcases List.mem_cons.mp ha with rfl | ha
      · obtain ⟨hP, hplace⟩ := noteValue_set value b
        exact Or.inr ⟨b, List.mem_cons_self, hP.symm, hplace.symm⟩
      · exact Or.inr ⟨a, List.mem_cons_of_mem _ ha, rfl, rfl⟩
    · rcases List.mem_cons.mp ha with rfl | ha
      · exact Or.inr ⟨a, List.mem_cons_self, rfl, rfl⟩
      · rcases ih ha with h | ⟨c, hc, h⟩
        · exact Or.inl h
        · exact Or.inr ⟨c, List.mem_cons_of_mem _ hc, h⟩

theorem Tidy.noteIn (h : Tidy l) : Tidy (Replay.noteIn P place value l) := by
  induction l with
  | nil =>
    refine ⟨fun a ha => ?_, List.pairwise_singleton _ _⟩
    rw [Replay.noteIn, List.mem_singleton] at ha
    subst ha
    exact List.pairwise_singleton _ _
  | cons b rest ih =>
    obtain ⟨hb, hrest⟩ := List.pairwise_cons.mp h.sets
    have htidy := ih ⟨fun a ha => h.kinds a (List.mem_cons_of_mem _ ha), hrest⟩
    unfold Replay.noteIn
    split
    · obtain ⟨hP, hplace⟩ := noteValue_set value b
      refine ⟨fun a ha => ?_, List.pairwise_cons.mpr ⟨fun c hc => ?_, hrest⟩⟩
      · rcases List.mem_cons.mp ha with rfl | ha
        · exact kinds_noteValue (h.kinds b List.mem_cons_self)
        · exact h.kinds a (List.mem_cons_of_mem _ ha)
      · rw [hP, hplace]
        exact hb c hc
    · next hset =>
      simp only [Bool.and_eq_true, decide_eq_true_eq] at hset
      refine ⟨fun a ha => ?_, List.pairwise_cons.mpr ⟨fun c hc => ?_, htidy.sets⟩⟩
      · rcases List.mem_cons.mp ha with rfl | ha
        · exact h.kinds a List.mem_cons_self
        · exact htidy.kinds a ha
      · rcases set_of_mem_noteIn hc with ⟨hP, hplace⟩ | ⟨d, hd, hP, hplace⟩
        · rw [hP, hplace]
          exact hset
        · rw [← hP, ← hplace]
          exact hb d hd

end CategorizedIndex.Replay
