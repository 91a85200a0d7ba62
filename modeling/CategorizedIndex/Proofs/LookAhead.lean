import CategorizedIndex.Proofs.Navigator.Cursor

/-! # What a cursor keeps

A cursor keeps the siblings that lie ahead in the course of its last move. Nobody can tell: each
move leads to the nearest accepted sibling beyond the current one, whatever was asked before and
whichever filters were in force then, and a cursor that looks everything up again before each
move gives the same answers. All that is used of the siblings is that they are in the order of
their keys, as the children of an entry always are (`Tree.Sound.sorted`).
-/
namespace CategorizedIndex

/-- A sibling strictly beyond another in a course. -/
def Course.Past (course : Course) (here child : SortKey × EntryId) : Prop :=
  match course with
  | .forward => here.1.cmp child.1 = .lt
  | .backward => child.1.cmp here.1 = .lt

/-- From outside, every sibling is beyond the edge. -/
def Course.Beyond (course : Course) (current : Option (SortKey × EntryId))
    (child : SortKey × EntryId) : Prop :=
  ∀ here ∈ current, course.Past here child

theorem Course.not_past_of_past {course : Course} {a b : SortKey × EntryId}
    (h : course.Past a b) : ¬ course.Past b a := by
  intro hback
  cases course <;>
  · simp only [Past] at h hback
    rw [SortKey.cmp_swap, h] at hback
    cases hback

namespace LevelCursor

/-- Outside of the siblings or resting on a known one, and never moved. -/
inductive Unmoved : LevelCursor → Prop
  | outside (parent : EntryId) (siblings : Siblings) : Unmoved (outside parent siblings)
  | resting (parent : EntryId) {siblings : Siblings} {child : SortKey × EntryId}
      (h : child ∈ siblings.toList) : Unmoved (resting parent siblings child)

/-- What an attempt has to lead to, as the siblings and the current one decide it: the nearest
accepted sibling beyond the current one, or, where there is none, no change. -/
inductive LeadsTo (s : Siblings) (a : Attempt) (current : Option (SortKey × EntryId)) :
    Bool → Option (SortKey × EntryId) → Prop
  | moves {child : SortKey × EntryId} (hmem : child ∈ s.toList)
      (hbeyond : a.course.Beyond current child) (haccept : a.accept child.2 = true)
      (hnearest : ∀ other ∈ s.toList, a.course.Beyond current other → a.accept other.2 = true →
        other = child ∨ a.course.Past child other) : LeadsTo s a current true (some child)
  | stays (hnone : ∀ child ∈ s.toList, a.course.Beyond current child →
      a.accept child.2 = false) : LeadsTo s a current false current

/-- Attempts one after another, each from where the one before has led. -/
inductive LeadsThrough (s : Siblings) :
    List Attempt → Option (SortKey × EntryId) → List (Bool × Option (SortKey × EntryId)) → Prop
  | nil {current} : LeadsThrough s [] current []
  | cons {a later current answer next answers} (hfirst : LeadsTo s a current answer next)
      (hlater : LeadsThrough s later next answers) :
      LeadsThrough s (a :: later) current ((answer, next) :: answers)

variable {c : LevelCursor} {s : Siblings} {a : Attempt} {course : Course}
  {current next next' : Option (SortKey × EntryId)} {answer answer' : Bool}
  {child : SortKey × EntryId}

theorem LeadsTo.unique (h : LeadsTo s a current answer next)
    (h' : LeadsTo s a current answer' next') : answer = answer' ∧ next = next' := by
  cases h with
  | moves hmem hbeyond haccept hnearest =>
    cases h' with
    | moves hmem' hbeyond' haccept' hnearest' =>
      refine ⟨rfl, ?_⟩
      rcases hnearest _ hmem' hbeyond' haccept' with heq | hpast
      · rw [heq]
      · rcases hnearest' _ hmem hbeyond haccept with heq | hpast'
        · rw [heq]
        · exact absurd hpast' (Course.not_past_of_past hpast)
    | stays hnone =>
      rw [hnone _ hmem hbeyond] at haccept
      cases haccept
  | stays hnone =>
    cases h' with
    | moves hmem hbeyond haccept _ =>
      rw [hnone _ hmem hbeyond] at haccept
      cases haccept
    | stays _ => exact ⟨rfl, rfl⟩

theorem mem_beyond : child ∈ c.beyond course ↔
    child ∈ c.siblings.toList ∧ course.Beyond c.current child := by
  cases hcurrent : c.current <;> cases course <;>
    simp [beyond, hcurrent, Course.Beyond, Course.Past, Siblings.after, Siblings.before]

theorem exists_beyond_eq_line (c : LevelCursor) (course : Course) :
    ∃ l, l.Sublist c.siblings.toList ∧ c.beyond course = course.line l := by
  unfold beyond
  cases c.current with
  | none => exact ⟨_, List.Sublist.refl _, by cases course <;> rfl⟩
  | some here =>
    cases course with
    | forward => exact ⟨_, List.filter_sublist, rfl⟩
    | backward => exact ⟨_, List.filter_sublist, rfl⟩

theorem pairwise_beyond (hs : c.siblings.Sorted) (course : Course) :
    (c.beyond course).Pairwise course.Past := by
  obtain ⟨l, hl, hbeyond⟩ := exists_beyond_eq_line c course
  rw [hbeyond]
  cases course with
  | forward => exact hs.sublist hl
  | backward => exact List.pairwise_reverse.mpr (hs.sublist hl)

structure Ready (c : LevelCursor) : Prop where
  known : ∀ child ∈ c.current, child ∈ c.siblings.toList
  remaining : ∀ course, c.remaining course = c.beyond course

theorem Rests.ready (h : c.Rests child) : c.Ready where
  known other hother := by
    rw [h.current] at hother
    cases hother
    exact h.mem
  remaining := h.remaining

theorem Unmoved.ready (h : c.Unmoved) : c.Ready := by
  cases h with
  | outside parent siblings => exact ⟨fun _ h => (nomatch h), fun _ => rfl⟩
  | resting parent h => exact (rests_resting parent h).ready

theorem Ready.exists_passed (h : c.Ready) (hs : c.siblings.Sorted) (course : Course) :
    ∃ passed, course.line c.siblings.toList = passed ++ c.remaining course := by
  cases hcurrent : c.current with
  | none =>
    refine ⟨[], ?_⟩
    rw [h.remaining, List.nil_append]
    cases course <;> simp [beyond, hcurrent, Course.line]
  | some child => exact Rests.line_eq ⟨hcurrent, h.known child hcurrent, h.remaining⟩ hs course

@[simp]
theorem siblings_attempt (c : LevelCursor) (a : Attempt) :
    (c.attempt a).2.siblings = c.siblings := by
  unfold attempt advance
  split <;> rfl

theorem Ready.attempt_anew (h : c.Ready) (a : Attempt) : c.anew.attempt a = c.attempt a := by
  have hremaining : c.anew.remaining a.course = c.remaining a.course :=
    (h.remaining a.course).symm
  unfold attempt advance
  rw [hremaining]
  rfl

theorem Nearest.leadsTo {rest : List (SortKey × EntryId)} (hs : c.siblings.Sorted)
    (h : Nearest a.accept (c.beyond a.course) child rest) :
    LeadsTo c.siblings a c.current true (some child) := by
  obtain ⟨hmem, hbeyond⟩ := mem_beyond.mp h.mem
  obtain ⟨skipped, hsplit, hskipped, haccept⟩ := h
  have horder := pairwise_beyond hs a.course
  rw [hsplit, List.pairwise_append, List.pairwise_cons] at horder
  obtain ⟨-, ⟨hrest, -⟩, -⟩ := horder
  refine .moves hmem hbeyond haccept fun other hother hbeyond' haccept' => ?_
  have hsplit' : other ∈ skipped ++ child :: rest := hsplit ▸ mem_beyond.mpr ⟨hother, hbeyond'⟩
  rcases List.mem_append.mp hsplit' with hin | hin
  · rw [hskipped other hin] at haccept'
    cases haccept'
  · rcases List.mem_cons.mp hin with heq | hin
    · exact .inl heq
    · exact .inr (hrest other hin)

theorem Ready.attempt (h : c.Ready) (hs : c.siblings.Sorted) (a : Attempt) :
    (c.attempt a).2.Ready ∧
      LeadsTo c.siblings a c.current (c.attempt a).1 (c.attempt a).2.current := by
  obtain ⟨passed, hline⟩ := h.exists_passed hs a.course
  rcases advance_spec a.accept hs hline with
    ⟨child, rest, moved, hmoved, hnearest, -, hrests⟩ | ⟨hfails, hnone⟩
  · rw [LevelCursor.attempt, hmoved, hrests.current]
    rw [h.remaining] at hnearest
    exact ⟨hrests.ready, hnearest.leadsTo hs⟩
  · rw [LevelCursor.attempt, hfails]
    refine ⟨⟨h.known, fun _ => rfl⟩, .stays fun child hmem hbeyond => hnone child ?_⟩
    rw [h.remaining]
    exact mem_beyond.mpr ⟨hmem, hbeyond⟩

theorem Ready.tried (h : c.Ready) (hs : c.siblings.Sorted) (attempts : List Attempt) :
    (c.tried attempts).Ready := by
  induction attempts generalizing c with
  | nil => exact h
  | cons a later ih => exact ih (h.attempt hs a).1 (by simpa using hs)

theorem Ready.answers_eq_answersAnew (h : c.Ready) (hs : c.siblings.Sorted)
    (attempts : List Attempt) : c.answers attempts = c.answersAnew attempts := by
  induction attempts generalizing c with
  | nil => rfl
  | cons a later ih =>
    rw [answers, answersAnew, h.attempt_anew]
    rw [ih (h.attempt hs a).1 (by simpa using hs)]

theorem Ready.leadsThrough_iff (h : c.Ready) (hs : c.siblings.Sorted) (attempts : List Attempt)
    (told : List (Bool × Option (SortKey × EntryId))) :
    LeadsThrough c.siblings attempts c.current told ↔ told = c.answers attempts := by
  induction attempts generalizing c told with
  | nil =>
    constructor
    · rintro ⟨⟩
      rfl
    · rintro rfl
      exact .nil
  | cons a later ih =>
    obtain ⟨hready, hleads⟩ := h.attempt hs a
    have hlater := ih hready (by simpa using hs)
    rw [siblings_attempt] at hlater
    constructor
    · rintro (_ | ⟨hfirst, hrest⟩)
      obtain ⟨rfl, rfl⟩ := hfirst.unique hleads
      rw [answers, (hlater _).mp hrest]
    · rintro rfl
      exact .cons hleads ((hlater _).mpr rfl)

/-- The siblings, the place where a cursor started and what was asked of it since decide every
answer, as they would without anything kept: what is left of the last look is what a new one
would find. -/
theorem ahead_unobserved (hs : c.siblings.Sorted) (hc : c.Unmoved) (attempts : List Attempt) :
    (∀ told, LeadsThrough c.siblings attempts c.current told ↔ told = c.answers attempts) ∧
      c.answers attempts = c.answersAnew attempts ∧
      ∀ course, (c.tried attempts).remaining course = (c.tried attempts).beyond course :=
  ⟨hc.ready.leadsThrough_iff hs attempts, hc.ready.answers_eq_answersAnew hs attempts,
    (hc.ready.tried hs attempts).remaining⟩

open SortKey in
/-- A filter keeps the first row out, another one the second, and a third accepts nothing that is
left; turning round and on again, the cursor comes to the rows that were skipped. -/
theorem ahead_unobserved_skipped_rows :
    let row (name : String) (id : UInt64) : SortKey × EntryId :=
      (document [.ofScalar (some (.text name)) false] ⟨"desk", id⟩, id.toNat)
    let rows := [row "a" 1, row "b" 2, row "c" 3, row "d" 4]
    let attempts : List Attempt :=
      [⟨.forward, (· != 1)⟩, ⟨.forward, fun _ => true⟩, ⟨.forward, (· == 1)⟩,
        ⟨.backward, (· != 2)⟩, ⟨.backward, fun _ => true⟩, ⟨.forward, fun _ => true⟩]
    let told := [(true, some (row "b" 2)), (true, some (row "c" 3)), (false, some (row "c" 3)),
      (true, some (row "a" 1)), (false, some (row "a" 1)), (true, some (row "b" 2))]
    let c := outside 0 ⟨rows⟩
    c.siblings.Sorted ∧ c.Unmoved ∧ LeadsThrough ⟨rows⟩ attempts none told ∧
      c.answersAnew attempts = told := by
  intro row rows attempts told c
  have hs : c.siblings.Sorted := by
    unfold Siblings.Sorted
    decide +kernel
  have hc : c.Unmoved := .outside 0 _
  have htold : c.answers attempts = told := by decide +kernel
  obtain ⟨hleads, hanew, -⟩ := ahead_unobserved hs hc attempts
  exact ⟨hs, hc, (hleads told).mpr htold.symm, hanew.symm.trans htold⟩

end LevelCursor

end CategorizedIndex
