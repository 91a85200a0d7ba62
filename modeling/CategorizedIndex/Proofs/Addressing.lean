import CategorizedIndex.Proofs.Navigator.Address
import CategorizedIndex.Proofs.Navigator.Seek
import CategorizedIndex.Proofs.Reachable

/-! # Addressed moves

Whatever a navigator was told before, what it shows of its current entry is what the tree says
of this entry. A position or an id leads to an entry exactly if one stands there that the filter
passes with everything above it. A move is made in place: a search for an id tries one position
after another, and one for a selected entry takes steps. A move that fails leaves nothing of
this behind.
-/
namespace CategorizedIndex.Navigator

/-- Positions are tried one after the other, up to the first that can be reached. -/
inductive Tries : List Position → Navigator → Bool → Navigator → Prop
  | exhausted {n : Navigator} : Tries [] n false n
  | found {n m : Navigator} {p : Position} {rest : List Position}
      (hp : n.gotoPosition? p = some m) : Tries (p :: rest) n true m
  | onward {n last : Navigator} {p : Position} {rest : List Position} {answer : Bool}
      (hp : n.gotoPosition? p = none) (hrest : Tries rest n answer last) :
      Tries (p :: rest) n answer last

/-- A move that knows whether it is possible before it is made. -/
def Move.Direct : Move → Prop
  | entry _ | selected _ | skip _ | read _ | adopt _ => False
  | _ => True

/-- The answer of a move that is made in place, and the navigator that it leaves behind. -/
inductive Performs (n : Navigator) : Move → Bool → Navigator → Prop
  | possible {move : Move} {m : Navigator} (hdirect : move.Direct) (hm : n.move? move = some m) :
      Performs n move true m
  | impossible {move : Move} (hdirect : move.Direct) (hm : n.move? move = none) :
      Performs n move false n
  | entry {id : ScopedId} {answer : Bool} {m : Navigator} (h : Tries (n.addresses id) n answer m) :
      Performs n (.entry id) answer m
  | selected {course : Course} {answer : Bool} {m : Navigator}
      (h : Seeks course n.stack n answer m) : Performs n (.selected course) answer m

/-- What a navigator shows and where its addressed moves lead. -/
structure Addresses (n : Navigator) : Prop where
  current : ∀ y, n.currentId? = some y → ∃ snapshot, n.tree.snapshot? y = some snapshot ∧
    n.current? = some snapshot ∧ n.currentPosition? = some (n.tree.position y) ∧
    n.tree.entryAt? (n.tree.position y) = some y
  nowhere : n.currentId? = none → n.current? = none ∧ n.currentPosition? = none
  reaches : ∀ p, (∃ m, n.gotoPosition? p = some m) ↔
    ∃ y, n.tree.entryAt? p = some y ∧ n.Shown y
  lands : ∀ p m, n.gotoPosition? p = some m →
    m.currentId? = n.tree.entryAt? p ∧ m.tree = n.tree ∧ m.state = n.state
  /-- Looking at a position shows the entry that going there would lead to. -/
  looks : ∀ p snapshot, n.lookAt? p = some snapshot ↔
    ∃ y, n.tree.entryAt? p = some y ∧ n.Shown y ∧ n.tree.snapshot? y = some snapshot
  shows : ∀ y, n.Shown y → ∃ snapshot, n.tree.snapshot? y = some snapshot
  finds : ∀ s, (∃ m, n.gotoEntry? s = some m) ↔ ∃ y ∈ n.tree.placementsOf s, n.Shown y
  /-- No placement that is shown comes before the one that is found. -/
  first : ∀ s m, n.gotoEntry? s = some m → m.tree = n.tree ∧ m.state = n.state ∧
    ∃ before y behind, n.tree.preorder = before ++ y :: behind ∧ m.currentId? = some y ∧
      y ∈ n.tree.placementsOf s ∧ n.Shown y ∧
      ∀ z ∈ before, z ∈ n.tree.placementsOf s → ¬n.Shown z
  /-- A move made in place comes to an end, and it fails without leaving a trace. -/
  performs : ∀ move, move.Single → ∀ answer m, n.Performs move answer m ↔
    (answer = true ∧ n.move? move = some m) ∨ (answer = false ∧ n.move? move = none ∧ m = n)

variable {config : Config} {t : Tree} {T : Table} {n m : Navigator} {y : EntryId} {p : Position}
  {positions : List Position} {answer : Bool} {last : Navigator} {move : Move} {s : ScopedId}

theorem tries_iff : Tries positions n answer last ↔
    (answer = true ∧ positions.findSome? n.gotoPosition? = some last) ∨
      (answer = false ∧ positions.findSome? n.gotoPosition? = none ∧ last = n) := by
  induction positions with
  | nil =>
    constructor
    · rintro ⟨⟩
      exact Or.inr ⟨rfl, rfl, rfl⟩
    · rintro (⟨-, hnone⟩ | ⟨rfl, -, rfl⟩)
      · cases hnone
      · exact .exhausted
  | cons p rest ih =>
    cases hp : n.gotoPosition? p with
    | none =>
      rw [List.findSome?_cons_of_isNone (by rw [hp]; rfl), ← ih]
      constructor
      · intro h
        cases h with
        | found hm => exact nomatch hp.symm.trans hm
        | onward _ hrest => exact hrest
      · exact .onward hp
    | some m =>
      rw [List.findSome?_cons_of_isSome (by rw [hp]; rfl), hp]
      constructor
      · intro h
        cases h with
        | found hm => exact Or.inl ⟨rfl, hp.symm.trans hm⟩
        | onward hnone => exact nomatch hp.symm.trans hnone
      · rintro (⟨rfl, hm⟩ | ⟨-, hm, -⟩)
        · exact .found (hp.trans hm)
        · cases hm

theorem performs_iff_of_direct (hdirect : move.Direct) : n.Performs move answer m ↔
    (answer = true ∧ n.move? move = some m) ∨
      (answer = false ∧ n.move? move = none ∧ m = n) := by
  constructor
  · rintro (⟨-, hm⟩ | ⟨-, hm⟩ | - | -)
    · exact Or.inl ⟨rfl, hm⟩
    · exact Or.inr ⟨rfl, hm, rfl⟩
    · exact hdirect.elim
    · exact hdirect.elim
  · rintro (⟨rfl, hm⟩ | ⟨rfl, hm, rfl⟩)
    · exact .possible hdirect hm
    · exact .impossible hdirect hm

theorem Grounded.performs_iff (h : t.Settled config T) (hn : n.Grounded t)
    (hsingle : move.Single) : n.Performs move answer m ↔
      (answer = true ∧ n.move? move = some m) ∨
        (answer = false ∧ n.move? move = none ∧ m = n) := by
  cases move with
  | entry s =>
    have hmove : n.move? (.entry s) = (n.addresses s).findSome? n.gotoPosition? := rfl
    rw [hmove, ← tries_iff]
    constructor
    · rintro (⟨⟨⟩, -⟩ | ⟨⟨⟩, -⟩ | htries | -)
      exact htries
    · exact .entry
  | selected course =>
    obtain ⟨l, hgoes, -, hsize⟩ := hn.exists_goes h course
    have hseeks := (hgoes.seeks_gotoSelected?_iff hsize :
      Seeks course n.stack n answer m ↔ _)
    have hperforms : n.Performs (.selected course) answer m ↔ Seeks course n.stack n answer m := by
      constructor
      · rintro (⟨⟨⟩, -⟩ | ⟨⟨⟩, -⟩ | - | hseeks)
        exact hseeks
      · exact .selected
    rw [hperforms, hseeks, Navigator.move?]
    cases n.gotoSelected? course with
    | none => simp [sought, withStack]
    | some found => simp [sought, eq_comm (a := m)]
  | skip _ | read _ | adopt _ => exact hsingle.elim
  | _ => exact performs_iff_of_direct trivial

theorem Grounded.addresses (h : t.Settled config T) (hn : n.Grounded t) : n.Addresses := by
  obtain ⟨rfl, x, hs⟩ := id hn
  have hposition := currentPosition?_eq hs h.sound
  constructor
  case current =>
    intro y hy
    obtain ⟨hstands, hr⟩ := hn.standsOn h.sound hy
    obtain rfl := hs.eq_of_currentId? hy
    obtain ⟨e, he⟩ := hs.exists_entry h.sound
    obtain ⟨snapshot, hsnapshot⟩ := Tree.exists_snapshot h.sound.formed he hr
    refine ⟨snapshot, hsnapshot, ?_, ?_, h.entryAt?_eq_some_iff.mpr ⟨⟨e, he⟩, hr, rfl⟩⟩
    · rw [current?, hy, Option.bind_some, hsnapshot]
    · rw [hposition, if_neg (hstands.ne_nil hr)]
  case nowhere =>
    intro hnone
    have hnil : n.stack = [] := by
      by_contra hne
      have hcurrent : n.currentId? = if n.stack = [] then none else some x := hs.currentId?_eq
      rw [if_neg hne, hnone] at hcurrent
      cases hcurrent
    exact ⟨by rw [current?, hnone]; rfl, by rw [hposition, if_pos hnil]⟩
  case reaches => exact fun p => exists_gotoPosition?_iff h
  case lands =>
    intro p m hm
    obtain ⟨-, stack, -, -, -, -, rfl⟩ := (gotoPosition?_eq_some_iff h).mp hm
    exact ⟨currentId?_of_gotoPosition? h hm, rfl, rfl⟩
  case looks => exact fun p snapshot => lookAt?_eq_some_iff h
  case shows => exact fun y hy => hy.exists_snapshot h
  case finds => exact fun s => exists_gotoEntry?_iff h
  case first =>
    intro s m hm
    obtain ⟨y, hy, hshown, hgo, hleast⟩ := first_of_gotoEntry? h hm
    obtain ⟨-, stack, -, -, -, -, rfl⟩ := (gotoPosition?_eq_some_iff h).mp hgo
    have hcurrent := currentId?_of_gotoPosition? h hgo
    rw [hshown.entryAt? h] at hcurrent
    obtain ⟨hr, e, he, -⟩ := id hshown
    obtain ⟨before, behind, hsplit⟩ := List.append_of_mem (h.sound.mem_preorder.mpr ⟨⟨e, he⟩, hr⟩)
    refine ⟨rfl, rfl, before, y, behind, hsplit, hcurrent, hy, hshown, fun z hz hplaced hz' => ?_⟩
    have hordered := h.pairwise_preorder
    rw [hsplit, List.pairwise_append] at hordered
    exact hleast z hplaced hz' (hordered.2.2 z hz y List.mem_cons_self)
  case performs => exact fun move hsingle answer m => hn.performs_iff h hsingle

variable {name : String} {filter : Option RowFilter} {x : Index}

/-- In every index that is reached, whatever a navigator was told before. -/
theorem addresses_run (hbuild : Index.build name config filter = .ok x)
    (operations : List Operation) (state : NavigatorState) (moves : List Move) :
    let t := (x.run operations).tree
    let n := (start t state).run moves
    n.tree = t ∧ n.Addresses := by
  intro t n
  obtain ⟨T, hsettled, -⟩ := Index.exists_settled_run hbuild operations
  have hn : n.Grounded t := (grounded_start t state).run hsettled.sound moves
  exact ⟨hn.1, hn.addresses hsettled⟩

/-- A row is filed in a nested group, which is hidden, and in another one. It is found in the
other, though nothing is expanded, and its first position leads nowhere. -/
theorem addresses_hidden_group :
    let row : Addition := ⟨"unid",
      (∅ : ColumnValues).insert "group" (.list [.text "a\\b", .text "c"])⟩
    let operations : List Operation := [.change ((Change.empty "desk").add 1 row)]
    let state : NavigatorState :=
      ⟨.start .collapsed, .none, some fun e => e.scopedId != .category 1⟩
    let t := (Index.grouped.run operations).tree
    let n := (start t state).run [.last]
    Index.build "grouped" Index.grouped.config none = .ok Index.grouped ∧ n.Addresses ∧
      n.currentPosition? = some [2] ∧
      (t.placementsOf ⟨"desk", 1⟩).map t.position = [[1, 1, 1], [2, 1]] ∧
      n.Performs (.position [1, 1, 1]) false n ∧
      ∃ m, n.Performs (.entry ⟨"desk", 1⟩) true m ∧ m.currentPosition? = some [2, 1] := by
  intro row operations state t n
  obtain ⟨htree, haddresses⟩ : n.tree = t ∧ n.Addresses :=
    addresses_run Index.build_grouped operations state [.last]
  have hhidden : (n.gotoPosition? [1, 1, 1]).isNone = true := by decide +kernel
  have hpositions : (t.placementsOf ⟨"desk", 1⟩).map t.position = [[1, 1, 1], [2, 1]] := by
    decide +kernel
  have hsorted : n.addresses ⟨"desk", 1⟩ = [[1, 1, 1], [2, 1]] := by
    rw [addresses, htree, hpositions]
    exact List.mergeSort_of_pairwise (by decide)
  have hfound : (([[1, 1, 1], [2, 1]] : List Position).findSome? n.gotoPosition?).bind
      (fun m => m.currentPosition?) = some [2, 1] := by decide +kernel
  obtain ⟨m, hm, hposition⟩ := Option.bind_eq_some_iff.mp hfound
  rw [← hsorted] at hm
  refine ⟨Index.build_grouped, haddresses, by decide +kernel, hpositions, ?_, m, ?_, hposition⟩
  · exact (haddresses.performs (.position [1, 1, 1]) trivial false n).mpr
      (Or.inr ⟨rfl, Option.isNone_iff_eq_none.mp hhidden, rfl⟩)
  · exact (haddresses.performs (.entry ⟨"desk", 1⟩) trivial true m).mpr (Or.inl ⟨rfl, hm⟩)

end CategorizedIndex.Navigator
