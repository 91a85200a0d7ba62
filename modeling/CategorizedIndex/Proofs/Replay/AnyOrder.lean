import CategorizedIndex.Proofs.Replay.Worklist

/-! # Candidates in any order

The promise of the worklist does not depend on where a candidate stands in the list, so the
candidates may come in any order, and any of them may be taken next. Every way of taking them
comes to an end, and always with the same categories.
-/
namespace CategorizedIndex.Replay

variable {config : Config} {t : Tree} {T U : Table} {batch : Batch} {r : Replay}
  {work more : List EntryId} {growth : Std.ExtTreeMap EntryId Int}
  {pruned : Std.ExtTreeSet EntryId} {s s' : Worklist} {n : Nat}

/-- Some candidate is taken, wherever it stands. -/
inductive Takes (t : Tree) : Worklist → Worklist → Prop
  | take (before : List EntryId) (id : EntryId) (after : List EntryId)
      (growth : Std.ExtTreeMap EntryId Int) (pruned : Std.ExtTreeSet EntryId) :
      Takes t ⟨before ++ id :: after, growth, pruned⟩
        (Worklist.take t id ⟨before ++ after, growth, pruned⟩)

/-- So many candidates are taken one after the other. -/
inductive TakesMany (t : Tree) : Nat → Worklist → Worklist → Prop
  | none (s : Worklist) : TakesMany t 0 s s
  | next {n : Nat} {s u v : Worklist} : Takes t s u → TakesMany t n u v → TakesMany t (n + 1) s v

theorem Worklist.exists_takes (t : Tree) (hwork : s.work ≠ []) : ∃ s', Takes t s s' := by
  obtain ⟨work, growth, pruned⟩ := s
  cases work with
  | nil => exact absurd rfl hwork
  | cons id rest => exact ⟨_, .take [] id rest growth pruned⟩

theorem Pruning.congr (hp : Pruning t U r work growth pruned) (hwork : ∀ x, x ∈ work → x ∈ more) :
    Pruning t U r more growth pruned where
  taken := hp.taken
  fruitless := hp.fruitless
  waiting x c hx hcat hroot hpr hle := hwork x (hp.waiting x c hx hcat hroot hpr hle)

theorem Takes.keeps (htakes : Takes t s s') (h : t.Settled config T) (hb : batch.Fits config)
    (htarget : Target batch T U) (hr : Ran config t U batch r) (hs : s.Keeps t U r) :
    s'.Keeps t U r ∧ s'.size t < s.size t := by
  obtain ⟨before, id, after, growth, pruned⟩ := htakes
  have hperm : (before ++ id :: after).Perm (id :: (before ++ after)) := List.perm_middle
  have hfront : Pruning t U r (id :: (before ++ after)) growth pruned :=
    hs.congr fun x hx => hperm.mem_iff.mp hx
  obtain ⟨hkeeps, hless⟩ := hfront.take h hb htarget hr
  refine ⟨hkeeps, hless.trans_eq ?_⟩
  rw [Worklist.size, Worklist.size, hperm.length_eq]

theorem TakesMany.keeps (htakes : TakesMany t n s s') (h : t.Settled config T)
    (hb : batch.Fits config) (htarget : Target batch T U) (hr : Ran config t U batch r)
    (hs : s.Keeps t U r) : s'.Keeps t U r ∧ n + s'.size t ≤ s.size t := by
  induction htakes with
  | none => exact ⟨hs, (Nat.zero_add _).le⟩
  | next hone _ ih =>
    obtain ⟨hu, hless⟩ := hone.keeps h hb htarget hr hs
    obtain ⟨hv, hmany⟩ := ih hu
    exact ⟨hv, by omega⟩

theorem TakesMany.ends (htakes : TakesMany t n ⟨work, r.growth, ∅⟩ s)
    (h : t.Settled config T) (hb : batch.Fits config) (htarget : Target batch T U)
    (hr : Ran config t U batch r) (hwork : ∀ x, x ∈ r.candidates → x ∈ work) :
    n ≤ work.length + t.arena.size ∧
      (s.work = [] → ∀ x, x ∈ s.pruned ↔ Fruitless t U x) := by
  obtain ⟨hkeeps, hmany⟩ := htakes.keeps h hb htarget hr ((pruning_start h).congr hwork)
  refine ⟨?_, fun hnil x => ?_⟩
  · exact (Nat.le_of_add_right_le hmany).trans
      (Nat.add_le_add_left (card_unentered_le t ∅) _)
  · have hend : Pruning t U r [] s.growth s.pruned := hnil ▸ hkeeps
    exact ⟨hend.fruitless x, hend.complete h hb htarget hr⟩

end CategorizedIndex.Replay
