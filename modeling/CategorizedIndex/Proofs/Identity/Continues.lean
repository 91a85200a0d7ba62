import CategorizedIndex.Proofs.Reachable

/-! # Handles and numbers are given once

Whatever is done to an index, its next handle and its last category number never go back.
An entry of the later tree is one of the earlier tree, unchanged, or came since under a
handle that was not given before, and a category then also under a new number.
-/
namespace CategorizedIndex

/-- Entries of the second tree are those of the first or new ones. -/
structure Tree.Continues (t u : Tree) : Prop where
  nextEntry : t.nextEntry ≤ u.nextEntry
  lastCategory : t.lastCategory ≤ u.lastCategory
  entry : ∀ {x c}, u.skeleton x = some c → t.skeleton x = some c ∨
    t.nextEntry ≤ x ∧ (c.isCategory = true →
      ∃ k, t.lastCategory < k ∧ k ≤ u.lastCategory ∧ c.scopedId = .category (UInt64.ofNat k))

namespace Tree

variable {t u v : Tree} {id p : EntryId} {e : Entry} {scopedId : ScopedId} {unid : String}
  {key : SortKey} {values : ColumnValues}

namespace Continues

theorem refl (t : Tree) : t.Continues t := ⟨le_rfl, le_rfl, Or.inl⟩

theorem trans (h : t.Continues u) (h' : u.Continues v) : t.Continues v where
  nextEntry := h.nextEntry.trans h'.nextEntry
  lastCategory := h.lastCategory.trans h'.lastCategory
  entry {x c} hx := by
    rcases h'.entry hx with hx | ⟨hfresh, hnumber⟩
    · refine (h.entry hx).imp_right fun ⟨hfresh, hnumber⟩ => ⟨hfresh, fun hcat => ?_⟩
      obtain ⟨k, hlt, hle, hid⟩ := hnumber hcat
      exact ⟨k, hlt, hle.trans h'.lastCategory, hid⟩
    · refine Or.inr ⟨h.nextEntry.trans hfresh, fun hcat => ?_⟩
      obtain ⟨k, hlt, hle, hid⟩ := hnumber hcat
      exact ⟨k, h.lastCategory.trans_lt hlt, hle, hid⟩

/-- Taking entries away continues a tree. -/
theorem of_keptIn (hkept : u.skeleton.KeptIn t.skeleton) (hnext : u.nextEntry = t.nextEntry)
    (hlast : u.lastCategory = t.lastCategory) : t.Continues u :=
  ⟨hnext.ge, hlast.ge, fun hx => Or.inl (hkept _ _ hx)⟩

/-- A loop of steps that each continue the tree continues it. -/
theorem foldl {α β : Type} (tree : β → Tree) {f : β → α → β} {l : List α}
    (hf : ∀ b, ∀ a ∈ l, (tree b).Continues (tree (f b a))) (b : β) :
    (tree b).Continues (tree (l.foldl f b)) := by
  induction l generalizing b with
  | nil => exact .refl _
  | cons a rest ih =>
    exact (hf b a List.mem_cons_self).trans
      (ih (fun b a ha => hf b a (List.mem_cons_of_mem _ ha)) (f b a))

end Continues

theorem continues_attach_document (hs : scopedId.isCategory = false) :
    t.Continues (t.attach p scopedId unid key values) where
  nextEntry := Nat.le_succ _
  lastCategory := lastCategory_attach.ge
  entry {x c} hx := by
    by_cases hxn : x = t.nextEntry
    · rw [skeleton_attach, hxn, Skeleton.grow_self] at hx
      obtain rfl := Option.some.inj hx
      exact Or.inr ⟨hxn.ge, fun hcat => Bool.noConfusion (hs.symm.trans hcat)⟩
    · rw [skeleton_attach, Skeleton.grow_of_ne hxn] at hx
      exact Or.inl hx

theorem continues_createCategory (t : Tree) (config : Config) (p : EntryId) (step : CategoryStep) :
    t.Continues (t.createCategory config p step) where
  nextEntry := Nat.le_succ _
  lastCategory := by
    rw [createCategory, lastCategory_attach]
    exact Nat.le_succ _
  entry {x c} hx := by
    rw [createCategory, skeleton_attach] at hx
    rw [createCategory, lastCategory_attach]
    by_cases hxn : x = t.nextEntry
    · subst hxn
      obtain rfl := Option.some.inj (Skeleton.grow_self.symm.trans hx)
      exact Or.inr ⟨le_rfl, fun _ => ⟨t.lastCategory + 1, Nat.lt_succ_self _, le_rfl, rfl⟩⟩
    · exact Or.inl ((Skeleton.grow_of_ne hxn).symm.trans hx)

theorem continues_plucked (t : Tree) (id : EntryId) (e : Entry) (p : EntryId) :
    t.Continues (t.plucked id e p) := by
  refine .of_keptIn (fun x c hx => ?_) nextEntry_plucked lastCategory_plucked
  rw [skeleton_plucked] at hx
  exact (Skeleton.without_eq_some_iff.mp hx).2

theorem continues_detach? (hdetach : t.detach? id = some (e, u)) : t.Continues u := by
  unfold detach? at hdetach
  split at hdetach
  · cases hdetach
  · split at hdetach
    · cases hdetach
    · next d _ =>
      obtain ⟨rfl, rfl⟩ := Prod.mk.inj (Option.some.inj hdetach)
      cases hp : d.parent with
      | some p => exact continues_plucked t id d p
      | none =>
        obtain ⟨-, hnext, hlast, -⟩ := arena_unindex
          { t with arena := t.arena.erase id, unnumbered := t.unnumbered.erase id } id d.scopedId
        refine .of_keptIn (fun x c hx => ?_) hnext hlast
        rw [skeleton_unindex, skeleton_erase] at hx
        exact (Skeleton.without_eq_some_iff.mp hx).2

theorem continues_pruneFrom (t : Tree) (fuel : Nat) (id : EntryId) :
    t.Continues (t.pruneFrom fuel id).2 := by
  induction fuel generalizing t id with
  | zero => exact .refl t
  | succ fuel ih =>
    unfold pruneFrom
    split
    · exact .refl t
    · split
      · exact .refl t
      · split
        · exact .refl t
        · next hdetach =>
          split
          · exact continues_detach? hdetach
          · exact (continues_detach? hdetach).trans (ih _ _)

theorem continues_prune (t : Tree) (candidates : List EntryId) :
    t.Continues (t.prune candidates).2 := by
  rw [snd_prune]
  exact .foldl id (fun t id _ => continues_pruneFrom t t.arena.size id) t

theorem continues_flush (t : Tree) : t.Continues t.flush.2 := by
  have hflush := reranked_flush t
  refine .of_keptIn (fun x c hx => ?_) hflush.nextEntry hflush.lastCategory
  rwa [hflush.skeleton] at hx

end Tree

namespace Work

variable {config : Config} {batch : Batch}

theorem continues_detach (w : Work) (id : EntryId) : w.tree.Continues (w.detach id).tree := by
  unfold detach
  split
  · exact .refl _
  · next hdetach => exact Tree.continues_detach? hdetach

theorem continues_withdraw (w : Work) (s : ScopedId) : w.tree.Continues (w.withdraw s).tree :=
  .foldl Work.tree (fun w id _ => continues_detach w id) w

theorem continues_findOrCreate (config : Config) (p : EntryId) (step : CategoryStep) (w : Work) :
    w.tree.Continues (w.findOrCreate config p step).2.tree := by
  unfold findOrCreate
  split
  · exact .refl _
  · exact Tree.continues_createCategory _ _ _ _

theorem continues_resolve (config : Config) (p : EntryId) (path : CategoryPath) (w : Work) :
    w.tree.Continues (resolve config p path w).2.tree := by
  induction path generalizing p w with
  | nil => exact .refl _
  | cons step rest ih => exact (continues_findOrCreate config p step w).trans (ih _ _)

theorem continues_resolveAll (config : Config) (known : List EntryId) (paths : List CategoryPath)
    (w : Work) : w.tree.Continues (resolveAll config known paths w).2.tree := by
  induction paths generalizing known w with
  | nil => exact .refl _
  | cons path rest ih => exact (continues_resolve config Tree.root path w).trans (ih _ _)

/-- After a row's former placements are gone, entries only come. -/
theorem continues_replaced (w : Work) {row : PreparedRow} (hs : row.scopedId.isCategory = false) :
    (w.withdraw row.scopedId).tree.Continues (w.place config row).tree := by
  unfold place
  simp only
  split
  · exact .refl _
  · next placing _ =>
    refine (continues_resolveAll config [] placing.paths _).trans ?_
    exact .foldl Work.tree (fun _ _ _ => Tree.continues_attach_document hs) _

theorem continues_place (w : Work) {row : PreparedRow} (hs : row.scopedId.isCategory = false) :
    w.tree.Continues (w.place config row).tree :=
  (continues_withdraw w row.scopedId).trans (continues_replaced w hs)

theorem continues_finish (w : Work) : w.tree.Continues w.finish.1 :=
  (Tree.continues_prune w.tree w.emptied).trans (Tree.continues_flush _)

end Work

theorem Tree.continues_commit {config : Config} {batch : Batch} (hb : batch.Fits config)
    (t : Tree) : t.Continues (t.commit config batch).1 := by
  let withdrawn := batch.removals.foldl Work.withdraw (.start t)
  let placed := batch.rows.foldl (Work.place config) withdrawn
  have hwithdrawn : t.Continues withdrawn.tree :=
    .foldl Work.tree (fun w s _ => Work.continues_withdraw w s) (.start t)
  have hplaced : withdrawn.tree.Continues placed.tree :=
    .foldl Work.tree (fun w row hrow => Work.continues_place w (hb.rows row hrow).1) withdrawn
  exact (hwithdrawn.trans hplaced).trans (Work.continues_finish placed)

namespace Index

variable {x y : Index} {change : Change} {stats : Stats}

theorem continues_apply (happly : x.apply change = .ok (y, stats)) : x.tree.Continues y.tree := by
  obtain ⟨batch, hprepare, -, rfl, -⟩ := apply_eq_ok_iff.mp happly
  exact Tree.continues_commit (Change.prepare_fits hprepare) x.tree

theorem continues_after (x : Index) (operation : Operation) :
    x.tree.Continues (x.after operation).tree := by
  rw [after_eq]
  cases happly : x.apply (x.changeOf operation) with
  | error e => exact .refl _
  | ok r => exact continues_apply happly

/-- Nothing that is done to an index gives a handle or a category number again. -/
theorem continues_run (x : Index) (operations : List Operation) :
    x.tree.Continues (x.run operations).tree :=
  .foldl Index.tree (fun x operation _ => continues_after x operation) x

end Index

end CategorizedIndex
