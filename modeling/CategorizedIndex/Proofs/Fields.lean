import CategorizedIndex.Proofs.Text.Blank
import Mathlib.Data.List.Nodup
import Mathlib.Tactic.Tauto
import Std.Data.ExtTreeMap
import Std.Data.ExtTreeSet

/-! # Fields and collections

Contents with names are found again by their names, and contents that are related pairwise are
related under each name. A map or a set is rebuilt from the list of what is in it.
-/
namespace CategorizedIndex

namespace Fields

variable {κ α β : Type} {R : α → β → Prop} {fields : List (κ × α)} {others : List (κ × β)}

theorem forall₂_of_parts (hkeys : fields.map Prod.fst = others.map Prod.fst)
    (h : List.Forall₂ R (fields.map Prod.snd) (others.map Prod.snd)) :
    List.Forall₂ (fun f m => f.1 = m.1 ∧ R f.2 m.2) fields others := by
  induction fields generalizing others with
  | nil =>
    rw [List.map_eq_nil_iff.mp hkeys.symm]
    exact .nil
  | cons f rest ih =>
    cases others with
    | nil => cases hkeys
    | cons m others =>
      simp only [List.map_cons, List.cons.injEq, List.forall₂_cons] at hkeys h
      exact .cons ⟨hkeys.1, h.1⟩ (ih hkeys.2 h.2)

theorem forall₂_snd_map (f : α → β) (h : ∀ e ∈ fields, R e.2 (f e.2)) :
    List.Forall₂ R (fields.map Prod.snd)
      ((fields.map fun (key, a) => (key, f a)).map Prod.snd) := by
  simpa using fun key a hf => h (key, a) hf

theorem exists_of_mem (h : List.Forall₂ (fun f m => f.1 = m.1 ∧ R f.2 m.2) fields others)
    {key : κ} {a : α} (hf : (key, a) ∈ fields) : ∃ b, (key, b) ∈ others ∧ R a b := by
  induction h with
  | nil => cases hf
  | @cons _ m _ _ hfirst _ ih =>
    rcases List.mem_cons.mp hf with rfl | hrest
    · obtain ⟨_, b⟩ := m
      obtain ⟨rfl, hab⟩ := hfirst
      exact ⟨b, List.mem_cons_self, hab⟩
    · obtain ⟨b, hb, hab⟩ := ih hrest
      exact ⟨b, List.mem_cons_of_mem _ hb, hab⟩

theorem filter_of_mem [BEq κ] [LawfulBEq κ] (hdistinct : (fields.map Prod.fst).Nodup)
    {f : κ × α} (hf : f ∈ fields) : fields.filter (·.1 == f.1) = [f] := by
  induction fields with
  | nil => cases hf
  | cons g rest ih =>
    rw [List.map_cons, List.nodup_cons] at hdistinct
    rcases List.mem_cons.mp hf with rfl | hrest
    · have hothers : rest.filter (·.1 == f.1) = [] := by
        rw [List.filter_eq_nil_iff]
        intro g hg hsame
        exact hdistinct.1 (eq_of_beq hsame ▸ List.mem_map_of_mem hg)
      simp [hothers]
    · have hne : g.1 ≠ f.1 := fun h => hdistinct.1 (h ▸ List.mem_map_of_mem hrest)
      rw [List.filter_cons_of_neg (by simpa using hne)]
      exact ih hdistinct.2 hrest

/-- Contents with keys are read one by one. -/
theorem mapM_of_parts {γ : Type} {write : γ → α} {read? : β → Option γ} {l : List (κ × γ)}
    (hkeys : (l.map fun (key, c) => (key, write c)).map Prod.fst = others.map Prod.fst)
    (h : List.Forall₂ R ((l.map fun (key, c) => (key, write c)).map Prod.snd)
      (others.map Prod.snd))
    (hread : ∀ c b, R (write c) b → read? b = some c) :
    others.mapM (fun (key, b) => (read? b).map (key, ·)) = some l := by
  have hparts := forall₂_of_parts hkeys h
  rw [List.forall₂_map_left_iff] at hparts
  rw [Text.mapM_eq_some]
  refine (hparts.imp fun entry m hm => ?_).flip
  simp [flip, hread _ _ hm.2, ← hm.1]

theorem mapM_of_forall₂ {γ : Type} {write : γ → α} {read? : β → Option γ} {l : List γ}
    {items : List β} (h : List.Forall₂ R (l.map write) items)
    (hread : ∀ c b, R (write c) b → read? b = some c) : items.mapM read? = some l := by
  rw [Text.mapM_eq_some]
  rw [List.forall₂_map_left_iff] at h
  exact (h.imp hread).flip

end Fields

section Collections

variable {κ α : Type} {cmp : κ → κ → Ordering} [Std.TransCmp cmp] [Std.LawfulEqCmp cmp]

/-- Where keys do not repeat, each entry that is inserted is there in the end. -/
theorem getElem?_foldl_insert {l : List (κ × α)} (hkeys : (l.map Prod.fst).Nodup)
    (known : Std.ExtTreeMap κ α cmp) (key : κ) (a : α) :
    (l.foldl (fun known (key, a) => known.insert key a) known)[key]? = some a ↔
      (key, a) ∈ l ∨ key ∉ l.map Prod.fst ∧ known[key]? = some a := by
  induction l generalizing known with
  | nil => simp
  | cons entry rest ih =>
    obtain ⟨k, b⟩ := entry
    rw [List.map_cons, List.nodup_cons] at hkeys
    rw [List.foldl_cons, ih hkeys.2, Std.ExtTreeMap.getElem?_insert]
    simp only [Std.LawfulEqCmp.compare_eq_iff_eq, List.mem_cons, List.map_cons, Prod.mk.injEq]
    by_cases hk : k = key
    · subst hk
      have hrest : (k, a) ∉ rest := fun h => hkeys.1 (List.mem_map.mpr ⟨_, h, rfl⟩)
      simp [hkeys.1, hrest, eq_comm (a := b)]
    · simp [hk, Ne.symm hk]

theorem foldl_insert_toList (m : Std.ExtTreeMap κ α cmp) :
    m.toList.foldl (fun known (key, a) => known.insert key a) ∅ = m := by
  have hkeys : (m.toList.map Prod.fst).Nodup := by
    rw [Std.ExtTreeMap.map_fst_toList_eq_keys]
    exact Std.ExtTreeMap.nodup_keys
  refine Std.ExtTreeMap.ext_getElem? fun key => Option.ext fun a => ?_
  rw [getElem?_foldl_insert hkeys, Std.ExtTreeMap.mem_toList_iff_getElem?_eq_some]
  simp

theorem mem_foldl_insert (l : List κ) (known : Std.ExtTreeSet κ cmp) (key : κ) :
    key ∈ l.foldl (·.insert ·) known ↔ key ∈ l ∨ key ∈ known := by
  induction l generalizing known with
  | nil => simp
  | cons first rest ih =>
    rw [List.foldl_cons, ih, Std.ExtTreeSet.mem_insert, Std.LawfulEqCmp.compare_eq_iff_eq,
      List.mem_cons]
    tauto

theorem foldl_insert_members (s : Std.ExtTreeSet κ cmp) :
    s.toList.foldl (·.insert ·) ∅ = s := by
  refine Std.ExtTreeSet.ext_mem fun key => ?_
  rw [mem_foldl_insert, Std.ExtTreeSet.mem_toList]
  simp

end Collections

end CategorizedIndex
