import CategorizedIndex.Proofs.History.Alike
import CategorizedIndex.Proofs.History.Answers

/-! # History does not matter

However an index came to be, it is the index that its rows in force make up: filed into an
empty index, one change for each origin in any order, they succeed and lead to the same
tree up to handles and category numbers. The index answers from these rows alone.
-/
namespace CategorizedIndex.Index

variable {name : String} {config : Config} {filter : Option RowFilter} {x : Index}

/-- The number of the last category counts how many were ever created. While these are
fewer than category ids can tell apart, every index is its own rebuild. -/
theorem alike_rebuilt (hbuild : build name config filter = .ok x) (operations : List Operation)
    (hcreated : (x.run operations).tree.lastCategory < 2 ^ 63) {order : List String}
    (horder : order.Perm (x.ledger operations).origins) :
    (∀ s : ScopedId, (x.ledger operations)[s]? = x.liveRow? operations s) ∧
    (x.run operations).tree.Answers config filter (x.ledger operations) ∧
    ∃ y, x.applyAll (order.map (x.ledger operations).change) = .ok y ∧
      (∃ f, (x.run operations).tree.Alike f y.tree) ∧
      y.tree.Answers config filter (x.ledger operations) ∧
      ∀ s : ScopedId, s.isCategory = false →
        y.tree.find s = (x.run operations).tree.find s := by
  have hL := fits_ledger hbuild operations
  have hmaintains := maintains_ledger hbuild operations
  obtain ⟨ht, hone⟩ := hmaintains
  rw [config_run_build hbuild operations] at ht hone
  obtain ⟨y, happly, hrebuilt⟩ := exists_rebuilt hbuild hL hone horder
  have hu := hrebuilt.config ▸ hrebuilt.maintains.settled
  have hcount : y.tree.categoryCount = (x.run operations).tree.categoryCount := by
    have hroot := Tree.count_twin ht hu ht.sound.formed.root
    rw [Tree.twin_root ht hu] at hroot
    exact congrArg Counters.descendantCategories hroot
  have hlast : y.tree.lastCategory < 2 ^ 63 := by
    rw [hrebuilt.spent, hcount]
    exact (ht.categoryCount_le hcreated).trans_lt hcreated
  exact ⟨getElem?_ledger x operations, ht.answers hL, y, happly,
    ⟨_, Tree.alike_of_settled ht hu hcreated hlast⟩, hu.answers hL,
    fun s hs => Tree.find_twin ht hu hs⟩

/-- A row that moved between groups, a row of another origin, and the origins reversed. -/
theorem alike_rebuilt_two_origins :
    let operations : List Operation := [.change (filing 1 (.text "a\\b")),
      .change { filing 2 (.text "a") with origin := "shop" }, .change (filing 1 (.text "c"))]
    let t := (grouped.run operations).tree
    let L := grouped.ledger operations
    build "grouped" grouped.config none = .ok grouped ∧ t.lastCategory < 2 ^ 63 ∧
      ["shop", "desk"].Perm L.origins ∧ L.size = 2 ∧
      ∃ y, grouped.applyAll (["shop", "desk"].map L.change) = .ok y ∧
        (∃ f, t.Alike f y.tree) ∧ t.Answers grouped.config none L ∧ y.tree.documentCount = 2 := by
  intro operations t L
  have hcreated : t.lastCategory < 2 ^ 63 := by decide +kernel
  have horigins : ["shop", "desk"].Perm L.origins := by decide +kernel
  have hsize : L.size = 2 := by decide +kernel
  obtain ⟨-, hanswers, y, happly, halike, hanswers', -⟩ :=
    alike_rebuilt build_grouped operations hcreated horigins
  exact ⟨build_grouped, hcreated, horigins, hsize, y, happly, halike, hanswers,
    hanswers'.documentCount.trans hsize⟩

end CategorizedIndex.Index
