import CategorizedIndex.Proofs.Yaml.Tokens
import CategorizedIndex.Yaml.Node.Read

/-! # Reading of written tokens

The reader on the tokens of a value, and with the lexer the whole way from a text to the node
that it was written from. Each token is worth four steps down, so the depth always suffices.
-/
namespace CategorizedIndex.Yaml

open Written

variable {handles : Handles} {t : Token} {rest : List Token} {labels : List (String × Nat)}
  {ends : List Token} {depth : Nat} {block loose : Bool} {value : Value}
  {entries : List (String × Value)}

namespace Reader

@[simp]
theorem run_next? (r : Reading) : StateT.run next? r = some (r.tokens.head?, r) := rfl

@[simp]
theorem run_advance (r : Reading) :
    StateT.run advance r = some ((), { r with tokens := r.tokens.tail }) := rfl

@[simp]
theorem run_atAny (tokens : List Token) (r : Reading) :
    StateT.run (atAny tokens) r = some (r.tokens.head?.any tokens.contains, r) := rfl

/-! ## Nodes by their first token -/

theorem run_node_scalar (style : Style) (text : String) :
    StateT.run (node handles (depth + 1) block loose) ⟨.scalar style text :: rest, labels⟩ =
      some (.scalar none none style text, ⟨rest, labels⟩) := rfl

theorem run_node_brackets :
    StateT.run (node handles (depth + 2) block loose)
        ⟨.flowSequenceStart :: .flowSequenceEnd :: rest, labels⟩ =
      some (.sequence none [], ⟨rest, labels⟩) := rfl

theorem run_node_items :
    StateT.run (node handles (depth + 1) block true) ⟨.blockEntry :: rest, labels⟩ =
      (StateT.run (looseItems handles depth) ⟨.blockEntry :: rest, labels⟩).map fun (items, r) =>
        (.sequence none items, r) := by
  simp [node, properties, label?, tag?]

theorem run_node_mapping :
    StateT.run (node handles (depth + 1) true loose) ⟨.blockMappingStart :: rest, labels⟩ =
      (StateT.run (blockEntries handles depth) ⟨rest, labels⟩).map fun (entries, r) =>
        (.mapping none entries, r) := by
  simp [node, properties, label?, tag?]

theorem run_nodeUnless (h : t ∉ ends) :
    StateT.run (nodeUnless ends handles (depth + 1) block loose) ⟨t :: rest, labels⟩ =
      StateT.run (node handles depth block loose) ⟨t :: rest, labels⟩ := by
  simp [nodeUnless, h]

theorem run_valueOf :
    StateT.run (valueOf ends handles (depth + 1) block) ⟨.value :: rest, labels⟩ =
      StateT.run (nodeUnless ends handles depth block block) ⟨rest, labels⟩ := by
  simp [valueOf]

end Reader

namespace Value

open Reader

theorem exists_tokens (v : Value) : ∃ t more, v.tokens = t :: more ∧
    t ∉ [Token.key, .value, .blockEnd] := by
  cases v with
  | scalar style text => exact ⟨_, _, by rw [tokens], by simp⟩
  | sequence items =>
    cases items with
    | nil => exact ⟨_, _, by rw [tokens], by simp⟩
    | cons item rest =>
      exact ⟨.blockEntry, _, by rw [tokens_sequence (List.cons_ne_nil _ _), itemTokens], by simp⟩
  | mapping entries => exact ⟨_, _, by rw [tokens], by simp⟩

/-- Behind a key a value is read, and nothing of what follows it. -/
def Reads (v : Value) : Prop :=
  ∀ {handles : Handles} {depth : Nat} {rest : List Token} {labels : List (String × Nat)},
    4 * v.tokens.length + 2 ≤ depth → rest.head? ≠ some .blockEntry →
    StateT.run (node handles depth true true) ⟨v.tokens ++ rest, labels⟩ =
      some (v.toNode, ⟨rest, labels⟩)

theorem reads_scalar (style : Style) (text : String) : Reads (.scalar style text) := by
  intro handles depth rest labels hdepth _
  obtain ⟨depth, rfl⟩ := Nat.exists_eq_add_of_le' (show 1 ≤ depth by omega)
  rw [tokens, toNode]
  exact run_node_scalar style text

theorem reads_brackets : Reads (.sequence []) := by
  intro handles depth rest labels hdepth _
  obtain ⟨depth, rfl⟩ := Nat.exists_eq_add_of_le' (show 2 ≤ depth by omega)
  rw [tokens, toNode]
  exact run_node_brackets

theorem Reads.run_valueOf (h : Reads value) (hdepth : 4 * value.tokens.length + 2 ≤ depth)
    (hrest : rest.head? ≠ some .blockEntry) :
    StateT.run (valueOf [.key, .value, .blockEnd] handles (depth + 2) true)
        ⟨.value :: (value.tokens ++ rest), labels⟩ =
      some (value.toNode, ⟨rest, labels⟩) := by
  obtain ⟨t, more, htokens, ht⟩ := exists_tokens value
  rw [Reader.run_valueOf, htokens, List.cons_append, run_nodeUnless ht, ← List.cons_append,
    ← htokens]
  exact h hdepth hrest

theorem run_blockEntries (hvalues : ∀ e ∈ entries, Reads e.2)
    (hdepth : 4 * (entryTokens entries).length + 1 ≤ depth) :
    StateT.run (blockEntries handles depth) ⟨entryTokens entries ++ .blockEnd :: rest, labels⟩ =
      some (entryNodes entries, ⟨rest, labels⟩) := by
  induction entries generalizing depth with
  | nil =>
    obtain ⟨depth, rfl⟩ := Nat.exists_eq_add_of_le' (show 1 ≤ depth by omega)
    rfl
  | cons entry others ih =>
    obtain ⟨key, value⟩ := entry
    obtain ⟨hvalue, hvalues⟩ : Reads value ∧ ∀ e ∈ others, Reads e.2 :=
      List.forall_mem_cons.mp hvalues
    simp only [entryTokens, List.length_cons, List.length_append] at hdepth
    obtain ⟨depth, rfl⟩ := Nat.exists_eq_add_of_le' (show 3 ≤ depth by omega)
    have hkey : ∀ rest, StateT.run (nodeUnless [.key, .value, .blockEnd] handles (depth + 2) true
        true) ⟨.scalar (keyStyle key) key :: rest, labels⟩ =
          some (.scalar none none (keyStyle key) key, ⟨rest, labels⟩) := by
      intro rest
      rw [run_nodeUnless (by simp)]
      exact run_node_scalar (keyStyle key) key
    have hread : StateT.run (valueOf [.key, .value, .blockEnd] handles (depth + 2) true)
        ⟨.value :: (value.tokens ++ (entryTokens others ++ .blockEnd :: rest)), labels⟩ =
          some (value.toNode, ⟨entryTokens others ++ .blockEnd :: rest, labels⟩) := by
      refine hvalue.run_valueOf (by omega) ?_
      cases others <;> simp [entryTokens]
    have hothers : StateT.run (blockEntries handles (depth + 2))
        ⟨entryTokens others ++ .blockEnd :: rest, labels⟩ =
          some (entryNodes others, ⟨rest, labels⟩) :=
      ih hvalues (by omega)
    rw [entryTokens, blockEntries, entryNodes]
    simp [hkey, hread, hothers]

theorem run_node_record (hvalues : ∀ e ∈ entries, Reads e.2)
    (hdepth : 4 * (tokens (.mapping entries)).length ≤ depth) :
    StateT.run (node handles depth true loose) ⟨tokens (.mapping entries) ++ rest, labels⟩ =
      some (toNode (.mapping entries), ⟨rest, labels⟩) := by
  simp only [tokens, List.length_cons, List.length_append] at hdepth
  obtain ⟨depth, rfl⟩ := Nat.exists_eq_add_of_le' (show 1 ≤ depth by omega)
  have hentries : StateT.run (blockEntries handles depth)
      ⟨entryTokens entries ++ .blockEnd :: rest, labels⟩ =
        some (entryNodes entries, ⟨rest, labels⟩) :=
    run_blockEntries hvalues (by omega)
  rw [tokens, toNode, List.cons_append, List.append_assoc, run_node_mapping]
  simp [hentries]

/-- Items are read until something else follows. -/
theorem run_looseItems {records : List (List (String × Value))}
    (hvalues : ∀ r ∈ records, ∀ e ∈ r, Reads e.2)
    (hdepth : 4 * (itemTokens (records.map .mapping)).length + 1 ≤ depth)
    (hrest : rest.head? ≠ some .blockEntry) :
    StateT.run (looseItems handles depth) ⟨itemTokens (records.map .mapping) ++ rest, labels⟩ =
      some (itemNodes (records.map .mapping), ⟨rest, labels⟩) := by
  induction records generalizing depth with
  | nil =>
    obtain ⟨depth, rfl⟩ := Nat.exists_eq_add_of_le' (show 1 ≤ depth by omega)
    cases rest with
    | nil => rfl
    | cons t rest =>
      have ht : t ≠ .blockEntry := by simpa using hrest
      simp [itemTokens, looseItems, itemNodes, ht]
  | cons r others ih =>
    obtain ⟨hr, hvalues⟩ := List.forall_mem_cons.mp hvalues
    simp only [List.map_cons, itemTokens, List.length_cons, List.length_append] at hdepth
    obtain ⟨depth, rfl⟩ := Nat.exists_eq_add_of_le' (show 2 ≤ depth by omega)
    have hitem : StateT.run (nodeUnless [.blockEntry, .key, .value, .blockEnd] handles (depth + 1)
        true false) ⟨tokens (.mapping r) ++ (itemTokens (others.map .mapping) ++ rest), labels⟩ =
          some (toNode (.mapping r), ⟨itemTokens (others.map .mapping) ++ rest, labels⟩) := by
      have hread : StateT.run (node handles depth true false)
          ⟨tokens (.mapping r) ++ (itemTokens (others.map .mapping) ++ rest), labels⟩ =
            some (toNode (.mapping r), ⟨itemTokens (others.map .mapping) ++ rest, labels⟩) :=
        run_node_record hr (by omega)
      rw [tokens, List.cons_append] at hread ⊢
      rw [run_nodeUnless (by simp)]
      exact hread
    have hothers : StateT.run (looseItems handles (depth + 1))
        ⟨itemTokens (others.map .mapping) ++ rest, labels⟩ =
          some (itemNodes (others.map .mapping), ⟨rest, labels⟩) :=
      ih hvalues (by omega)
    rw [List.map_cons, itemTokens, looseItems, itemNodes]
    simp [hitem, hothers]

theorem Legible.reads (h : Legible value) : Reads value := by
  induction h with
  | scalar _ => exact reads_scalar _ _
  | @sequence records _ _ _ ih =>
    cases records with
    | nil => exact reads_brackets
    | cons r others =>
      intro handles depth rest labels hdepth hrest
      have hitems : (r :: others).map Value.mapping ≠ [] := List.cons_ne_nil _ _
      rw [tokens_sequence hitems] at hdepth ⊢
      obtain ⟨depth, rfl⟩ := Nat.exists_eq_add_of_le' (show 1 ≤ depth by omega)
      have hread : StateT.run (looseItems handles depth)
          ⟨itemTokens ((r :: others).map .mapping) ++ rest, labels⟩ =
            some (itemNodes ((r :: others).map .mapping), ⟨rest, labels⟩) :=
        run_looseItems ih (by omega) hrest
      rw [List.map_cons, itemTokens, List.cons_append] at hread ⊢
      rw [run_node_items, hread]
      rfl

/-- A mapping is read back from the text that it is written as. -/
theorem ofText?_toText (hsome : entries ≠ []) (hnames : ∀ e ∈ entries, IsName e.1)
    (hvalues : ∀ e ∈ entries, Legible e.2) :
    Node.ofText? (toText (.mapping entries)) = some (toNode (.mapping entries)) := by
  have hscan := scan_mapping hsome hnames hvalues
  have hread : node standardHandles (4 * (tokens (.mapping entries)).length + 4) true false
      ⟨tokens (.mapping entries) ++ [], []⟩ = some (toNode (.mapping entries), ⟨[], []⟩) :=
    run_node_record (fun e he => (hvalues e he).reads) (Nat.le_add_right _ 4)
  rw [List.append_nil] at hread
  have hdocument : document (tokens (.mapping entries)) = some (toNode (.mapping entries), []) := by
    have hrun : Reader.run standardHandles (tokens (.mapping entries)) =
        some (toNode (.mapping entries), []) := by
      simp [Reader.run, hread]
    rw [tokens] at hrun ⊢
    simp [document, startsDocument, hrun]
  simp only [Node.ofText?, Option.bind_eq_bind, ← Option.bind_assoc]
  rw [hscan]
  simp [Node.ofTokens?, hdocument]

end Value

end CategorizedIndex.Yaml
