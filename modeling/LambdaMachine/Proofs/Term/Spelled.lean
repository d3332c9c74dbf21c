import LambdaMachine.Proofs.Term.Arena
import LambdaMachine.Proofs.Term.Denotation
import LambdaMachine.Proofs.Term.Names

/-!
The tree of texts a node stands for: its names are read by their numbers. What a node spells does
not change when nodes are appended and names are numbered.
-/

namespace LambdaMachine.Arena

def Spells (arena : Arena) (names : NameTable) : NodeId → Tree String → Prop
  | id, .var text =>
      ∃ name, arena.node? id = some (.var name) ∧ names.numbers[text]? = some name
  | id, .lambda text tree =>
      ∃ name body, arena.node? id = some (.lambda name body) ∧
        names.numbers[text]? = some name ∧ arena.Spells names body tree
  | id, .apply left right =>
      ∃ func arg, arena.node? id = some (.apply func arg) ∧
        arena.Spells names func left ∧ arena.Spells names arg right

theorem Spells.mono {earlier later : Arena} {names grown : NameTable}
    (arenas : later.Extends earlier)
    (tables : grown.Extends names) {id : NodeId} {tree : Tree String}
    (spells : earlier.Spells names id tree) : later.Spells grown id tree := by
  induction tree generalizing id with
  | var text =>
      obtain ⟨name, node, known⟩ := spells
      exact ⟨name, arenas _ _ node, tables _ _ known⟩
  | lambda text tree ih =>
      obtain ⟨name, body, node, known, bodySpells⟩ := spells
      exact ⟨name, body, arenas _ _ node, tables _ _ known, ih bodySpells⟩
  | apply left right leftIh rightIh =>
      obtain ⟨func, arg, node, funcSpells, argSpells⟩ := spells
      exact ⟨func, arg, arenas _ _ node, leftIh funcSpells, rightIh argSpells⟩

theorem Spells.lt_size {arena : Arena} {names : NameTable} {id : NodeId} {tree : Tree String}
    (spells : arena.Spells names id tree) : id < arena.size := by
  cases tree with
  | var text =>
      obtain ⟨_, node, _⟩ := spells
      exact lt_size_iff.mpr ⟨_, node⟩
  | lambda text tree =>
      obtain ⟨_, _, node, _⟩ := spells
      exact lt_size_iff.mpr ⟨_, node⟩
  | apply left right =>
      obtain ⟨_, _, node, _⟩ := spells
      exact lt_size_iff.mpr ⟨_, node⟩

/-- The node has a tree of numbers, whose texts are those it spells. -/
theorem Spells.map_text {arena : Arena} {names : NameTable} (coherent : names.Coherent)
    {id : NodeId} {tree : Tree String} {inner : Tree NameId} (spells : arena.Spells names id tree)
    (denoted : arena.tree? id = some inner) : inner.map names.text = tree := by
  induction tree generalizing id inner with
  | var text =>
      obtain ⟨name, node, known⟩ := spells
      rw [tree?_var node denoted, Tree.map, coherent.text_eq known]
  | lambda text tree ih =>
      obtain ⟨name, body, node, known, bodySpells⟩ := spells
      obtain ⟨bodyTree, bodyDenoted, rfl⟩ := tree?_lambda node denoted
      rw [Tree.map, coherent.text_eq known, ih bodySpells bodyDenoted]
  | apply left right leftIh rightIh =>
      obtain ⟨func, arg, node, funcSpells, argSpells⟩ := spells
      obtain ⟨funcTree, argTree, funcDenoted, argDenoted, rfl⟩ := tree?_apply node denoted
      rw [Tree.map, leftIh funcSpells funcDenoted, rightIh argSpells argDenoted]

end LambdaMachine.Arena
