import LambdaMachine.Proofs.Program.Reading
import LambdaMachine.Proofs.Term.Spelled

/-!
Two tables of names side by side. A number of the first and one of the second are paired if they
stand for one text, and nodes of two arenas agree if they spell one tree. Both stay so when more
texts are numbered.
-/

namespace LambdaMachine

structure Arena.Shows (arena : Arena) (names : NameTable) (id : NodeId) (tree : Tree String) :
    Prop where
  spells : arena.Spells names id tree
  denoted : ∃ inner, arena.tree? id = some inner

structure Glossary where
  left : NameTable
  right : NameTable
  leftCoherent : left.Coherent
  rightCoherent : right.Coherent

namespace Glossary

def Pairs (glossary : Glossary) (name other : NameId) : Prop :=
  ∃ text : String, glossary.left.numbers[text]? = some name ∧
    glossary.right.numbers[text]? = some other

def Agree (glossary : Glossary) (arena : Arena) (id : NodeId) (other : Arena) (otherId : NodeId) :
    Prop :=
  ∃ tree, arena.Shows glossary.left id tree ∧ other.Shows glossary.right otherId tree

structure Extends (later earlier : Glossary) : Prop where
  left : later.left.Extends earlier.left
  right : later.right.Extends earlier.right

def intern (glossary : Glossary) (text : String) : Glossary :=
  ⟨(glossary.left.intern text).2, (glossary.right.intern text).2,
    glossary.leftCoherent.intern text, glossary.rightCoherent.intern text⟩

theorem Extends.refl (glossary : Glossary) : glossary.Extends glossary :=
  ⟨.refl _, .refl _⟩

theorem Extends.trans {first second third : Glossary} (after : third.Extends second)
    (before : second.Extends first) : third.Extends first :=
  ⟨after.left.trans before.left, after.right.trans before.right⟩

theorem extends_intern (glossary : Glossary) (text : String) :
    (glossary.intern text).Extends glossary :=
  ⟨NameTable.extends_intern _ _, NameTable.extends_intern _ _⟩

theorem pairs_intern (glossary : Glossary) (text : String) :
    (glossary.intern text).Pairs (glossary.left.intern text).1 (glossary.right.intern text).1 :=
  ⟨text, NameTable.numbers_intern _ _, NameTable.numbers_intern _ _⟩

section Pairs

variable {glossary later : Glossary} {name other : NameId}

theorem Pairs.mono (pairs : glossary.Pairs name other) (grown : later.Extends glossary) :
    later.Pairs name other := by
  obtain ⟨text, left, right⟩ := pairs
  exact ⟨text, grown.left _ _ left, grown.right _ _ right⟩

theorem Pairs.text_eq (pairs : glossary.Pairs name other) :
    glossary.left.text name = glossary.right.text other := by
  obtain ⟨text, left, right⟩ := pairs
  rw [glossary.leftCoherent.text_eq left, glossary.rightCoherent.text_eq right]

/-- A number is paired with one number only, on either side. -/
theorem Pairs.eq_iff {name' other' : NameId} (pairs : glossary.Pairs name other)
    (pairs' : glossary.Pairs name' other') : name = name' ↔ other = other' := by
  obtain ⟨text, left, right⟩ := pairs
  obtain ⟨text', left', right'⟩ := pairs'
  constructor
  · rintro rfl
    have sameText : text = text' := by
      rw [← glossary.leftCoherent.text_eq left, glossary.leftCoherent.text_eq left']
    subst sameText
    exact Option.some.inj (right.symm.trans right')
  · rintro rfl
    have sameText : text = text' := by
      rw [← glossary.rightCoherent.text_eq right, glossary.rightCoherent.text_eq right']
    subst sameText
    exact Option.some.inj (left.symm.trans left')

end Pairs

section Agree

variable {glossary later : Glossary} {arena other : Arena} {id otherId : NodeId}

theorem Agree.mono (agree : glossary.Agree arena id other otherId)
    (grown : later.Extends glossary) : later.Agree arena id other otherId := by
  obtain ⟨tree, left, right⟩ := agree
  exact ⟨tree, ⟨left.spells.mono (.refl _) grown.left, left.denoted⟩,
    ⟨right.spells.mono (.refl _) grown.right, right.denoted⟩⟩

theorem Agree.text?_eq (agree : glossary.Agree arena id other otherId) :
    arena.text? glossary.left id = other.text? glossary.right otherId := by
  obtain ⟨tree, ⟨leftSpells, inner, left⟩, ⟨rightSpells, inner', right⟩⟩ := agree
  rw [Arena.text?, Arena.text?, left, right, Option.map_some, Option.map_some,
    leftSpells.map_text glossary.leftCoherent left,
    rightSpells.map_text glossary.rightCoherent right]

inductive NodesAgree (glossary : Glossary) (arena other : Arena) : Node → Node → Prop
  | var {name name' : NameId} (pairs : glossary.Pairs name name') :
      NodesAgree glossary arena other (.var name) (.var name')
  | lambda {param param' : NameId} {body body' : NodeId} (pairs : glossary.Pairs param param')
      (bodies : glossary.Agree arena body other body') :
      NodesAgree glossary arena other (.lambda param body) (.lambda param' body')
  | apply {func func' arg arg' : NodeId} (funcs : glossary.Agree arena func other func')
      (args : glossary.Agree arena arg other arg') :
      NodesAgree glossary arena other (.apply func arg) (.apply func' arg')

theorem Agree.exists_nodes (agree : glossary.Agree arena id other otherId) :
    ∃ node node', arena.node? id = some node ∧ other.node? otherId = some node' ∧
      glossary.NodesAgree arena other node node' := by
  obtain ⟨tree, ⟨leftSpells, inner, left⟩, ⟨rightSpells, inner', right⟩⟩ := agree
  cases tree with
  | var text =>
      obtain ⟨name, node, known⟩ := leftSpells
      obtain ⟨name', node', known'⟩ := rightSpells
      exact ⟨_, _, node, node', .var ⟨text, known, known'⟩⟩
  | lambda text tree =>
      obtain ⟨param, body, node, known, bodySpells⟩ := leftSpells
      obtain ⟨param', body', node', known', bodySpells'⟩ := rightSpells
      obtain ⟨bodyTree, bodyDenoted, _⟩ := Arena.tree?_lambda node left
      obtain ⟨bodyTree', bodyDenoted', _⟩ := Arena.tree?_lambda node' right
      exact ⟨_, _, node, node', .lambda ⟨text, known, known'⟩
        ⟨tree, ⟨bodySpells, _, bodyDenoted⟩, ⟨bodySpells', _, bodyDenoted'⟩⟩⟩
  | apply funcTree argTree =>
      obtain ⟨func, arg, node, funcSpells, argSpells⟩ := leftSpells
      obtain ⟨func', arg', node', funcSpells', argSpells'⟩ := rightSpells
      obtain ⟨_, _, funcDenoted, argDenoted, _⟩ := Arena.tree?_apply node left
      obtain ⟨_, _, funcDenoted', argDenoted', _⟩ := Arena.tree?_apply node' right
      exact ⟨_, _, node, node', .apply
        ⟨funcTree, ⟨funcSpells, _, funcDenoted⟩, ⟨funcSpells', _, funcDenoted'⟩⟩
        ⟨argTree, ⟨argSpells, _, argDenoted⟩, ⟨argSpells', _, argDenoted'⟩⟩⟩

end Agree

end Glossary

def Arena.Denotes (arena : Arena) (names : NameTable) (id : NodeId) (tree : Tree String) : Prop :=
  ∃ inner, arena.tree? id = some inner ∧ inner.Named names.Issued ∧ inner.map names.text = tree

theorem Arena.spells_of_tree? {arena : Arena} {names : NameTable}
    (built : NameTable.empty.Interns names) {id : NodeId} {inner : Tree NameId}
    (denoted : arena.tree? id = some inner) (issued : inner.Named names.Issued) :
    arena.Spells names id (inner.map names.text) := by
  have coherent := built.coherent NameTable.coherent_empty
  have known {name : NameId} (given : names.Issued name) :
      names.numbers[names.text name]? = some name := by
    obtain ⟨text, known⟩ := built.exists_text given
    rw [coherent.text_eq known]
    exact known
  induction inner generalizing id with
  | var name => exact ⟨name, node?_of_var denoted, known issued⟩
  | lambda param tree ih =>
      obtain ⟨body, node, bodyDenoted⟩ := node?_of_lambda denoted
      exact ⟨param, body, node, known issued.1, ih bodyDenoted issued.2⟩
  | apply left right leftIh rightIh =>
      obtain ⟨func, arg, node, funcDenoted, argDenoted⟩ := node?_of_apply denoted
      exact ⟨func, arg, node, leftIh funcDenoted issued.1, rightIh argDenoted issued.2⟩

theorem Arena.Denotes.shows {arena : Arena} {names : NameTable} {id : NodeId}
    {tree : Tree String} (denotes : arena.Denotes names id tree)
    (built : NameTable.empty.Interns names) : arena.Shows names id tree := by
  obtain ⟨inner, denoted, issued, rfl⟩ := denotes
  exact ⟨spells_of_tree? built denoted issued, inner, denoted⟩

end LambdaMachine
