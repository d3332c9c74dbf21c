import LambdaMachine.Proofs.Program.Building
import Mathlib.Data.List.Nodup

/-!
The arena of a parsed program, node by node: for each assignment the variable of its target and its
right-hand side in post-order, then the body in post-order, then the pairs of nodes that bind the
names, the last assignment first. From this it follows which node is whose child.
-/

namespace LambdaMachine

mutual

def Phrase.words : Phrase → List String
  | .word word => [word.text]
  | .abstraction _ _ param _ body => param.text :: body.words
  | .group _ first more => first.words ++ more.words

def Phrases.words : Phrases → List String
  | .close _ => []
  | .next phrase more => phrase.words ++ more.words

end

mutual

theorem Phrase.names_tree (phrase : Phrase) : phrase.tree.names = phrase.words := by
  cases phrase with
  | word word => rfl
  | abstraction glyph afterGlyph param afterDot body =>
      rw [Phrase.tree, Tree.names, body.names_tree, Phrase.words]
  | group afterOpening first more =>
      rw [Phrase.tree, more.names_applied, first.names_tree, Phrase.words]

theorem Phrases.names_applied (more : Phrases) (func : Tree String) :
    (more.applied func).names = func.names ++ more.words := by
  cases more with
  | close afterClosing => exact (List.append_nil _).symm
  | next phrase more =>
      rw [Phrases.applied, more.names_applied, Tree.names, phrase.names_tree, Phrases.words,
        List.append_assoc]

end

namespace Script

def words : Script → List String
  | .body phrase => phrase.words
  | .assignment target _ _ _ side rest => target.words ++ (side.words ++ rest.words)

def bindings : Script → List (String × Tree String)
  | .body _ => []
  | .assignment _ name _ _ side rest => (name, side.tree) :: rest.bindings

def last : Script → Tree String
  | .body phrase => phrase.tree
  | .assignment _ _ _ _ _ rest => rest.last

theorem wrap_bindings (script : Script) : script.last.wrap script.bindings = script.tree := by
  induction script with
  | body phrase => rfl
  | assignment target name bare afterEquals side rest ih => rw [last, bindings, Tree.wrap, ih, tree]

theorem length_bindings (script : Script) : script.bindings.length = script.assignments := by
  induction script with
  | body phrase => rfl
  | assignment target name bare afterEquals side rest ih => exact congrArg (· + 1) ih

end Script

def room : List (String × Tree String) → Nat
  | [] => 0
  | (_, side) :: bindings => 1 + side.size + room bindings

def sideNodes (number : String → NameId) : List (String × Tree String) → NodeId → List Node
  | [], _ => []
  | (name, side) :: bindings, base =>
      .var (number name) ::
        (side.nodes number (base + 1) ++ sideNodes number bindings (base + 1 + side.size))

def targets : List (String × Tree String) → NodeId → List NodeId
  | [], _ => []
  | (_, side) :: bindings, base => base :: targets bindings (base + 1 + side.size)

def sides (number : String → NameId) : List (String × Tree String) → NodeId →
    List (NameId × NodeId)
  | [], _ => []
  | (name, side) :: bindings, base =>
      (number name, side.rootId (base + 1)) :: sides number bindings (base + 1 + side.size)

/-- The nodes of a program. The right-hand sides come in the order of the source, and the nodes that
bind the names in the reverse order. -/
def programNodes (number : String → NameId) (bindings : List (String × Tree String))
    (body : Tree String) : List Node :=
  sideNodes number bindings 0 ++ body.nodes number (room bindings) ++
    binderNodes (sides number bindings 0).reverse (body.rootId (room bindings))
      (room bindings + body.size)

section Lengths

variable (number : String → NameId)

theorem length_sideNodes (bindings : List (String × Tree String)) (base : NodeId) :
    (sideNodes number bindings base).length = room bindings := by
  induction bindings generalizing base with
  | nil => rfl
  | cons binding bindings ih =>
      obtain ⟨name, side⟩ := binding
      rw [sideNodes, List.length_cons, List.length_append, Tree.length_nodes, ih, room]
      omega

theorem length_sides (bindings : List (String × Tree String)) (base : NodeId) :
    (sides number bindings base).length = bindings.length := by
  induction bindings generalizing base with
  | nil => rfl
  | cons binding bindings ih => exact congrArg (· + 1) (ih _)

theorem length_binderNodes (binders : List (NameId × NodeId)) (root base : NodeId) :
    (binderNodes binders root base).length = 2 * binders.length := by
  induction binders generalizing root base with
  | nil => rfl
  | cons binder earlier ih =>
      rw [binderNodes, List.length_cons, List.length_cons, ih, List.length_cons]
      omega

theorem binderRoot_succ {binders : List (NameId × NodeId)} {root base : NodeId}
    (last : root + 1 = base) : binderRoot binders root base + 1 = base + 2 * binders.length := by
  induction binders generalizing root base with
  | nil => exact last
  | cons binder earlier ih => exact (ih rfl).trans (Nat.add_right_comm base 2 _)

theorem length_programNodes (bindings : List (String × Tree String)) (body : Tree String) :
    (programNodes number bindings body).length =
      room bindings + body.size + 2 * bindings.length := by
  rw [programNodes, List.length_append, List.length_append, length_sideNodes, Tree.length_nodes,
    length_binderNodes, List.length_reverse, length_sides]

theorem Tree.size_wrap (body : Tree String) (bindings : List (String × Tree String)) :
    (body.wrap bindings).size = room bindings + body.size + bindings.length := by
  induction bindings with
  | nil => exact (Nat.zero_add _).symm
  | cons binding bindings ih =>
      obtain ⟨name, side⟩ := binding
      rw [Tree.wrap, Tree.size, Tree.size, ih, room, List.length_cons]
      omega

theorem Tree.rootId_succ {ν : Type} (tree : Tree ν) (base : NodeId) :
    tree.rootId base + 1 = base + tree.size := by
  rw [Tree.rootId, Nat.add_assoc, Nat.sub_add_cancel tree.size_pos]

end Lengths

/-- Laying a program out behind the nodes that are there, in closed form. -/
theorem Script.layOut_eq {number : String → NameId} (script : Script)
    (earlier : List (NameId × NodeId)) {table : NameTable} (arena : Arena)
    (agrees : NameTable.Agrees number (table.internAll script.words)) :
    let base := arena.size + room script.bindings
    let binders := (sides number script.bindings arena.size).reverse ++ earlier
    script.layOut earlier table arena =
      (binderRoot binders (script.last.rootId base) (base + script.last.size),
        table.internAll script.words,
        arena.append (sideNodes number script.bindings arena.size ++
          script.last.nodes number base ++
          binderNodes binders (script.last.rootId base) (base + script.last.size))) := by
  dsimp only
  induction script generalizing earlier table arena with
  | body phrase =>
      rw [words, ← phrase.names_tree] at agrees ⊢
      rw [layOut, phrase.tree.layOut_eq arena agrees]
      dsimp only
      rw [Arena.append_append, Arena.size_append, Tree.length_nodes]
      rfl
  | assignment target name bare afterEquals side rest ih =>
      have targetWords : target.words = [name] := by
        rw [← target.names_tree, bare, Tree.names]
      rw [words, targetWords, NameTable.internAll_append] at agrees ⊢
      have afterTarget := agrees.mono (NameTable.extends_internAll _ _)
      rw [NameTable.internAll_append] at agrees ⊢
      have afterSide := agrees.mono (NameTable.extends_internAll _ _)
      have known : (table.intern name).1 = number name := NameTable.Agrees.intern afterTarget
      have targetLaid : (Tree.var name).layOut table arena =
          (arena.size, table.internAll [name], arena.append [.var (number name)]) := by
        rw [← known]
        rfl
      have one : (arena.append [.var (number name)]).size = arena.size + 1 :=
        Arena.size_append _ _
      have grown : ((arena.append [.var (number name)]).append
          (side.tree.nodes number (arena.size + 1))).size = arena.size + 1 + side.tree.size := by
        rw [Arena.size_append, one, Tree.length_nodes]
      rw [← side.names_tree] at afterSide agrees ⊢
      rw [layOut, bare, targetLaid]
      dsimp only
      rw [side.tree.layOut_eq _ afterSide]
      dsimp only
      rw [one, ih _ _ agrees, grown, Arena.append_append, Arena.append_append, known]
      simp only [bindings, room, sides, sideNodes, last, List.reverse_cons, List.append_assoc,
        List.cons_append, List.nil_append, Nat.add_assoc]

section Children

variable (number : String → NameId)

/-- Among the targets and the right-hand sides, those that are nobody's child are the targets and
the roots of the right-hand sides. -/
theorem children_sideNodes (bindings : List (String × Tree String)) (base : NodeId) :
    ((sideNodes number bindings base).flatMap Node.children ++
      (targets bindings base ++ (sides number bindings base).map Prod.snd)).Perm
        (List.range' base (room bindings)) := by
  induction bindings generalizing base with
  | nil => exact .refl _
  | cons binding bindings ih =>
      obtain ⟨name, side⟩ := binding
      rw [sideNodes, targets, sides, room, List.flatMap_cons, List.flatMap_append, List.map_cons,
        ← List.range'_append_1, ← List.range'_append_1]
      refine List.perm_iff_count.mpr fun id => ?_
      have inSide := (side.children_nodes number (base + 1)).count_eq id
      have inRest := (ih (base + 1 + side.size)).count_eq id
      simp only [Node.children, List.nil_append, List.count_append, List.count_cons,
        List.count_nil, List.range'_one, Nat.add_assoc] at inSide inRest ⊢
      omega

/-- The nodes that bind the names have as children the body, the right-hand sides and, but for the
last of them, each other. -/
theorem children_binderNodes (binders : List (NameId × NodeId)) (root base : NodeId) :
    ((binderNodes binders root base).flatMap Node.children ++ [binderRoot binders root base]).Perm
      (root :: (binders.map Prod.snd ++ List.range' base (2 * binders.length))) := by
  induction binders generalizing root base with
  | nil => exact .refl _
  | cons binder earlier ih =>
      obtain ⟨name, side⟩ := binder
      have pair : List.range' base (2 * earlier.length + 2) =
          base :: (base + 1) :: List.range' (base + 2) (2 * earlier.length) := rfl
      rw [binderNodes, binderRoot, List.flatMap_cons, List.flatMap_cons, List.map_cons,
        List.length_cons, Nat.mul_succ, pair]
      refine List.perm_iff_count.mpr fun id => ?_
      have inRest := (ih (base + 1) (base + 2)).count_eq id
      simp only [Node.children, List.count_append, List.count_cons, List.count_nil] at inRest ⊢
      omega

end Children

def programRoot (number : String → NameId) (bindings : List (String × Tree String))
    (body : Tree String) : NodeId :=
  binderRoot (sides number bindings 0).reverse (body.rootId (room bindings))
    (room bindings + body.size)

/-- Every node of a program is the root, a target or a child, and no node is a child twice. -/
theorem children_programNodes (number : String → NameId) (bindings : List (String × Tree String))
    (body : Tree String) :
    ((programNodes number bindings body).flatMap Node.children ++
      programRoot number bindings body :: targets bindings 0).Perm
        (List.range (programNodes number bindings body).length) := by
  rw [length_programNodes, List.range_eq_range', ← List.range'_append_1, ← List.range'_append_1,
    programNodes, List.flatMap_append, List.flatMap_append, programRoot]
  refine List.perm_iff_count.mpr fun id => ?_
  have inSides := (children_sideNodes number bindings 0).count_eq id
  have inBody := (body.children_nodes number (room bindings)).count_eq id
  have inBinders := (children_binderNodes (sides number bindings 0).reverse
    (body.rootId (room bindings)) (room bindings + body.size)).count_eq id
  rw [List.map_reverse, List.length_reverse, length_sides] at inBinders
  simp only [List.count_append, List.count_cons, List.count_nil, List.count_reverse,
    Nat.zero_add] at inSides inBody inBinders ⊢
  omega

namespace Arena

def Parent (arena : Arena) (parent child : NodeId) : Prop :=
  ∃ node, arena.node? parent = some node ∧ child ∈ node.children

inductive Reaches (arena : Arena) (root : NodeId) : NodeId → Prop
  | root : Reaches arena root root
  | child {parent child : NodeId} (reached : Reaches arena root parent)
      (refers : arena.Parent parent child) : Reaches arena root child

variable {arena later : Arena} {root : NodeId}

theorem Parent.lt_size {parent child : NodeId} (refers : arena.Parent parent child) :
    parent < arena.size := by
  obtain ⟨node, found, _⟩ := refers
  exact lt_size_iff.mpr ⟨node, found⟩

theorem Tidy.child_lt {accepted : NameId → Prop} (tidy : arena.Tidy accepted)
    {parent child : NodeId} (refers : arena.Parent parent child) : child < parent := by
  obtain ⟨node, found, among⟩ := refers
  have fits := tidy parent node found
  cases node with
  | var name => exact (List.not_mem_nil among).elim
  | lambda param body =>
      rw [List.mem_singleton.mp among]
      exact fits.2
  | apply func arg =>
      rcases List.mem_pair.mp among with rfl | rfl
      · exact fits.1
      · exact fits.2

theorem mem_children_iff {child : NodeId} :
    child ∈ arena.nodes.toList.flatMap Node.children ↔ ∃ parent, arena.Parent parent child := by
  constructor
  · intro among
    obtain ⟨node, listed, among⟩ := List.mem_flatMap.mp among
    obtain ⟨parent, found⟩ := List.mem_iff_getElem?.mp listed
    rw [Array.getElem?_toList] at found
    exact ⟨parent, node, found, among⟩
  · rintro ⟨parent, node, found, among⟩
    rw [node?, ← Array.getElem?_toList] at found
    exact List.mem_flatMap.mpr ⟨node, List.mem_of_getElem? found, among⟩

theorem parent_unique (once : (arena.nodes.toList.flatMap Node.children).Nodup)
    {first second child : NodeId} (one : arena.Parent first child)
    (other : arena.Parent second child) : first = second := by
  obtain ⟨firstNode, firstFound, inFirst⟩ := one
  obtain ⟨secondNode, secondFound, inSecond⟩ := other
  rw [node?, ← Array.getElem?_toList] at firstFound secondFound
  have apart := List.pairwise_iff_getElem.mp (List.nodup_flatMap.mp once).2
  obtain ⟨firstInside, rfl⟩ := List.getElem?_eq_some_iff.mp firstFound
  obtain ⟨secondInside, rfl⟩ := List.getElem?_eq_some_iff.mp secondFound
  rcases Nat.lt_trichotomy first second with before | same | after
  · exact (apart _ _ _ _ before inFirst inSecond).elim
  · exact same
  · exact (apart _ _ _ _ after inSecond inFirst).elim

/-- Where every node is the root, a child or one of the others, which have no children, and no two
of these at once, nothing but the others is out of reach. -/
theorem not_reaches_iff {others : List NodeId} {accepted : NameId → Prop}
    (tidy : arena.Tidy accepted)
    (each : (arena.nodes.toList.flatMap Node.children ++ root :: others).Perm
      (List.range arena.size))
    (childless : ∀ id ∈ others, ∀ child, ¬arena.Parent id child) {id : NodeId}
    (inside : id < arena.size) : ¬arena.Reaches root id ↔ id ∈ others := by
  have once := each.nodup_iff.mpr List.nodup_range
  obtain ⟨_, restOnce, apart⟩ := List.nodup_append.mp once
  constructor
  · intro unreached
    by_contra notOther
    refine unreached ?_
    clear unreached
    -- parents come after their children, so the walk up ends
    induction gap : arena.size - id using Nat.strong_induction_on generalizing id with
    | _ gap ih =>
        rcases List.mem_append.mp (each.mem_iff.mpr (List.mem_range.mpr inside)) with child | rest
        · obtain ⟨parent, refers⟩ := mem_children_iff.mp child
          have above := tidy.child_lt refers
          have parentInside := refers.lt_size
          have closer := gap ▸ Nat.sub_lt_sub_left inside above
          have notOtherParent : parent ∉ others := fun among =>
            childless parent among _ refers
          exact .child (ih _ closer parentInside notOtherParent rfl) refers
        · rcases List.mem_cons.mp rest with rfl | among
          · exact .root
          · exact (notOther among).elim
  · intro among reached
    cases reached with
    | root => exact (List.nodup_cons.mp restOnce).1 among
    | child reached refers =>
        exact apart _ (mem_children_iff.mpr ⟨_, refers⟩) _ (List.mem_cons_of_mem _ among) rfl

theorem node?_append_size (arena : Arena) (node : Node) (more : List Node) :
    (arena.append (node :: more)).node? arena.size = some node := by
  rw [← List.singleton_append, ← append_append]
  exact extends_append _ more _ _ (arena.node?_add_size node)

theorem node?_targets {number : String → NameId} {bindings : List (String × Tree String)}
    (grown : later.Extends (arena.append (sideNodes number bindings arena.size))) :
    (targets bindings arena.size).map later.node? =
      bindings.map fun binding => some (.var (number binding.1)) := by
  induction bindings generalizing arena with
  | nil => rfl
  | cons binding bindings ih =>
      obtain ⟨name, side⟩ := binding
      let first := Node.var (number name) :: side.nodes number (arena.size + 1)
      have size : (arena.append first).size = arena.size + 1 + side.size := by
        rw [size_append, List.length_cons, Tree.length_nodes, Nat.add_assoc, Nat.add_comm 1]
      have target := grown _ _ (arena.node?_append_size _ _)
      have rest := @ih (arena.append first)
      rw [append_append, size] at rest
      rw [targets, List.map_cons, List.map_cons, target]
      exact congrArg _ (rest grown)

/-- Around a body that splits, each pair of nodes that binds a name splits off one more. -/
theorem splitFrom?_binders {binders inner : List (NameId × NodeId)} {layers : Nat} {last : NodeId}
    (grown : later.Extends (arena.append (binderNodes binders root arena.size)))
    (split : Program.splitFrom? later layers root = some (inner, last)) :
    Program.splitFrom? later (layers + binders.length) (binderRoot binders root arena.size) =
      some (binders.reverse ++ inner, last) := by
  induction binders generalizing arena root layers inner with
  | nil => exact split
  | cons binder earlier ih =>
      obtain ⟨name, side⟩ := binder
      let pair := [Node.lambda name root, .apply arena.size side]
      have size : (arena.append pair).size = arena.size + 2 := size_append _ _
      have rest := @ih (arena.append pair) (arena.size + 1) ((name, side) :: inner) (layers + 1)
      rw [append_append, size] at rest
      have binder := grown _ _ (arena.node?_append_size _ _)
      have outer : later.node? (arena.size + 1) = some (.apply arena.size side) := by
        refine grown _ _ ?_
        have second := node?_append_size (arena.append [.lambda name root])
          (.apply arena.size side) (binderNodes earlier (arena.size + 1) (arena.size + 2))
        rw [append_append, size_append] at second
        exact second
      have found := rest grown (Program.splitFrom?_assignment outer binder split)
      rw [List.reverse_cons, List.append_assoc, List.length_cons, ← Nat.add_assoc,
        Nat.add_right_comm]
      exact found

end Arena

structure Program.LaidOut (program : Program) (names : NameTable) (number : String → NameId)
    (bindings : List (String × Tree String)) (body : Tree String) : Prop where
  nodes : program.arena.nodes.toList = programNodes number bindings body
  last : program.root + 1 = program.arena.size
  earlier : ∀ parent child, program.arena.Parent parent child → child < parent
  single : ∀ first second child, program.arena.Parent first child →
    program.arena.Parent second child → first = second
  named : (targets bindings 0).map program.arena.node? =
    bindings.map fun binding => some (.var (number binding.1))
  distinct : (targets bindings 0).Nodup
  unreached : ∀ id < program.arena.size,
    ¬program.arena.Reaches program.root id ↔ id ∈ targets bindings 0
  tree : program.namedTree? names = some (body.wrap bindings)
  size : program.arena.size = (body.wrap bindings).size + bindings.length
  split : program.split? = some (sides number bindings 0, body.rootId (room bindings))

theorem Program.laidOut {program : Program} {names : NameTable} {number : String → NameId}
    {bindings : List (String × Tree String)} {body : Tree String} {accepted : NameId → Prop}
    (arena : program.arena = Arena.empty.append (programNodes number bindings body))
    (root : program.root = programRoot number bindings body)
    (assignments : program.assignments = bindings.length)
    (tidy : program.arena.Tidy accepted)
    (tree : program.namedTree? names = some (body.wrap bindings)) :
    program.LaidOut names number bindings body := by
  have nodes : program.arena.nodes.toList = programNodes number bindings body := by
    rw [arena, Arena.append, Arena.empty, Array.empty_append]
  have size : program.arena.size = (programNodes number bindings body).length := by
    rw [← nodes, Array.length_toList, Arena.size]
  have each := children_programNodes number bindings body
  rw [← nodes, ← root, nodes, ← size, ← nodes] at each
  have once := each.nodup_iff.mpr List.nodup_range
  have front : program.arena.Extends (Arena.empty.append (sideNodes number bindings 0)) := by
    rw [arena, programNodes, List.append_assoc, ← Arena.append_append]
    exact Arena.extends_append _ _
  have named := @Arena.node?_targets .empty program.arena number bindings front
  have childless : ∀ id ∈ targets bindings 0, ∀ child, ¬program.arena.Parent id child := by
    rintro id among child ⟨node, found, inNode⟩
    have listed : program.arena.node? id ∈ (targets bindings 0).map program.arena.node? :=
      List.mem_map_of_mem among
    obtain ⟨binding, _, isVar⟩ := List.mem_map.mp (named ▸ listed)
    cases isVar.trans found
    exact List.not_mem_nil inNode
  refine ⟨nodes, ?_, fun _ _ => tidy.child_lt, fun _ _ _ => Arena.parent_unique ?_, named, ?_,
    fun _ => Arena.not_reaches_iff tidy each childless, tree, ?_, ?_⟩
  · rw [root, programRoot, binderRoot_succ (body.rootId_succ _), size, length_programNodes,
      List.length_reverse, length_sides]
  · exact (List.nodup_append.mp once).1
  · exact (List.nodup_cons.mp (List.nodup_append.mp once).2.1).2
  · rw [size, length_programNodes, Tree.size_wrap]
    omega
  · let inner := Arena.empty.append (sideNodes number bindings 0 ++
      body.nodes number (room bindings))
    have innerSize : inner.size = room bindings + body.size := by
      rw [Arena.size_append, List.length_append, length_sideNodes, Tree.length_nodes]
      exact Nat.zero_add _
    have grown : program.arena.Extends (inner.append (binderNodes (sides number bindings 0).reverse
        (body.rootId (room bindings)) inner.size)) := by
      rw [innerSize, Arena.append_append, arena, programNodes]
      exact .refl _
    have split := Arena.splitFrom?_binders grown (show splitFrom? _ 0 _ = _ from rfl)
    rw [innerSize, List.reverse_reverse, List.append_nil, List.length_reverse, length_sides,
      Nat.zero_add] at split
    rw [split?, root, assignments]
    exact split

/-- Parsed with a fresh table, a source is laid out node by node, and the table holds the empty text
and then the names of the source, each once, in the order in which they first occur. -/
theorem Program.lays_out_in_postorder {source : String} {names : NameTable} {program : Program}
    (parsed : parse (.ofString source) .empty = (.ok program, names)) :
    ∃ derivation : Derivation (uncommented false source.toList),
      names.texts.toList = ("" :: derivation.script.words).eraseDups ∧ names.Regular ∧
        program.assignments = derivation.script.bindings.length ∧
        program.LaidOut names names.texts.toList.idxOf derivation.script.bindings
          derivation.script.last := by
  obtain ⟨derivation, laid, assignments⟩ := exists_derivation_of_parse parsed
  obtain ⟨again, later, sameParse, tree, _⟩ :=
    ((parsesAs_iff_derivation source .refl).1 _ _).mpr ⟨derivation, rfl, rfl⟩
  cases parsed.symm.trans sameParse
  obtain ⟨_, tidy, _⟩ := tidy_parse parsed
  have regular := NameTable.regular_empty.internAll derivation.script.words
  rw [derivation.script.layOut_eq [] .empty regular.agrees] at laid
  obtain ⟨root, rest⟩ := Prod.mk.inj laid
  obtain ⟨table, arena⟩ := Prod.mk.inj rest
  rw [← table] at regular root arena
  have start : Arena.empty.size + room derivation.script.bindings =
      room derivation.script.bindings := Nat.zero_add _
  rw [start, List.append_nil] at root arena
  have count := assignments.trans derivation.script.length_bindings.symm
  rw [← derivation.script.wrap_bindings] at tree
  refine ⟨derivation, ?_, regular, count, laidOut arena root count tidy tree⟩
  have first : NameTable.empty.texts.toList = [""].eraseDups := by decide
  rw [table]
  exact NameTable.regular_empty.texts_internAll first _

def shadowedAssignment : Program where
  arena := ⟨#[.var 1, .var 2, .lambda 2 1, .var 1, .var 1, .var 3, .apply 4 5, .var 1, .var 1,
    .apply 7 8, .lambda 1 9, .apply 10 6, .lambda 1 11, .apply 12 2]⟩
  root := 13
  assignments := 2

theorem Program.shadowedAssignment_lays_out :
    ∃ names, parse (.ofString "f = \\x.x  f = (f y)  (f f)") .empty =
        (.ok shadowedAssignment, names) ∧
      ∃ derivation : Derivation (uncommented false "f = \\x.x  f = (f y)  (f f)".toList),
        names.texts.toList = ("" :: derivation.script.words).eraseDups ∧ names.Regular ∧
          shadowedAssignment.assignments = derivation.script.bindings.length ∧
          shadowedAssignment.LaidOut names names.texts.toList.idxOf derivation.script.bindings
            derivation.script.last := by
  have program : (parse (.ofString "f = \\x.x  f = (f y)  (f f)") .empty).1 =
      .ok shadowedAssignment := by decide +kernel
  have parsed : parse (.ofString "f = \\x.x  f = (f y)  (f f)") .empty = (.ok shadowedAssignment,
      (parse (.ofString "f = \\x.x  f = (f y)  (f f)") .empty).2) := Prod.ext program rfl
  exact ⟨_, parsed, lays_out_in_postorder parsed⟩

end LambdaMachine
