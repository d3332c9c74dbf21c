import LambdaMachine.Proofs.Term.Arena
import LambdaMachine.Proofs.Term.Numbering
import LambdaMachine.Value.Layout
import Mathlib.Data.List.Perm.Basic

/-!
The nodes that laying a tree out appends, in closed form: the nodes of the tree in post-order. Each
of them but the last one is the child of exactly one other.
-/

namespace LambdaMachine

def Node.children : Node → List NodeId
  | .var _ => []
  | .lambda _ body => [body]
  | .apply func arg => [func, arg]

namespace Arena

def append (arena : Arena) (nodes : List Node) : Arena :=
  ⟨arena.nodes ++ nodes.toArray⟩

theorem append_nil (arena : Arena) : arena.append [] = arena := by
  rw [append, Array.append_empty]

theorem append_append (arena : Arena) (nodes more : List Node) :
    (arena.append nodes).append more = arena.append (nodes ++ more) := by
  simp only [append, Array.append_assoc, List.append_toArray]

theorem size_append (arena : Arena) (nodes : List Node) :
    (arena.append nodes).size = arena.size + nodes.length := by
  exact Array.size_append.trans (congrArg _ List.size_toArray)

theorem extends_append (arena : Arena) (nodes : List Node) :
    (arena.append nodes).Extends arena := by
  intro id node found
  have inside : id < arena.nodes.size := lt_size_iff.mpr ⟨node, found⟩
  exact (Array.getElem?_append_left inside).trans found

theorem add_append (arena : Arena) (nodes : List Node) (node : Node) :
    (arena.append nodes).add node =
      (arena.size + nodes.length, arena.append (nodes ++ [node])) := by
  rw [add, size_append, ← append_append arena nodes [node]]
  rfl

end Arena

namespace Tree

def size {ν : Type} : Tree ν → Nat
  | .var _ => 1
  | .lambda _ body => body.size + 1
  | .apply func arg => func.size + arg.size + 1

theorem size_pos {ν : Type} (tree : Tree ν) : 0 < tree.size := by
  cases tree <;> exact Nat.succ_pos _

def names : Tree String → List String
  | .var name => [name]
  | .lambda param body => param :: body.names
  | .apply func arg => func.names ++ arg.names

def rootId {ν : Type} (tree : Tree ν) (base : NodeId) : NodeId :=
  base + (tree.size - 1)

def nodes (number : String → NameId) : Tree String → NodeId → List Node
  | .var name, _ => [.var (number name)]
  | .lambda param body, base =>
      body.nodes number base ++ [.lambda (number param) (body.rootId base)]
  | .apply func arg, base =>
      func.nodes number base ++ arg.nodes number (base + func.size) ++
        [.apply (func.rootId base) (arg.rootId (base + func.size))]

theorem length_nodes (number : String → NameId) (tree : Tree String) (base : NodeId) :
    (tree.nodes number base).length = tree.size := by
  induction tree generalizing base with
  | var name => rfl
  | lambda param body ih => rw [nodes, List.length_append, ih]; rfl
  | apply func arg funcIh argIh =>
      rw [nodes, List.length_append, List.length_append, funcIh, argIh]; rfl

theorem layOut_eq {number : String → NameId} (tree : Tree String) {table : NameTable}
    (arena : Arena) (agrees : NameTable.Agrees number (table.internAll tree.names)) :
    tree.layOut table arena = (tree.rootId arena.size, table.internAll tree.names,
      arena.append (tree.nodes number arena.size)) := by
  induction tree generalizing table arena with
  | var name =>
      have same : (table.intern name).1 = number name := NameTable.Agrees.intern agrees
      rw [layOut, nodes, ← same]
      rfl
  | lambda param body ih =>
      have known : (table.intern param).1 = number param :=
        (NameTable.Agrees.mono agrees (NameTable.extends_internAll _ body.names)).intern
      rw [layOut]
      dsimp only
      rw [ih arena agrees]
      dsimp only
      rw [Arena.add_append, length_nodes, nodes, known]
      rfl
  | apply func arg funcIh argIh =>
      rw [names, NameTable.internAll_append] at agrees ⊢
      have earlier := agrees.mono (NameTable.extends_internAll _ arg.names)
      rw [layOut]
      dsimp only
      rw [funcIh arena earlier]
      dsimp only
      rw [argIh _ agrees]
      dsimp only
      rw [Arena.append_append, Arena.add_append, Arena.size_append, List.length_append,
        length_nodes, length_nodes, nodes]
      rfl

theorem rootId_lambda (param : String) (body : Tree String) (base : NodeId) :
    (Tree.lambda param body).rootId base = base + body.size :=
  rfl

theorem rootId_apply (func arg : Tree String) (base : NodeId) :
    (Tree.apply func arg).rootId base = base + (func.size + arg.size) :=
  rfl

/-- Every node of a tree is the root of the tree or a child, and no node is a child twice. -/
theorem children_nodes (number : String → NameId) (tree : Tree String) (base : NodeId) :
    ((tree.nodes number base).flatMap Node.children ++ [tree.rootId base]).Perm
      (List.range' base tree.size) := by
  induction tree generalizing base with
  | var name => exact .refl _
  | lambda param body ih =>
      rw [nodes, List.flatMap_append, rootId_lambda, size, List.range'_1_concat]
      exact (ih base).append_right _
  | apply func arg funcIh argIh =>
      have left := funcIh base
      have right := argIh (base + func.size)
      rw [nodes, List.flatMap_append, List.flatMap_append, rootId_apply, size,
        List.range'_1_concat, ← List.range'_append_1]
      refine List.Perm.append_right _ (.trans ?_ (left.append right))
      generalize (func.nodes number base).flatMap Node.children = funcs
      generalize (arg.nodes number (base + func.size)).flatMap Node.children = args
      rw [List.append_assoc, List.append_assoc]
      refine List.Perm.append_left funcs ?_
      exact (List.perm_middle).trans (.refl _)

end Tree

end LambdaMachine
