import LambdaMachine.Term.Names
import LambdaMachine.Term.Tree

/-!
Expressions laid out in an arena: nodes in one array that refer to their parts by index.
-/

namespace LambdaMachine

abbrev NodeId := Nat

inductive Node where
  | var (name : NameId)
  | lambda (param : NameId) (body : NodeId)
  | apply (func arg : NodeId)
  deriving DecidableEq

structure Arena where
  nodes : Array Node
  deriving DecidableEq

namespace Arena

def empty : Arena := ⟨#[]⟩

def size (arena : Arena) : Nat :=
  arena.nodes.size

def add (arena : Arena) (node : Node) : NodeId × Arena :=
  (arena.size, ⟨arena.nodes.push node⟩)

def node? (arena : Arena) (id : NodeId) : Option Node :=
  arena.nodes[id]?

def treeWithin? (arena : Arena) : Nat → NodeId → Option (Tree NameId)
  | 0, _ => none
  | depth + 1, id =>
      match arena.node? id with
      | none => none
      | some (.var name) => some (.var name)
      | some (.lambda param body) => do
          let body ← arena.treeWithin? depth body
          return .lambda param body
      | some (.apply func arg) => do
          let func ← arena.treeWithin? depth func
          let arg ← arena.treeWithin? depth arg
          return .apply func arg

/-- The tree under a node; `none` if a reference leads outside the arena. No path that is free of
repetitions is longer than the arena, so its size is depth enough. -/
def tree? (arena : Arena) (id : NodeId) : Option (Tree NameId) :=
  arena.treeWithin? arena.size id

def text? (arena : Arena) (names : NameTable) (id : NodeId) : Option String :=
  (arena.tree? id).map fun tree => (tree.map names.text).text

end Arena

def NameId.inspect (name : NameId) : String :=
  "Name(" ++ toString name ++ ")"

def NodeId.inspect (id : NodeId) : String :=
  "ExprId(" ++ toString id ++ ")"

def Node.inspect : Node → String
  | .var name => "Var(" ++ NameId.inspect name ++ ")"
  | .lambda param body =>
      "Lambda \x7b param: " ++ NameId.inspect param ++ ", body: " ++ NodeId.inspect body ++ " \x7d"
  | .apply func arg =>
      "Apply \x7b func: " ++ NodeId.inspect func ++ ", arg: " ++ NodeId.inspect arg ++ " \x7d"

end LambdaMachine
