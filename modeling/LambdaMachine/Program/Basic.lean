import LambdaMachine.Term.Arena

/-!
Programs: an expression whose outermost layers may stand for assignments. The assignment of `e` to
`x` before a body is the application of the abstraction of `x` over the body to `e`.
-/

namespace LambdaMachine

structure Program where
  arena : Arena
  root : NodeId
  /-- How many of the outer layers are assignments. -/
  assignments : Nat
  deriving DecidableEq

namespace Program

/-- Peels off up to `layers` assignments. A layer of another shape ends the peeling; a reference
that leads outside the arena makes it `none`. -/
def splitFrom? (arena : Arena) : Nat → NodeId → Option (List (NameId × NodeId) × NodeId)
  | 0, id => some ([], id)
  | layers + 1, id =>
      match arena.node? id with
      | none => none
      | some (.apply func arg) =>
          match arena.node? func with
          | none => none
          | some (.lambda param body) => do
              let (bindings, last) ← splitFrom? arena layers body
              return ((param, arg) :: bindings, last)
          | some _ => some ([], id)
      | some _ => some ([], id)

def split? (program : Program) : Option (List (NameId × NodeId) × NodeId) :=
  splitFrom? program.arena program.assignments program.root

def line? (arena : Arena) (names : NameTable) (binding : NameId × NodeId) : Option String := do
  let side ← arena.text? names binding.2
  return names.text binding.1 ++ " = " ++ side ++ "\n"

def text? (program : Program) (names : NameTable) : Option String := do
  let (bindings, body) ← program.split?
  let lines ← bindings.mapM (line? program.arena names)
  let body ← program.arena.text? names body
  return String.join lines ++ (if bindings.isEmpty then "" else "\n") ++ body

/-- The text of the whole expression, with assignments as applications. -/
def rootText? (program : Program) (names : NameTable) : Option String :=
  program.arena.text? names program.root

end Program

end LambdaMachine
