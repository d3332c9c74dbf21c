import LambdaMachine.Value.Mint

/-!
Laying trees out in arenas: names are numbered in the order in which they are written, and a node
comes after its parts.
-/

namespace LambdaMachine

def Tree.layOut : Tree String → NameTable → Arena → NodeId × NameTable × Arena
  | .var name, names, arena =>
      let (name, names) := names.intern name
      let (id, arena) := arena.add (.var name)
      (id, names, arena)
  | .lambda param body, names, arena =>
      let (param, names) := names.intern param
      let (body, names, arena) := body.layOut names arena
      let (id, arena) := arena.add (.lambda param body)
      (id, names, arena)
  | .apply func arg, names, arena =>
      let (func, names, arena) := func.layOut names arena
      let (arg, names, arena) := arg.layOut names arena
      let (id, arena) := arena.add (.apply func arg)
      (id, names, arena)

def Mint.abstraction (mint : Mint) (env : Env) (param : String) (body : Tree String) :
    Closure × Mint :=
  let (param, names) := mint.names.intern param
  let (body, names, arena) := body.layOut names .empty
  let (_, arena) := arena.add (.lambda param body)
  { mint with names }.closureOver env param body arena

end LambdaMachine
