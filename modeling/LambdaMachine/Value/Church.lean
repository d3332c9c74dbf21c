import LambdaMachine.Value.Mint

/-!
Numbers, truth values and pairs as closures. Each has an arena of its own, so it does not depend on
the program it is handed to.
-/

namespace LambdaMachine.Church

def iterate (func : NameId) : Nat → Arena → NodeId → NodeId × Arena
  | 0, arena, body => (body, arena)
  | count + 1, arena, body =>
      let (head, arena) := arena.add (.var func)
      let (body, arena) := arena.add (.apply head body)
      iterate func count arena body

/-- The closure that applies its first argument `count` times to its second. -/
def numeral (count : Nat) (mint : Mint) : Value × Mint :=
  let (f, mint) := mint.intern "f"
  let (x, mint) := mint.intern "x"
  let (start, arena) := Arena.empty.add (.var x)
  let (body, arena) := iterate f count arena start
  let (inner, arena) := arena.add (.lambda x body)
  let (closure, mint) := mint.closureOver .empty f inner arena
  (.closure closure, mint)

/-- The closure that returns its first argument for true and its second for false. -/
def truth (value : Bool) (mint : Mint) : Value × Mint :=
  let (t, mint) := mint.intern "t"
  let (f, mint) := mint.intern "f"
  let (chosen, arena) := Arena.empty.add (.var (if value then t else f))
  let (inner, arena) := arena.add (.lambda f chosen)
  let (closure, mint) := mint.closureOver .empty t inner arena
  (.closure closure, mint)

def pair (first second : Value) (mint : Mint) : Value × Mint :=
  let (p, mint) := mint.intern "p"
  let (firstName, mint) := mint.intern "first"
  let (secondName, mint) := mint.intern "second"
  let (selector, arena) := Arena.empty.add (.var p)
  let (firstRef, arena) := arena.add (.var firstName)
  let (secondRef, arena) := arena.add (.var secondName)
  let (half, arena) := arena.add (.apply selector firstRef)
  let (body, arena) := arena.add (.apply half secondRef)
  let (env, mint) := mint.extend .empty firstName first
  let (env, mint) := mint.extend env secondName second
  let (closure, mint) := mint.closureOver env p body arena
  (.closure closure, mint)

def identity (mint : Mint) : Closure × Mint :=
  let (x, mint) := mint.intern "x"
  let (body, arena) := Arena.empty.add (.var x)
  mint.closureOver .empty x body arena

-- No comparison up to computation is to build these closures; their equations open them.
attribute [irreducible] numeral truth pair identity

end LambdaMachine.Church
