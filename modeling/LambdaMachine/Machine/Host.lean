import LambdaMachine.Machine.Error
import LambdaMachine.Value.Mint

/-!
The host: what its functions do. They may number names, make new instances, keep values and change
the outside world, of which the evaluator knows nothing.
-/

namespace LambdaMachine

/-- A value, and whether getting it again would be the same. It would not after a step that the
outside can notice. -/
structure Evaluated where
  value : Value
  cacheable : Bool

structure Reply (World : Type) where
  result : Except BuiltinError Evaluated
  mint : Mint
  world : World

structure Host (World : Type) where
  apply : Builtin → Value → Mint → World → Reply World
  /-- The values that are kept outside, which stay alive with all that they hold. -/
  kept : World → List Value

end LambdaMachine
