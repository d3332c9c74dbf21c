import LambdaMachine.Value.Basic

/-!
Descriptions of values that a host can make.
-/

namespace LambdaMachine

inductive Recipe where
  | datum (datum : Datum)
  | numeral (count : Nat)
  | truth (value : Bool)
  | pair (first second : Recipe)
  | function (name : String) (operation : Operation)
  /-- A host function that keeps a value and returns it. -/
  | constant (name : String) (cacheable : Bool) (value : Recipe)
  | identity
  | reference (name : String)
  deriving Inhabited

end LambdaMachine
