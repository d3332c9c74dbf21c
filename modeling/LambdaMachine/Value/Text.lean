import LambdaMachine.Value.Basic

/-!
How values are shown: as a program's result, and part by part.
-/

namespace LambdaMachine

def Datum.text : Datum → String
  | .byte octet => "byte(" ++ Text.hexByte octet ++ ")"
  | .count number => "count(" ++ toString number.toNat ++ ")"
  | .other _ text _ _ => text

def Datum.inspect : Datum → String
  | .byte octet => "Byte(" ++ toString octet.toNat ++ ")"
  | .count number => "Count(" ++ toString number.toNat ++ ")"
  | .other _ _ inspected _ => inspected

/-- The abstraction of a closure. A closure whose body lies outside its arena has no text, and the
evaluator makes none. -/
def Closure.text (closure : Closure) (names : NameTable) : String :=
  String.singleton Rune.lambda ++ names.text closure.param ++ "."
    ++ (closure.code.arena.text? names closure.body).getD ""

def Env.inspect (env : Env) : String :=
  "[" ++ String.intercalate ", " (env.bindings.map fun binding => NameId.inspect binding.1) ++ "]"

namespace Value

def text (value : Value) (names : NameTable) : String :=
  match value with
  | .closure abstraction => abstraction.text names
  | .builtin function => "builtin(" ++ function.name ++ ")"
  | .datum _ data => data.text

def inspect : Value → String
  | .closure abstraction =>
      "Closure(Closure \x7b param: " ++ NameId.inspect abstraction.param ++ ", body: "
        ++ NodeId.inspect abstraction.body ++ ", env_depth: " ++ toString abstraction.env.depth
        ++ ", .. \x7d)"
  | .builtin function => "Builtin(Builtin(" ++ Text.quoteString function.name ++ "))"
  | .datum _ data => "Host(" ++ data.inspect ++ ")"

end Value

end LambdaMachine
