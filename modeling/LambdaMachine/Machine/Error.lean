import LambdaMachine.Term.Arena

/-!
Why a call of a host function or a whole evaluation fails.
-/

namespace LambdaMachine

inductive BuiltinError where
  | wrongKind (expected found : String)
  | host (text : String)
  deriving DecidableEq

inductive EvalError where
  | unbound (name : String)
  | notCallable (kind : String)
  | wrongKind (builtin expected found : String)
  | hostFailed (builtin text : String)
  | stepLimit (limit : Nat)
  /-- A reference that leads outside its arena; programs that were parsed have none. -/
  | dangling (id : NodeId)
  deriving DecidableEq

def BuiltinError.message : BuiltinError → String
  | .wrongKind expected found => "expected " ++ expected ++ ", found " ++ found
  | .host text => text

def EvalError.ofBuiltin (builtin : String) : BuiltinError → EvalError
  | .wrongKind expected found => .wrongKind builtin expected found
  | .host text => .hostFailed builtin text

def EvalError.message : EvalError → String
  | .unbound name => "unbound variable '" ++ name ++ "'"
  | .notCallable kind => "cannot apply a value of kind " ++ kind
  | .wrongKind builtin expected found =>
      "builtin '" ++ builtin ++ "' expected " ++ expected ++ ", found " ++ found
  | .hostFailed builtin text => "builtin '" ++ builtin ++ "' failed: " ++ text
  | .stepLimit limit => "evaluation exceeded the limit of " ++ toString limit ++ " steps"
  | .dangling id => "no node " ++ toString id ++ " in the arena"

end LambdaMachine
