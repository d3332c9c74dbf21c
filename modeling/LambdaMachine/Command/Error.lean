import LambdaMachine.Machine.Error
import LambdaMachine.Program.ParseError

/-!
Why a command stops.
-/

namespace LambdaMachine

inductive CommandError where
  | opening (path text : String)
  | parse (error : ParseError)
  | eval (error : EvalError)
  | output (text : String)
  deriving DecidableEq

def CommandError.message : CommandError → String
  | .opening path text => "failed to open '" ++ path ++ "': " ++ text
  | .parse error => error.message
  | .eval error => "runtime error: " ++ error.message
  | .output text => "failed to write output: " ++ text

end LambdaMachine
