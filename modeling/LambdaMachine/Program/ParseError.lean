import LambdaMachine.Source.Error

/-!
Why a source is not a program.
-/

namespace LambdaMachine

/-- The characters do not form a program. In `found`, `none` is the end of the input. -/
inductive SyntaxError where
  | unexpected (error : Mismatch)
  | expressionExpected (found : Option Char) (offset : Nat)
  | nameExpected (found : Option Char) (offset : Nat)
  /-- The input ends inside the group opened at this offset. -/
  | unclosedGroup (opening : Nat)
  /-- The expression at this offset is neither the last one nor the name of an assignment. -/
  | unparsedInput (offset : Nat)
  deriving DecidableEq

inductive ParseError where
  | stream (error : StreamError)
  | malformed (error : SyntaxError)
  /-- The parser ran out of its allowance, which `Program.parse` makes large enough. -/
  | exhausted
  deriving DecidableEq

def SyntaxError.message : SyntaxError → String
  | .unexpected error => error.message
  | .expressionExpected found offset =>
      "expected an expression at byte " ++ toString offset ++ ", found " ++ Rune.describe found
  | .nameExpected found offset =>
      "expected a variable name at byte " ++ toString offset ++ ", found " ++ Rune.describe found
  | .unclosedGroup opening =>
      "expected ')' to close the '(' at byte " ++ toString opening ++ ", found end of input"
  | .unparsedInput offset =>
      "unparsed code remaining after the expression at byte " ++ toString offset

def ParseError.message : ParseError → String
  | .stream error => "stream error: " ++ error.message
  | .malformed error => "syntax error: " ++ error.message
  | .exhausted => "parser allowance exhausted"

end LambdaMachine
