import LambdaMachine.Source.Rune

/-!
Why the next character of a source cannot be had, or is not the one that was wanted.
-/

namespace LambdaMachine

inductive StreamError where
  | io (text : String)
  | encoding (offset : Nat)
  deriving DecidableEq

structure Mismatch where
  expected : List Char
  found : Option Char
  offset : Nat
  deriving DecidableEq

inductive ExpectError where
  | stream (error : StreamError)
  | mismatch (error : Mismatch)
  deriving DecidableEq

def StreamError.message : StreamError → String
  | .io text => "failed to read source: " ++ text
  | .encoding offset => "invalid encoding at byte " ++ toString offset

def Mismatch.message (error : Mismatch) : String :=
  "unexpected " ++ Rune.describe error.found ++ " at byte " ++ toString error.offset
    ++ ": expected " ++ Rune.describeSet error.expected

def ExpectError.message : ExpectError → String
  | .stream error => error.message
  | .mismatch error => error.message

end LambdaMachine
