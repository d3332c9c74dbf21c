import LambdaMachine.Prelude.Host
import LambdaMachine.Value.Layout

/-!
The environment programs start in. It binds two names: one prints a numeral as a byte and returns
the numeral, the other ignores its argument and returns a pair that tells whether a byte was read,
and which. Both are closures over private environments, so no name of a program can get in between
them and the host.
-/

namespace LambdaMachine.Prelude

def printBody : Tree String :=
  .apply
    (.apply (.lambda "_" (.lambda "v" (.var "v")))
      (.apply (.var "print") (.apply (.apply (.var "n") (.var "next")) (.var "null"))))
    (.var "n")

def readBody : Tree String :=
  .apply (.var "read") (.var "x")

def printEnv (mint : Mint) : Env × Mint :=
  let (null, mint) := mint.intern "null"
  let (zero, mint) := mint.datum (.byte 0)
  let (print, mint) := mint.intern "print"
  let (printer, mint) := mint.builtin "print" .print .empty
  let (next, mint) := mint.intern "next"
  let (counter, mint) := mint.builtin "next" .next .empty
  let (env, mint) := mint.extend .empty null zero
  let (env, mint) := mint.extend env print printer
  mint.extend env next counter

def readEnv (mint : Mint) : Env × Mint :=
  let (read, mint) := mint.intern "read"
  let (reader, mint) := mint.builtin "read" .read .empty
  mint.extend .empty read reader

def extendAll : Env → List (String × Value) → Mint → Env × Mint
  | env, [], mint => (env, mint)
  | env, (name, value) :: rest, mint =>
      let (name, mint) := mint.intern name
      let (env, mint) := mint.extend env name value
      extendAll env rest mint

def environment (extra : List (String × Value)) (mint : Mint) : Env × Mint :=
  let (printEnv, mint) := printEnv mint
  let (readEnv, mint) := readEnv mint
  let (printName, mint) := mint.intern "PRINT_BYTE"
  let (printByte, mint) := mint.abstraction printEnv "n" printBody
  let (readName, mint) := mint.intern "READ_BYTE"
  let (readByte, mint) := mint.abstraction readEnv "x" readBody
  let (env, mint) := mint.extend .empty printName (.closure printByte)
  let (env, mint) := mint.extend env readName (.closure readByte)
  extendAll env extra mint

-- As for the encodings of numbers: laid out by its equation only.
attribute [irreducible] environment

end LambdaMachine.Prelude
