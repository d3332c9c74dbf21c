import LambdaMachine.Text.Quoted

/-!
The character classes of source text and how messages name characters and sets of them.
-/

namespace LambdaMachine.Rune

def lambdas : List Char :=
  ['Λ', 'λ', 'ᴧ', 'Ⲗ', 'ⲗ', '𝚲', '𝛌', '𝛬', '𝜆', '𝜦', '𝝀', '𝝠', '𝝺', '𝞚', '𝞴', '\\']

def lambda : Char := 'λ'

def dot : List Char := ['.']

def openParen : List Char := ['(']

def equals : List Char := ['=']

def comment : Char := '#'

def isLambda (rune : Char) : Bool :=
  lambdas.contains rune

def isBlank (rune : Char) : Bool :=
  let code := rune.toNat
  (0x9 ≤ code && code ≤ 0xD) || code == 0x20 || code == 0x85 || code == 0xA0 || code == 0x1680
    || (0x2000 ≤ code && code ≤ 0x200A) || code == 0x2028 || code == 0x2029 || code == 0x202F
    || code == 0x205F || code == 0x3000

def delimiters : List Char := ['(', ')', '.', '=']

def isNameRune (rune : Char) : Bool :=
  !isBlank rune && !delimiters.contains rune && !isLambda rune

def describe : Option Char → String
  | some rune => Text.quoteRune rune
  | none => "end of input"

def describeSet (runes : List Char) : String :=
  if runes = lambdas then "a lambda"
  else match runes with
    | [rune] => Text.quoteRune rune
    | many => "one of " ++ String.intercalate ", " (many.map Text.quoteRune)

end LambdaMachine.Rune
