import LambdaMachine.Text.Glyphless

/-!
Quoted characters and strings, as messages show them: the usual two-letter escapes, the number of
a character that has no glyph, and every other character as it is.
-/

namespace LambdaMachine.Text

def hexadecimal (number : Nat) : String :=
  String.ofList (Nat.toDigits 16 number)

def hexByte (byte : UInt8) : String :=
  String.singleton (Nat.digitChar (byte.toNat / 16))
    ++ String.singleton (Nat.digitChar (byte.toNat % 16))

def numericEscape (rune : Char) : String :=
  "\\u\x7b" ++ hexadecimal rune.toNat ++ "\x7d"

def escape (mark rune : Char) : String :=
  if rune = '\x00' then "\\0"
  else if rune = '\t' then "\\t"
  else if rune = '\r' then "\\r"
  else if rune = '\n' then "\\n"
  else if rune = '\\' then "\\\\"
  else if rune = mark then "\\" ++ String.singleton mark
  else if lacksGlyph rune then numericEscape rune
  else String.singleton rune

def apostrophe : Char := Char.ofNat 39

def doubleQuote : Char := Char.ofNat 34

def quoteRune (rune : Char) : String :=
  String.singleton apostrophe ++ escape apostrophe rune ++ String.singleton apostrophe

def quoteString (text : String) : String :=
  String.singleton doubleQuote ++ String.join (text.toList.map (escape doubleQuote))
    ++ String.singleton doubleQuote

end LambdaMachine.Text
