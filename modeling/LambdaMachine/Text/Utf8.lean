/-!
UTF-8 as lists of bytes: the length a lead byte announces, the character of one whole sequence,
and the lossy reading that puts a replacement character for each maximal malformed part.
-/

namespace LambdaMachine.Utf8

def width? (lead : UInt8) : Option Nat :=
  if lead < 0x80 then some 1
  else if lead < 0xC2 then none
  else if lead < 0xE0 then some 2
  else if lead < 0xF0 then some 3
  else if lead < 0xF5 then some 4
  else none

def isContinuation (byte : UInt8) : Bool :=
  0x80 ≤ byte && byte < 0xC0

/-- May `second` follow `lead`? Four lead bytes narrow the range of continuation bytes, which rules
out overlong forms, surrogates and code points past the last one. -/
def secondFits (lead second : UInt8) : Bool :=
  if lead = 0xE0 then 0xA0 ≤ second && second < 0xC0
  else if lead = 0xED then 0x80 ≤ second && second < 0xA0
  else if lead = 0xF0 then 0x90 ≤ second && second < 0xC0
  else if lead = 0xF4 then 0x80 ≤ second && second < 0x90
  else isContinuation second

def scalar? (code : Nat) : Option Char :=
  if valid : code.isValidChar then some (Char.ofNatAux code valid) else none

def payload (byte : UInt8) : Nat :=
  byte.toNat - 0x80

def decode? : List UInt8 → Option Char
  | [a] => if width? a = some 1 then scalar? a.toNat else none
  | [a, b] =>
      if width? a = some 2 && secondFits a b then
        scalar? ((a.toNat - 0xC0) * 64 + payload b)
      else none
  | [a, b, c] =>
      if width? a = some 3 && secondFits a b && isContinuation c then
        scalar? (((a.toNat - 0xE0) * 64 + payload b) * 64 + payload c)
      else none
  | [a, b, c, d] =>
      if width? a = some 4 && secondFits a b && isContinuation c && isContinuation d then
        scalar? ((((a.toNat - 0xF0) * 64 + payload b) * 64 + payload c) * 64 + payload d)
      else none
  | _ => none

def replacement : Char := Char.ofNat 0xFFFD

def following (lead : UInt8) (rest : List UInt8) : List UInt8 :=
  match width? lead, rest with
  | some (width + 2), second :: more =>
      if secondFits lead second then second :: (more.take width).takeWhile isContinuation else []
  | _, _ => []

def lossyFrom : Nat → List UInt8 → List Char
  | _, [] => []
  | skip + 1, _ :: rest => lossyFrom skip rest
  | 0, lead :: rest =>
      let taken := following lead rest
      (decode? (lead :: taken)).getD replacement :: lossyFrom taken.length rest

def lossyText (bytes : List UInt8) : String :=
  String.ofList (lossyFrom 0 bytes)

end LambdaMachine.Utf8
