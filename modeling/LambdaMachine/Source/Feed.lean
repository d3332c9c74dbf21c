/-!
A source that is read piece by piece. What a reader delivers is flattened into single events, so
that the pieces' borders cannot matter.
-/

namespace LambdaMachine

/-- One answer of a reader to a request for more bytes. An empty piece reports the end of the
input once; a later request may still be answered. -/
inductive Delivery where
  | bytes (piece : List UInt8)
  | failure (text : String)
  | interruption

inductive Event where
  | byte (byte : UInt8)
  | finish
  | failure (text : String)
  | interruption

/-- What is still to come; past the last event the input has ended for good. -/
abbrev Feed := List Event

def Delivery.events : Delivery → List Event
  | .bytes [] => [.finish]
  | .bytes piece => piece.map .byte
  | .failure text => [.failure text]
  | .interruption => [.interruption]

namespace Feed

def ofDeliveries (deliveries : List Delivery) : Feed :=
  deliveries.flatMap Delivery.events

def ofBytes (bytes : List UInt8) : Feed :=
  bytes.map .byte

def ofString (text : String) : Feed :=
  ofBytes text.toUTF8.toList

def nextByte : Feed → Except String (Option UInt8) × Feed
  | [] => (.ok none, [])
  | .byte byte :: rest => (.ok (some byte), rest)
  | .finish :: rest => (.ok none, rest)
  | .failure text :: rest => (.error text, rest)
  | .interruption :: rest => nextByte rest

end Feed

end LambdaMachine
