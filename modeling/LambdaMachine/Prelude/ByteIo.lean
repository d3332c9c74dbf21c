import LambdaMachine.Source.Feed

/-!
Where the bytes that programs print go to, and where those that they read come from. The end of the
input is permanent.
-/

namespace LambdaMachine

/-- A stream outside, which can fail: what becomes of each attempt to write a byte or to flush, in
order, and what has been written so far. `none` is success, and so is all that is not listed. -/
structure Stdout where
  attempts : List (Option String)
  written : Array UInt8

namespace Stdout

def failure (stream : Stdout) : Option String :=
  stream.attempts.head?.join

def write (byte : UInt8) (stream : Stdout) : Stdout where
  attempts := stream.attempts.tail
  written := if stream.failure.isSome then stream.written else stream.written.push byte

def flush (stream : Stdout) : Stdout :=
  { stream with attempts := stream.attempts.tail }

end Stdout

inductive Output where
  | stdout (stream : Stdout)
  | captured (bytes : Array UInt8)
  /-- Printing does nothing, and nobody can notice it. -/
  | silent

namespace Output

def failure : Output → Option String
  | .stdout stream => stream.failure
  | .captured _ | .silent => none

def write (byte : UInt8) : Output → Output
  | .stdout stream => .stdout (stream.write byte)
  | .captured bytes => .captured (bytes.push byte)
  | .silent => .silent

def flush : Output → Output
  | .stdout stream => .stdout stream.flush
  | .captured bytes => .captured bytes
  | .silent => .silent

def isSilent : Output → Bool
  | .stdout _ | .captured _ => false
  | .silent => true

def bytes : Output → List UInt8
  | .captured bytes => bytes.toList
  | .stdout _ | .silent => []

def printed : Output → List UInt8
  | .stdout stream => stream.written.toList
  | .captured bytes => bytes.toList
  | .silent => []

end Output

inductive Input where
  | empty
  | buffer (bytes : List UInt8)
  /-- A reader is asked for bytes until it reports an end for the first time. -/
  | reader (feed : Feed) (ended : Bool)

def Input.read : Input → Except String (Option UInt8) × Input
  | .empty => (.ok none, .empty)
  | .buffer [] => (.ok none, .buffer [])
  | .buffer (byte :: bytes) => (.ok (some byte), .buffer bytes)
  | .reader feed true => (.ok none, .reader feed true)
  | .reader feed false =>
      match feed.nextByte with
      | (.ok none, feed) => (.ok none, .reader feed true)
      | (answer, feed) => (answer, .reader feed false)

structure ByteIo where
  output : Output
  input : Input

def ByteIo.write (io : ByteIo) (byte : UInt8) : ByteIo :=
  { io with output := io.output.write byte }

def ByteIo.flush (io : ByteIo) : ByteIo :=
  { io with output := io.output.flush }

def ByteIo.read (io : ByteIo) : Except String (Option UInt8) × ByteIo :=
  let (answer, input) := io.input.read
  (answer, { io with input })

end LambdaMachine
