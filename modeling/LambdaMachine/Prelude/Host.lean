import LambdaMachine.Machine.Host
import LambdaMachine.Prelude.ByteIo
import LambdaMachine.Value.Church
import LambdaMachine.Value.Text

/-!
The host functions: printing, counting up and reading bytes, and functions that note their calls.
-/

namespace LambdaMachine

/-- What host functions can reach: the bytes in and out, and the notes of calls. -/
structure Surroundings where
  io : ByteIo
  notes : Array String

def Value.byte? : Value → Option UInt8
  | .datum _ (.byte octet) => some octet
  | _ => none

def Value.count? : Value → Option UInt64
  | .datum _ (.count number) => some number
  | _ => none

namespace Surroundings

def print (arg : Value) (mint : Mint) (world : Surroundings) : Reply Surroundings :=
  match arg.byte? with
  | none => ⟨.error (.wrongKind "byte" arg.kind), mint, world⟩
  | some octet =>
      if world.io.output.isSilent then ⟨.ok ⟨arg, true⟩, mint, world⟩
      else
        let result := match world.io.output.failure with
          | some text => .error (.host text)
          | none => .ok ⟨arg, false⟩
        ⟨result, mint, { world with io := world.io.write octet }⟩

def next (arg : Value) (mint : Mint) (world : Surroundings) : Reply Surroundings :=
  match arg.byte? with
  | none => ⟨.error (.wrongKind "byte" arg.kind), mint, world⟩
  | some octet =>
      let (value, mint) := mint.datum (.byte (octet + 1))
      ⟨.ok ⟨value, true⟩, mint, world⟩

def readPair (byte : Option UInt8) (mint : Mint) : Value × Mint :=
  let (found, mint) := Church.truth byte.isSome mint
  let (number, mint) := Church.numeral (byte.getD 0).toNat mint
  Church.pair found number mint

/-- Reads a byte. At the end of the input there is nothing to notice, and later attempts end the
same way. -/
def read (mint : Mint) (world : Surroundings) : Reply Surroundings :=
  let (answer, io) := world.io.read
  let world := { world with io }
  match answer with
  | .error text => ⟨.error (.host text), mint, world⟩
  | .ok byte =>
      let (pair, mint) := readPair byte mint
      ⟨.ok ⟨pair, byte.isNone⟩, mint, world⟩

def note (name : String) (arg : Value) (mint : Mint) (world : Surroundings) : Surroundings :=
  { world with notes := world.notes.push (name ++ " " ++ arg.text mint.names) }

def host : Host Surroundings where
  apply function arg mint world :=
    match function.operation with
    | .print => print arg mint world
    | .next => next arg mint world
    | .read => read mint world
    | .echo cacheable => ⟨.ok ⟨arg, cacheable⟩, mint, note function.name arg mint world⟩
    | .successor cacheable =>
        let world := note function.name arg mint world
        match arg.count? with
        | none => ⟨.error (.wrongKind "count" arg.kind), mint, world⟩
        | some number =>
            let (value, mint) := mint.datum (.count (number + 1))
            ⟨.ok ⟨value, cacheable⟩, mint, world⟩
    | .refuse text => ⟨.error (.host text), mint, note function.name arg mint world⟩
    | .constant cacheable =>
        let value := match function.kept with
          | .bind _ _ value _ => value
          | .empty => arg
        ⟨.ok ⟨value, cacheable⟩, mint, note function.name arg mint world⟩
  kept _ := []

end Surroundings

end LambdaMachine
