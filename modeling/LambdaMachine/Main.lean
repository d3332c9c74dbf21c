import LambdaMachine.Command.Line

/-!
The command line as a process. The steps of an evaluation are taken one at a time, so that printed
bytes appear at once and the standard input is read only when the program asks for it.
-/

namespace LambdaMachine

def failureText : IO.Error → String
  | .noFileOrDirectory _ code details | .inappropriateType _ code details
  | .permissionDenied _ code details | .invalidArgument _ code details
  | .resourceExhausted _ code details | .noSuchThing _ code details
  | .otherError code details => details ++ " (os error " ++ toString code ++ ")"
  | error => toString error

/-- Everything in an opened file. What can be opened and not read, as a directory, delivers nothing
but the failure. -/
def readWhole (handle : IO.FS.Handle) : IO OpenedFile := do
  try return .feed (Feed.ofBytes (← handle.readBinToEnd).toList)
  catch error => return .feed [.failure (failureText error)]

def openFile (path : String) : IO (Except String OpenedFile) := do
  try return .ok (← readWhole (← IO.FS.Handle.mk path .read))
  catch error => return .error (failureText error)

partial def readAll (stream : IO.FS.Stream) (bytes : ByteArray) : IO ByteArray := do
  let piece ← stream.read 65536
  if piece.isEmpty then return bytes else readAll stream (bytes ++ piece)

def supplyInput (io : ByteIo) : IO ByteIo := do
  match io.input with
  | .reader [] false =>
      let piece ← (← IO.getStdin).read 1
      if piece.isEmpty then return io
      else return { io with input := .reader (Feed.ofBytes piece.toList) false }
  | _ => return io

def attemptOutput (act : IO.FS.Stream → IO Unit) (io : ByteIo) : IO ByteIo := do
  match io.output with
  | .stdout _ =>
      let outcome ← try act (← IO.getStdout); pure none
        catch error => pure (some (failureText error))
      return { io with output := .stdout ⟨[outcome], #[]⟩ }
  | .captured _ | .silent => return io

def attendTo (focus : Focus) (stack : List Frame) (io : ByteIo) : IO ByteIo := do
  match focus, stack with
  | .value _ arg, .call _ ⟨.builtin function, _⟩ :: _ =>
      match function.operation, arg.value.byte? with
      | .read, _ => supplyInput io
      | .print, some octet =>
          attemptOutput (fun stdout => do stdout.write (ByteArray.mk #[octet]); stdout.flush) io
      | _, _ => return io
  | _, _ => return io

partial def drive (machine : Machine Surroundings) (focus : Focus) (stack : List Frame)
    (state : MachineState Surroundings) :
    IO (Except EvalError Evaluated × MachineState Surroundings) := do
  let io ← attendTo focus stack state.world.io
  match machine.step focus stack { state with world := { state.world with io } } with
  | .moved focus stack state => drive machine focus stack state
  | .halted outcome state =>
      let io ← attemptOutput (·.flush) state.world.io
      return (outcome, { state with world := { state.world with io } })

def runCommand (options : Options) (paths : List String) : IO CommandLine.Exit := do
  let stdin ← if paths.isEmpty then readAll (← IO.getStdin) .empty else pure .empty
  let files ← paths.mapM fun path => do return (path, ← openFile path)
  match CommandLine.sources files stdin.toList with
  | .error error => return ⟨1, [], CommandLine.failureText error⟩
  | .ok (source, input) =>
      match Command.prepare source options ⟨Command.stdioFor options.mode, input⟩ {} with
      | .inl report => return .ofReport report
      | .inr start =>
          let (outcome, state) ← drive start.machine start.focus [] start.state
          return .ofReport (Command.conclude options {} outcome state)

end LambdaMachine

def main (args : List String) : IO UInt32 := do
  let exit ← match LambdaMachine.CommandLine.read args with
    | .help => pure .ofHelp
    | .refused reason => pure (.ofRefusal reason)
    | .command options paths => LambdaMachine.runCommand options paths
  (← IO.getStdout).write (ByteArray.mk exit.stdout.toArray)
  (← IO.getStdout).flush
  IO.eprint exit.stderr
  return exit.code.toUInt32
