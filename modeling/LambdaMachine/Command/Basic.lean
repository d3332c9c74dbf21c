import LambdaMachine.Command.Error
import LambdaMachine.Machine.Basic
import LambdaMachine.Prelude.Environment
import LambdaMachine.Program.Parser
import LambdaMachine.Text.Utf8

/-!
What can be done with a program: print it, run it for the bytes it prints, or run it silently and
print its value.
-/

namespace LambdaMachine

inductive Mode where
  | parsed
  | output
  | result
  deriving DecidableEq

def Mode.ofString? : String → Option Mode
  | "parsed" => some .parsed
  | "output" => some .output
  | "result" => some .result
  | _ => none

def Mode.unknownMessage (word : String) : String :=
  "unknown mode '" ++ word ++ "'"

structure Options where
  mode : Mode
  /-- Print the program as one expression, without assignments. -/
  skipAssignments : Bool := false
  maxSteps : Option Nat := none

/-- Where a command writes its text. With a `failure`, every attempt to write fails for that
reason. -/
structure Sink where
  text : String := ""
  failure : Option String := none

def Sink.write (sink : Sink) (text : String) : Except CommandError Sink :=
  match sink.failure with
  | some reason => .error (.output reason)
  | none => .ok { sink with text := sink.text ++ text }

structure Report where
  outcome : Except CommandError Unit
  io : ByteIo
  sink : Sink

def Report.ofLine (io : ByteIo) (sink : Sink) (line : String) : Report :=
  match sink.write (line ++ "\n") with
  | .ok sink => ⟨.ok (), io, sink⟩
  | .error error => ⟨.error error, io, sink⟩

structure Launch where
  machine : Machine Surroundings
  focus : Focus
  state : MachineState Surroundings

namespace Command

def programText (options : Options) (program : Program) (names : NameTable) : String :=
  (if options.skipAssignments then program.rootText? names else program.text? names).getD ""

def launch (options : Options) (program : Program) (names : NameTable) (io : ByteIo) : Launch :=
  let (env, mint) := Prelude.environment [] { Mint.new with names }
  let (ident, mint) := mint.issue
  { machine := ⟨Surroundings.host, options.maxSteps, ⟨[env], []⟩⟩
    focus := .node env ⟨ident, program.arena⟩ program.root
    state := ⟨mint, .empty, {}, ⟨io, #[]⟩⟩ }

def prepare (source : Feed) (options : Options) (io : ByteIo) (sink : Sink) : Report ⊕ Launch :=
  match Program.parse source .empty with
  | (.error error, _) => .inl ⟨.error (.parse error), io, sink⟩
  | (.ok program, names) =>
      match options.mode with
      | .parsed => .inl (.ofLine io sink (programText options program names))
      | _ => .inr (launch options program names io)

/-- Flushes the output, whatever the evaluation has come to, and shows the value if that is asked
for. -/
def conclude (options : Options) (sink : Sink) (outcome : Except EvalError Evaluated)
    (state : MachineState Surroundings) : Report :=
  let io := state.world.io.flush
  match state.world.io.output.failure with
  | some text => ⟨.error (.output text), io, sink⟩
  | none =>
      match outcome with
      | .error error => ⟨.error (.eval error), io, sink⟩
      | .ok result =>
          match options.mode with
          | .result => .ofLine io sink (result.value.text state.mint.names)
          | _ => ⟨.ok (), io, sink⟩

def run (fuel : Nat) (source : Feed) (options : Options) (io : ByteIo) (sink : Sink) :
    Option Report :=
  match prepare source options io sink with
  | .inl report => some report
  | .inr start =>
      (start.machine.run fuel start.focus [] start.state).map fun (outcome, state) =>
        conclude options sink outcome state

def stdioFor : Mode → Output
  | .result => .silent
  | _ => .stdout ⟨[], #[]⟩

def outputFor : Mode → Output
  | .result => .silent
  | _ => .captured #[]

def evaluate (fuel : Nat) (source : List UInt8) (options : Options) (input : List UInt8) :
    Option (Except CommandError String) :=
  (run fuel (Feed.ofBytes source) options ⟨outputFor options.mode, .buffer input⟩ {}).map
    fun report => report.outcome.map fun _ =>
      match options.mode with
      | .output => Utf8.lossyText report.io.output.bytes
      | _ => report.sink.text

end Command

end LambdaMachine
