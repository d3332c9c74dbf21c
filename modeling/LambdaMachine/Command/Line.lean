import LambdaMachine.Command.Basic
import LambdaMachine.Command.Directory

/-!
The command line: a mode, options and files in any order. The files are read as one source; without
files the source is the standard input.
-/

namespace LambdaMachine.CommandLine

def usage : String :=
  "Lambda calculus interpreter\n"
    ++ "\n"
    ++ "Usage: lam <mode> [options] [files...]\n"
    ++ "\n"
    ++ "Modes:\n"
    ++ "  parsed    Print the parsed program\n"
    ++ "  output    Run the program, printed bytes go to stdout\n"
    ++ "  result    Run the program with printing disabled, then print its value\n"
    ++ "\n"
    ++ "Files are concatenated in order; with none, the program is read from stdin.\n"
    ++ "\n"
    ++ "Options:\n"
    ++ "  -a, --skip-assignments   parsed: print the desugared body only\n"
    ++ "  --max-steps=<n>          Stop evaluation after n steps\n"

def digitsValue (digits : List Char) : Nat :=
  digits.foldl (fun value digit => value * 10 + (digit.toNat - 48)) 0

def stepLimit? (text : String) : Option Nat :=
  let digits := match text.toList with
    | '+' :: digits => digits
    | digits => digits
  if !digits.isEmpty && digits.all Char.isDigit && digitsValue digits ≤ Counters.largest then
    some (digitsValue digits)
  else none

inductive Refusal where
  | noMode
  | unknownMode (word : String)
  | unknownOption (word : String)
  | invalidLimit (text : String)
  deriving DecidableEq

def Refusal.message : Refusal → String
  | .noMode => usage
  | .unknownMode word => "error: " ++ Mode.unknownMessage word ++ "\n" ++ usage
  | .unknownOption word => "error: unknown option '" ++ word ++ "'\n" ++ usage
  | .invalidLimit text => "error: invalid step limit '" ++ text ++ "'\n"

inductive Request where
  | help
  | refused (reason : Refusal)
  | command (options : Options) (paths : List String)

def limitFlag : String := "--max-steps="

/-- Reads the words after the mode. A later option wins over an earlier one, and the first wrong
word decides; a lone hyphen says nothing. -/
def readWords (options : Options) (paths : List String) : List String → Request
  | [] => .command options paths
  | word :: rest =>
      if word = "-a" || word = "--skip-assignments" then
        readWords { options with skipAssignments := true } paths rest
      else if limitFlag.toList.isPrefixOf word.toList then
        let text := String.ofList (word.toList.drop limitFlag.length)
        match stepLimit? text with
        | some limit => readWords { options with maxSteps := some limit } paths rest
        | none => .refused (.invalidLimit text)
      else if word = "-" then readWords options paths rest
      else if word.toList.head? = some '-' then .refused (.unknownOption word)
      else readWords options (paths ++ [word]) rest

def read : List String → Request
  | [] => .refused .noMode
  | word :: rest =>
      if word = "help" || word = "--help" || word = "-h" then .help
      else match Mode.ofString? word with
        | some mode => readWords { mode } [] rest
        | none => .refused (.unknownMode word)

structure Exit where
  code : Nat
  stdout : List UInt8
  stderr : String

def Exit.ofRefusal (reason : Refusal) : Exit :=
  ⟨1, [], reason.message⟩

def Exit.ofHelp : Exit :=
  ⟨0, [], usage⟩

def failureText (error : CommandError) : String :=
  "error: " ++ error.message ++ "\n"

def Exit.ofReport (report : Report) : Exit :=
  let stdout := report.io.output.printed ++ report.sink.text.toUTF8.toList
  match report.outcome with
  | .ok _ => ⟨0, stdout, ""⟩
  | .error error => ⟨1, stdout, failureText error⟩

def allOpened : List (String × Except String OpenedFile) → Except CommandError (List OpenedFile)
  | [] => .ok []
  | (path, .error text) :: _ => .error (.opening path text)
  | (_, .ok file) :: rest => (allOpened rest).map (file :: ·)

def readThrough : List OpenedFile → Feed → Feed × Feed
  | [], stdin => ([], stdin)
  | .feed feed :: rest, stdin =>
      let (source, left) := readThrough rest stdin
      (feed ++ source, left)
  | .standardInput :: rest, stdin =>
      let (source, left) := readThrough rest []
      (stdin ++ source, left)

/-- The source of a command and the input of its program. A source on the standard input leaves
nothing there for the program. -/
def sources (files : List (String × Except String OpenedFile)) (stdin : List UInt8) :
    Except CommandError (Feed × Input) := do
  let opened ← if files.isEmpty then pure [.standardInput] else allOpened files
  let (source, left) := readThrough opened (Feed.ofBytes stdin)
  return (source, .reader left false)

def execute (fuel : Nat) (args : List String) (directory : Directory) (stdin : List UInt8) :
    Option Exit :=
  match read args with
  | .help => some .ofHelp
  | .refused reason => some (.ofRefusal reason)
  | .command options paths =>
      let files := paths.map fun path =>
        (path, (directory.openFile path).mapError PathError.message)
      match sources files stdin with
      | .error error => some ⟨1, [], failureText error⟩
      | .ok (source, input) =>
          (Command.run fuel source options ⟨Command.stdioFor options.mode, input⟩ {}).map
            .ofReport

end LambdaMachine.CommandLine
