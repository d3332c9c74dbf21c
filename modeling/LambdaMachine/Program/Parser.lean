import LambdaMachine.Program.Basic
import LambdaMachine.Program.ParseError
import LambdaMachine.Source.Cursor

/-!
Recursive descent from a source to a program. An expression is an abstraction, a group or a name;
a program is a list of assignments and a last expression. Each production passes the blanks after
its last character, so each one starts on a character that is no blank.
-/

namespace LambdaMachine

/-- What parsing works on. The names are kept also when parsing fails. -/
structure ParserState where
  cursor : Cursor
  arena : Arena
  names : NameTable

abbrev Parser (α : Type) := EStateM ParseError ParserState α

namespace Parser

def scan {α : Type} (action : Scan α) : Parser α := fun state =>
  match action state.cursor with
  | .ok value cursor => .ok value { state with cursor }
  | .error error cursor => .error (.stream error) { state with cursor }

def position : Parser Nat := do
  return (← get).cursor.position

def advance : Parser Unit :=
  modify fun state => { state with cursor := state.cursor.advance }

def fail {α : Type} (error : SyntaxError) : Parser α :=
  throw (.malformed error)

def expect (expected : List Char) : Parser Unit := fun state =>
  match Cursor.expectOneOf expected state.cursor with
  | .ok _ cursor => .ok () { state with cursor }
  | .error (.stream error) cursor => .error (.stream error) { state with cursor }
  | .error (.mismatch error) cursor => .error (.malformed (.unexpected error)) { state with cursor }

def addNode (node : Node) : Parser NodeId :=
  modifyGet fun state =>
    let (id, arena) := state.arena.add node
    (id, { state with arena })

def intern (text : String) : Parser NameId :=
  modifyGet fun state =>
    let (name, names) := state.names.intern text
    (name, { state with names })

def name : Parser NameId := do
  let text ← scan (Cursor.takeWhile Rune.isNameRune)
  if text.isEmpty then
    let found ← scan Cursor.peek
    fail (.nameExpected found (← position))
  else
    scan Cursor.skipBlanks
    intern text

mutual

def expression : Nat → Parser NodeId
  | 0 => throw .exhausted
  | fuel + 1 => do
      match ← scan Cursor.peek with
      | none => fail (.expressionExpected none (← position))
      | some rune =>
          if Rune.isLambda rune then
            expect Rune.lambdas
            let param ← name
            expect Rune.dot
            let body ← expression fuel
            addNode (.lambda param body)
          else if rune = '(' then
            let opening ← position
            expect Rune.openParen
            if ← scan Cursor.atEnd then fail (.unclosedGroup opening)
            else
              let func ← expression fuel
              arguments fuel opening func
          else if Rune.isNameRune rune then
            let reference ← name
            addNode (.var reference)
          else fail (.expressionExpected (some rune) (← position))

def arguments : Nat → Nat → NodeId → Parser NodeId
  | 0, _, _ => throw .exhausted
  | fuel + 1, opening, func => do
      match ← scan Cursor.peek with
      | none => fail (.unclosedGroup opening)
      | some rune =>
          if rune = ')' then
            advance
            scan Cursor.skipBlanks
            return func
          else
            let arg ← expression fuel
            let func ← addNode (.apply func arg)
            arguments fuel opening func

end

def bindAll : NodeId → List (NameId × NodeId) → Parser NodeId
  | root, [] => return root
  | root, (name, side) :: earlier => do
      let binder ← addNode (.lambda name root)
      let root ← addNode (.apply binder side)
      bindAll root earlier

def statements : Nat → List (NameId × NodeId) → Parser (NodeId × Nat)
  | 0, _ => throw .exhausted
  | fuel + 1, bindings => do
      let offset ← position
      let id ← expression fuel
      if ← scan Cursor.atEnd then
        let root ← bindAll id bindings
        return (root, bindings.length)
      else
        match (← get).arena.node? id with
        | some (.var name) =>
            expect Rune.equals
            let side ← expression fuel
            statements fuel ((name, side) :: bindings)
        | _ => fail (.unparsedInput offset)

end Parser

namespace Program

/-- Reads a program off a feed, numbering its names in `names`. Every round of the parser passes a
character, so one more than the feed has events is allowance enough. -/
def parse (feed : Feed) (names : NameTable) : Except ParseError Program × NameTable :=
  let start : ParserState := ⟨{ feed }, .empty, names⟩
  let action : Parser (NodeId × Nat) := do
    Parser.scan Cursor.skipBlanks
    Parser.statements (feed.length + 2) []
  match action start with
  | .ok (root, assignments) state => (.ok ⟨state.arena, root, assignments⟩, state.names)
  | .error error state => (.error error, state.names)

end Program

end LambdaMachine
