import LambdaMachine.Proofs.Program.Allowance
import LambdaMachine.Proofs.Source.Rounds

/-!
Parsing with a tally. The counting parser does what the parser does and keeps count on the way: of
the rounds that its loops begin, each loop for itself, and of how deep expressions lie inside one
another. What it counts has no influence on what it does.
-/

namespace LambdaMachine

structure Tally where
  /-- The most expressions that an expression was read inside of. The outermost is inside of none. -/
  nesting : Nat := 0
  /-- Looking for a further argument in a group, or for its end. -/
  groups : Nat := 0
  /-- Looking at a character of a name, or behind it. -/
  names : Nat := 0
  /-- Looking at a blank, or behind blanks. -/
  blanks : Nat := 0
  /-- Decoding a character in a comment. -/
  comments : Nat := 0
  /-- Reading on after an assignment: every round but the first, which no assignment precedes. -/
  assignments : Nat := 0

namespace Tally

def reach (depth : Nat) (tally : Tally) : Tally :=
  { tally with nesting := max tally.nesting depth }

def group (tally : Tally) : Tally :=
  { tally with groups := tally.groups + 1 }

def assignment (tally : Tally) : Tally :=
  { tally with assignments := tally.assignments + 1 }

def addNames (tally : Tally) (rounds : Nat) : Tally :=
  { tally with names := tally.names + rounds }

def addBlanks (tally : Tally) (rounds : Nat) : Tally :=
  { tally with blanks := tally.blanks + rounds }

def addComments (tally : Tally) (rounds : Nat) : Tally :=
  { tally with comments := tally.comments + rounds }

/-- No loop has begun more than so many rounds, and no expression lies deeper. The outermost
expression and the first round over assignments are not counted. Unless there is nothing at all,
they may be. -/
structure AtMost (most : Nat) (tally : Tally) : Prop where
  nesting : tally.nesting ≤ most
  groups : tally.groups ≤ most
  names : tally.names ≤ most
  blanks : tally.blanks ≤ most
  comments : tally.comments ≤ most
  assignments : tally.assignments ≤ most
  nestingFromOne : 0 < most → tally.nesting + 1 ≤ most
  assignmentsFromOne : 0 < most → tally.assignments + 1 ≤ most

end Tally

namespace Cursor

def tallyPeek (cursor : Cursor) (tally : Tally) : Tally :=
  tally.addComments cursor.commentRounds

def tallySkipBlanks (cursor : Cursor) (tally : Tally) : Tally :=
  (tally.addBlanks (cursor.gatherRounds Rune.isBlank)).addComments
    (cursor.gatherComments Rune.isBlank)

def tallyNameRunes (cursor : Cursor) (tally : Tally) : Tally :=
  (tally.addNames (cursor.gatherRounds Rune.isNameRune)).addComments
    (cursor.gatherComments Rune.isNameRune)

def tallyExpect (expected : List Char) (cursor : Cursor) (tally : Tally) : Tally :=
  match peek cursor with
  | .ok (some rune) after =>
      if expected.contains rune then after.advance.tallySkipBlanks (cursor.tallyPeek tally)
      else cursor.tallyPeek tally
  | _ => cursor.tallyPeek tally

end Cursor

structure Counted where
  state : ParserState
  tally : Tally

abbrev Counting (α : Type) := EStateM ParseError Counted α

namespace Counting

variable {α β : Type}

def act (action : Parser α) (tally : ParserState → Tally → Tally) : Counting α := fun start =>
  match action start.state with
  | .ok value after => .ok value ⟨after, tally start.state start.tally⟩
  | .error error after => .error error ⟨after, tally start.state start.tally⟩

def free (action : Parser α) : Counting α :=
  act action fun _ tally => tally

def count (change : Tally → Tally) : Counting Unit :=
  modify fun counted => { counted with tally := change counted.tally }

def peek : Counting (Option Char) :=
  act (Parser.scan Cursor.peek) fun state => state.cursor.tallyPeek

def atEnd : Counting Bool :=
  act (Parser.scan Cursor.atEnd) fun state => state.cursor.tallyPeek

def skipBlanks : Counting Unit :=
  act (Parser.scan Cursor.skipBlanks) fun state => state.cursor.tallySkipBlanks

def nameRunes : Counting String :=
  act (Parser.scan (Cursor.takeWhile Rune.isNameRune)) fun state => state.cursor.tallyNameRunes

def expect (expected : List Char) : Counting Unit :=
  act (Parser.expect expected) fun state => state.cursor.tallyExpect expected

def fail (error : SyntaxError) : Counting α :=
  throw (.malformed error)

def name : Counting NameId := do
  let text ← nameRunes
  if text.isEmpty then
    let found ← peek
    fail (.nameExpected found (← free Parser.position))
  else
    skipBlanks
    free (Parser.intern text)

mutual

def expression (depth : Nat) : Nat → Counting NodeId
  | 0 => throw .exhausted
  | fuel + 1 => do
      count (.reach depth)
      match ← peek with
      | none => fail (.expressionExpected none (← free Parser.position))
      | some rune =>
          if Rune.isLambda rune then
            expect Rune.lambdas
            let param ← name
            expect Rune.dot
            let body ← expression (depth + 1) fuel
            free (Parser.addNode (.lambda param body))
          else if rune = '(' then
            let opening ← free Parser.position
            expect Rune.openParen
            if ← atEnd then fail (.unclosedGroup opening)
            else
              let func ← expression (depth + 1) fuel
              arguments (depth + 1) fuel opening func
          else if Rune.isNameRune rune then
            let reference ← name
            free (Parser.addNode (.var reference))
          else fail (.expressionExpected (some rune) (← free Parser.position))

def arguments (depth : Nat) : Nat → Nat → NodeId → Counting NodeId
  | 0, _, _ => throw .exhausted
  | fuel + 1, opening, func => do
      count .group
      match ← peek with
      | none => fail (.unclosedGroup opening)
      | some rune =>
          if rune = ')' then
            free Parser.advance
            skipBlanks
            return func
          else
            let arg ← expression depth fuel
            let func ← free (Parser.addNode (.apply func arg))
            arguments depth fuel opening func

end

def statements : Nat → List (NameId × NodeId) → Counting (NodeId × Nat)
  | 0, _ => throw .exhausted
  | fuel + 1, bindings => do
      let offset ← free Parser.position
      let id ← expression 0 fuel
      if ← atEnd then
        let root ← free (Parser.bindAll id bindings)
        return (root, bindings.length)
      else
        match (← free get).arena.node? id with
        | some (.var name) =>
            expect Rune.equals
            let side ← expression 0 fuel
            count .assignment
            statements fuel ((name, side) :: bindings)
        | _ => fail (.unparsedInput offset)

def whole (allowance : Nat) : Counting (NodeId × Nat) := do
  skipBlanks
  statements allowance []

def forget : EStateM.Result ParseError Counted α → EStateM.Result ParseError ParserState α
  | .ok value after => .ok value after.state
  | .error error after => .error error after.state

def last : EStateM.Result ParseError Counted α → Counted
  | .ok _ after => after
  | .error _ after => after

def Follows (counting : Counting α) (action : Parser α) : Prop :=
  ∀ start, forget (counting start) = action start.state

theorem Follows.bind {counting : Counting α} {action : Parser α} {goOn : α → Counting β}
    {next : α → Parser β} (first : Follows counting action)
    (second : ∀ value, Follows (goOn value) (next value)) :
    Follows (counting >>= goOn) (action >>= next) := by
  intro start
  have same := first start
  simp only [Bind.bind, EStateM.bind]
  rw [← same]
  cases counting start with
  | ok value between => exact second value between
  | error error after => rfl

/-- What only counts is passed over. -/
theorem Follows.count {counting : Counting α} {action : Parser α}
    (follows : Follows counting action) (change : Tally → Tally) :
    Follows (do count change; counting) action :=
  fun _ => follows _

theorem follows_act (action : Parser α) (tally : ParserState → Tally → Tally) :
    Follows (act action tally) action := by
  intro start
  unfold act
  cases action start.state with
  | ok value after => rfl
  | error error after => rfl

theorem follows_pure (value : α) : Follows (pure value) (pure value) :=
  fun _ => rfl

theorem follows_throw (error : ParseError) : Follows (throw error : Counting α) (throw error) :=
  fun _ => rfl

theorem follows_name : Follows name Parser.name := by
  refine (follows_act _ _).bind fun text => ?_
  split
  · exact (follows_act _ _).bind fun found => (follows_act _ _).bind fun offset => follows_throw _
  · exact (follows_act _ _).bind fun _ => follows_act _ _

theorem follows_expression (depth fuel : Nat) :
    Follows (expression depth fuel) (Parser.expression fuel) ∧
      ∀ opening func,
        Follows (arguments depth fuel opening func) (Parser.arguments fuel opening func) := by
  induction fuel generalizing depth with
  | zero =>
      refine ⟨?_, fun opening func => ?_⟩
      · rw [expression, Parser.expression]
        exact follows_throw _
      · rw [arguments, Parser.arguments]
        exact follows_throw _
  | succ fuel ih =>
      obtain ⟨sibling, rest⟩ := ih depth
      obtain ⟨part, restOfPart⟩ := ih (depth + 1)
      refine ⟨?_, fun opening func => ?_⟩
      · rw [expression, Parser.expression]
        refine Follows.count ((follows_act _ _).bind fun found => ?_) _
        cases found with
        | none => exact (follows_act _ _).bind fun offset => follows_throw _
        | some rune =>
            dsimp only
            split
            · refine (follows_act _ _).bind fun _ => follows_name.bind fun param => ?_
              exact (follows_act _ _).bind fun _ => part.bind fun body => follows_act _ _
            · split
              · refine (follows_act _ _).bind fun opening => (follows_act _ _).bind fun _ => ?_
                refine (follows_act _ _).bind fun ended => ?_
                split
                · exact follows_throw _
                · exact part.bind fun func => restOfPart opening func
              · split
                · exact follows_name.bind fun reference => follows_act _ _
                · exact (follows_act _ _).bind fun offset => follows_throw _
      · rw [arguments, Parser.arguments]
        refine Follows.count ((follows_act _ _).bind fun found => ?_) _
        cases found with
        | none => exact follows_throw _
        | some rune =>
            dsimp only
            split
            · exact (follows_act _ _).bind fun _ => (follows_act _ _).bind fun _ => follows_pure _
            · exact sibling.bind fun arg => (follows_act _ _).bind fun func => rest opening func

theorem follows_statements (fuel : Nat) (bindings : List (NameId × NodeId)) :
    Follows (statements fuel bindings) (Parser.statements fuel bindings) := by
  induction fuel generalizing bindings with
  | zero =>
      rw [statements, Parser.statements]
      exact follows_throw _
  | succ fuel ih =>
      have part := (follows_expression 0 fuel).1
      rw [statements, Parser.statements]
      refine (follows_act _ _).bind fun offset => part.bind fun id => ?_
      refine (follows_act _ _).bind fun ended => ?_
      split
      · exact (follows_act _ _).bind fun root => follows_pure _
      · refine (follows_act _ _).bind fun found => ?_
        cases found.arena.node? id with
        | none => exact follows_throw _
        | some node =>
            cases node with
            | var name =>
                exact (follows_act _ _).bind fun _ => part.bind fun side => (ih _).count _
            | lambda _ _ | apply _ _ => exact follows_throw _

theorem follows_whole (allowance : Nat) :
    Follows (whole allowance) (Parser.whole allowance) :=
  (follows_act _ _).bind fun _ => follows_statements allowance []

end Counting

end LambdaMachine
