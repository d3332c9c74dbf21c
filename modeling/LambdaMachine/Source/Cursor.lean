import LambdaMachine.Source.Item

/-!
A cursor over a source: one character of lookahead, the offset reached, and an end that is
permanent once it has been seen. Operations that fail leave the cursor where the failure left it,
so reading can go on afterwards.
-/

namespace LambdaMachine

structure Cursor where
  feed : Feed
  lookahead : Option (Char × Nat) := none
  ended : Bool := false
  offset : Nat := 0

abbrev Scan (α : Type) := EStateM StreamError Cursor α

namespace Cursor

/-- Offset of the next character, once it has been looked at; else of the next byte. -/
def position (cursor : Cursor) : Nat :=
  match cursor.lookahead with
  | some (_, start) => start
  | none => cursor.offset

def advance (cursor : Cursor) : Cursor :=
  { cursor with lookahead := none }

def remaining (cursor : Cursor) : Nat :=
  cursor.feed.length + if cursor.lookahead.isSome then 1 else 0

def peek : Scan (Option Char) := fun cursor =>
  match cursor.lookahead with
  | some (rune, _) => .ok (some rune) cursor
  | none =>
      if cursor.ended then .ok none cursor
      else match Item.next false none cursor.offset cursor.feed with
        | (.rune rune start, feed, offset) =>
            .ok (some rune) { cursor with feed, offset, lookahead := some (rune, start) }
        | (.fault error, feed, offset) => .error error { cursor with feed, offset }
        | (.finish, feed, offset) => .ok none { cursor with feed, offset, ended := true }

theorem remaining_advance_lt {cursor after : Cursor} {rune : Char}
    (found : peek cursor = .ok (some rune) after) :
    after.advance.remaining < cursor.remaining := by
  unfold peek at found
  split at found
  · rename_i ahead
    obtain ⟨_, rfl⟩ := EStateM.Result.ok.inj found
    simp [advance, remaining, ahead]
  · split at found
    · simp at found
    · split at found
      · rename_i item
        obtain ⟨_, rfl⟩ := EStateM.Result.ok.inj found
        have shorter := Item.next_length_lt item
        simp only [advance, remaining, Option.isSome_none, Bool.false_eq_true, if_false]
        omega
      · simp at found
      · simp at found

def read : Scan (Option Char) := do
  let rune ← peek
  modify advance
  return rune

def atEnd : Scan Bool := do
  return (← peek).isNone

/-- Passes characters as long as they are accepted. The text read comes back also when reading
fails. -/
def gather (accepts : Char → Bool) (text : String) (cursor : Cursor) :
    String × EStateM.Result StreamError Cursor Unit :=
  match _found : peek cursor with
  | .ok (some rune) after =>
      if accepts rune then gather accepts (text.push rune) after.advance
      else (text, .ok () after)
  | .ok none after => (text, .ok () after)
  | .error error after => (text, .error error after)
termination_by cursor.remaining
decreasing_by exact remaining_advance_lt _found

def drain (cursor : Cursor) : String × EStateM.Result StreamError Cursor Unit :=
  gather (fun _ => true) "" cursor

def takeWhile (accepts : Char → Bool) : Scan String := fun cursor =>
  match gather accepts "" cursor with
  | (text, .ok _ after) => .ok text after
  | (_, .error error after) => .error error after

def skipBlanks : Scan Unit := do
  let _ ← takeWhile Rune.isBlank

def expectOneOf (expected : List Char) : EStateM ExpectError Cursor Char := do
  let found ← EStateM.adaptExcept .stream peek
  match found with
  | some rune =>
      if expected.contains rune then
        modify advance
        EStateM.adaptExcept .stream skipBlanks
        return rune
      else throw (.mismatch ⟨expected, found, (← get).position⟩)
  | none => throw (.mismatch ⟨expected, found, (← get).position⟩)

end Cursor

end LambdaMachine
