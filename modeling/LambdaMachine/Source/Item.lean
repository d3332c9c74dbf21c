import LambdaMachine.Source.Error
import LambdaMachine.Source.Feed
import LambdaMachine.Text.Utf8

/-!
The items a feed amounts to: characters with the offset they start at, faults, and the end. Bytes
are gathered into characters on the way and comments are left out.
-/

namespace LambdaMachine

inductive Item where
  | rune (rune : Char) (start : Nat)
  | fault (error : StreamError)
  | finish
  deriving DecidableEq

structure Pending where
  start : Nat
  bytes : List UInt8
  missing : Nat

inductive Gathered where
  | part (pending : Pending)
  | rune (rune : Char) (start : Nat)
  | invalid (start : Nat)

def Pending.settle (pending : Pending) : Gathered :=
  if pending.missing = 0 then
    match Utf8.decode? pending.bytes with
    | some rune => .rune rune pending.start
    | none => .invalid pending.start
  else .part pending

def Pending.gather (pending : Option Pending) (offset : Nat) (byte : UInt8) : Gathered :=
  match pending with
  | some pending =>
      Pending.settle ⟨pending.start, pending.bytes ++ [byte], pending.missing - 1⟩
  | none =>
      match Utf8.width? byte with
      | some width => Pending.settle ⟨offset, [byte], width - 1⟩
      | none => .invalid offset

namespace Item

def ofEnd : Option Pending → Item
  | none => .finish
  | some pending => .fault (.encoding pending.start)

/-- The next item of a feed whose first byte has the given offset, with the feed and the offset
after it. Inside a comment characters are decoded and dropped; any fault ends the comment. -/
def next (inComment : Bool) (pending : Option Pending) (offset : Nat) : Feed → Item × Feed × Nat
  | [] => (ofEnd pending, [], offset)
  | .interruption :: feed => next inComment pending offset feed
  | .finish :: feed => (ofEnd pending, feed, offset)
  | .failure text :: feed => (.fault (.io text), feed, offset)
  | .byte byte :: feed =>
      match Pending.gather pending offset byte with
      | .part pending => next inComment (some pending) (offset + 1) feed
      | .invalid start => (.fault (.encoding start), feed, offset + 1)
      | .rune char start =>
          if inComment then next (char != '\n') none (offset + 1) feed
          else if char = Rune.comment then next true none (offset + 1) feed
          else (.rune char start, feed, offset + 1)

/-- A character is never had for free. -/
theorem next_length_lt {inComment : Bool} {pending : Option Pending} {offset : Nat} {feed : Feed}
    {char : Char} {start : Nat} {rest : Feed} {reached : Nat}
    (found : next inComment pending offset feed = (.rune char start, rest, reached)) :
    rest.length < feed.length := by
  induction feed generalizing inComment pending offset with
  | nil => cases pending <;> simp [next, ofEnd] at found
  | cons event feed ih =>
      cases event with
      | finish => cases pending <;> simp [next, ofEnd] at found
      | failure text => simp [next] at found
      | interruption =>
          simp only [next] at found
          exact Nat.lt_succ_of_lt (ih found)
      | byte byte =>
          simp only [next] at found
          split at found
          · exact Nat.lt_succ_of_lt (ih found)
          · simp at found
          · split at found
            · exact Nat.lt_succ_of_lt (ih found)
            · split at found
              · exact Nat.lt_succ_of_lt (ih found)
              · simp only [Prod.mk.injEq] at found
                simp [found.2.1]

end Item

end LambdaMachine
