import LambdaMachine.Proofs.Source.Scan

/-!
A tape is a list of items with a place in it. A cursor shows a tape, and each of its operations is
the operation of the same name on the tape: peeking keeps a character, a fault is delivered once,
and the end stays.
-/

namespace LambdaMachine

/-- The items still ahead, whether the first of them has been looked at, and the offset reached. -/
structure Tape where
  ahead : List Scanned
  looked : Bool
  offset : Nat

namespace Tape

def position (tape : Tape) : Nat :=
  match tape.looked, tape.ahead with
  | true, ⟨.rune _ start, _⟩ :: _ => start
  | _, _ => tape.offset

def advance (tape : Tape) : Tape :=
  if tape.looked then ⟨tape.ahead.tail, false, tape.offset⟩ else tape

def peek : EStateM StreamError Tape (Option Char) := fun tape =>
  match tape.ahead with
  | [] => .ok none ⟨[], false, tape.offset⟩
  | ⟨.rune rune start, reached⟩ :: rest =>
      .ok (some rune) ⟨⟨.rune rune start, reached⟩ :: rest, true, reached⟩
  | ⟨.fault error, reached⟩ :: rest => .error error ⟨rest, false, reached⟩
  | ⟨.finish, reached⟩ :: rest => .ok none ⟨⟨.finish, reached⟩ :: rest, false, reached⟩

def read : EStateM StreamError Tape (Option Char) := fun tape =>
  match peek tape with
  | .ok found after => .ok found after.advance
  | .error error after => .error error after

def atEnd : EStateM StreamError Tape Bool := fun tape =>
  match peek tape with
  | .ok found after => .ok found.isNone after
  | .error error after => .error error after

def span (accepts : Char → Bool) : List Scanned → Nat → List Char × Tape
  | ⟨.rune rune start, reached⟩ :: rest, offset =>
      if accepts rune then
        (rune :: (span accepts rest reached).1, (span accepts rest reached).2)
      else ([], ⟨⟨.rune rune start, reached⟩ :: rest, false, offset⟩)
  | ahead, offset => ([], ⟨ahead, false, offset⟩)

def look : EStateM StreamError Tape Unit := fun tape =>
  match peek tape with
  | .ok _ after => .ok () after
  | .error error after => .error error after

def skipBlanks : EStateM StreamError Tape Unit := fun tape =>
  look (span Rune.isBlank tape.ahead tape.offset).2

def expectOneOf (expected : List Char) : EStateM ExpectError Tape Char := fun tape =>
  match peek tape with
  | .error error after => .error (.stream error) after
  | .ok none after => .error (.mismatch ⟨expected, none, after.position⟩) after
  | .ok (some rune) after =>
      if expected.contains rune then
        match skipBlanks after.advance with
        | .ok _ last => .ok rune last
        | .error error last => .error (.stream error) last
      else .error (.mismatch ⟨expected, some rune, after.position⟩) after

end Tape

inductive Request where
  | peek
  | read
  | advance
  | skipBlanks
  | atEnd
  | expectOneOf (expected : List Char)
  | position

inductive Answer where
  | rune (found : Option Char)
  | done
  | ended (ended : Bool)
  | position (offset : Nat)
  | failed (error : ExpectError)

def answered {ε σ α : Type} (label : α → Answer) (fault : ε → ExpectError) :
    EStateM.Result ε σ α → Answer × σ
  | .ok value after => (label value, after)
  | .error error after => (.failed (fault error), after)

/-- The answers to requests made one after the other, each with the position after it. -/
def answers {σ : Type} (perform : Request → σ → Answer × σ) (position : σ → Nat) :
    List Request → σ → List (Answer × Nat) × σ
  | [], state => ([], state)
  | request :: requests, state =>
      let (answer, middle) := perform request state
      let (rest, last) := answers perform position requests middle
      ((answer, position middle) :: rest, last)

namespace Cursor

def perform : Request → Cursor → Answer × Cursor
  | .peek, cursor => answered .rune .stream (peek cursor)
  | .read, cursor => answered .rune .stream (read cursor)
  | .advance, cursor => (.done, cursor.advance)
  | .skipBlanks, cursor => answered (fun _ => .done) .stream (skipBlanks cursor)
  | .atEnd, cursor => answered .ended .stream (atEnd cursor)
  | .expectOneOf expected, cursor =>
      answered (fun rune => .rune (some rune)) id (expectOneOf expected cursor)
  | .position, cursor => (.position cursor.position, cursor)

end Cursor

namespace Tape

def perform : Request → Tape → Answer × Tape
  | .peek, tape => answered .rune .stream (peek tape)
  | .read, tape => answered .rune .stream (read tape)
  | .advance, tape => (.done, tape.advance)
  | .skipBlanks, tape => answered (fun _ => .done) .stream (skipBlanks tape)
  | .atEnd, tape => answered .ended .stream (atEnd tape)
  | .expectOneOf expected, tape =>
      answered (fun rune => .rune (some rune)) id (expectOneOf expected tape)
  | .position, tape => (.position tape.position, tape)

end Tape

namespace Cursor

def ahead (cursor : Cursor) : List Scanned :=
  if cursor.ended then [⟨.finish, cursor.offset⟩] else cursor.feed.scan cursor.offset

def view (cursor : Cursor) : Tape :=
  match cursor.lookahead with
  | some (rune, start) => ⟨⟨.rune rune start, cursor.offset⟩ :: cursor.ahead, true, cursor.offset⟩
  | none => ⟨cursor.ahead, false, cursor.offset⟩

def viewResult {ε α : Type} : EStateM.Result ε Cursor α → EStateM.Result ε Tape α
  | .ok value after => .ok value after.view
  | .error error after => .error error after.view

theorem viewResult_eq_ok {ε α : Type} {result : EStateM.Result ε Cursor α} {value : α}
    {tape : Tape} :
    viewResult result = .ok value tape ↔ ∃ after, result = .ok value after ∧ after.view = tape := by
  constructor
  · intro shown
    cases result with
    | ok found after =>
        obtain ⟨rfl, view⟩ := EStateM.Result.ok.inj shown
        exact ⟨after, rfl, view⟩
    | error error after => cases shown
  · rintro ⟨after, rfl, rfl⟩
    rfl

theorem viewResult_eq_error {ε α : Type} {result : EStateM.Result ε Cursor α} {error : ε}
    {tape : Tape} :
    viewResult result = .error error tape ↔
      ∃ after, result = .error error after ∧ after.view = tape := by
  constructor
  · intro shown
    cases result with
    | ok found after => cases shown
    | error other after =>
        obtain ⟨rfl, view⟩ := EStateM.Result.error.inj shown
        exact ⟨after, rfl, view⟩
  · rintro ⟨after, rfl, rfl⟩
    rfl

theorem view_start (feed : Feed) :
    ({ feed } : Cursor).view = ⟨feed.scan 0, false, 0⟩ :=
  rfl

theorem position_view (cursor : Cursor) : cursor.view.position = cursor.position := by
  unfold view position
  cases cursor.lookahead with
  | none => rfl
  | some looked => rfl

theorem advance_view (cursor : Cursor) : cursor.view.advance = cursor.advance.view := by
  cases looked : cursor.lookahead with
  | none => simp only [view, looked, advance, Tape.advance, Bool.false_eq_true, if_false]; rfl
  | some ahead => simp only [view, looked, advance, Tape.advance, if_true, List.tail_cons]; rfl

theorem peek_view (cursor : Cursor) : Tape.peek cursor.view = viewResult (peek cursor) := by
  cases looked : cursor.lookahead with
  | some found => simp only [peek, view, looked, viewResult, Tape.peek]
  | none =>
      cases ended : cursor.ended with
      | true => simp only [peek, view, ahead, looked, ended, viewResult, Tape.peek, if_true]
      | false =>
          simp only [peek, view, ahead, looked, ended, Bool.false_eq_true, if_false,
            Feed.scan_eq_scanOn]
          obtain ⟨item, rest, reached⟩ := Item.next false none cursor.offset cursor.feed
          cases item with
          | rune rune start => rfl
          | fault error => rfl
          | finish => rfl

end Cursor

namespace Tape

theorem peek_unlooked (tape : Tape) : peek ⟨tape.ahead, false, tape.offset⟩ = peek tape := by
  obtain ⟨ahead, looked, offset⟩ := tape
  match ahead with
  | [] => rfl
  | ⟨.rune _ _, _⟩ :: _ => rfl
  | ⟨.fault _, _⟩ :: _ => rfl
  | ⟨.finish, _⟩ :: _ => rfl

theorem peek_eq_some {tape after : Tape} {rune : Char}
    (peeked : peek tape = .ok (some rune) after) :
    ∃ start reached rest, tape.ahead = ⟨.rune rune start, reached⟩ :: rest ∧
      after = ⟨tape.ahead, true, reached⟩ := by
  unfold peek at peeked
  split at peeked
  · cases peeked
  · rename_i found start reached rest front
    cases peeked
    exact ⟨start, reached, rest, front, by rw [front]⟩
  · cases peeked
  · cases peeked

theorem span_stopped {accepts : Char → Bool} {tape : Tape}
    (refused : ∀ rune after, peek tape = .ok (some rune) after → accepts rune = false) :
    span accepts tape.ahead tape.offset = ([], ⟨tape.ahead, false, tape.offset⟩) := by
  obtain ⟨ahead, looked, offset⟩ := tape
  match ahead with
  | [] => rfl
  | ⟨.rune rune start, reached⟩ :: rest =>
      have notAccepted := refused rune _ rfl
      simp only [span, notAccepted, Bool.false_eq_true, if_false]
  | ⟨.fault _, _⟩ :: _ => rfl
  | ⟨.finish, _⟩ :: _ => rfl

end Tape

namespace Cursor

theorem view_refused {accepts : Char → Bool} {text : String} {cursor : Cursor}
    {result : EStateM.Result StreamError Tape Unit} (looked : Tape.look cursor.view = result)
    (refused : ∀ rune after, Tape.peek cursor.view = .ok (some rune) after →
      accepts rune = false) :
    text = text ++ String.ofList (Tape.span accepts cursor.view.ahead cursor.view.offset).1 ∧
      Tape.look (Tape.span accepts cursor.view.ahead cursor.view.offset).2 = result := by
  rw [Tape.span_stopped refused, Tape.look, Tape.peek_unlooked]
  exact ⟨String.append_empty.symm, looked⟩

theorem gather_view (accepts : Char → Bool) (text : String) (cursor : Cursor) :
    (gather accepts text cursor).1 =
        text ++ String.ofList (Tape.span accepts cursor.view.ahead cursor.view.offset).1 ∧
      Tape.look (Tape.span accepts cursor.view.ahead cursor.view.offset).2 =
        viewResult (gather accepts text cursor).2 := by
  fun_induction gather accepts text cursor with
  | case1 text cursor rune middle peeked accepted ih =>
      have shown := peek_view cursor
      rw [peeked] at shown
      obtain ⟨start, reached, rest, front, middleView⟩ := Tape.peek_eq_some shown
      have advanced : middle.advance.view = ⟨rest, false, reached⟩ := by
        rw [← advance_view, middleView, front]
        rfl
      rw [advanced] at ih
      rw [front, Tape.span, if_pos accepted, String.ofList_cons, ← String.append_assoc,
        ← String.push_eq_append]
      exact ih
  | case2 text cursor rune middle peeked refused =>
      have shown := peek_view cursor
      rw [peeked] at shown
      refine view_refused (by rw [Tape.look, shown]; rfl) fun other after again => ?_
      cases shown.symm.trans again
      exact Bool.eq_false_iff.mpr refused
  | case3 text cursor middle peeked =>
      have shown := peek_view cursor
      rw [peeked] at shown
      refine view_refused (by rw [Tape.look, shown]; rfl) fun other after again => ?_
      cases shown.symm.trans again
  | case4 text cursor error middle peeked =>
      have shown := peek_view cursor
      rw [peeked] at shown
      refine view_refused (by rw [Tape.look, shown]; rfl) fun other after again => ?_
      cases shown.symm.trans again

theorem skipBlanks_view (cursor : Cursor) :
    Tape.skipBlanks cursor.view = viewResult (skipBlanks cursor) := by
  rw [Tape.skipBlanks, (gather_view Rune.isBlank "" cursor).2]
  simp only [skipBlanks, bind, EStateM.bind, takeWhile]
  generalize gather Rune.isBlank "" cursor = gathered
  obtain ⟨text, result⟩ := gathered
  cases result with
  | ok _ after => rfl
  | error error after => rfl

theorem read_view (cursor : Cursor) : Tape.read cursor.view = viewResult (read cursor) := by
  simp only [Tape.read, peek_view, read, bind, EStateM.bind]
  cases peek cursor with
  | error error after => rfl
  | ok found after => exact congrArg (EStateM.Result.ok found) (advance_view after)

theorem atEnd_view (cursor : Cursor) : Tape.atEnd cursor.view = viewResult (atEnd cursor) := by
  simp only [Tape.atEnd, peek_view, atEnd, bind, EStateM.bind]
  cases peek cursor with
  | error error after => rfl
  | ok found after => rfl

theorem expectOneOf_eq (expected : List Char) (cursor : Cursor) :
    expectOneOf expected cursor =
      match peek cursor with
      | .error error after => .error (.stream error) after
      | .ok none after => .error (.mismatch ⟨expected, none, after.position⟩) after
      | .ok (some rune) after =>
          if expected.contains rune then
            match skipBlanks after.advance with
            | .ok _ last => .ok rune last
            | .error error last => .error (.stream error) last
          else .error (.mismatch ⟨expected, some rune, after.position⟩) after := by
  simp only [expectOneOf, bind, EStateM.bind, EStateM.adaptExcept]
  cases peek cursor with
  | error error after => rfl
  | ok found after =>
      cases found with
      | none => rfl
      | some rune =>
          dsimp only
          by_cases member : expected.contains rune = true
          · rw [if_pos member, if_pos member]
            change EStateM.bind (EStateM.adaptExcept ExpectError.stream skipBlanks)
              (fun _ => pure rune) after.advance = _
            simp only [EStateM.bind, EStateM.adaptExcept]
            cases skipBlanks after.advance with
            | error error last => rfl
            | ok _ last => rfl
          · rw [if_neg member, if_neg member]
            rfl

theorem expectOneOf_view (expected : List Char) (cursor : Cursor) :
    Tape.expectOneOf expected cursor.view = viewResult (expectOneOf expected cursor) := by
  rw [Tape.expectOneOf, peek_view, expectOneOf_eq]
  cases peek cursor with
  | error error after => rfl
  | ok found after =>
      cases found with
      | none => simp only [viewResult, position_view]
      | some rune =>
          simp only [viewResult, position_view]
          by_cases member : expected.contains rune = true
          · rw [if_pos member, if_pos member, advance_view, skipBlanks_view]
            cases skipBlanks after.advance with
            | error error last => rfl
            | ok _ last => rfl
          · rw [if_neg member, if_neg member]

theorem answered_view {ε α : Type} (label : α → Answer) (fault : ε → ExpectError)
    (result : EStateM.Result ε Cursor α) :
    answered label fault (viewResult result) =
      ((answered label fault result).1, (answered label fault result).2.view) := by
  cases result with
  | ok value after => rfl
  | error error after => rfl

theorem perform_view (request : Request) (cursor : Cursor) :
    Tape.perform request cursor.view =
      ((perform request cursor).1, (perform request cursor).2.view) := by
  cases request with
  | peek => rw [Tape.perform, peek_view, answered_view, perform]
  | read => rw [Tape.perform, read_view, answered_view, perform]
  | advance => rw [Tape.perform, advance_view, perform]
  | skipBlanks => rw [Tape.perform, skipBlanks_view, answered_view, perform]
  | atEnd => rw [Tape.perform, atEnd_view, answered_view, perform]
  | expectOneOf expected => rw [Tape.perform, expectOneOf_view, answered_view, perform]
  | position => rw [Tape.perform, position_view, perform]

theorem answers_view (requests : List Request) (cursor : Cursor) :
    answers Tape.perform Tape.position requests cursor.view =
      ((answers perform position requests cursor).1,
        (answers perform position requests cursor).2.view) := by
  induction requests generalizing cursor with
  | nil => rfl
  | cons request requests ih =>
      rw [answers, answers, perform_view]
      simp only [ih, position_view]

end Cursor

end LambdaMachine
