import LambdaMachine.Proofs.Source.Characters
import LambdaMachine.Proofs.Source.Tape

/-!
A cursor that has met the end of its input answers without its feed, whatever it is asked. So a
cursor, which reads its feed piece by piece, cannot be told from a place in the list of all items.
-/

namespace LambdaMachine

namespace Cursor

def Latched (cursor : Cursor) : Prop :=
  cursor.ended = true → cursor.lookahead = none

def Leaves {ε α : Type} (post : Cursor → Prop) : EStateM.Result ε Cursor α → Prop
  | .ok _ after => post after
  | .error _ after => post after

theorem latched_advance (cursor : Cursor) : cursor.advance.Latched :=
  fun _ => rfl

theorem Latched.peek {cursor : Cursor} (latched : cursor.Latched) :
    Leaves Latched (Cursor.peek cursor) := by
  unfold Cursor.peek
  split
  · exact latched
  · rename_i empty
    by_cases ended : cursor.ended = true
    · rw [if_pos ended]
      exact latched
    · rw [if_neg ended]
      split
      · exact fun again => (ended again).elim
      · exact fun _ => empty
      · exact fun _ => empty

theorem Latched.gather {accepts : Char → Bool} {text : String} {cursor : Cursor}
    (latched : cursor.Latched) : Leaves Latched (Cursor.gather accepts text cursor).2 := by
  fun_induction Cursor.gather accepts text cursor with
  | case1 text cursor rune middle peeked accepted ih => exact ih (latched_advance middle)
  | case2 text cursor rune middle peeked refused =>
      have kept := latched.peek
      rwa [peeked] at kept
  | case3 text cursor middle peeked =>
      have kept := latched.peek
      rwa [peeked] at kept
  | case4 text cursor error middle peeked =>
      have kept := latched.peek
      rwa [peeked] at kept

theorem Latched.skipBlanks {cursor : Cursor} (latched : cursor.Latched) :
    Leaves Latched (Cursor.skipBlanks cursor) := by
  have kept := @Latched.gather Rune.isBlank "" cursor latched
  simp only [Cursor.skipBlanks, bind, EStateM.bind, takeWhile]
  generalize Cursor.gather Rune.isBlank "" cursor = gathered at kept ⊢
  obtain ⟨text, result⟩ := gathered
  cases result with
  | ok _ after => exact kept
  | error error after => exact kept

theorem Latched.expectOneOf {expected : List Char} {cursor : Cursor} (latched : cursor.Latched) :
    Leaves Latched (Cursor.expectOneOf expected cursor) := by
  have kept := latched.peek
  rw [expectOneOf_eq]
  cases peeked : Cursor.peek cursor with
  | error error after =>
      rw [peeked] at kept
      exact kept
  | ok found after =>
      rw [peeked] at kept
      cases found with
      | none => exact kept
      | some rune =>
          dsimp only
          by_cases member : expected.contains rune = true
          · rw [if_pos member]
            have skipped := (latched_advance after).skipBlanks
            cases ran : Cursor.skipBlanks after.advance with
            | ok _ last =>
                rw [ran] at skipped
                exact skipped
            | error error last =>
                rw [ran] at skipped
                exact skipped
          · rw [if_neg member]
            exact kept

theorem Leaves.answered {ε α : Type} {post : Cursor → Prop} {label : α → Answer}
    {fault : ε → ExpectError} {result : EStateM.Result ε Cursor α} (leaves : Leaves post result) :
    post (answered label fault result).2 := by
  cases result with
  | ok value after => exact leaves
  | error error after => exact leaves

theorem Latched.perform {cursor : Cursor} (latched : cursor.Latched) (request : Request) :
    (Cursor.perform request cursor).2.Latched := by
  have kept := latched.peek
  cases request with
  | peek => exact kept.answered
  | read =>
      refine Leaves.answered ?_
      simp only [Cursor.read, bind, EStateM.bind]
      cases peeked : Cursor.peek cursor with
      | ok found after => exact latched_advance after
      | error error after =>
          rw [peeked] at kept
          exact kept
  | advance => exact latched_advance cursor
  | skipBlanks => exact latched.skipBlanks.answered
  | atEnd =>
      refine Leaves.answered ?_
      simp only [Cursor.atEnd, bind, EStateM.bind]
      cases peeked : Cursor.peek cursor with
      | ok found after =>
          rw [peeked] at kept
          exact kept
      | error error after =>
          rw [peeked] at kept
          exact kept
  | expectOneOf expected => exact latched.expectOneOf.answered
  | position => exact latched

end Cursor

def Request.answerAtEnd (offset : Nat) : Request → Answer
  | .peek | .read => .rune none
  | .advance | .skipBlanks => .done
  | .atEnd => .ended true
  | .expectOneOf expected => .failed (.mismatch ⟨expected, none, offset⟩)
  | .position => .position offset

def Answer.ShowsEnd : Answer → Prop
  | .rune found => found = none
  | .ended last => last = true
  | .failed (.mismatch error) => error.found = none
  | _ => False

namespace Cursor

theorem perform_ended {cursor : Cursor} (ended : cursor.ended = true) (latched : cursor.Latched)
    (request : Request) :
    perform request cursor = (request.answerAtEnd cursor.offset, cursor) := by
  have empty := latched ended
  have peeked : peek cursor = .ok none cursor := by simp only [peek, empty, ended, if_true]
  have stays : cursor.advance = cursor := by
    obtain ⟨feed, lookahead, atEnd, offset⟩ := cursor
    cases empty
    rfl
  have skipped : skipBlanks cursor = .ok () cursor := by
    have gathered := @gather_stopped Rune.isBlank _ _ _ peeked (fun _ same => by cases same) ""
    simp only [skipBlanks, bind, EStateM.bind, takeWhile, gathered]
    rfl
  have here : cursor.position = cursor.offset := by simp only [position, empty]
  cases request with
  | peek => simp only [perform, peeked, answered, Request.answerAtEnd]
  | read =>
      simp only [perform, read, bind, EStateM.bind, peeked]
      exact congrArg (Prod.mk (Answer.rune none)) stays
  | advance => simp only [perform, stays, Request.answerAtEnd]
  | skipBlanks => simp only [perform, skipped, answered, Request.answerAtEnd]
  | atEnd =>
      simp only [perform, atEnd, bind, EStateM.bind, peeked]
      rfl
  | expectOneOf expected =>
      simp only [perform, expectOneOf_eq, peeked, answered, Request.answerAtEnd, here, id]
  | position => simp only [perform, here, Request.answerAtEnd]

theorem answers_ended {cursor : Cursor} (ended : cursor.ended = true) (latched : cursor.Latched)
    (requests : List Request) :
    answers perform position requests cursor =
      (requests.map fun request => (request.answerAtEnd cursor.offset, cursor.offset), cursor) := by
  have here : cursor.position = cursor.offset := by simp only [position, latched ended]
  induction requests with
  | nil => rfl
  | cons request requests ih =>
      rw [answers, perform_ended ended latched]
      simp only [ih, here, List.map_cons]

theorem latched_answers {cursor : Cursor} (latched : cursor.Latched) (requests : List Request) :
    (answers perform position requests cursor).2.Latched := by
  induction requests generalizing cursor with
  | nil => exact latched
  | cons request requests ih => exact ih (latched.perform request)

theorem peek_none_ended {cursor after : Cursor} (peeked : peek cursor = .ok none after) :
    after.ended = true := by
  unfold peek at peeked
  split at peeked
  · cases peeked
  · by_cases ended : cursor.ended = true
    · rw [if_pos ended] at peeked
      cases peeked
      exact ended
    · rw [if_neg ended] at peeked
      split at peeked
      · cases peeked
      · cases peeked
      · cases peeked
        rfl

theorem ended_of_showsEnd {request : Request} {cursor : Cursor}
    (shows : (perform request cursor).1.ShowsEnd) : (perform request cursor).2.ended = true := by
  cases request with
  | peek =>
      simp only [perform] at shows ⊢
      cases peeked : peek cursor with
      | error error after => rw [peeked] at shows; exact shows.elim
      | ok found after =>
          rw [peeked] at shows
          cases show found = none from shows
          exact peek_none_ended peeked
  | read =>
      simp only [perform, read, bind, EStateM.bind] at shows ⊢
      cases peeked : peek cursor with
      | error error after => rw [peeked] at shows; exact shows.elim
      | ok found after =>
          rw [peeked] at shows
          cases show found = none from shows
          have ended := peek_none_ended peeked
          exact ended
  | atEnd =>
      simp only [perform, atEnd, bind, EStateM.bind] at shows ⊢
      cases peeked : peek cursor with
      | error error after => rw [peeked] at shows; exact shows.elim
      | ok found after =>
          rw [peeked] at shows
          cases Option.isNone_iff_eq_none.mp (show found.isNone = true from shows)
          exact peek_none_ended peeked
  | expectOneOf expected =>
      simp only [perform, expectOneOf_eq] at shows ⊢
      cases peeked : peek cursor with
      | error error after => rw [peeked] at shows; exact shows.elim
      | ok found after =>
          rw [peeked] at shows
          cases found with
          | none => exact peek_none_ended peeked
          | some rune =>
              dsimp only at shows
              by_cases member : expected.contains rune = true
              · rw [if_pos member] at shows
                cases skipped : skipBlanks after.advance with
                | ok _ last => rw [skipped] at shows; cases shows
                | error error last => rw [skipped] at shows; exact shows.elim
              · rw [if_neg member] at shows
                cases shows
  | skipBlanks =>
      simp only [perform] at shows
      cases skipped : skipBlanks cursor with
      | ok _ after => rw [skipped] at shows; exact shows.elim
      | error error after => rw [skipped] at shows; exact shows.elim
  | advance => exact shows.elim
  | position => exact shows.elim

theorem ended_of_answers {requests : List Request} {cursor : Cursor} (latched : cursor.Latched)
    {step : Answer × Nat} (among : step ∈ (answers perform position requests cursor).1)
    (shows : step.1.ShowsEnd) : (answers perform position requests cursor).2.ended = true := by
  induction requests generalizing cursor with
  | nil => cases among
  | cons request requests ih =>
      have kept := latched.perform request
      -- the end shown by this answer outlasts the requests after it
      rcases List.mem_cons.mp among with rfl | later
      · have ended := ended_of_showsEnd shows
        simp only [answers, answers_ended ended kept]
        exact ended
      · exact ih kept later

end Cursor

namespace Feed

def EndsOnce (items : List Scanned) : Prop :=
  ∃ before reached, items = before ++ [⟨.finish, reached⟩] ∧ ∀ found ∈ before, found.item ≠ .finish

theorem EndsOnce.cons {found : Scanned} {items : List Scanned} (ends : EndsOnce items)
    (goesOn : found.item ≠ .finish) : EndsOnce (found :: items) := by
  obtain ⟨before, reached, rfl, each⟩ := ends
  exact ⟨found :: before, reached, rfl, List.forall_mem_cons.mpr ⟨goesOn, each⟩⟩

theorem endsOnce_decodeAll (start : Nat) (feed : Feed) : EndsOnce (feed.decodeAll start) := by
  induction size : feed.length using Nat.strongRecOn generalizing start feed with
  | ind size ih =>
      subst size
      cases decoded : feed.decode start with
      | mk found rest =>
          rw [decodeAll_of_decode decoded]
          by_cases last : found.item = .finish
          · rw [if_pos last]
            obtain ⟨item, reached⟩ := found
            cases last
            exact ⟨[], reached, rfl, fun _ among => (List.not_mem_nil among).elim⟩
          · rw [if_neg last]
            exact (ih _ (decode_length_lt decoded last) _ _ rfl).cons last

theorem EndsOnce.withoutComments {items : List Scanned} (ends : EndsOnce items)
    (inComment : Bool) : EndsOnce (Feed.withoutComments inComment items) := by
  obtain ⟨before, reached, rfl, each⟩ := ends
  induction before generalizing inComment with
  | nil => exact ⟨[], reached, rfl, fun _ among => (List.not_mem_nil among).elim⟩
  | cons found before ih =>
      obtain ⟨item, behind⟩ := found
      obtain ⟨goesOn, others⟩ := List.forall_mem_cons.mp each
      cases item with
      | finish => exact (goesOn rfl).elim
      | fault error => exact (ih false others).cons goesOn
      | rune char start =>
          simp only [List.cons_append, Feed.withoutComments]
          by_cases dropped : inComment = true
          · rw [if_pos dropped]
            exact ih _ others
          · rw [if_neg dropped]
            by_cases opens : char = Rune.comment
            · rw [if_pos opens]
              exact ih true others
            · rw [if_neg opens]
              exact (ih false others).cons goesOn

end Feed

/-- Whatever is asked of a cursor, one thing after the other, it answers as a place in the list of
scanned items would, with the same positions. The list ends with the end; once that has been met,
no answer depends on what the feed still holds, and nothing is taken from it. -/
theorem Cursor.answers_follow_scan (feed : Feed) :
    Feed.EndsOnce (feed.scan 0) ∧ ∀ requests : List Request,
      let told := answers Cursor.perform Cursor.position requests { feed }
      let expected := answers Tape.perform Tape.position requests ⟨feed.scan 0, false, 0⟩
      told.1 = expected.1 ∧ told.2.view = expected.2 ∧
      ((∃ step ∈ told.1, step.1.ShowsEnd) → told.2.ended = true) ∧
      (told.2.ended = true → ∀ (more : List Request) (other : Feed),
        answers Cursor.perform Cursor.position more { told.2 with feed := other } =
          (more.map fun request => (request.answerAtEnd told.2.position, told.2.position),
            { told.2 with feed := other })) := by
  have latched : ({ feed } : Cursor).Latched := fun _ => rfl
  refine ⟨(Feed.endsOnce_decodeAll 0 feed).withoutComments false, fun requests => ?_⟩
  have viewed := answers_view requests { feed }
  rw [view_start] at viewed
  have kept := latched_answers latched requests
  dsimp only
  rw [viewed]
  refine ⟨rfl, rfl, ?_, ?_⟩
  · rintro ⟨step, among, shows⟩
    exact ended_of_answers latched among shows
  · intro ended more other
    generalize (answers perform position requests { feed }).2 = last at ended kept ⊢
    have here : last.position = last.offset := by simp only [position, kept ended]
    rw [here]
    exact @answers_ended { last with feed := other } ended kept more

end LambdaMachine
