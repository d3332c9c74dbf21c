import LambdaMachine.Proofs.Program.Delivery
import LambdaMachine.Proofs.Program.Progress

/-!
What a reader has delivered once there is a program. The parser stops only at the end of its source
and has passed nothing but characters until then, so what it took from the reader is a text. A
reader therefore gives the programs of texts and no others.
-/

namespace LambdaMachine

namespace Feed

variable {feed rest : Feed} {bytes : List UInt8} {char : Char} {start begin reached : Nat}

theorem carries_nil (next : feed.nextByte = (.ok none, rest)) : feed.Carries [] := by
  induction feed with
  | nil => exact .nothing
  | cons event feed ih =>
      cases event with
      | byte byte => cases next
      | finish => exact .finish feed
      | failure text => cases next
      | interruption => exact .interruption (ih next)

theorem Carries.cons {byte : UInt8} (carries : rest.Carries bytes)
    (next : feed.nextByte = (.ok (some byte), rest)) : feed.Carries (byte :: bytes) := by
  induction feed with
  | nil => cases next
  | cons event feed ih =>
      cases event with
      | byte first =>
          cases next
          exact .byte byte carries
      | finish => cases next
      | failure text => cases next
      | interruption => exact .interruption (ih next)

theorem Carries.completed {read : List UInt8} {missing : Nat} (carries : rest.Carries bytes)
    (completed : Feed.complete start read missing feed = (⟨.rune char begin, reached⟩, rest)) :
    ∃ taken, Utf8.decode? (read ++ taken) = some char ∧ feed.Carries (taken ++ bytes) := by
  induction missing generalizing read feed with
  | zero =>
      rw [Feed.complete] at completed
      split at completed
      · rename_i found decoded
        cases completed
        exact ⟨[], by rw [List.append_nil, decoded], carries⟩
      · cases completed
  | succ missing ih =>
      rw [Feed.complete] at completed
      split at completed
      · rename_i byte middle next
        obtain ⟨taken, decoded, carriesOn⟩ := ih completed
        exact ⟨byte :: taken, by rw [List.append_cons, decoded], carriesOn.cons next⟩
      · cases completed
      · cases completed

/-- In front of a character that was decoded stand its bytes. -/
theorem Carries.decoded (carries : rest.Carries bytes)
    (decoded : feed.decode start = (⟨.rune char begin, reached⟩, rest)) :
    feed.Carries (String.utf8EncodeChar char ++ bytes) := by
  unfold decode at decoded
  split at decoded
  · rename_i lead middle next
    split at decoded
    · obtain ⟨taken, valid, carriesOn⟩ := carries.completed decoded
      rw [Utf8.encoded_of_decode? valid]
      exact carriesOn.cons next
    · cases decoded
  · cases decoded
  · cases decoded

theorem complete_ne_finish (start : Nat) (read : List UInt8) (missing : Nat) (feed : Feed) :
    (complete start read missing feed).1.item ≠ .finish := by
  induction missing generalizing read feed with
  | zero =>
      rw [complete]
      split <;> simp
  | succ missing ih =>
      rw [complete]
      split
      · exact ih _ _
      · simp
      · simp

/-- The end is never found inside a character. -/
theorem carries_of_decode (decoded : feed.decode start = (⟨.finish, reached⟩, rest)) :
    feed.Carries [] := by
  unfold decode at decoded
  split at decoded
  · rename_i lead middle next
    split at decoded
    · exact (complete_ne_finish _ _ _ _ (congrArg (·.1.item) decoded)).elim
    · cases decoded
  · rename_i after next
    exact carries_nil next
  · cases decoded

/-- A feed in which nothing is at fault, not even inside a comment, carries a text. -/
theorem exists_carries (feed : Feed) (inComment : Bool) (start : Nat)
    (sound : ∀ found ∈ withoutComments inComment (feed.decodeAll start),
      ∀ error, found.item ≠ .fault error) :
    ∃ chars, feed.Carries (Utf8.encode chars) := by
  induction size : feed.length using Nat.strongRecOn generalizing inComment start feed with
  | ind size ih =>
      subst size
      cases decoded : feed.decode start with
      | mk found rest =>
          obtain ⟨item, reached⟩ := found
          rw [decodeAll_of_decode decoded] at sound
          cases item with
          | finish => exact ⟨[], carries_of_decode decoded⟩
          | fault error => exact (sound _ List.mem_cons_self error rfl).elim
          | rune char begin =>
              have shorter := decode_length_lt decoded (by simp)
              rw [if_neg (by simp), withoutComments] at sound
              suffices ∃ later, ∀ found ∈ withoutComments later (rest.decodeAll reached),
                  ∀ error, found.item ≠ .fault error by
                obtain ⟨later, soundThere⟩ := this
                obtain ⟨chars, carries⟩ := ih _ shorter rest later reached soundThere rfl
                exact ⟨char :: chars, carries.decoded decoded⟩
              by_cases dropped : inComment = true
              · rw [if_pos dropped] at sound
                exact ⟨_, sound⟩
              · rw [if_neg dropped] at sound
                by_cases opens : char = Rune.comment
                · rw [if_pos opens] at sound
                  exact ⟨_, sound⟩
                · rw [if_neg opens] at sound
                  exact ⟨_, fun found among => sound found (List.mem_cons_of_mem _ among)⟩

end Feed

namespace Cursor

def Finished (cursor : Cursor) : Prop :=
  cursor.view.ahead = [⟨.finish, cursor.offset⟩]

theorem finished_of_peek {cursor after : Cursor} (peeked : peek cursor = .ok none after) :
    after.Finished := by
  unfold peek at peeked
  split at peeked
  · cases peeked
  · rename_i unlooked
    split at peeked
    · rename_i ended
      cases peeked
      simp only [Finished, view, unlooked, ahead, if_pos ended]
    · split at peeked
      · cases peeked
      · cases peeked
      · cases peeked
        simp only [Finished, view, unlooked, ahead, if_true]

theorem Moved.sound {least : Nat} {cursor after : Cursor} (moved : cursor.Moved least after)
    (finished : after.Finished) :
    ∀ found ∈ cursor.view.ahead, ∀ error, found.item ≠ .fault error := by
  obtain ⟨passed, _, runes, ahead⟩ := moved
  rw [ahead, finished]
  intro found among error fault
  rcases List.mem_append.mp among with before | atLast
  · obtain ⟨rune, start, same⟩ := runes found before
    cases same.symm.trans fault
  · rw [List.mem_singleton.mp atLast] at fault
    cases fault

end Cursor

namespace Parser

theorem moves_statements (fuel : Nat) (bindings : List (NameId × NodeId)) :
    Moves (fun _ => 0) (statements fuel bindings) := by
  induction fuel generalizing bindings with
  | zero =>
      rw [statements]
      exact .throw _
  | succ fuel ih =>
      have parts := (moves_expression fuel).1
      rw [statements]
      refine (Moves.of_still still_position).bind fun offset => parts.bind fun id => ?_
      refine moves_atEnd.bind fun ended => ?_
      split
      · exact (Moves.of_still (still_bindAll id bindings)).bind fun root => .pure _
      · refine (Moves.of_still still_get).bind fun state => ?_
        split
        · exact (moves_expect _).bind fun _ => parts.bind fun side => ih _
        · exact .throw _

theorem moves_whole (allowance : Nat) : Moves (fun _ => 0) (whole allowance) :=
  moves_skipBlanks.bind fun _ => moves_statements allowance []

def Finishes {α : Type} (action : Parser α) : Prop :=
  ∀ state value after, action state = .ok value after → after.cursor.Finished

section Finishes

variable {α β : Type}

theorem Finishes.throw (error : ParseError) : Finishes (throw error : Parser α) :=
  fun _ _ _ ran => by cases ran

theorem Finishes.behind {action : Parser α} {next : α → Parser β}
    (last : ∀ value, Finishes (next value)) : Finishes (action >>= next) := by
  intro state value after ran
  simp only [Bind.bind, EStateM.bind] at ran
  split at ran
  · exact last _ _ _ _ ran
  · cases ran

/-- At the end of its source an action stops where it is, and elsewhere it goes on. -/
theorem Finishes.atEnd {stop goOn : Parser α} (still : Still stop) (further : Finishes goOn) :
    Finishes (scan Cursor.atEnd >>= fun ended => if ended = true then stop else goOn) := by
  intro state value after ran
  simp only [Bind.bind, EStateM.bind, scan] at ran
  cases asked : Cursor.atEnd state.cursor with
  | error error cursor =>
      rw [asked] at ran
      cases ran
  | ok ended cursor =>
      rw [asked] at ran
      cases ended with
      | false => exact further _ _ _ ran
      | true =>
          obtain ⟨other, last, stopped, same⟩ := still { state with cursor }
          cases stopped.symm.trans ran
          obtain ⟨found, peeked, nothing⟩ := Cursor.atEnd_eq_ok.mp asked
          rw [Option.isNone_iff_eq_none.mp nothing.symm] at peeked
          rw [same]
          exact Cursor.finished_of_peek peeked

end Finishes

theorem finishes_statements (fuel : Nat) (bindings : List (NameId × NodeId)) :
    Finishes (statements fuel bindings) := by
  induction fuel generalizing bindings with
  | zero =>
      rw [statements]
      exact .throw _
  | succ fuel ih =>
      rw [statements]
      refine .behind fun offset => .behind fun id => .atEnd (fun state => ?_) ?_
      · obtain ⟨root, after, bound, same⟩ := still_bindAll id bindings state
        refine ⟨(root, bindings.length), after, ?_, same⟩
        simp only [Bind.bind, EStateM.bind, bound]
        rfl
      · refine .behind fun found => ?_
        split
        · exact .behind fun _ => .behind fun side => ih _
        · exact .throw _

theorem finishes_whole (allowance : Nat) : Finishes (whole allowance) :=
  .behind fun _ => finishes_statements allowance []

end Parser

namespace Program

/-- What a reader delivers makes a program exactly if it is a text up to the first end, and then the
program is that of the text, with the same names numbered. -/
theorem parse_eq_ok_iff {feed : Feed} {names after : NameTable} {program : Program} :
    parse feed names = (.ok program, after) ↔
      ∃ text : String, feed.Carries text.toUTF8.toList ∧
        parse (.ofString text) names = (.ok program, after) := by
  constructor
  · intro parsed
    cases ran : Parser.whole (feed.length + 2) ⟨{ feed }, .empty, names⟩ with
    | error error last =>
        have failed : parse feed names = (.error error, last.names) := congrArg ofResult ran
        cases parsed.symm.trans failed
    | ok value last =>
        have moved := Parser.moves_whole _ _ _ _ ran
        have finished := Parser.finishes_whole _ _ _ _ ran
        obtain ⟨chars, carries⟩ := feed.exists_carries false 0 (moved.sound finished)
        have carriesText : feed.Carries (String.ofList chars).toUTF8.toList := by
          rw [toList_toUTF8, String.toList_ofList]
          exact carries
        exact ⟨.ofList chars, carriesText, (parse_of_carries carriesText names).symm.trans parsed⟩
  · rintro ⟨text, carries, parsed⟩
    exact (parse_of_carries carries names).trans parsed

end Program

end LambdaMachine
