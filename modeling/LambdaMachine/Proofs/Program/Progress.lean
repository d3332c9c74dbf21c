import LambdaMachine.Proofs.Program.Solvent

/-!
Parsing goes forward. What a production that succeeds has passed are characters, at least one of
them for an expression and for a name, so no loop of the parser ever comes back to where it was.
-/

namespace LambdaMachine

theorem Tape.ahead_peek {tape after : Tape} {found : Option Char}
    (peeked : peek tape = .ok found after) : after.ahead = tape.ahead := by
  unfold peek at peeked
  split at peeked
  · rename_i empty
    cases peeked
    exact empty.symm
  · rename_i front
    cases peeked
    exact front.symm
  · cases peeked
  · rename_i front
    cases peeked
    exact front.symm

namespace Cursor

/-- From the one to the other, characters have been passed and nothing else, at least so many. -/
def Moved (least : Nat) (cursor after : Cursor) : Prop :=
  ∃ passed : List Scanned, least ≤ passed.length ∧
    (∀ found ∈ passed, ∃ rune start, found.item = .rune rune start) ∧
      cursor.view.ahead = passed ++ after.view.ahead

variable {cursor middle after : Cursor}

theorem Moved.of_same (same : after.view.ahead = cursor.view.ahead) : cursor.Moved 0 after :=
  ⟨[], Nat.zero_le _, fun _ among => (List.not_mem_nil among).elim, same.symm⟩

theorem Moved.mono {least fewer : Nat} (moved : cursor.Moved least after) (less : fewer ≤ least) :
    cursor.Moved fewer after := by
  obtain ⟨passed, enough, runes, ahead⟩ := moved
  exact ⟨passed, Nat.le_trans less enough, runes, ahead⟩

theorem Moved.trans {least more : Nat} (first : cursor.Moved least middle)
    (second : middle.Moved more after) : cursor.Moved (least + more) after := by
  obtain ⟨passed, enough, runes, ahead⟩ := first
  obtain ⟨further, enoughFurther, furtherRunes, furtherAhead⟩ := second
  refine ⟨passed ++ further, ?_, ?_, ?_⟩
  · rw [List.length_append]
    exact Nat.add_le_add enough enoughFurther
  · intro found among
    rcases List.mem_append.mp among with early | late
    · exact runes found early
    · exact furtherRunes found late
  · rw [ahead, furtherAhead, List.append_assoc]

theorem moved_peek {found : Option Char} (peeked : peek cursor = .ok found after) :
    cursor.Moved 0 after := by
  have shown := peek_view cursor
  rw [peeked] at shown
  exact .of_same (Tape.ahead_peek shown)

theorem moved_advance {rune : Char} (found : cursor.lookahead.map Prod.fst = some rune) :
    cursor.Moved 1 cursor.advance := by
  obtain ⟨⟨first, start⟩, looked, same⟩ := Option.map_eq_some_iff.mp found
  refine ⟨[⟨.rune first start, cursor.offset⟩], Nat.le_refl _, ?_, ?_⟩
  · intro found among
    rw [List.mem_singleton.mp among]
    exact ⟨first, start, rfl⟩
  · rw [← advance_view]
    simp [view, looked, Tape.advance]

theorem moved_gather {accepts : Char → Bool} {text gathered : String}
    (ran : gather accepts text cursor = (gathered, .ok () after)) :
    cursor.Moved 0 after ∧ (gathered ≠ text → cursor.Moved 1 after) := by
  fun_induction gather accepts text cursor with
  | case1 text cursor rune middle peeked accepted ih =>
      have passed := (moved_peek peeked).trans (moved_advance (lookahead_peek peeked))
      have moved : cursor.Moved 1 after := passed.trans (ih ran).1
      exact ⟨moved.mono (Nat.zero_le _), fun _ => moved⟩
  | case2 text cursor rune middle peeked refused =>
      cases ran
      exact ⟨moved_peek peeked, fun other => (other rfl).elim⟩
  | case3 text cursor middle peeked =>
      cases ran
      exact ⟨moved_peek peeked, fun other => (other rfl).elim⟩
  | case4 text cursor error middle peeked => cases ran

theorem moved_takeWhile {accepts : Char → Bool} {text : String}
    (taken : takeWhile accepts cursor = .ok text after) :
    cursor.Moved 0 after ∧ (text ≠ "" → cursor.Moved 1 after) := by
  unfold takeWhile at taken
  split at taken
  · rename_i gathered _ last ran
    cases taken
    exact moved_gather ran
  · cases taken

theorem moved_skipBlanks (skipped : skipBlanks cursor = .ok () after) : cursor.Moved 0 after := by
  obtain ⟨text, taken⟩ := skipBlanks_eq_ok.mp skipped
  exact (moved_takeWhile taken).1

theorem moved_expectOneOf {expected : List Char} {rune : Char}
    (passed : expectOneOf expected cursor = .ok rune after) : cursor.Moved 1 after := by
  obtain ⟨middle, peeked, _, skipped⟩ := expectOneOf_eq_ok.mp passed
  have advanced := (moved_peek peeked).trans (moved_advance (lookahead_peek peeked))
  exact advanced.trans (moved_skipBlanks skipped)

theorem moved_atEnd {ended : Bool} (asked : atEnd cursor = .ok ended after) :
    cursor.Moved 0 after := by
  obtain ⟨found, peeked, _⟩ := atEnd_eq_ok.mp asked
  exact moved_peek peeked

end Cursor

namespace Parser

variable {α β : Type}

def Moves (least : α → Nat) (action : Parser α) : Prop :=
  ∀ state value after, action state = .ok value after →
    state.cursor.Moved (least value) after.cursor

section Moves

variable {least : α → Nat} {action : Parser α} {total : Nat}

theorem Moves.bind {next : α → Parser β} (first : Moves least action)
    (second : ∀ value, Moves (fun _ => total - least value) (next value)) :
    Moves (fun _ => total) (action >>= next) := by
  intro state result after ran
  simp only [Bind.bind, EStateM.bind] at ran
  cases ranFirst : action state with
  | error error between =>
      rw [ranFirst] at ran
      cases ran
  | ok value between =>
      rw [ranFirst] at ran
      have moved := (first state value between ranFirst).trans (second value between result after ran)
      have enough : total ≤ least value + (total - least value) := by omega
      exact moved.mono enough

theorem Moves.throw (error : ParseError) : Moves least (throw error) :=
  fun _ _ _ ran => by cases ran

theorem Moves.pure (value : α) : Moves (fun _ => 0) (pure value) :=
  fun _ _ _ ran => by cases ran; exact .of_same rfl

theorem moves_scan {scanned : Scan α}
    (moved : ∀ cursor value after, scanned cursor = .ok value after →
      cursor.Moved (least value) after) : Moves least (scan scanned) := by
  intro state value after ran
  unfold scan at ran
  cases scannedTo : scanned state.cursor with
  | ok found cursor =>
      rw [scannedTo] at ran
      cases ran
      exact moved state.cursor value cursor scannedTo
  | error error cursor =>
      rw [scannedTo] at ran
      cases ran

theorem Moves.of_still {action : Parser α} (still : Still action) :
    Moves (fun _ => 0) action := by
  intro state value after ran
  obtain ⟨other, reached, again, same⟩ := still state
  cases ran.symm.trans again
  exact .of_same (by rw [same])

end Moves

theorem moves_peek : Moves (fun _ => 0) (scan Cursor.peek) :=
  moves_scan fun _ _ _ => Cursor.moved_peek

theorem moves_atEnd : Moves (fun _ => 0) (scan Cursor.atEnd) :=
  moves_scan fun _ _ _ => Cursor.moved_atEnd

theorem moves_skipBlanks : Moves (fun _ => 0) (scan Cursor.skipBlanks) :=
  moves_scan fun _ _ _ => Cursor.moved_skipBlanks

theorem moves_expect (expected : List Char) : Moves (fun _ => 1) (expect expected) := by
  intro state value after ran
  unfold expect at ran
  cases passed : Cursor.expectOneOf expected state.cursor with
  | ok rune cursor =>
      rw [passed] at ran
      cases ran
      exact Cursor.moved_expectOneOf passed
  | error error cursor =>
      rw [passed] at ran
      cases error <;> cases ran

theorem moves_advance : Moves (fun _ => 0) advance := by
  intro state value after ran
  cases ran
  cases looked : state.cursor.lookahead with
  | none => exact .of_same (by rw [← Cursor.advance_view]; simp [Cursor.view, looked, Tape.advance])
  | some ahead => exact (Cursor.moved_advance (congrArg _ looked)).mono (Nat.zero_le _)

/-- A name has at least one character. -/
theorem moves_name : Moves (fun _ => 1) name := by
  have taken : Moves (fun text => if text.isEmpty then 0 else 1)
      (scan (Cursor.takeWhile Rune.isNameRune)) := by
    refine moves_scan fun cursor text after taken => ?_
    obtain ⟨stays, moved⟩ := Cursor.moved_takeWhile taken
    by_cases empty : text.isEmpty = true
    · rw [if_pos empty]
      exact stays
    · rw [if_neg empty]
      exact moved fun same => empty (same ▸ rfl)
  refine taken.bind fun text => ?_
  split
  · exact moves_peek.bind fun found => (Moves.of_still still_position).bind fun _ => .throw _
  · exact moves_skipBlanks.bind fun _ => .of_still (still_intern text)

/-- An expression has at least one character, and the rest of a group is never behind its front. -/
theorem moves_expression (fuel : Nat) :
    Moves (fun _ => 1) (expression fuel) ∧
      ∀ opening func, Moves (fun _ => 0) (arguments fuel opening func) := by
  induction fuel with
  | zero =>
      refine ⟨?_, fun opening func => ?_⟩
      · rw [expression]
        exact .throw _
      · rw [arguments]
        exact .throw _
  | succ fuel ih =>
      obtain ⟨part, rest⟩ := ih
      refine ⟨?_, fun opening func => ?_⟩
      · rw [expression]
        refine moves_peek.bind fun found => ?_
        split
        · exact (Moves.of_still still_position).bind fun offset => .throw _
        · split
          · refine (moves_expect _).bind fun _ => moves_name.bind fun param => ?_
            refine (moves_expect _).bind fun _ => part.bind fun body => ?_
            exact .of_still (still_addNode _)
          · split
            · refine (Moves.of_still still_position).bind fun opening => ?_
              refine (moves_expect _).bind fun _ => moves_atEnd.bind fun ended => ?_
              split
              · exact .throw _
              · exact part.bind fun func => rest opening func
            · split
              · exact moves_name.bind fun reference => .of_still (still_addNode _)
              · exact (Moves.of_still still_position).bind fun offset => .throw _
      · rw [arguments]
        refine moves_peek.bind fun found => ?_
        split
        · exact .throw _
        · split
          · exact moves_advance.bind fun _ => moves_skipBlanks.bind fun _ => .pure _
          · refine part.bind fun arg => ?_
            exact (Moves.of_still (still_addNode _)).bind fun func => rest opening func

end Parser

namespace Program

theorem parse_ne_exhausted (feed : Feed) (names : NameTable) :
    (parse feed names).1 ≠ .error .exhausted := by
  have supply : ({ feed } : Cursor).supply = feed.supply := Nat.add_zero _
  have affords : Parser.Affords (Parser.whole (feed.supply + 2)) ⟨{ feed }, .empty, names⟩ _ :=
    Parser.affords_whole (Nat.le_of_eq (congrArg (· + 2) supply))
  rw [parse_of_allowance (Nat.le_refl _)]
  unfold Parser.Affords at affords
  cases ran : Parser.whole (feed.supply + 2) ⟨{ feed }, .empty, names⟩ with
  | ok found after => exact fun same => by cases same
  | error error after =>
      rw [ran] at affords
      exact fun same => affords (Except.error.inj same)

/-- Parsing ends, whatever is fed to it, and never because its allowance is spent: any allowance of
two more than the feed has bytes gives the same result. Up to where it ends, none of its loops has
begun more rounds than bytes have been taken from the feed, over the whole source and whether there
is a program or a fault, and no expression lies inside of more others than that. Where an
expression or a name is read, from whatever state, it is at least one character of what was
ahead. -/
theorem parsing_ends_and_advances (feed : Feed) (names : NameTable) :
    (parse feed names).1 ≠ .error .exhausted ∧
    (∀ allowance,
      let start : ParserState := ⟨{ feed }, .empty, names⟩
      let run := Counting.whole allowance ⟨start, {}⟩
      Counting.forget run = Parser.whole allowance start ∧
      (feed.supply + 2 ≤ allowance → parse feed names = ofResult (Counting.forget run)) ∧
      (Counting.last run).tally.AtMost
        (feed.supply - (Counting.last run).state.cursor.feed.supply)) ∧
    (∀ fuel state id after, Parser.expression fuel state = .ok id after →
      state.cursor.Moved 1 after.cursor) ∧
    (∀ state name after, Parser.name state = .ok name after →
      state.cursor.Moved 1 after.cursor) := by
  refine ⟨parse_ne_exhausted feed names, fun allowance => ?_,
    fun fuel => (Parser.moves_expression fuel).1, Parser.moves_name⟩
  have same := Counting.follows_whole allowance ⟨⟨{ feed }, .empty, names⟩, {}⟩
  refine ⟨same, fun enough => ?_, Counting.atMost_whole feed names allowance⟩
  rw [parse_of_allowance enough, same]

end Program

end LambdaMachine
