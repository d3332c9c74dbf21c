import LambdaMachine.Source.Cursor

/-!
No character of a comment is ever delivered, not even the one that opens it. So a run of accepted
characters holds accepted characters only, and no opening of a comment.
-/

namespace LambdaMachine

theorem Item.next_ne_comment {inComment : Bool} {pending : Option Pending} {offset : Nat}
    {feed rest : Feed} {char : Char} {start reached : Nat}
    (found : next inComment pending offset feed = (.rune char start, rest, reached)) :
    char ≠ Rune.comment := by
  induction feed generalizing inComment pending offset with
  | nil => cases pending <;> simp [next, ofEnd] at found
  | cons event feed ih =>
      cases event with
      | finish => cases pending <;> simp [next, ofEnd] at found
      | failure text => simp [next] at found
      | interruption =>
          simp only [next] at found
          exact ih found
      | byte byte =>
          simp only [next] at found
          split at found
          · exact ih found
          · simp at found
          · split at found
            · exact ih found
            · split at found
              · exact ih found
              · rename_i opens
                cases found
                exact opens

namespace Cursor

def Clean (cursor : Cursor) : Prop :=
  ∀ rune start, cursor.lookahead = some (rune, start) → rune ≠ Rune.comment

theorem clean_start (feed : Feed) : ({ feed } : Cursor).Clean := by
  intro rune start ahead
  cases ahead

theorem clean_advance (cursor : Cursor) : cursor.advance.Clean := by
  intro rune start ahead
  cases ahead

theorem Clean.peek {cursor after : Cursor} {found : Option Char} (clean : cursor.Clean)
    (peeked : Cursor.peek cursor = .ok found after) :
    after.Clean ∧ ∀ rune, found = some rune → rune ≠ Rune.comment := by
  unfold Cursor.peek at peeked
  split at peeked
  · rename_i rune start ahead
    cases peeked
    refine ⟨clean, fun other same => ?_⟩
    cases same
    exact clean rune start ahead
  · rename_i empty
    split at peeked
    · cases peeked
      exact ⟨clean, fun _ same => by cases same⟩
    · split at peeked
      · rename_i rune start feed offset item
        cases peeked
        have opens := Item.next_ne_comment item
        exact ⟨fun _ _ ahead => by cases ahead; exact opens,
          fun _ same => by cases same; exact opens⟩
      · cases peeked
      · cases peeked
        refine ⟨fun rune start ahead => ?_, fun _ same => by cases same⟩
        rw [empty] at ahead
        cases ahead

theorem Clean.gather {accepts : Char → Bool} {text gathered : String} {cursor after : Cursor}
    (clean : cursor.Clean)
    (ended : Cursor.gather accepts text cursor = (gathered, .ok () after)) :
    after.Clean ∧ ∀ char ∈ gathered.toList,
      char ∈ text.toList ∨ accepts char = true ∧ char ≠ Rune.comment := by
  fun_induction Cursor.gather accepts text cursor with
  | case1 text cursor rune middle peeked accepted ih =>
      obtain ⟨afterClean, each⟩ := ih (clean_advance middle) ended
      refine ⟨afterClean, fun char among => ?_⟩
      rcases each char among with earlier | later
      · rw [String.toList_push, List.mem_append, List.mem_singleton] at earlier
        rcases earlier with before | rfl
        · exact Or.inl before
        · exact Or.inr ⟨accepted, (clean.peek peeked).2 char rfl⟩
      · exact Or.inr later
  | case2 text cursor rune middle peeked refused =>
      cases ended
      exact ⟨(clean.peek peeked).1, fun _ among => Or.inl among⟩
  | case3 text cursor middle peeked =>
      cases ended
      exact ⟨(clean.peek peeked).1, fun _ among => Or.inl among⟩
  | case4 text cursor error middle peeked => cases ended

theorem Clean.takeWhile {accepts : Char → Bool} {text : String} {cursor after : Cursor}
    (clean : cursor.Clean) (taken : Cursor.takeWhile accepts cursor = .ok text after) :
    after.Clean ∧ ∀ char ∈ text.toList, accepts char = true ∧ char ≠ Rune.comment := by
  unfold Cursor.takeWhile at taken
  split at taken
  · rename_i gathered _ middle ended
    cases taken
    obtain ⟨afterClean, each⟩ := clean.gather ended
    refine ⟨afterClean, fun char among => ?_⟩
    rcases each char among with early | late
    · cases early
    · exact late
  · cases taken

theorem atEnd_eq_ok {cursor after : Cursor} {ended : Bool} :
    Cursor.atEnd cursor = .ok ended after ↔
      ∃ found, Cursor.peek cursor = .ok found after ∧ ended = found.isNone := by
  simp only [Cursor.atEnd, bind, EStateM.bind]
  constructor
  · intro asked
    cases peeked : Cursor.peek cursor with
    | error error middle => rw [peeked] at asked; cases asked
    | ok found middle =>
        rw [peeked] at asked
        cases asked
        exact ⟨found, rfl, rfl⟩
  · rintro ⟨found, peeked, rfl⟩
    rw [peeked]
    rfl

theorem skipBlanks_eq_ok {cursor after : Cursor} :
    Cursor.skipBlanks cursor = .ok () after ↔
      ∃ text, Cursor.takeWhile Rune.isBlank cursor = .ok text after := by
  constructor
  · intro skipped
    simp only [Cursor.skipBlanks, bind, EStateM.bind] at skipped
    split at skipped
    · rename_i text middle taken
      cases skipped
      exact ⟨text, taken⟩
    · cases skipped
  · rintro ⟨text, taken⟩
    simp only [Cursor.skipBlanks, bind, EStateM.bind, taken]
    rfl

theorem Clean.skipBlanks {cursor after : Cursor} (clean : cursor.Clean)
    (skipped : Cursor.skipBlanks cursor = .ok () after) : after.Clean := by
  obtain ⟨text, taken⟩ := skipBlanks_eq_ok.mp skipped
  exact (clean.takeWhile taken).1

theorem expectOneOf_eq_ok {expected : List Char} {cursor after : Cursor} {rune : Char} :
    expectOneOf expected cursor = .ok rune after ↔
      ∃ middle, Cursor.peek cursor = .ok (some rune) middle ∧ expected.contains rune = true ∧
        Cursor.skipBlanks middle.advance = .ok () after := by
  simp only [expectOneOf, bind, EStateM.bind, EStateM.adaptExcept]
  constructor
  · intro passed
    cases peeked : Cursor.peek cursor with
    | error error middle => rw [peeked] at passed; cases passed
    | ok found middle =>
        rw [peeked] at passed
        cases found with
        | none => cases passed
        | some other =>
            dsimp only at passed
            split at passed
            · rename_i member
              change EStateM.bind (EStateM.adaptExcept ExpectError.stream Cursor.skipBlanks)
                (fun _ => pure other) middle.advance = .ok rune after at passed
              simp only [EStateM.bind, EStateM.adaptExcept] at passed
              cases skipped : Cursor.skipBlanks middle.advance with
              | error error stop => rw [skipped] at passed; cases passed
              | ok _ stop =>
                  rw [skipped] at passed
                  cases passed
                  exact ⟨middle, rfl, member, skipped⟩
            · cases passed
  · rintro ⟨middle, peeked, member, skipped⟩
    rw [peeked]
    dsimp only
    rw [if_pos member]
    change EStateM.bind (EStateM.adaptExcept ExpectError.stream Cursor.skipBlanks)
      (fun _ => pure rune) middle.advance = .ok rune after
    simp only [EStateM.bind, EStateM.adaptExcept, skipped]
    rfl

theorem Clean.expectOneOf {expected : List Char} {cursor after : Cursor} {rune : Char}
    (passed : Cursor.expectOneOf expected cursor = .ok rune after) : after.Clean := by
  obtain ⟨middle, _, _, skipped⟩ := expectOneOf_eq_ok.mp passed
  exact (clean_advance middle).skipBlanks skipped

end Cursor

end LambdaMachine
