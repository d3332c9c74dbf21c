import LambdaMachine.Proofs.Source.Supply
import LambdaMachine.Proofs.Source.Latch

/-!
How many rounds the loops of a cursor begin: the one that passes accepted characters, which looks at
one character in each round, and the one that passes over a comment, which decodes one. A character
that is looked at stands for a byte, and the opening of a comment stands for the round in which the
comment ends, so there are no more rounds than bytes are used up.
-/

namespace LambdaMachine

namespace Item

/-- The rounds begun in comments on the way to the next item: one behind each opening, and one
behind each character that does not close the comment. -/
def commentRounds (inComment : Bool) (pending : Option Pending) (offset : Nat) : Feed → Nat
  | [] => 0
  | .interruption :: feed => commentRounds inComment pending offset feed
  | .finish :: _ => 0
  | .failure _ :: _ => 0
  | .byte byte :: feed =>
      match Pending.gather pending offset byte with
      | .part pending => commentRounds inComment (some pending) (offset + 1) feed
      | .invalid _ => 0
      | .rune char _ =>
          if inComment then
            commentRounds (char != '\n') none (offset + 1) feed + if char = '\n' then 0 else 1
          else if char = Rune.comment then commentRounds true none (offset + 1) feed + 1
          else 0

theorem commentRounds_next_le (inComment : Bool) (pending : Option Pending) (offset : Nat)
    (feed : Feed) :
    (next inComment pending offset feed).2.1.supply +
    (next inComment pending offset feed).1.weight +
      commentRounds inComment pending offset feed ≤ feed.supply := by
  induction feed generalizing inComment pending offset with
  | nil => rw [next, weight_ofEnd, commentRounds]; exact Nat.le_refl 0
  | cons event feed ih =>
      cases event with
      | finish => rw [next, weight_ofEnd, commentRounds]; exact Nat.le_refl _
      | failure text => exact Nat.le_refl _
      | interruption => exact ih inComment pending offset
      | byte byte =>
          rw [next, commentRounds, Feed.supply]
          cases Pending.gather pending offset byte with
          | part pending => exact Nat.le_succ_of_le (ih _ _ _)
          | invalid start => exact Nat.le_succ _
          | rune char start =>
              dsimp only
              split
              · have rest := ih (char != '\n') none (offset + 1)
                split <;> omega
              · split
                · have rest := ih true none (offset + 1)
                  omega
                · exact Nat.le_refl _

end Item

namespace Cursor

def commentRounds (cursor : Cursor) : Nat :=
  if cursor.lookahead.isSome || cursor.ended then 0
  else Item.commentRounds false none cursor.offset cursor.feed

def gatherRounds (accepts : Char → Bool) (cursor : Cursor) : Nat :=
  match _found : peek cursor with
  | .ok (some rune) after => if accepts rune then gatherRounds accepts after.advance + 1 else 1
  | .ok none _ => 0
  | .error _ _ => 0
termination_by cursor.remaining
decreasing_by exact remaining_advance_lt _found

def gatherComments (accepts : Char → Bool) (cursor : Cursor) : Nat :=
  cursor.commentRounds + match _found : peek cursor with
  | .ok (some rune) after => if accepts rune then gatherComments accepts after.advance else 0
  | .ok none _ => 0
  | .error _ _ => 0
termination_by cursor.remaining
decreasing_by exact remaining_advance_lt _found

def unread (cursor : Cursor) : Nat :=
  cursor.feed.supply

def holdsName (cursor : Cursor) : Bool :=
  match cursor.lookahead with
  | some (rune, _) => Rune.isNameRune rune
  | none => false

def nameable (cursor : Cursor) : Nat :=
  cursor.unread + if cursor.holdsName then 1 else 0

variable {cursor after : Cursor}

theorem unread_le_nameable (cursor : Cursor) : cursor.unread ≤ cursor.nameable :=
  Nat.le_add_right _ _

theorem nameable_le_supply (cursor : Cursor) : cursor.nameable ≤ cursor.supply := by
  unfold nameable supply holdsName unread
  cases cursor.lookahead with
  | none => simp
  | some ahead =>
      simp only [Option.isSome_some, if_true]
      split <;> omega

theorem supply_le_unread_succ (cursor : Cursor) : cursor.supply ≤ cursor.unread + 1 := by
  unfold supply unread
  split <;> omega

theorem nameable_advance (cursor : Cursor) : cursor.advance.nameable = cursor.unread :=
  Nat.add_zero _

theorem supply_advance (cursor : Cursor) : cursor.advance.supply = cursor.unread :=
  Nat.add_zero _

theorem Leaves.mono {ε α : Type} {post weaker : Cursor → Prop} {result : EStateM.Result ε Cursor α}
    (leaves : Leaves post result) (implies : ∀ last, post last → weaker last) :
    Leaves weaker result := by
  cases result with
  | ok value last => exact implies last leaves
  | error error last => exact implies last leaves

structure Looks (cursor after : Cursor) : Prop where
  comments : after.supply + cursor.commentRounds ≤ cursor.supply
  unread : after.unread ≤ cursor.unread
  nameable : after.nameable ≤ cursor.nameable

theorem supply_of_empty (empty : cursor.lookahead = none) : cursor.supply = cursor.unread := by
  simp [supply, unread, empty]

theorem nameable_of_stopped
    (stopped : ∀ rune start, cursor.lookahead = some (rune, start) → Rune.isNameRune rune = false) :
    cursor.nameable = cursor.unread := by
  unfold nameable holdsName
  cases looked : cursor.lookahead with
  | none => rfl
  | some ahead => simp [stopped ahead.1 ahead.2 looked]

/-- Where no character has been looked at, all the bytes left are to be asked for. -/
theorem Looks.of_empty (empty : cursor.lookahead = none)
    (paid : after.supply + cursor.commentRounds ≤ cursor.unread) : cursor.Looks after := by
  have total := supply_of_empty empty
  have afterNameable := after.nameable_le_supply
  have afterUnread := after.unread_le_nameable
  have nameable := cursor.unread_le_nameable
  constructor <;> omega

theorem looks_peek (cursor : Cursor) : Leaves (cursor.Looks ·) (peek cursor) := by
  unfold peek
  cases looked : cursor.lookahead with
  | some ahead => exact ⟨by simp [commentRounds, looked], Nat.le_refl _, Nat.le_refl _⟩
  | none =>
      have total := supply_of_empty looked
      by_cases ended : cursor.ended = true
      · simp only [ended, if_true]
        exact .of_empty looked (by simp [commentRounds, ended, total])
      · have less := Item.commentRounds_next_le false none cursor.offset cursor.feed
        have rounds : cursor.commentRounds =
            Item.commentRounds false none cursor.offset cursor.feed := by
          simp [commentRounds, looked, ended]
        simp only [ended]
        rw [← rounds] at less
        generalize Item.next false none cursor.offset cursor.feed = found at less
        obtain ⟨item, rest, reached⟩ := found
        cases item with
        | rune rune start => exact .of_empty looked less
        | fault error =>
            exact .of_empty looked (by simpa [supply, unread, looked, Item.weight] using less)
        | finish =>
            exact .of_empty looked (by simpa [supply, unread, looked, Item.weight] using less)

theorem looks_atEnd (cursor : Cursor) : Leaves (cursor.Looks ·) (atEnd cursor) := by
  have looks := looks_peek cursor
  simp only [atEnd, bind, EStateM.bind]
  cases peeked : peek cursor with
  | ok found after =>
      rw [peeked] at looks
      exact looks
  | error error after =>
      rw [peeked] at looks
      exact looks

/-- What has been looked at is what was found. -/
theorem lookahead_peek {found : Option Char} (peeked : peek cursor = .ok found after) :
    after.lookahead.map Prod.fst = found := by
  unfold peek at peeked
  split at peeked
  · rename_i ahead
    cases peeked
    simp [ahead]
  · rename_i empty
    split at peeked
    · cases peeked
      simp [empty]
    · split at peeked
      · cases peeked
        rfl
      · cases peeked
      · cases peeked
        simp [empty]

theorem supply_of_found {rune : Char} (found : cursor.lookahead.map Prod.fst = some rune) :
    cursor.supply = cursor.unread + 1 := by
  have looked : cursor.lookahead.isSome = true := by
    rw [← Option.isSome_map, found]
    rfl
  simp [supply, unread, looked]

theorem nameable_of_found {rune : Char} (found : cursor.lookahead.map Prod.fst = some rune)
    (isName : Rune.isNameRune rune = true) : cursor.nameable = cursor.supply := by
  obtain ⟨⟨_, start⟩, looked, rfl⟩ := Option.map_eq_some_iff.mp found
  simp [nameable, supply, unread, holdsName, looked, isName]

theorem lookahead_peek_error {error : StreamError} (peeked : peek cursor = .error error after) :
    after.lookahead = none := by
  unfold peek at peeked
  split at peeked
  · cases peeked
  · rename_i empty
    split at peeked
    · cases peeked
    · split at peeked
      · cases peeked
      · cases peeked
        exact empty
      · cases peeked

theorem gatherRounds_eq (accepts : Char → Bool) (cursor : Cursor) :
    cursor.gatherRounds accepts =
      match peek cursor with
      | .ok (some rune) after =>
          if accepts rune then after.advance.gatherRounds accepts + 1 else 1
      | _ => 0 := by
  rw [gatherRounds]
  split <;> simp_all

theorem gatherComments_eq (accepts : Char → Bool) (cursor : Cursor) :
    cursor.gatherComments accepts =
      cursor.commentRounds +
        match peek cursor with
        | .ok (some rune) after => if accepts rune then after.advance.gatherComments accepts else 0
        | _ => 0 := by
  rw [gatherComments]
  split <;> simp_all

structure Passes (accepts : Char → Bool) (cursor after : Cursor) : Prop where
  rounds : after.unread + cursor.gatherRounds accepts ≤ cursor.supply
  comments : after.supply + cursor.gatherComments accepts ≤ cursor.supply
  unread : after.unread ≤ cursor.unread
  nameable : after.nameable ≤ cursor.nameable
  stopped : ∀ rune start, after.lookahead = some (rune, start) → accepts rune = false

theorem Passes.supply_le {accepts : Char → Bool} (passes : cursor.Passes accepts after) :
    after.supply ≤ cursor.supply :=
  Nat.le_trans (Nat.le_add_right _ _) passes.comments

/-- At a character that is not accepted, at the end and at a fault no character is passed. -/
theorem passes_of_stopped {accepts : Char → Bool}
    (refused : ∀ rune after, peek cursor = .ok (some rune) after → accepts rune = false) :
    Leaves (cursor.Passes accepts ·) (peek cursor) := by
  have rounds := gatherRounds_eq accepts cursor
  have comments := gatherComments_eq accepts cursor
  have looks := looks_peek cursor
  have bounded := fun (last : Cursor) =>
    Nat.le_trans last.unread_le_nameable last.nameable_le_supply
  cases peeked : peek cursor with
  | ok found after =>
      rw [peeked] at looks
      have paid := looks.comments
      have seen := lookahead_peek peeked
      have enough := bounded after
      cases found with
      | none =>
          simp only [peeked] at rounds comments
          refine ⟨by omega, by omega, looks.unread, looks.nameable, fun rune start same => ?_⟩
          rw [same] at seen
          cases seen
      | some rune =>
          have refused := refused rune after peeked
          simp only [peeked, refused, Bool.false_eq_true, if_false] at rounds comments
          have total := supply_of_found seen
          refine ⟨by omega, by omega, looks.unread, looks.nameable, fun other start same => ?_⟩
          rw [same] at seen
          cases seen
          exact refused
  | error error after =>
      rw [peeked] at looks
      have paid := looks.comments
      have enough := bounded after
      simp only [peeked] at rounds comments
      refine ⟨by omega, by omega, looks.unread, looks.nameable, fun rune start same => ?_⟩
      rw [lookahead_peek_error peeked] at same
      cases same

theorem Passes.step {accepts : Char → Bool} {rune : Char} {middle : Cursor}
    (peeked : peek cursor = .ok (some rune) middle) (accepted : accepts rune = true)
    (passes : middle.advance.Passes accepts after) : cursor.Passes accepts after := by
  have rounds : cursor.gatherRounds accepts = middle.advance.gatherRounds accepts + 1 := by
    rw [gatherRounds_eq, peeked]
    exact if_pos accepted
  have comments : cursor.gatherComments accepts =
      cursor.commentRounds + middle.advance.gatherComments accepts := by
    rw [gatherComments_eq, peeked]
    exact congrArg (cursor.commentRounds + ·) (if_pos accepted)
  have looks := looks_peek cursor
  rw [peeked] at looks
  have paid := looks.comments
  have total := supply_of_found (lookahead_peek peeked)
  have rest := middle.supply_advance
  have restNameable := middle.nameable_advance
  have enough := middle.unread_le_nameable
  obtain ⟨moreRounds, moreComments, lessUnread, lessNameable, stopped⟩ := passes
  have same : middle.advance.unread = middle.unread := rfl
  have unread := looks.unread
  have nameable := looks.nameable
  exact ⟨by omega, by omega, by omega, by omega, stopped⟩

theorem passes_gather (accepts : Char → Bool) (text : String) (cursor : Cursor) :
    Leaves (cursor.Passes accepts ·) (gather accepts text cursor).2 := by
  fun_induction gather accepts text cursor with
  | case1 text cursor rune middle peeked accepted ih =>
      exact ih.mono fun after passes => passes.step peeked accepted
  | case2 text cursor rune middle peeked refused =>
      have stays : Leaves (cursor.Passes accepts ·) (peek cursor) := by
        refine passes_of_stopped fun other after again => ?_
        cases peeked.symm.trans again
        exact Bool.eq_false_iff.mpr refused
      rwa [peeked] at stays
  | case3 text cursor middle peeked =>
      have stays : Leaves (cursor.Passes accepts ·) (peek cursor) :=
        passes_of_stopped fun other after again => by cases peeked.symm.trans again
      rwa [peeked] at stays
  | case4 text cursor error middle peeked =>
      have stays : Leaves (cursor.Passes accepts ·) (peek cursor) :=
        passes_of_stopped fun other after again => by cases peeked.symm.trans again
      rwa [peeked] at stays

theorem passes_takeWhile (accepts : Char → Bool) (cursor : Cursor) :
    Leaves (cursor.Passes accepts ·) (takeWhile accepts cursor) := by
  have passes := passes_gather accepts "" cursor
  unfold takeWhile
  generalize gather accepts "" cursor = gathered at passes ⊢
  obtain ⟨text, result⟩ := gathered
  cases result with
  | ok _ after => exact passes
  | error error after => exact passes

theorem passes_skipBlanks (cursor : Cursor) :
    Leaves (cursor.Passes Rune.isBlank ·) (skipBlanks cursor) := by
  have passes := passes_takeWhile Rune.isBlank cursor
  simp only [skipBlanks, bind, EStateM.bind]
  cases taken : takeWhile Rune.isBlank cursor with
  | ok text after =>
      rw [taken] at passes
      exact passes
  | error error after =>
      rw [taken] at passes
      exact passes

end Cursor

end LambdaMachine
