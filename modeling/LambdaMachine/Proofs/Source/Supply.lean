import LambdaMachine.Proofs.Source.Cursor

/-!
What reading uses up. A character costs at least one of the bytes that are still to come, and
nothing puts bytes back.
-/

namespace LambdaMachine

def Feed.supply : Feed → Nat
  | [] => 0
  | .byte _ :: rest => supply rest + 1
  | _ :: rest => supply rest

theorem Feed.supply_le_length (feed : Feed) : feed.supply ≤ feed.length := by
  induction feed with
  | nil => exact Nat.le_refl 0
  | cons event feed ih =>
      cases event with
      | byte byte => exact Nat.succ_le_succ ih
      | finish | failure _ | interruption => exact Nat.le_succ_of_le ih

namespace Item

def weight : Item → Nat
  | .rune _ _ => 1
  | _ => 0

theorem weight_ofEnd (pending : Option Pending) : (ofEnd pending).weight = 0 := by
  cases pending with
  | none => rfl
  | some pending => rfl

theorem supply_next (inComment : Bool) (pending : Option Pending) (offset : Nat) (feed : Feed) :
    (next inComment pending offset feed).2.1.supply +
    (next inComment pending offset feed).1.weight ≤
      feed.supply := by
  induction feed generalizing inComment pending offset with
  | nil => rw [next, weight_ofEnd]; exact Nat.le_refl 0
  | cons event feed ih =>
      cases event with
      | finish => rw [next, weight_ofEnd]; exact Nat.le_refl _
      | failure text => exact Nat.le_refl _
      | interruption => exact ih inComment pending offset
      | byte byte =>
          rw [next, Feed.supply]
          split
          · exact Nat.le_succ_of_le (ih _ _ _)
          · exact Nat.le_succ _
          · split
            · exact Nat.le_succ_of_le (ih _ _ _)
            · split
              · exact Nat.le_succ_of_le (ih _ _ _)
              · exact Nat.le_refl _

end Item

namespace Cursor

variable {cursor after : Cursor}

def supply (cursor : Cursor) : Nat :=
  cursor.feed.supply + if cursor.lookahead.isSome then 1 else 0

theorem supply_peek {found : Option Char} (peeked : peek cursor = .ok found after) :
    after.supply ≤ cursor.supply ∧ (found.isSome → after.advance.supply < cursor.supply) := by
  unfold peek at peeked
  split at peeked
  · rename_i ahead
    cases peeked
    exact ⟨Nat.le_refl _, fun _ => by simp [advance, supply, ahead]⟩
  · rename_i unlooked
    have less := Item.supply_next false none cursor.offset cursor.feed
    split at peeked
    · cases peeked
      exact ⟨Nat.le_refl _, fun none => by cases none⟩
    · split at peeked
      · rename_i item
        rw [item] at less
        cases peeked
        have shorter := Nat.le_trans less (Nat.le_add_right _ (if cursor.lookahead.isSome then 1 else 0))
        exact ⟨shorter, fun _ => shorter⟩
      · cases peeked
      · rename_i item
        rw [item] at less
        cases peeked
        refine ⟨?_, fun none => by cases none⟩
        exact Nat.add_le_add_right less _

theorem supply_gather {accepts : Char → Bool} {text gathered : String}
    (ran : gather accepts text cursor = (gathered, .ok () after)) :
    after.supply ≤ cursor.supply ∧ (gathered ≠ text → after.supply < cursor.supply) := by
  fun_induction gather accepts text cursor with
  | case1 text cursor rune middle peeked accepted ih =>
      have less := Nat.lt_of_le_of_lt (ih ran).1 ((supply_peek peeked).2 rfl)
      exact ⟨Nat.le_of_lt less, fun _ => less⟩
  | case2 text cursor rune middle peeked refused =>
      cases ran
      exact ⟨(supply_peek peeked).1, fun other => (other rfl).elim⟩
  | case3 text cursor middle peeked =>
      cases ran
      exact ⟨(supply_peek peeked).1, fun other => (other rfl).elim⟩
  | case4 text cursor error middle peeked => cases ran

theorem supply_takeWhile {accepts : Char → Bool} {text : String}
    (taken : takeWhile accepts cursor = .ok text after) :
    after.supply ≤ cursor.supply ∧ (text ≠ "" → after.supply < cursor.supply) := by
  unfold takeWhile at taken
  split at taken
  · rename_i gathered _ last ran
    cases taken
    exact supply_gather ran
  · cases taken

theorem supply_skipBlanks (skipped : skipBlanks cursor = .ok () after) :
    after.supply ≤ cursor.supply := by
  obtain ⟨text, taken⟩ := skipBlanks_eq_ok.mp skipped
  exact (supply_takeWhile taken).1

theorem supply_expectOneOf {expected : List Char} {rune : Char}
    (passed : expectOneOf expected cursor = .ok rune after) : after.supply < cursor.supply := by
  obtain ⟨middle, peeked, _, skipped⟩ := expectOneOf_eq_ok.mp passed
  exact Nat.lt_of_le_of_lt (supply_skipBlanks skipped) ((supply_peek peeked).2 rfl)

theorem supply_atEnd {ended : Bool} (asked : atEnd cursor = .ok ended after) :
    after.supply ≤ cursor.supply := by
  obtain ⟨found, peeked, _⟩ := atEnd_eq_ok.mp asked
  exact (supply_peek peeked).1

end Cursor

end LambdaMachine
