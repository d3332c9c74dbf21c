import LambdaMachine.Source.Cursor

/-!
The whole of a feed scanned at once, and the cursor as a place in the result. Scanning decodes every
character first and leaves the comments out afterwards. Each operation of a cursor is one on the
list of items that are still ahead, so no order of operations shows that a cursor reads its feed
piece by piece, or that it stops reading at the end.
-/

namespace LambdaMachine

structure Scanned where
  item : Item
  reached : Nat
  deriving DecidableEq

namespace Feed

def complete (start : Nat) (bytes : List UInt8) : Nat → Feed → Scanned × Feed
  | 0, feed =>
      match Utf8.decode? bytes with
      | some rune => (⟨.rune rune start, start + bytes.length⟩, feed)
      | none => (⟨.fault (.encoding start), start + bytes.length⟩, feed)
  | missing + 1, feed =>
      match feed.nextByte with
      | (.ok (some byte), rest) => complete start (bytes ++ [byte]) missing rest
      | (.ok none, rest) => (⟨.fault (.encoding start), start + bytes.length⟩, rest)
      | (.error text, rest) => (⟨.fault (.io text), start + bytes.length⟩, rest)

def decode (start : Nat) (feed : Feed) : Scanned × Feed :=
  match feed.nextByte with
  | (.ok (some lead), rest) =>
      match Utf8.width? lead with
      | some width => complete start [lead] (width - 1) rest
      | none => (⟨.fault (.encoding start), start + 1⟩, rest)
  | (.ok none, rest) => (⟨.finish, start⟩, rest)
  | (.error text, rest) => (⟨.fault (.io text), start⟩, rest)

theorem nextByte_length (feed : Feed) :
    feed.nextByte.2.length ≤ feed.length ∧
      (feed.nextByte.1 ≠ .ok none → feed.nextByte.2.length < feed.length) := by
  induction feed with
  | nil => simp [nextByte]
  | cons event feed ih =>
      cases event with
      | interruption =>
          simp only [nextByte, List.length_cons]
          exact ⟨by omega, fun found => by have := ih.2 found; omega⟩
      | byte byte => simp [nextByte]
      | finish => simp [nextByte]
      | failure text => simp [nextByte]

theorem complete_length_le (start : Nat) (bytes : List UInt8) (missing : Nat) (feed : Feed) :
    (complete start bytes missing feed).2.length ≤ feed.length := by
  induction missing generalizing bytes feed with
  | zero =>
      rw [complete]
      split <;> exact Nat.le_refl _
  | succ missing ih =>
      have shorter := (nextByte_length feed).1
      rw [complete]
      split
      · rename_i byte rest next
        rw [next] at shorter
        exact Nat.le_trans (ih _ rest) shorter
      · rename_i rest next
        rw [next] at shorter
        exact shorter
      · rename_i text rest next
        rw [next] at shorter
        exact shorter

theorem decode_length_lt {start : Nat} {feed rest : Feed} {found : Scanned}
    (decoded : decode start feed = (found, rest)) (goesOn : found.item ≠ .finish) :
    rest.length < feed.length := by
  have shorter := (nextByte_length feed).2
  unfold decode at decoded
  split at decoded
  · rename_i lead after next
    rw [next] at shorter
    replace shorter := shorter (by simp)
    split at decoded
    · rename_i width _
      have fewer := complete_length_le start [lead] (width - 1) after
      rw [decoded] at fewer
      exact Nat.lt_of_le_of_lt fewer shorter
    · cases decoded
      exact shorter
  · cases decoded
    exact (goesOn rfl).elim
  · rename_i text after next
    rw [next] at shorter
    cases decoded
    exact shorter (by simp)

def decodeAll (start : Nat) (feed : Feed) : List Scanned :=
  match _decoded : feed.decode start with
  | (found, rest) =>
      if _last : found.item = .finish then [found] else found :: decodeAll found.reached rest
termination_by feed.length
decreasing_by exact decode_length_lt _decoded _last

def withoutComments (inComment : Bool) : List Scanned → List Scanned
  | [] => []
  | ⟨.rune char start, reached⟩ :: rest =>
      if inComment then withoutComments (char != '\n') rest
      else if char = Rune.comment then withoutComments true rest
      else ⟨.rune char start, reached⟩ :: withoutComments false rest
  | found :: rest => found :: withoutComments false rest

def scan (start : Nat) (feed : Feed) : List Scanned :=
  withoutComments false (feed.decodeAll start)

theorem decodeAll_of_decode {start : Nat} {feed rest : Feed} {found : Scanned}
    (decoded : feed.decode start = (found, rest)) :
    feed.decodeAll start =
      if found.item = .finish then [found] else found :: rest.decodeAll found.reached := by
  rw [decodeAll]
  split
  rename_i other after again
  cases decoded.symm.trans again
  by_cases last : found.item = .finish
  · rw [dif_pos last, if_pos last]
  · rw [dif_neg last, if_neg last]

end Feed

namespace Item

def resume (inComment : Bool) : Scanned × Feed → Item × Feed × Nat
  | (⟨.rune char start, reached⟩, rest) =>
      if inComment then next (char != '\n') none reached rest
      else if char = Rune.comment then next true none reached rest
      else (.rune char start, rest, reached)
  | (⟨item, reached⟩, rest) => (item, rest, reached)

theorem next_some_eq_resume (inComment : Bool) (start : Nat) (bytes : List UInt8) (missing : Nat)
    (feed : Feed) :
    next inComment (some ⟨start, bytes, missing + 1⟩) (start + bytes.length) feed =
      resume inComment (feed.complete start bytes (missing + 1)) := by
  induction feed generalizing bytes missing with
  | nil => rfl
  | cons event feed ih =>
      cases event with
      | interruption =>
          rw [next, ih]
          rfl
      | finish => rfl
      | failure text => rfl
      | byte byte =>
          have further : start + bytes.length + 1 = start + (bytes ++ [byte]).length := by
            rw [List.length_append]
            rfl
          simp only [next, Pending.gather, Feed.complete, Feed.nextByte, Nat.add_sub_cancel]
          rw [further]
          -- a character is settled only with its last byte
          cases missing with
          | succ missing =>
              simp only [Pending.settle, Nat.add_one_ne_zero, if_false]
              exact ih (bytes ++ [byte]) missing
          | zero =>
              simp only [Pending.settle, if_true, Feed.complete]
              cases Utf8.decode? (bytes ++ [byte]) with
              | none => rfl
              | some rune => rfl

theorem next_none_eq_resume (inComment : Bool) (start : Nat) (feed : Feed) :
    next inComment none start feed = resume inComment (feed.decode start) := by
  induction feed with
  | nil => rfl
  | cons event feed ih =>
      cases event with
      | interruption =>
          rw [next, ih]
          rfl
      | finish => rfl
      | failure text => rfl
      | byte lead =>
          simp only [next, Pending.gather, Feed.decode, Feed.nextByte]
          cases Utf8.width? lead with
          | none => rfl
          | some width =>
              dsimp only
              generalize width - 1 = missing
              cases missing with
              | succ missing =>
                  simp only [Pending.settle, Nat.add_one_ne_zero, if_false]
                  exact next_some_eq_resume inComment start [lead] missing feed
              | zero =>
                  simp only [Pending.settle, if_true, Feed.complete]
                  cases Utf8.decode? [lead] with
                  | none => rfl
                  | some rune => rfl

end Item

namespace Feed

def scanOn : Item × Feed × Nat → List Scanned
  | (.finish, _, reached) => [⟨.finish, reached⟩]
  | (item, rest, reached) => ⟨item, reached⟩ :: rest.scan reached

theorem withoutComments_decodeAll (inComment : Bool) (start : Nat) (feed : Feed) :
    withoutComments inComment (feed.decodeAll start) =
      scanOn (Item.next inComment none start feed) := by
  induction size : feed.length using Nat.strongRecOn generalizing inComment start feed with
  | ind size ih =>
      subst size
      cases decoded : feed.decode start with
      | mk found rest =>
          obtain ⟨item, reached⟩ := found
          rw [Item.next_none_eq_resume, decoded, decodeAll_of_decode decoded]
          cases item with
          | finish => rfl
          | fault error => rfl
          | rune char begin =>
              have shorter := decode_length_lt decoded (by simp)
              simp only [reduceCtorEq, if_false, withoutComments, Item.resume]
              -- what a comment drops is passed over by both sides, on a shorter feed
              by_cases dropped : inComment = true
              · rw [if_pos dropped, if_pos dropped, ih _ shorter _ _ _ rfl]
              · rw [if_neg dropped, if_neg dropped]
                by_cases opens : char = Rune.comment
                · rw [if_pos opens, if_pos opens, ih _ shorter _ _ _ rfl]
                · rw [if_neg opens, if_neg opens]
                  rfl

theorem scan_eq_scanOn (start : Nat) (feed : Feed) :
    feed.scan start = scanOn (Item.next false none start feed) :=
  withoutComments_decodeAll false start feed

end Feed

end LambdaMachine
