import LambdaMachine.Proofs.Source.Cursor
import LambdaMachine.Proofs.Text.Utf8

/-!
A source that is text, read character by character: what a cursor still has in front of it is a list
of characters, and each operation takes its part off the front.
-/

namespace LambdaMachine

theorem toList_loop_eq_append_drop (bytes : ByteArray) (index : Nat) (gathered : List UInt8) :
    ByteArray.toList.loop bytes index gathered =
      gathered.reverse ++ bytes.data.toList.drop index := by
  fun_induction ByteArray.toList.loop bytes index gathered with
  | case1 index gathered inside ih =>
      have below : index < bytes.data.toList.length := inside
      have read : bytes.get! index = bytes.data.toList[index] :=
        getElem!_pos bytes.data index inside
      rw [ih, List.drop_eq_getElem_cons below, List.reverse_cons, List.append_assoc, read]
      rfl
  | case2 index gathered outside =>
      have above : bytes.data.toList.length ≤ index := Nat.le_of_not_lt outside
      rw [List.drop_eq_nil_of_le above, List.append_nil]

theorem toList_toUTF8 (text : String) :
    text.toUTF8.toList = text.toList.flatMap String.utf8EncodeChar := by
  rw [ByteArray.toList, toList_loop_eq_append_drop, String.toUTF8_eq_toByteArray,
    ← String.utf8Encode_toList, List.utf8Encode, List.toList_data_toByteArray]
  rfl

namespace Feed

def ofChars (chars : List Char) : Feed :=
  chars.flatMap fun char => ofBytes (String.utf8EncodeChar char)

theorem ofChars_cons (char : Char) (chars : List Char) :
    ofChars (char :: chars) = ofBytes (String.utf8EncodeChar char) ++ ofChars chars :=
  rfl

theorem ofString_eq_ofChars (text : String) : ofString text = ofChars text.toList := by
  rw [ofString, toList_toUTF8, ofBytes, List.map_flatMap]
  rfl

theorem length_le_length_ofChars (chars : List Char) : chars.length ≤ (ofChars chars).length := by
  induction chars with
  | nil => exact Nat.le_refl 0
  | cons char chars ih =>
      obtain ⟨lead, rest, encodes⟩ := Utf8.exists_encodes char
      rw [ofChars_cons, encodes.bytes, List.length_append, ofBytes, List.length_map,
        List.length_cons, List.length_cons]
      omega

end Feed

namespace Item

theorem next_of_rune {pending : Option Pending} {offset start : Nat} {byte : UInt8} {char : Char}
    (plain : char ≠ Rune.comment) (gathered : Pending.gather pending offset byte = .rune char start)
    (feed : Feed) :
    next false pending offset (.byte byte :: feed) = (.rune char start, feed, offset + 1) := by
  simp only [next, gathered, Bool.false_eq_true, if_false, if_neg plain]

theorem next_of_part {pending : Option Pending} {part : Pending} {offset : Nat} {byte : UInt8}
    (gathered : Pending.gather pending offset byte = .part part) (feed : Feed) :
    next false pending offset (.byte byte :: feed) = next false (some part) (offset + 1) feed := by
  simp only [next, gathered]

theorem settle_whole {start : Nat} {bytes : List UInt8} {char : Char}
    (decoded : Utf8.decode? bytes = some char) :
    Pending.settle ⟨start, bytes, 0⟩ = .rune char start := by
  simp only [Pending.settle, decoded, if_true]

theorem settle_part (start : Nat) (bytes : List UInt8) (missing : Nat) :
    Pending.settle ⟨start, bytes, missing + 1⟩ = .part ⟨start, bytes, missing + 1⟩ := by
  rw [Pending.settle, if_neg (Nat.succ_ne_zero missing)]

theorem next_pending {char : Char} (plain : char ≠ Rune.comment) (start : Nat) (feed : Feed)
    {read rest : List UInt8} {byte : UInt8} {offset : Nat}
    (decoded : Utf8.decode? (read ++ byte :: rest) = some char) :
    next false (some ⟨start, read, rest.length + 1⟩) offset
        (Feed.ofBytes (byte :: rest) ++ feed) =
      (.rune char start, feed, offset + (rest.length + 1)) := by
  induction rest generalizing read byte offset with
  | nil =>
      have gathered : Pending.gather (some ⟨start, read, 1⟩) offset byte = .rune char start :=
        settle_whole decoded
      exact next_of_rune plain gathered feed
  | cons after rest ih =>
      have gathered : Pending.gather (some ⟨start, read, rest.length + 1 + 1⟩) offset byte =
          .part ⟨start, read ++ [byte], rest.length + 1⟩ :=
        settle_part start (read ++ [byte]) rest.length
      rw [List.append_cons] at decoded
      rw [List.length_cons]
      refine (next_of_part gathered _).trans ((ih decoded).trans ?_)
      rw [Nat.add_assoc, Nat.add_comm 1]

theorem next_char {char : Char} (plain : char ≠ Rune.comment) (offset : Nat) (feed : Feed) :
    ∃ reached, next false none offset (Feed.ofBytes (String.utf8EncodeChar char) ++ feed) =
      (.rune char offset, feed, reached) := by
  obtain ⟨lead, rest, encodes⟩ := Utf8.exists_encodes char
  have opened : Pending.gather none offset lead = Pending.settle ⟨offset, [lead], rest.length⟩ := by
    simp only [Pending.gather, encodes.width]
    rfl
  rw [encodes.bytes]
  cases rest with
  | nil =>
      have gathered := opened.trans (settle_whole encodes.decoded)
      exact ⟨_, next_of_rune plain gathered feed⟩
  | cons second rest =>
      have gathered : Pending.gather none offset lead =
          .part ⟨offset, [lead], rest.length + 1⟩ :=
        opened.trans (settle_part offset [lead] rest.length)
      exact ⟨_, (next_of_part gathered _).trans (next_pending plain offset feed encodes.decoded)⟩

end Item

namespace Cursor

structure Holds (cursor : Cursor) (chars : List Char) : Prop where
  plain : ∀ char ∈ chars, char ≠ Rune.comment
  ended : cursor.ended = true → chars = []
  front : match cursor.lookahead with
    | some (rune, _) => ∃ rest, chars = rune :: rest ∧ cursor.feed = Feed.ofChars rest
    | none => cursor.feed = Feed.ofChars chars

theorem holds_start {chars : List Char} (plain : ∀ char ∈ chars, char ≠ Rune.comment) :
    ({ feed := Feed.ofChars chars } : Cursor).Holds chars :=
  ⟨plain, by rintro ⟨⟩, rfl⟩

theorem Holds.not_ended {cursor : Cursor} {char : Char} {rest : List Char}
    (holds : cursor.Holds (char :: rest)) : cursor.ended = false := by
  cases ended : cursor.ended with
  | false => rfl
  | true => cases holds.ended ended

theorem Holds.peek_cons {cursor : Cursor} {char : Char} {rest : List Char}
    (holds : cursor.Holds (char :: rest)) :
    ∃ after, Cursor.peek cursor = .ok (some char) after ∧ after.Holds (char :: rest) ∧
      after.advance.Holds rest := by
  have plainRest : ∀ other ∈ rest, other ≠ Rune.comment :=
    fun other among => holds.plain other (List.mem_cons_of_mem _ among)
  have notEnded := holds.not_ended
  have front := holds.front
  cases ahead : cursor.lookahead with
  | some looked =>
      obtain ⟨rune, start⟩ := looked
      rw [ahead] at front
      obtain ⟨others, same, feed⟩ := front
      cases same
      refine ⟨cursor, by simp only [Cursor.peek, ahead], holds, plainRest, ?_, feed⟩
      intro ended
      cases holds.ended ended
  | none =>
      rw [ahead] at front
      obtain ⟨reached, item⟩ :=
        Item.next_char (holds.plain char List.mem_cons_self) cursor.offset (Feed.ofChars rest)
      rw [← Feed.ofChars_cons, ← front] at item
      refine ⟨⟨Feed.ofChars rest, some (char, cursor.offset), false, reached⟩, ?_, ?_, ?_⟩
      · simp only [Cursor.peek, ahead, notEnded, item]
        rfl
      · exact ⟨holds.plain, by rintro ⟨⟩, rest, rfl, rfl⟩
      · exact ⟨plainRest, by rintro ⟨⟩, rfl⟩

theorem Holds.peek_nil {cursor : Cursor} (holds : cursor.Holds []) :
    ∃ after, Cursor.peek cursor = .ok none after ∧ after.Holds [] := by
  have front := holds.front
  cases ahead : cursor.lookahead with
  | some looked =>
      rw [ahead] at front
      obtain ⟨rest, same, _⟩ := front
      cases same
  | none =>
      rw [ahead] at front
      have feed : cursor.feed = [] := front
      cases ended : cursor.ended with
      | true => exact ⟨cursor, by simp only [Cursor.peek, ahead, ended, if_true], holds⟩
      | false =>
          refine ⟨⟨[], none, true, cursor.offset⟩, ?_, holds.plain, fun _ => rfl, rfl⟩
          simp only [Cursor.peek, ahead, ended, feed, Item.next]
          rfl

theorem gather_accepted {accepts : Char → Bool} {cursor after : Cursor} {rune : Char}
    (peeked : Cursor.peek cursor = .ok (some rune) after) (accepted : accepts rune = true)
    (text : String) :
    Cursor.gather accepts text cursor =
      Cursor.gather accepts (text.push rune) after.advance := by
  rw [Cursor.gather]
  split
  · rename_i found
    cases peeked.symm.trans found
    exact if_pos accepted
  · rename_i found
    cases peeked.symm.trans found
  · rename_i found
    cases peeked.symm.trans found

theorem gather_stopped {accepts : Char → Bool} {cursor after : Cursor} {found : Option Char}
    (peeked : Cursor.peek cursor = .ok found after)
    (refused : ∀ rune, found = some rune → accepts rune = false) (text : String) :
    Cursor.gather accepts text cursor = (text, .ok () after) := by
  rw [Cursor.gather]
  split
  · rename_i rune _ again
    cases peeked.symm.trans again
    rw [if_neg (by rw [refused rune rfl]; exact Bool.false_ne_true)]
  · rename_i again
    cases peeked.symm.trans again
    rfl
  · rename_i again
    cases peeked.symm.trans again

def Stops (accepts : Char → Bool) (chars : List Char) : Prop :=
  ∀ char ∈ chars.head?, accepts char = false

theorem Holds.gather {accepts : Char → Bool} {taken rest : List Char} {cursor : Cursor}
    (holds : cursor.Holds (taken ++ rest)) (accepted : ∀ char ∈ taken, accepts char = true)
    (stops : Stops accepts rest) (text : String) :
    ∃ after, Cursor.gather accepts text cursor = (text ++ String.ofList taken, .ok () after) ∧
      after.Holds rest := by
  induction taken generalizing cursor text with
  | nil =>
      rw [String.ofList_nil, String.append_empty]
      cases rest with
      | nil =>
          obtain ⟨after, peeked, kept⟩ := holds.peek_nil
          exact ⟨after, gather_stopped peeked (fun _ same => by cases same) text, kept⟩
      | cons char rest =>
          obtain ⟨after, peeked, kept, _⟩ := holds.peek_cons
          refine ⟨after, gather_stopped peeked (fun rune same => ?_) text, kept⟩
          cases same
          exact stops char rfl
  | cons char taken ih =>
      obtain ⟨middle, peeked, _, advanced⟩ := holds.peek_cons
      obtain ⟨after, gathered, kept⟩ := ih advanced
        (fun other among => accepted other (List.mem_cons_of_mem _ among)) (text.push char)
      refine ⟨after, ?_, kept⟩
      rw [gather_accepted peeked (accepted char List.mem_cons_self), gathered,
        String.push_eq_append, String.append_assoc, String.ofList_cons]

theorem Holds.takeWhile {accepts : Char → Bool} {taken rest : List Char} {cursor : Cursor}
    (holds : cursor.Holds (taken ++ rest)) (accepted : ∀ char ∈ taken, accepts char = true)
    (stops : Stops accepts rest) :
    ∃ after, Cursor.takeWhile accepts cursor = .ok (String.ofList taken) after ∧
      after.Holds rest := by
  obtain ⟨after, gathered, kept⟩ := holds.gather accepted stops ""
  refine ⟨after, ?_, kept⟩
  rw [Cursor.takeWhile, gathered, String.empty_append]

theorem Holds.skipBlanks {blanks rest : List Char} {cursor : Cursor}
    (holds : cursor.Holds (blanks ++ rest)) (blank : ∀ char ∈ blanks, Rune.isBlank char = true)
    (stops : Stops Rune.isBlank rest) :
    ∃ after, Cursor.skipBlanks cursor = .ok () after ∧ after.Holds rest := by
  obtain ⟨after, taken, kept⟩ := holds.takeWhile blank stops
  exact ⟨after, skipBlanks_eq_ok.mpr ⟨_, taken⟩, kept⟩

theorem Holds.expectOneOf {expected blanks rest : List Char} {rune : Char} {cursor : Cursor}
    (holds : cursor.Holds (rune :: (blanks ++ rest))) (member : expected.contains rune = true)
    (blank : ∀ char ∈ blanks, Rune.isBlank char = true) (stops : Stops Rune.isBlank rest) :
    ∃ after, Cursor.expectOneOf expected cursor = .ok rune after ∧ after.Holds rest := by
  obtain ⟨middle, peeked, _, advanced⟩ := holds.peek_cons
  obtain ⟨after, skipped, kept⟩ := advanced.skipBlanks blank stops
  exact ⟨after, expectOneOf_eq_ok.mpr ⟨middle, peeked, member, skipped⟩, kept⟩

end Cursor

end LambdaMachine
