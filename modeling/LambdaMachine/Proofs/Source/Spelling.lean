import LambdaMachine.Proofs.Source.Characters
import LambdaMachine.Proofs.Source.Tape

/-!
A source that is text and may have comments. What a cursor has in front of it are the characters
that are left once the comments are taken out, and each operation takes its part off the front,
wherever a comment stood.
-/

namespace LambdaMachine

/-- The characters outside comments, each of which goes through the end of its line. -/
def uncommented (inComment : Bool) : List Char → List Char
  | [] => []
  | char :: rest =>
      if inComment then uncommented (char != '\n') rest
      else if char = Rune.comment then uncommented true rest
      else char :: uncommented false rest

theorem length_uncommented_le (inComment : Bool) (chars : List Char) :
    (uncommented inComment chars).length ≤ chars.length := by
  induction chars generalizing inComment with
  | nil => exact Nat.le_refl 0
  | cons char chars ih =>
      rw [uncommented]
      by_cases dropped : inComment = true
      · rw [if_pos dropped]
        exact Nat.le_succ_of_le (ih _)
      · rw [if_neg dropped]
        by_cases opens : char = Rune.comment
        · rw [if_pos opens]
          exact Nat.le_succ_of_le (ih true)
        · rw [if_neg opens]
          exact Nat.succ_le_succ (ih false)

def commentAfter (inComment : Bool) : List Char → Bool
  | [] => inComment
  | char :: rest =>
      if inComment then commentAfter (char != '\n') rest
      else commentAfter (char = Rune.comment) rest

theorem commentAfter_append (inComment : Bool) (chars more : List Char) :
    commentAfter inComment (chars ++ more) = commentAfter (commentAfter inComment chars) more := by
  induction chars generalizing inComment with
  | nil => rfl
  | cons char chars ih =>
      simp only [List.cons_append, commentAfter]
      by_cases dropped : inComment = true
      · simp only [if_pos dropped, ih]
      · simp only [if_neg dropped, ih]

theorem uncommented_append (inComment : Bool) (chars more : List Char) :
    uncommented inComment (chars ++ more) =
      uncommented inComment chars ++ uncommented (commentAfter inComment chars) more := by
  induction chars generalizing inComment with
  | nil => rfl
  | cons char chars ih =>
      simp only [List.cons_append, uncommented, commentAfter]
      by_cases dropped : inComment = true
      · simp only [if_pos dropped, ih]
      · by_cases opens : char = Rune.comment
        · simp only [if_neg dropped, if_pos opens, ih, decide_eq_true opens]
        · simp only [if_neg dropped, if_neg opens, ih, decide_eq_false opens, List.cons_append]

theorem uncommented_of_plain {chars : List Char} (plain : Rune.comment ∉ chars) :
    uncommented false chars = chars := by
  induction chars with
  | nil => rfl
  | cons char chars ih =>
      rw [List.mem_cons, not_or] at plain
      rw [uncommented, if_neg Bool.false_ne_true, if_neg (Ne.symm plain.1), ih plain.2]

inductive Spells : List Scanned → List Char → Prop
  | done (reached : Nat) : Spells [⟨.finish, reached⟩] []
  | next {items : List Scanned} {chars : List Char} (char : Char) (start reached : Nat)
      (rest : Spells items chars) : Spells (⟨.rune char start, reached⟩ :: items) (char :: chars)

theorem Spells.withoutComments {items : List Scanned} {chars : List Char}
    (spells : Spells items chars) (inComment : Bool) :
    Spells (Feed.withoutComments inComment items) (uncommented inComment chars) := by
  induction spells generalizing inComment with
  | done reached => exact .done reached
  | next char start reached rest ih =>
      rw [Feed.withoutComments, uncommented]
      by_cases dropped : inComment = true
      · rw [if_pos dropped, if_pos dropped]
        exact ih _
      · rw [if_neg dropped, if_neg dropped]
        by_cases opens : char = Rune.comment
        · rw [if_pos opens, if_pos opens]
          exact ih true
        · rw [if_neg opens, if_neg opens]
          exact .next char start reached (ih false)

namespace Feed

theorem complete_ofBytes {start : Nat} {read rest : List UInt8} {char : Char}
    (decoded : Utf8.decode? (read ++ rest) = some char) (feed : Feed) :
    complete start read rest.length (ofBytes rest ++ feed) =
      (⟨.rune char start, start + (read ++ rest).length⟩, feed) := by
  induction rest generalizing read with
  | nil =>
      rw [List.append_nil] at decoded
      simp only [List.length_nil, complete, decoded, List.append_nil]
      rfl
  | cons byte rest ih =>
      rw [List.append_cons] at decoded ⊢
      exact ih decoded

theorem decode_ofChars_cons (start : Nat) (char : Char) (chars : List Char) :
    ∃ reached, decode start (ofChars (char :: chars)) =
      (⟨.rune char start, reached⟩, ofChars chars) := by
  obtain ⟨lead, rest, encodes⟩ := Utf8.exists_encodes char
  refine ⟨start + ([lead] ++ rest).length, ?_⟩
  rw [ofChars_cons, encodes.bytes]
  simp only [decode, ofBytes, List.map_cons, List.cons_append, nextByte, encodes.width,
    Nat.add_sub_cancel]
  exact complete_ofBytes encodes.decoded (ofChars chars)

theorem spells_decodeAll (start : Nat) (chars : List Char) :
    Spells ((ofChars chars).decodeAll start) chars := by
  induction chars generalizing start with
  | nil =>
      have decoded : decode start (ofChars []) = (⟨.finish, start⟩, []) := rfl
      rw [decodeAll_of_decode decoded, if_pos rfl]
      exact .done start
  | cons char chars ih =>
      obtain ⟨reached, decoded⟩ := decode_ofChars_cons start char chars
      rw [decodeAll_of_decode decoded, if_neg (by simp)]
      exact .next char start reached (ih reached)

end Feed

namespace Cursor

def Faces (cursor : Cursor) (chars : List Char) : Prop :=
  Spells cursor.view.ahead chars

theorem faces_start (text : String) :
    ({ feed := Feed.ofString text } : Cursor).Faces (uncommented false text.toList) := by
  rw [Feed.ofString_eq_ofChars]
  exact (Feed.spells_decodeAll 0 text.toList).withoutComments false

theorem Faces.peek {cursor : Cursor} {chars : List Char} (faces : cursor.Faces chars) :
    ∃ after, Cursor.peek cursor = .ok chars.head? after ∧ after.Faces chars ∧
      after.advance.Faces chars.tail := by
  have shown := (peek_view cursor).symm
  unfold Faces at faces
  generalize cursor.view = tape at faces shown
  obtain ⟨ahead, looked, offset⟩ := tape
  cases faces with
  | done reached =>
      obtain ⟨after, peeked, view⟩ := viewResult_eq_ok.mp shown
      refine ⟨after, peeked, ?_, ?_⟩
      · rw [Faces, view]
        exact .done reached
      · rw [Faces, ← advance_view, view]
        exact .done reached
  | next char start reached rest =>
      obtain ⟨after, peeked, view⟩ := viewResult_eq_ok.mp shown
      refine ⟨after, peeked, ?_, ?_⟩
      · rw [Faces, view]
        exact .next char start reached rest
      · rw [Faces, ← advance_view, view]
        exact rest

theorem Faces.gather {accepts : Char → Bool} {chars : List Char} {cursor : Cursor}
    (faces : cursor.Faces chars) (text : String) :
    ∃ after, Cursor.gather accepts text cursor =
        (text ++ String.ofList (chars.takeWhile accepts), .ok () after) ∧
      after.Faces (chars.dropWhile accepts) := by
  induction chars generalizing cursor text with
  | nil =>
      obtain ⟨after, peeked, kept, _⟩ := faces.peek
      refine ⟨after, ?_, kept⟩
      rw [gather_stopped peeked (fun _ same => by cases same), List.takeWhile_nil,
        String.ofList_nil, String.append_empty]
  | cons char chars ih =>
      obtain ⟨middle, peeked, kept, advanced⟩ := faces.peek
      by_cases accepted : accepts char = true
      · obtain ⟨after, gathered, rest⟩ := ih advanced (text.push char)
        refine ⟨after, ?_, ?_⟩
        · rw [gather_accepted peeked accepted, gathered, List.takeWhile_cons_of_pos accepted,
            String.push_eq_append, String.append_assoc, String.ofList_cons]
        · rw [List.dropWhile_cons_of_pos accepted]
          exact rest
      · refine ⟨middle, ?_, ?_⟩
        · rw [gather_stopped peeked, List.takeWhile_cons_of_neg accepted, String.ofList_nil,
            String.append_empty]
          intro rune same
          cases same
          exact Bool.eq_false_iff.mpr accepted
        · rw [List.dropWhile_cons_of_neg accepted]
          exact kept

theorem Faces.takeWhile {accepts : Char → Bool} {chars : List Char} {cursor : Cursor}
    (faces : cursor.Faces chars) :
    ∃ after, Cursor.takeWhile accepts cursor =
        .ok (String.ofList (chars.takeWhile accepts)) after ∧
      after.Faces (chars.dropWhile accepts) := by
  obtain ⟨after, gathered, rest⟩ := @Faces.gather accepts chars cursor faces ""
  refine ⟨after, ?_, rest⟩
  rw [Cursor.takeWhile, gathered, String.empty_append]

theorem Faces.skipBlanks {chars : List Char} {cursor : Cursor} (faces : cursor.Faces chars) :
    ∃ after, Cursor.skipBlanks cursor = .ok () after ∧
      after.Faces (chars.dropWhile Rune.isBlank) := by
  obtain ⟨after, taken, rest⟩ := @Faces.takeWhile Rune.isBlank chars cursor faces
  exact ⟨after, skipBlanks_eq_ok.mpr ⟨_, taken⟩, rest⟩

theorem Faces.expectOneOf_pos {expected chars : List Char} {rune : Char} {cursor : Cursor}
    (faces : cursor.Faces (rune :: chars)) (member : expected.contains rune = true) :
    ∃ after, Cursor.expectOneOf expected cursor = .ok rune after ∧
      after.Faces (chars.dropWhile Rune.isBlank) := by
  obtain ⟨middle, peeked, _, advanced⟩ := faces.peek
  obtain ⟨after, skipped, rest⟩ := advanced.skipBlanks
  exact ⟨after, expectOneOf_eq_ok.mpr ⟨middle, peeked, member, skipped⟩, rest⟩

theorem Faces.expectOneOf_neg {expected chars : List Char} {cursor : Cursor}
    (faces : cursor.Faces chars)
    (missing : ∀ rune, chars.head? = some rune → ¬expected.contains rune = true) :
    ∃ offset after, Cursor.expectOneOf expected cursor =
      .error (.mismatch ⟨expected, chars.head?, offset⟩) after := by
  obtain ⟨middle, peeked, _, _⟩ := faces.peek
  rw [expectOneOf_eq, peeked]
  cases front : chars.head? with
  | none => exact ⟨_, _, rfl⟩
  | some rune =>
      dsimp only
      rw [if_neg (missing rune front)]
      exact ⟨_, _, rfl⟩

theorem Faces.atEnd {chars : List Char} {cursor : Cursor} (faces : cursor.Faces chars) :
    ∃ after, Cursor.atEnd cursor = .ok chars.head?.isNone after ∧ after.Faces chars := by
  obtain ⟨after, peeked, kept, _⟩ := faces.peek
  exact ⟨after, atEnd_eq_ok.mpr ⟨_, peeked, rfl⟩, kept⟩

end Cursor

end LambdaMachine
