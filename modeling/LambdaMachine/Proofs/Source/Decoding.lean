import LambdaMachine.Proofs.Source.Spelling
import LambdaMachine.Proofs.Text.Malformed

/-!
Reading a source to its end. However a reader hands its bytes over, what is read are the characters
of the longest part of them that is UTF-8, with the comments left out. Then comes the end, or the
fault at the first byte behind that part.
-/

namespace LambdaMachine

namespace Utf8

theorem eq_of_prefix {char other : Char} {bytes : List UInt8}
    (begins : String.utf8EncodeChar char <+: bytes)
    (otherBegins : String.utf8EncodeChar other <+: bytes) : char = other := by
  obtain ⟨lead, rest, encodes⟩ := exists_encodes char
  obtain ⟨first, tail, encodesOther⟩ := exists_encodes other
  rw [encodes.bytes] at begins
  rw [encodesOther.bytes] at otherBegins
  obtain ⟨after, rfl⟩ := begins
  obtain ⟨last, same⟩ := otherBegins
  obtain ⟨rfl, tailSame⟩ := List.cons.inj same
  -- the lead byte tells the length, so neither encoding goes on longer than the other
  have lengths : tail.length = rest.length :=
    Nat.succ.inj (Option.some.inj (encodesOther.width.symm.trans encodes.width))
  obtain ⟨rfl, _⟩ := List.append_inj tailSame lengths
  exact Option.some.inj (encodes.decoded.symm.trans encodesOther.decoded)

/-- No text whose encoding the bytes begin with is longer than one behind which they are stuck. -/
theorem length_encode_le {chars others : List Char} {rest : List UInt8}
    (stuck : ∀ char, ¬String.utf8EncodeChar char <+: rest)
    (begins : encode others <+: encode chars ++ rest) :
    (encode others).length ≤ (encode chars).length := by
  induction others generalizing chars with
  | nil => exact Nat.zero_le _
  | cons other others ih =>
      rw [encode_cons] at begins
      have first := (List.prefix_append _ _).trans begins
      cases chars with
      | nil => exact (stuck other first).elim
      | cons char chars =>
          rw [encode_cons, List.append_assoc] at begins first
          obtain rfl := eq_of_prefix first (List.prefix_append _ _)
          have later := ih ((List.prefix_append_right_inj _).mp begins)
          rw [encode_cons, encode_cons, List.length_append, List.length_append]
          exact Nat.add_le_add_left later _

theorem exists_longest (bytes : List UInt8) :
    ∃ chars rest, bytes = encode chars ++ rest ∧
      ∀ char, ¬String.utf8EncodeChar char <+: rest := by
  by_cases stuck : ∀ char, ¬String.utf8EncodeChar char <+: bytes
  · exact ⟨[], bytes, rfl, stuck⟩
  · simp only [Classical.not_forall, Classical.not_not] at stuck
    obtain ⟨char, more, rfl⟩ := stuck
    obtain ⟨chars, rest, rfl, stuckThere⟩ := exists_longest more
    refine ⟨char :: chars, rest, ?_, stuckThere⟩
    rw [encode_cons, List.append_assoc]
termination_by bytes.length
decreasing_by
  subst_vars
  rw [List.length_append]
  exact Nat.lt_add_of_pos_left (List.length_pos_iff.mpr (utf8EncodeChar_ne_nil char))

end Utf8

namespace Feed

/-- A reader that never fails hands these bytes over before it first reports an end. -/
inductive Carries : Feed → List UInt8 → Prop
  | nothing : Carries [] []
  | finish (rest : Feed) : Carries (.finish :: rest) []
  | interruption {rest : Feed} {bytes : List UInt8} (carries : Carries rest bytes) :
      Carries (.interruption :: rest) bytes
  | byte {rest : Feed} {bytes : List UInt8} (byte : UInt8) (carries : Carries rest bytes) :
      Carries (.byte byte :: rest) (byte :: bytes)

theorem carries_ofBytes (bytes : List UInt8) : (ofBytes bytes).Carries bytes := by
  induction bytes with
  | nil => exact .nothing
  | cons byte bytes ih => exact .byte byte ih

section Carries

variable {feed : Feed} {bytes : List UInt8}

theorem Carries.nextByte_nil (carries : feed.Carries []) :
    ∃ rest, feed.nextByte = (.ok none, rest) := by
  induction feed with
  | nil => exact ⟨[], rfl⟩
  | cons event feed ih =>
      cases carries with
      | finish => exact ⟨feed, rfl⟩
      | interruption carries => exact ih carries

theorem Carries.nextByte_cons {byte : UInt8} (carries : feed.Carries (byte :: bytes)) :
    ∃ rest, feed.nextByte = (.ok (some byte), rest) ∧ rest.Carries bytes := by
  induction feed with
  | nil => cases carries
  | cons event feed ih =>
      cases carries with
      | interruption carries => exact ih carries
      | byte _ carries => exact ⟨feed, rfl, carries⟩

theorem Carries.complete {read rest : List UInt8} {char : Char}
    (carries : feed.Carries (rest ++ bytes)) (decoded : Utf8.decode? (read ++ rest) = some char)
    (start : Nat) :
    ∃ after, Feed.complete start read rest.length feed =
        (⟨.rune char start, start + (read ++ rest).length⟩, after) ∧ after.Carries bytes := by
  induction rest generalizing read feed with
  | nil =>
      rw [List.append_nil] at decoded ⊢
      refine ⟨feed, ?_, carries⟩
      simp only [List.length_nil, Feed.complete, decoded]
  | cons byte rest ih =>
      obtain ⟨middle, next, carriesOn⟩ := carries.nextByte_cons
      rw [List.append_cons] at decoded ⊢
      simp only [List.length_cons, Feed.complete, next]
      exact ih carriesOn decoded

theorem Carries.decode_char {char : Char}
    (carries : feed.Carries (String.utf8EncodeChar char ++ bytes)) (start : Nat) :
    ∃ after, feed.decode start =
        (⟨.rune char start, start + (String.utf8EncodeChar char).length⟩, after) ∧
      after.Carries bytes := by
  obtain ⟨lead, rest, encodes⟩ := Utf8.exists_encodes char
  rw [encodes.bytes, List.cons_append] at carries
  obtain ⟨middle, next, carriesOn⟩ := carries.nextByte_cons
  simp only [decode, next, encodes.width, Nat.add_sub_cancel, encodes.bytes]
  exact carriesOn.complete encodes.decoded start

theorem Carries.complete_stuck {read : List UInt8} (carries : feed.Carries bytes)
    (stuck : ∀ taken, taken <+: bytes → Utf8.decode? (read ++ taken) = none) (start missing : Nat) :
    ∃ reached after, Feed.complete start read missing feed =
      (⟨.fault (.encoding start), reached⟩, after) := by
  induction missing generalizing read feed bytes with
  | zero =>
      have refused := stuck [] (List.nil_prefix)
      rw [List.append_nil] at refused
      exact ⟨_, _, by rw [Feed.complete, refused]⟩
  | succ missing ih =>
      cases bytes with
      | nil =>
          obtain ⟨rest, next⟩ := carries.nextByte_nil
          exact ⟨_, _, by rw [Feed.complete, next]⟩
      | cons byte bytes =>
          obtain ⟨rest, next, carriesOn⟩ := carries.nextByte_cons
          simp only [Feed.complete, next]
          refine ih carriesOn fun taken begins => ?_
          rw [← List.append_cons]
          exact stuck (byte :: taken) ((List.prefix_cons_inj byte).mpr begins)

/-- Bytes that no character begins with are refused at the first of them. -/
theorem Carries.decode_stuck (carries : feed.Carries bytes) (some : bytes ≠ [])
    (stuck : ∀ char, ¬String.utf8EncodeChar char <+: bytes) (start : Nat) :
    ∃ reached after, feed.decode start = (⟨.fault (.encoding start), reached⟩, after) := by
  obtain ⟨lead, bytes, rfl⟩ := List.exists_cons_of_ne_nil some
  obtain ⟨rest, next, carriesOn⟩ := carries.nextByte_cons
  simp only [decode, next]
  cases Utf8.width? lead with
  | none => exact ⟨_, _, rfl⟩
  | some width =>
      refine carriesOn.complete_stuck (fun taken begins => ?_) start (width - 1)
      cases decoded : Utf8.decode? ([lead] ++ taken) with
      | none => rfl
      | some char =>
          have encoded := Utf8.encoded_of_decode? decoded
          exact (stuck char (encoded ▸ (List.prefix_cons_inj lead).mpr begins)).elim

theorem Carries.decode_nil (carries : feed.Carries []) (start : Nat) :
    ∃ after, feed.decode start = (⟨.finish, start⟩, after) := by
  obtain ⟨rest, next⟩ := carries.nextByte_nil
  exact ⟨rest, by rw [decode, next]⟩

end Carries

def delivered : List Scanned → List Char × Option StreamError
  | ⟨.rune char _, _⟩ :: rest => (char :: (delivered rest).1, (delivered rest).2)
  | ⟨.fault error, _⟩ :: _ => ([], some error)
  | _ => ([], none)

/-- How reading ends behind `offset` bytes of UTF-8 that `rest` follows. -/
def ending (offset : Nat) (rest : List UInt8) : Option StreamError :=
  if rest = [] then none else some (.encoding offset)

theorem delivered_decodeAll {feed : Feed} {chars : List Char} {rest : List UInt8}
    (carries : feed.Carries (Utf8.encode chars ++ rest))
    (stuck : ∀ char, ¬String.utf8EncodeChar char <+: rest) (inComment : Bool) (start : Nat) :
    delivered (withoutComments inComment (feed.decodeAll start)) =
      (uncommented inComment chars, ending (start + (Utf8.encode chars).length) rest) := by
  induction chars generalizing feed inComment start with
  | nil =>
      rw [Utf8.encode, List.flatMap_nil, List.nil_append] at carries
      cases rest with
      | nil =>
          obtain ⟨after, decoded⟩ := carries.decode_nil start
          rw [decodeAll_of_decode decoded, if_pos rfl]
          rfl
      | cons byte rest =>
          obtain ⟨reached, after, decoded⟩ :=
            carries.decode_stuck (List.cons_ne_nil byte rest) stuck start
          rw [decodeAll_of_decode decoded, if_neg (by simp)]
          rfl
  | cons char chars ih =>
      rw [Utf8.encode_cons, List.append_assoc] at carries
      obtain ⟨after, decoded, carriesOn⟩ := carries.decode_char start
      have further : start + (String.utf8EncodeChar char).length + (Utf8.encode chars).length =
          start + (Utf8.encode (char :: chars)).length := by
        rw [Utf8.encode_cons, List.length_append, Nat.add_assoc]
      rw [decodeAll_of_decode decoded, if_neg (by simp), withoutComments, uncommented]
      by_cases dropped : inComment = true
      · rw [if_pos dropped, if_pos dropped, ih carriesOn, further]
      · rw [if_neg dropped, if_neg dropped]
        by_cases opens : char = Rune.comment
        · rw [if_pos opens, if_pos opens, ih carriesOn, further]
        · rw [if_neg opens, if_neg opens, delivered, ih carriesOn, further]

end Feed

namespace Cursor

inductive Reads : Cursor → List Char → Option StreamError → Prop
  | finish {cursor after : Cursor} (ended : read cursor = .ok none after) : Reads cursor [] none
  | fault {cursor after : Cursor} {error : StreamError} (failed : read cursor = .error error after) :
      Reads cursor [] (some error)
  | next {cursor after : Cursor} {char : Char} {chars : List Char} {ending : Option StreamError}
      (found : read cursor = .ok (some char) after) (rest : Reads after chars ending) :
      Reads cursor (char :: chars) ending

theorem read_eq (cursor : Cursor) :
    read cursor = match peek cursor with
      | .ok found after => .ok found after.advance
      | .error error after => .error error after := by
  simp only [read, bind, EStateM.bind]
  cases peek cursor with
  | ok found after => rfl
  | error error after => rfl

theorem reads_delivered (cursor : Cursor) :
    cursor.Reads (Feed.delivered cursor.view.ahead).1 (Feed.delivered cursor.view.ahead).2 := by
  generalize front : cursor.view.ahead = ahead
  induction ahead generalizing cursor with
  | nil =>
      have shown := (read_view cursor).symm
      rw [Tape.read, Tape.peek, front] at shown
      obtain ⟨after, found, _⟩ := viewResult_eq_ok.mp shown
      exact .finish found
  | cons first rest ih =>
      have shown := (read_view cursor).symm
      obtain ⟨item, reached⟩ := first
      rw [Tape.read, Tape.peek, front] at shown
      cases item with
      | rune char start =>
          obtain ⟨after, found, view⟩ := viewResult_eq_ok.mp shown
          exact .next found (ih after (by rw [view]; rfl))
      | fault error =>
          obtain ⟨after, failed, _⟩ := viewResult_eq_error.mp shown
          exact .fault failed
      | finish =>
          obtain ⟨after, found, _⟩ := viewResult_eq_ok.mp shown
          exact .finish found

theorem Reads.gather {cursor : Cursor} {chars : List Char} {ending : Option StreamError}
    (reads : cursor.Reads chars ending) (text : String) :
    ∃ after, Cursor.gather (fun _ => true) text cursor =
      (text ++ String.ofList chars,
        match ending with
        | none => .ok () after
        | some error => .error error after) := by
  induction reads generalizing text with
  | @finish cursor after ended =>
      rw [read_eq] at ended
      cases peeked : peek cursor with
      | error error middle => rw [peeked] at ended; cases ended
      | ok found middle =>
          rw [peeked] at ended
          obtain ⟨rfl, _⟩ := EStateM.Result.ok.inj ended
          refine ⟨middle, ?_⟩
          rw [gather_stopped peeked (fun _ same => by cases same), String.ofList_nil,
            String.append_empty]
  | @fault cursor after error failed =>
      rw [read_eq] at failed
      cases peeked : peek cursor with
      | ok found middle => rw [peeked] at failed; cases failed
      | error other middle =>
          rw [peeked] at failed
          obtain ⟨rfl, _⟩ := EStateM.Result.error.inj failed
          refine ⟨middle, ?_⟩
          rw [Cursor.gather, String.ofList_nil, String.append_empty]
          split
          · rename_i again
            cases peeked.symm.trans again
          · rename_i again
            cases peeked.symm.trans again
          · rename_i again
            cases peeked.symm.trans again
            rfl
  | @next cursor after char chars ending found rest ih =>
      rw [read_eq] at found
      cases peeked : peek cursor with
      | error error middle => rw [peeked] at found; cases found
      | ok rune middle =>
          rw [peeked] at found
          obtain ⟨rfl, rfl⟩ := EStateM.Result.ok.inj found
          obtain ⟨last, gathered⟩ := ih (text.push char)
          refine ⟨last, ?_⟩
          rw [gather_accepted peeked rfl, gathered, String.push_eq_append, String.append_assoc,
            String.ofList_cons]

theorem reads_carried {feed : Feed} {chars : List Char} {rest : List UInt8}
    (carries : feed.Carries (Utf8.encode chars ++ rest))
    (stuck : ∀ char, ¬String.utf8EncodeChar char <+: rest) :
    ({ feed } : Cursor).Reads (uncommented false chars)
      (Feed.ending (Utf8.encode chars).length rest) := by
  have reads := reads_delivered { feed }
  rw [view_start, Feed.scan, Feed.delivered_decodeAll carries stuck false 0, Nat.zero_add] at reads
  exact reads

/-- Decoding is UTF-8 with the comments left out: what is read is the longest part that is UTF-8,
text without comments comes back as it was, and each kind of malformed bytes is a fault at the
first of them. -/
theorem reading_decodes {feed : Feed} {bytes : List UInt8} (carries : feed.Carries bytes) :
    (∃ chars rest, bytes = Utf8.encode chars ++ rest ∧
      (∀ others, Utf8.encode others <+: bytes →
        (Utf8.encode others).length ≤ (Utf8.encode chars).length) ∧
      ({ feed } : Cursor).Reads (uncommented false chars)
        (Feed.ending (Utf8.encode chars).length rest)) ∧
    (∀ chars, Rune.comment ∉ chars → bytes = Utf8.encode chars →
      ∃ after, drain { feed } = (String.ofList chars, .ok () after)) ∧
    ∀ chars rest, Utf8.Malformed rest → bytes = Utf8.encode chars ++ rest →
      ({ feed } : Cursor).Reads (uncommented false chars)
        (some (.encoding (Utf8.encode chars).length)) := by
  refine ⟨?_, ?_, ?_⟩
  · obtain ⟨chars, rest, rfl, stuck⟩ := Utf8.exists_longest bytes
    exact ⟨chars, rest, rfl, fun others => Utf8.length_encode_le stuck, reads_carried carries stuck⟩
  · rintro chars plain rfl
    have stuck : ∀ char, ¬String.utf8EncodeChar char <+: [] :=
      fun char begins => Utf8.utf8EncodeChar_ne_nil char (List.prefix_nil.mp begins)
    rw [← List.append_nil (Utf8.encode chars)] at carries
    obtain ⟨after, drained⟩ := (reads_carried carries stuck).gather ""
    rw [uncommented_of_plain plain, String.empty_append] at drained
    exact ⟨after, drained⟩
  · rintro chars rest malformed rfl
    have reads := reads_carried carries malformed.not_prefix
    rw [Feed.ending, if_neg malformed.ne_nil] at reads
    exact reads

/-- The overlong form of the null character in a comment that is never closed. -/
theorem reading_decodes_overlong_in_comment :
    Feed.Carries [.byte 0x61, .interruption, .byte 0x23, .byte 0xC0, .byte 0x80]
        [0x61, 0x23, 0xC0, 0x80] ∧
      ({ feed := [.byte 0x61, .interruption, .byte 0x23, .byte 0xC0, .byte 0x80] } : Cursor).Reads
        ['a'] (some (.encoding 2)) := by
  have carries : Feed.Carries [.byte 0x61, .interruption, .byte 0x23, .byte 0xC0, .byte 0x80]
      [0x61, 0x23, 0xC0, 0x80] :=
    .byte 0x61 (.interruption (.byte 0x23 (.byte 0xC0 (.byte 0x80 .nothing))))
  have overlong : Utf8.Malformed [0xC0, 0x80] :=
    @Utf8.Malformed.overlong 2 0 (by decide) (by decide) (by decide) []
  exact ⟨carries, (reading_decodes carries).2.2 ['a', '#'] [0xC0, 0x80] overlong (by decide)⟩

end Cursor

end LambdaMachine
