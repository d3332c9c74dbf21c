import LambdaMachine.Proofs.Source.Decoding

/-!
Text with the places of its characters. What a cursor on a text has in front of it are the
characters outside comments, each with the offset of its first byte. Once the first of them has
been looked at, the position of the cursor is the place of that character, and the length of the
text where none is left.
-/

namespace LambdaMachine

def placed (inComment : Bool) (offset : Nat) : List Char → List (Char × Nat)
  | [] => []
  | char :: rest =>
      let further := offset + (String.utf8EncodeChar char).length
      if inComment then placed (char != '\n') further rest
      else if char = Rune.comment then placed true further rest
      else (char, offset) :: placed false further rest

theorem map_placed (inComment : Bool) (offset : Nat) (chars : List Char) :
    (placed inComment offset chars).map Prod.fst = uncommented inComment chars := by
  induction chars generalizing inComment offset with
  | nil => rfl
  | cons char chars ih =>
      rw [placed, uncommented]
      by_cases dropped : inComment = true
      · rw [if_pos dropped, if_pos dropped, ih]
      · rw [if_neg dropped, if_neg dropped]
        by_cases opens : char = Rune.comment
        · rw [if_pos opens, if_pos opens, ih]
        · rw [if_neg opens, if_neg opens, List.map_cons, ih]

def Stands (text : List Char) (char : Char) (offset : Nat) (behind : List Char) : Prop :=
  ∃ front, text = front ++ char :: behind ∧ (Utf8.encode front).length = offset ∧
    commentAfter false front = false ∧ char ≠ Rune.comment

theorem exists_front_of_placed {inComment : Bool} {offset start : Nat} {chars : List Char}
    {char : Char} {before after : List (Char × Nat)}
    (split : placed inComment offset chars = before ++ (char, start) :: after) :
    ∃ front behind, chars = front ++ char :: behind ∧
      start = offset + (Utf8.encode front).length ∧ commentAfter inComment front = false ∧
      char ≠ Rune.comment ∧ after.map Prod.fst = uncommented false behind := by
  induction chars generalizing inComment offset before with
  | nil => cases before <;> cases split
  | cons first chars ih =>
      have skipped {open? : Bool} {before : List (Char × Nat)}
          (now : commentAfter inComment [first] = open?)
          (split : placed open? (offset + (String.utf8EncodeChar first).length) chars =
            before ++ (char, start) :: after) :
          ∃ front behind, first :: chars = front ++ char :: behind ∧
            start = offset + (Utf8.encode front).length ∧ commentAfter inComment front = false ∧
            char ≠ Rune.comment ∧ after.map Prod.fst = uncommented false behind := by
        obtain ⟨front, behind, rfl, rfl, closed, plain, same⟩ := ih split
        refine ⟨first :: front, behind, rfl, ?_, ?_, plain, same⟩
        · rw [Utf8.encode_cons, List.length_append, Nat.add_assoc]
        · rw [← List.singleton_append, commentAfter_append, now]
          exact closed
      rw [placed] at split
      by_cases dropped : inComment = true
      · rw [if_pos dropped] at split
        exact skipped (if_pos dropped) split
      · rw [if_neg dropped] at split
        by_cases opens : first = Rune.comment
        · rw [if_pos opens] at split
          exact skipped ((if_neg dropped).trans (decide_eq_true opens)) split
        · rw [if_neg opens] at split
          cases before with
          | nil =>
              cases split
              refine ⟨[], chars, rfl, rfl, Bool.eq_false_iff.mpr dropped, opens, ?_⟩
              exact map_placed false _ chars
          | cons other before =>
              obtain ⟨_, rest⟩ := List.cons.inj split
              exact skipped ((if_neg dropped).trans (decide_eq_false opens)) rest

theorem stands_of_placed {text : List Char} {char : Char} {start : Nat}
    {before after : List (Char × Nat)}
    (split : placed false 0 text = before ++ (char, start) :: after) :
    ∃ behind, Stands text char start behind ∧ after.map Prod.fst = uncommented false behind := by
  obtain ⟨front, behind, spelled, rfl, closed, plain, same⟩ := exists_front_of_placed split
  exact ⟨behind, ⟨front, spelled, (Nat.zero_add _).symm, closed, plain⟩, same⟩

inductive SpellsAt (total : Nat) : List Scanned → List (Char × Nat) → Prop
  | done : SpellsAt total [⟨.finish, total⟩] []
  | next {items : List Scanned} {places : List (Char × Nat)} (char : Char) (start reached : Nat)
      (rest : SpellsAt total items places) :
      SpellsAt total (⟨.rune char start, reached⟩ :: items) ((char, start) :: places)

theorem SpellsAt.spells {total : Nat} {items : List Scanned} {places : List (Char × Nat)}
    (spells : SpellsAt total items places) : Spells items (places.map Prod.fst) := by
  induction spells with
  | done => exact .done total
  | next char start reached rest ih => exact .next char start reached ih

theorem Spells.unique {items : List Scanned} {chars others : List Char}
    (spells : Spells items chars) (spellsToo : Spells items others) : chars = others := by
  induction spells generalizing others with
  | done reached => cases spellsToo; rfl
  | next char start reached rest ih =>
      cases spellsToo with
      | next _ _ _ other => rw [ih other]

theorem Feed.spellsAt_decodeAll {feed : Feed} {chars : List Char}
    (carries : feed.Carries (Utf8.encode chars)) (inComment : Bool) (start : Nat) :
    SpellsAt (start + (Utf8.encode chars).length)
      (withoutComments inComment (feed.decodeAll start)) (placed inComment start chars) := by
  induction chars generalizing feed inComment start with
  | nil =>
      obtain ⟨after, decoded⟩ := carries.decode_nil start
      rw [decodeAll_of_decode decoded, if_pos rfl]
      exact .done
  | cons char chars ih =>
      obtain ⟨after, decoded, carriesOn⟩ := carries.decode_char start
      rw [decodeAll_of_decode decoded, if_neg (by simp), withoutComments, placed,
        Utf8.encode_cons, List.length_append, ← Nat.add_assoc]
      by_cases dropped : inComment = true
      · rw [if_pos dropped, if_pos dropped]
        exact ih carriesOn _ _
      · rw [if_neg dropped, if_neg dropped]
        by_cases opens : char = Rune.comment
        · rw [if_pos opens, if_pos opens]
          exact ih carriesOn true _
        · rw [if_neg opens, if_neg opens]
          exact .next char start _ (ih carriesOn false _)

theorem Feed.carries_ofString (text : String) :
    (ofString text).Carries (Utf8.encode text.toList) := by
  have same : ofString text = ofBytes (Utf8.encode text.toList) := by
    rw [ofString_eq_ofChars, ofChars, Utf8.encode, ofBytes, List.map_flatMap]
    rfl
  rw [same]
  exact carries_ofBytes _

def placeOf (total : Nat) : List (Char × Nat) → Nat
  | [] => total
  | (_, start) :: _ => start

namespace Cursor

variable {total : Nat} {cursor : Cursor} {places : List (Char × Nat)}

def Meets (total : Nat) (cursor : Cursor) (places : List (Char × Nat)) : Prop :=
  SpellsAt total cursor.view.ahead places

structure Rests (total : Nat) (cursor : Cursor) (places : List (Char × Nat)) : Prop where
  meets : cursor.Meets total places
  position : cursor.position = placeOf total places

theorem meets_start (text : String) :
    ({ feed := Feed.ofString text } : Cursor).Meets (Utf8.encode text.toList).length
      (placed false 0 text.toList) := by
  have spells := Feed.spellsAt_decodeAll (Feed.carries_ofString text) false 0
  rw [Nat.zero_add] at spells
  exact spells

theorem Meets.faces (meets : cursor.Meets total places) :
    cursor.Faces (places.map Prod.fst) :=
  SpellsAt.spells meets

theorem Meets.peek (meets : cursor.Meets total places) :
    ∃ after, Cursor.peek cursor = .ok (places.head?.map Prod.fst) after ∧
      after.Rests total places ∧ after.advance.Meets total places.tail := by
  have shown := peek_view cursor
  obtain ⟨after, peeked, _, _⟩ := meets.faces.peek
  rw [List.head?_map] at peeked
  refine ⟨after, peeked, ?_⟩
  rw [peeked] at shown
  unfold Meets at meets
  generalize cursor.view = tape at meets shown
  obtain ⟨ahead, looked, offset⟩ := tape
  cases meets with
  | done =>
      obtain ⟨_, view⟩ := EStateM.Result.ok.inj shown
      refine ⟨⟨?_, ?_⟩, ?_⟩
      · rw [Meets, ← view]
        exact .done
      · rw [← position_view, ← view]
        rfl
      · rw [Meets, ← advance_view, ← view]
        exact .done
  | next char start reached rest =>
      obtain ⟨_, view⟩ := EStateM.Result.ok.inj shown
      refine ⟨⟨?_, ?_⟩, ?_⟩
      · rw [Meets, ← view]
        exact .next char start reached rest
      · rw [← position_view, ← view]
        rfl
      · rw [Meets, ← advance_view, ← view]
        exact rest

theorem Meets.gather (meets : cursor.Meets total places) (accepts : Char → Bool) (text : String) :
    ∃ gathered after later, Cursor.gather accepts text cursor = (gathered, .ok () after) ∧
      later <:+ places ∧ after.Rests total later := by
  induction places generalizing cursor text with
  | nil =>
      obtain ⟨after, peeked, rests, _⟩ := meets.peek
      exact ⟨text, after, [], gather_stopped peeked (fun _ same => by cases same) text,
        List.suffix_refl [], rests⟩
  | cons place places ih =>
      obtain ⟨middle, peeked, rests, advanced⟩ := meets.peek
      by_cases accepted : accepts place.1 = true
      · obtain ⟨gathered, after, later, ran, suffix, restsThere⟩ := ih advanced (text.push place.1)
        refine ⟨gathered, after, later, ?_, suffix.trans (List.suffix_cons place places), restsThere⟩
        rw [gather_accepted peeked accepted, ran]
      · refine ⟨text, middle, place :: places, ?_, List.suffix_refl _, rests⟩
        refine gather_stopped peeked (fun rune same => ?_) text
        cases same
        exact Bool.eq_false_iff.mpr accepted

theorem Meets.takeWhile (meets : cursor.Meets total places) (accepts : Char → Bool) :
    ∃ text after later, Cursor.takeWhile accepts cursor = .ok text after ∧ later <:+ places ∧
      after.Rests total later := by
  obtain ⟨text, after, later, ran, suffix, rests⟩ := meets.gather accepts ""
  exact ⟨text, after, later, by rw [Cursor.takeWhile, ran], suffix, rests⟩

theorem Meets.skipBlanks (meets : cursor.Meets total places) :
    ∃ after later, Cursor.skipBlanks cursor = .ok () after ∧ later <:+ places ∧
      after.Rests total later := by
  obtain ⟨text, after, later, taken, suffix, rests⟩ := meets.takeWhile Rune.isBlank
  exact ⟨after, later, skipBlanks_eq_ok.mpr ⟨text, taken⟩, suffix, rests⟩

theorem Meets.expectOneOf (meets : cursor.Meets total places) (expected : List Char) :
    (∃ rune after later, Cursor.expectOneOf expected cursor = .ok rune after ∧ later <:+ places ∧
      after.Rests total later) ∨
    ∃ after, Cursor.expectOneOf expected cursor =
      .error (.mismatch ⟨expected, places.head?.map Prod.fst, placeOf total places⟩) after := by
  obtain ⟨middle, peeked, rests, advanced⟩ := meets.peek
  rw [expectOneOf_eq, peeked]
  cases places with
  | nil => exact Or.inr ⟨middle, by rw [List.head?_nil, Option.map_none, ← rests.position]⟩
  | cons place places =>
      rw [List.head?_cons, Option.map_some]
      dsimp only
      by_cases member : expected.contains place.1 = true
      · obtain ⟨after, later, skipped, suffix, restsThere⟩ := advanced.skipBlanks
        rw [if_pos member, skipped]
        exact Or.inl ⟨place.1, after, later, rfl, suffix.trans (List.suffix_cons place places),
          restsThere⟩
      · rw [if_neg member, rests.position]
        exact Or.inr ⟨middle, rfl⟩

theorem Meets.atEnd (meets : cursor.Meets total places) :
    ∃ after, Cursor.atEnd cursor = .ok places.isEmpty after ∧ after.Rests total places := by
  obtain ⟨after, peeked, rests, _⟩ := meets.peek
  refine ⟨after, atEnd_eq_ok.mpr ⟨_, peeked, ?_⟩, rests⟩
  cases places with
  | nil => rfl
  | cons place places => rfl

end Cursor

end LambdaMachine
