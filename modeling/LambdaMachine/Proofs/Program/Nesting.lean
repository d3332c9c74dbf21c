import LambdaMachine.Proofs.Program.Grammar

/-!
Which parentheses of a text are closed in it. A phrase closes every group it opens and no other, so
behind any number of phrases the groups that were open before them still are.
-/

namespace LambdaMachine

def closes (depth : Nat) : List Char → Bool
  | [] => false
  | char :: rest =>
      if char = '(' then closes (depth + 1) rest
      else if char = ')' then depth = 0 || closes (depth - 1) rest
      else closes depth rest

def AllClosed : List Char → Prop
  | [] => True
  | char :: rest => (char = '(' → closes 0 rest = true) ∧ AllClosed rest

theorem AllClosed.of_append {front rest : List Char} (all : AllClosed (front ++ rest)) :
    AllClosed rest := by
  induction front with
  | nil => exact all
  | cons char front ih => exact ih all.2

section Plain

variable {chars : List Char} (plain : ∀ char ∈ chars, char ≠ '(' ∧ char ≠ ')')
include plain

theorem closes_append_of_plain (depth : Nat) (rest : List Char) :
    closes depth (chars ++ rest) = closes depth rest := by
  induction chars with
  | nil => rfl
  | cons char chars ih =>
      obtain ⟨⟨notOpening, notClosing⟩, others⟩ := List.forall_mem_cons.mp plain
      rw [List.cons_append, closes, if_neg notOpening, if_neg notClosing]
      exact ih others

theorem AllClosed.append_of_plain {rest : List Char} (all : AllClosed rest) :
    AllClosed (chars ++ rest) := by
  induction chars with
  | nil => exact all
  | cons char chars ih =>
      obtain ⟨⟨notOpening, _⟩, others⟩ := List.forall_mem_cons.mp plain
      exact ⟨fun opens => (notOpening opens).elim, ih others⟩

end Plain

theorem Blanks.plain (blanks : Blanks) : ∀ char ∈ blanks.1, char ≠ '(' ∧ char ≠ ')' := by
  intro char among
  have blank := blanks.2 char among
  constructor <;> rintro rfl <;> cases blank

theorem Word.plain (word : Word) : ∀ char ∈ word.chars, char ≠ '(' ∧ char ≠ ')' := by
  intro char among
  rcases List.mem_append.mp among with letter | blank
  · have named := word.letters.2.2 char letter
    constructor <;> rintro rfl <;> cases named
  · exact word.blanks.plain char blank

theorem Glyph.plain (glyph : Glyph) : ∀ char ∈ [glyph.1], char ≠ '(' ∧ char ≠ ')' := by
  intro char among
  rw [List.mem_singleton.mp among]
  have isLambda := glyph.2
  constructor <;> intro same <;> rw [same] at isLambda <;> cases isLambda

theorem dot_plain : ∀ char ∈ ['.'], char ≠ '(' ∧ char ≠ ')' := by
  intro char among
  rw [List.mem_singleton.mp among]
  decide

mutual

theorem Phrase.closes_append (phrase : Phrase) (depth : Nat) (rest : List Char) :
    closes depth (phrase.chars ++ rest) = closes depth rest := by
  cases phrase with
  | word word => exact closes_append_of_plain word.plain depth rest
  | abstraction glyph afterGlyph param afterDot body =>
      have inner := Phrase.closes_append body depth rest
      have split : (Phrase.abstraction glyph afterGlyph param afterDot body).chars ++ rest =
          [glyph.1] ++ (afterGlyph.1 ++ (param.chars ++ (['.'] ++ (afterDot.1 ++
            (body.chars ++ rest))))) := by
        simp only [Phrase.chars, List.cons_append, List.append_assoc, List.nil_append]
      rw [split, closes_append_of_plain glyph.plain, closes_append_of_plain afterGlyph.plain,
        closes_append_of_plain param.plain, closes_append_of_plain dot_plain,
        closes_append_of_plain afterDot.plain, inner]
  | group afterOpening first more =>
      have inner := Phrase.closes_append first (depth + 1) (more.chars ++ rest)
      have closing := (Phrases.closes_append more rest).1 depth
      rw [Phrase.chars, List.cons_append, List.append_assoc, List.append_assoc, closes, if_pos rfl,
        closes_append_of_plain afterOpening.plain, inner, closing]

/-- The closing parenthesis ends the group that is open before the phrases. -/
theorem Phrases.closes_append (more : Phrases) (rest : List Char) :
    (∀ depth, closes (depth + 1) (more.chars ++ rest) = closes depth rest) ∧
      closes 0 (more.chars ++ rest) = true := by
  cases more with
  | close afterClosing =>
      refine ⟨fun depth => ?_, rfl⟩
      exact closes_append_of_plain afterClosing.plain depth rest
  | next phrase more =>
      have further := Phrases.closes_append more rest
      rw [Phrases.chars, List.append_assoc]
      refine ⟨fun depth => ?_, ?_⟩
      · rw [Phrase.closes_append phrase, further.1]
      · rw [Phrase.closes_append phrase, further.2]

end

mutual

theorem AllClosed.phrase (phrase : Phrase) {rest : List Char} (all : AllClosed rest) :
    AllClosed (phrase.chars ++ rest) := by
  cases phrase with
  | word word => exact all.append_of_plain word.plain
  | abstraction glyph afterGlyph param afterDot body =>
      have inner := (((AllClosed.phrase body all).append_of_plain afterDot.plain).append_of_plain
        dot_plain).append_of_plain param.plain
      have outer := (inner.append_of_plain afterGlyph.plain).append_of_plain glyph.plain
      simpa only [Phrase.chars, List.cons_append, List.append_assoc, List.nil_append] using outer
  | group afterOpening first more =>
      have inner := AllClosed.phrase first (AllClosed.phrases more all)
      rw [Phrase.chars, List.cons_append, List.append_assoc, List.append_assoc]
      refine ⟨fun _ => ?_, inner.append_of_plain afterOpening.plain⟩
      rw [closes_append_of_plain afterOpening.plain, first.closes_append]
      exact (more.closes_append rest).2

theorem AllClosed.phrases (more : Phrases) {rest : List Char} (all : AllClosed rest) :
    AllClosed (more.chars ++ rest) := by
  cases more with
  | close afterClosing =>
      rw [Phrases.chars, List.cons_append, AllClosed]
      exact ⟨fun opens => absurd opens (by decide), all.append_of_plain afterClosing.plain⟩
  | next phrase more =>
      rw [Phrases.chars, List.append_assoc]
      exact AllClosed.phrase phrase (AllClosed.phrases more all)

end

structure LeavesOpen (chars : List Char) : Prop where
  stays : closes 0 chars = false
  inner : AllClosed chars

theorem leavesOpen_nil : LeavesOpen [] :=
  ⟨rfl, trivial⟩

theorem LeavesOpen.phrase (phrase : Phrase) {rest : List Char} (leaves : LeavesOpen rest) :
    LeavesOpen (phrase.chars ++ rest) :=
  ⟨(phrase.closes_append 0 rest).trans leaves.stays, .phrase phrase leaves.inner⟩

theorem LeavesOpen.blanks (blanks : Blanks) {rest : List Char} (leaves : LeavesOpen rest) :
    LeavesOpen (blanks.1 ++ rest) :=
  ⟨(closes_append_of_plain blanks.plain 0 rest).trans leaves.stays,
    leaves.inner.append_of_plain blanks.plain⟩

end LambdaMachine
