import LambdaMachine.Proofs.Program.Reading
import Mathlib.Data.List.TakeWhile

/-!
The grammar of programs, and a reader that finds the one derivation a text has. A derivation keeps
every character: the glyphs, the blanks and the parentheses that the tree forgets. Only the
condition that a name is as long as it can be looks at what follows.
-/

namespace LambdaMachine

abbrev Blanks := { chars : List Char // ∀ char ∈ chars, Rune.isBlank char = true }

abbrev Letters :=
  { chars : List Char // chars ≠ [] ∧ ∀ char ∈ chars, Rune.isNameRune char = true }

abbrev Glyph := { rune : Char // Rune.isLambda rune = true }

structure Word where
  letters : Letters
  blanks : Blanks

mutual

inductive Phrase where
  | word (word : Word)
  | abstraction (glyph : Glyph) (afterGlyph : Blanks) (param : Word) (afterDot : Blanks)
      (body : Phrase)
  | group (afterOpening : Blanks) (first : Phrase) (more : Phrases)

inductive Phrases where
  | close (afterClosing : Blanks)
  | next (phrase : Phrase) (more : Phrases)

end

namespace Word

def chars (word : Word) : List Char :=
  word.letters.1 ++ word.blanks.1

def text (word : Word) : String :=
  String.ofList word.letters.1

def Maximal (word : Word) (rest : List Char) : Prop :=
  Cursor.Stops Rune.isNameRune (word.blanks.1 ++ rest)

end Word

mutual

def Phrase.chars : Phrase → List Char
  | .word word => word.chars
  | .abstraction glyph afterGlyph param afterDot body =>
      glyph.1 :: (afterGlyph.1 ++ (param.chars ++ '.' :: (afterDot.1 ++ body.chars)))
  | .group afterOpening first more => '(' :: (afterOpening.1 ++ (first.chars ++ more.chars))

def Phrases.chars : Phrases → List Char
  | .close afterClosing => ')' :: afterClosing.1
  | .next phrase more => phrase.chars ++ more.chars

end

mutual

def Phrase.tree : Phrase → Tree String
  | .word word => .var word.text
  | .abstraction _ _ param _ body => .lambda param.text body.tree
  | .group _ first more => more.applied first.tree

def Phrases.applied : Phrases → Tree String → Tree String
  | .close _, func => func
  | .next phrase more, func => more.applied (.apply func phrase.tree)

end

mutual

/-- Every name is the whole of its run of name characters, with `rest` behind the phrase. -/
def Phrase.Maximal : Phrase → List Char → Prop
  | .word word, rest => word.Maximal rest
  | .abstraction _ _ param afterDot body, rest =>
      param.Maximal ('.' :: (afterDot.1 ++ (body.chars ++ rest))) ∧ body.Maximal rest
  | .group _ first more, rest => first.Maximal (more.chars ++ rest) ∧ more.Maximal rest

def Phrases.Maximal : Phrases → List Char → Prop
  | .close _, _ => True
  | .next phrase more, rest => phrase.Maximal (more.chars ++ rest) ∧ more.Maximal rest

end

/-- A program as it is written. The target of an assignment denotes a mere name. -/
inductive Script where
  | body (phrase : Phrase)
  | assignment (target : Phrase) (name : String) (bare : target.tree = .var name)
      (afterEquals : Blanks) (side : Phrase) (rest : Script)

namespace Script

def chars : Script → List Char
  | .body phrase => phrase.chars
  | .assignment target _ _ afterEquals side rest =>
      target.chars ++ '=' :: (afterEquals.1 ++ (side.chars ++ rest.chars))

def tree : Script → Tree String
  | .body phrase => phrase.tree
  | .assignment _ name _ _ side rest => .apply (.lambda name rest.tree) side.tree

def assignments : Script → Nat
  | .body _ => 0
  | .assignment _ _ _ _ _ rest => rest.assignments + 1

def Maximal : Script → Prop
  | .body phrase => phrase.Maximal []
  | .assignment target _ _ afterEquals side rest =>
      target.Maximal ('=' :: (afterEquals.1 ++ (side.chars ++ rest.chars))) ∧
        side.Maximal rest.chars ∧ rest.Maximal

end Script

structure Derivation (text : List Char) where
  before : Blanks
  script : Script
  spelled : before.1 ++ script.chars = text
  maximal : script.Maximal

section Runs

variable {accepts : Char → Bool} {taken rest : List Char}

theorem takeWhile_append_of_stops (accepted : ∀ char ∈ taken, accepts char = true)
    (stops : Cursor.Stops accepts rest) : (taken ++ rest).takeWhile accepts = taken := by
  rw [List.takeWhile_append_of_pos accepted]
  cases rest with
  | nil => rw [List.takeWhile_nil, List.append_nil]
  | cons char rest =>
      rw [List.takeWhile_cons_of_neg (by rw [stops char rfl]; exact Bool.false_ne_true),
        List.append_nil]

theorem dropWhile_append_of_stops (accepted : ∀ char ∈ taken, accepts char = true)
    (stops : Cursor.Stops accepts rest) : (taken ++ rest).dropWhile accepts = rest := by
  rw [List.dropWhile_append_of_pos accepted]
  cases rest with
  | nil => rfl
  | cons char rest =>
      exact List.dropWhile_cons_of_neg (by rw [stops char rfl]; exact Bool.false_ne_true)

theorem stops_dropWhile (accepts : Char → Bool) (chars : List Char) :
    Cursor.Stops accepts (chars.dropWhile accepts) := by
  intro char front
  have refused := List.head?_dropWhile_not accepts chars
  rw [Option.mem_def.mp front] at refused
  exact Bool.eq_false_iff.mpr fun accepted => by simp [accepted] at refused

end Runs

namespace Blanks

def front (chars : List Char) : Blanks :=
  ⟨chars.takeWhile Rune.isBlank, fun _ among => List.mem_takeWhile_imp among⟩

theorem front_append (blanks : Blanks) {rest : List Char} (stops : Cursor.Stops Rune.isBlank rest) :
    front (blanks.1 ++ rest) = blanks :=
  Subtype.ext (takeWhile_append_of_stops blanks.2 stops)

end Blanks

def mark? (expected : List Char) : List Char → Option (Blanks × List Char)
  | [] => none
  | rune :: rest =>
      if expected.contains rune then some (.front rest, rest.dropWhile Rune.isBlank) else none

def Word.read? (chars : List Char) : Option (Word × List Char) :=
  let letters := chars.takeWhile Rune.isNameRune
  let rest := chars.dropWhile Rune.isNameRune
  if nonempty : letters ≠ [] then
    some (⟨⟨letters, nonempty, fun _ among => List.mem_takeWhile_imp among⟩, .front rest⟩,
      rest.dropWhile Rune.isBlank)
  else none

mutual

def Phrase.read? : Nat → List Char → Option (Phrase × List Char)
  | 0, _ => none
  | _ + 1, [] => none
  | fuel + 1, rune :: rest =>
      if isGlyph : Rune.isLambda rune = true then do
        let (afterGlyph, rest) ← mark? Rune.lambdas (rune :: rest)
        let (param, rest) ← Word.read? rest
        let (afterDot, rest) ← mark? Rune.dot rest
        let (body, rest) ← Phrase.read? fuel rest
        return (.abstraction ⟨rune, isGlyph⟩ afterGlyph param afterDot body, rest)
      else if rune = '(' then do
        let (afterOpening, rest) ← mark? Rune.openParen (rune :: rest)
        let (first, rest) ← Phrase.read? fuel rest
        let (more, rest) ← Phrases.read? fuel rest
        return (.group afterOpening first more, rest)
      else do
        let (word, rest) ← Word.read? (rune :: rest)
        return (.word word, rest)

def Phrases.read? : Nat → List Char → Option (Phrases × List Char)
  | 0, _ => none
  | _ + 1, [] => none
  | fuel + 1, rune :: rest =>
      if rune = ')' then some (.close (.front rest), rest.dropWhile Rune.isBlank)
      else do
        let (phrase, rest) ← Phrase.read? fuel (rune :: rest)
        let (more, rest) ← Phrases.read? fuel rest
        return (.next phrase more, rest)

end

def Script.read? : Nat → List Char → Option Script
  | 0, _ => none
  | fuel + 1, chars => do
      let (phrase, rest) ← Phrase.read? fuel chars
      if rest.head?.isNone then return .body phrase
      else match bare : phrase.tree with
        | .var name => do
            let (afterEquals, rest) ← mark? Rune.equals rest
            let (side, rest) ← Phrase.read? fuel rest
            let script ← Script.read? fuel rest
            return .assignment phrase name bare afterEquals side script
        | _ => none

section Soundness

variable {fuel : Nat} {chars rest : List Char}

theorem mark?_sound {expected : List Char} {blanks : Blanks}
    (read : mark? expected chars = some (blanks, rest)) :
    ∃ rune, expected.contains rune = true ∧ chars = rune :: (blanks.1 ++ rest) := by
  cases chars with
  | nil => cases read
  | cons rune chars =>
      rw [mark?] at read
      by_cases member : expected.contains rune = true
      · rw [if_pos member] at read
        cases read
        exact ⟨rune, member, congrArg (rune :: ·) List.takeWhile_append_dropWhile.symm⟩
      · rw [if_neg member] at read
        cases read

theorem mark?_single_sound {mark : Char} {blanks : Blanks}
    (read : mark? [mark] chars = some (blanks, rest)) : chars = mark :: (blanks.1 ++ rest) := by
  obtain ⟨rune, member, spelled⟩ := mark?_sound read
  rw [spelled, List.mem_singleton.mp (List.contains_iff_mem.mp member)]

theorem Word.read?_sound {word : Word} (read : Word.read? chars = some (word, rest)) :
    word.chars ++ rest = chars ∧ word.Maximal rest := by
  unfold Word.read? at read
  dsimp only at read
  split at read
  · cases read
    have blanks := @List.takeWhile_append_dropWhile _ Rune.isBlank (chars.dropWhile Rune.isNameRune)
    constructor
    · rw [Word.chars, List.append_assoc]
      exact (congrArg _ blanks).trans List.takeWhile_append_dropWhile
    · have stops := stops_dropWhile Rune.isNameRune chars
      rw [← blanks] at stops
      exact stops
  · cases read

def PhraseSound (fuel : Nat) : Prop :=
  ∀ (chars rest : List Char) (phrase : Phrase), Phrase.read? fuel chars = some (phrase, rest) →
    phrase.chars ++ rest = chars ∧ phrase.Maximal rest

def PhrasesSound (fuel : Nat) : Prop :=
  ∀ (chars rest : List Char) (more : Phrases), Phrases.read? fuel chars = some (more, rest) →
    more.chars ++ rest = chars ∧ more.Maximal rest

theorem PhraseSound.succ (parts : PhraseSound fuel) (others : PhrasesSound fuel) :
    PhraseSound (fuel + 1) := by
  intro chars rest phrase read
  cases chars with
  | nil => cases read
  | cons rune chars =>
      rw [Phrase.read?] at read
      split at read
      · rename_i isGlyph
        obtain ⟨⟨afterGlyph, afterMark⟩, mark, read⟩ := Option.bind_eq_some_iff.mp read
        obtain ⟨⟨param, afterParam⟩, name, read⟩ := Option.bind_eq_some_iff.mp read
        obtain ⟨⟨afterDot, behindDot⟩, dot, read⟩ := Option.bind_eq_some_iff.mp read
        obtain ⟨⟨body, behind⟩, inner, read⟩ := Option.bind_eq_some_iff.mp read
        cases read
        obtain ⟨glyph, _, spelled⟩ := mark?_sound mark
        obtain ⟨nameSpelled, nameMaximal⟩ := Word.read?_sound name
        obtain ⟨bodySpelled, bodyMaximal⟩ := parts _ _ _ inner
        have dotSpelled := mark?_single_sound dot
        cases spelled
        rw [← bodySpelled] at dotSpelled
        rw [dotSpelled] at nameSpelled nameMaximal
        refine ⟨?_, nameMaximal, bodyMaximal⟩
        rw [← nameSpelled]
        simp only [Phrase.chars, List.cons_append, List.append_assoc]
      · split at read
        · rename_i opens
          obtain ⟨⟨afterOpening, afterMark⟩, mark, read⟩ := Option.bind_eq_some_iff.mp read
          obtain ⟨⟨first, afterFirst⟩, inner, read⟩ := Option.bind_eq_some_iff.mp read
          obtain ⟨⟨more, behind⟩, further, read⟩ := Option.bind_eq_some_iff.mp read
          cases read
          obtain ⟨firstSpelled, firstMaximal⟩ := parts _ _ _ inner
          obtain ⟨moreSpelled, moreMaximal⟩ := others _ _ _ further
          have spelled := mark?_single_sound mark
          rw [← moreSpelled] at firstSpelled firstMaximal
          refine ⟨?_, firstMaximal, moreMaximal⟩
          rw [spelled, ← firstSpelled]
          simp only [Phrase.chars, List.cons_append, List.append_assoc]
        · obtain ⟨⟨word, behind⟩, name, read⟩ := Option.bind_eq_some_iff.mp read
          cases read
          exact Word.read?_sound name

theorem PhrasesSound.succ (parts : PhraseSound fuel) (others : PhrasesSound fuel) :
    PhrasesSound (fuel + 1) := by
  intro chars rest more read
  cases chars with
  | nil => cases read
  | cons rune chars =>
      rw [Phrases.read?] at read
      split at read
      · rename_i closes
        cases read
        subst closes
        refine ⟨?_, trivial⟩
        rw [Phrases.chars, List.cons_append]
        exact congrArg (')' :: ·) List.takeWhile_append_dropWhile
      · obtain ⟨⟨phrase, afterPhrase⟩, inner, read⟩ := Option.bind_eq_some_iff.mp read
        obtain ⟨⟨further, behind⟩, tail, read⟩ := Option.bind_eq_some_iff.mp read
        cases read
        obtain ⟨spelled, maximal⟩ := parts _ _ _ inner
        obtain ⟨moreSpelled, moreMaximal⟩ := others _ _ _ tail
        rw [← moreSpelled] at spelled maximal
        refine ⟨?_, maximal, moreMaximal⟩
        rw [← spelled, Phrases.chars, List.append_assoc]

theorem read?_sound (fuel : Nat) : PhraseSound fuel ∧ PhrasesSound fuel := by
  induction fuel with
  | zero => exact ⟨fun _ _ _ read => (by cases read), fun _ _ _ read => (by cases read)⟩
  | succ fuel ih => exact ⟨ih.1.succ ih.2, .succ ih.1 ih.2⟩

theorem Script.read?_sound {script : Script} (read : Script.read? fuel chars = some script) :
    script.chars = chars ∧ script.Maximal := by
  induction fuel generalizing chars script with
  | zero => cases read
  | succ fuel ih =>
      rw [Script.read?] at read
      obtain ⟨⟨phrase, behind⟩, front, read⟩ := Option.bind_eq_some_iff.mp read
      obtain ⟨spelled, maximal⟩ := (read?_sound fuel).1 _ _ _ front
      dsimp only at read
      split at read
      · rename_i ended
        cases read
        rw [List.head?_eq_none_iff.mp (Option.isNone_iff_eq_none.mp ended)] at spelled maximal
        rw [List.append_nil] at spelled
        exact ⟨spelled, maximal⟩
      · split at read
        · rename_i name bare
          obtain ⟨⟨afterEquals, afterMark⟩, mark, read⟩ := Option.bind_eq_some_iff.mp read
          obtain ⟨⟨side, behindSide⟩, inner, read⟩ := Option.bind_eq_some_iff.mp read
          obtain ⟨rest, further, read⟩ := Option.bind_eq_some_iff.mp read
          cases read
          obtain ⟨sideSpelled, sideMaximal⟩ := (read?_sound fuel).1 _ _ _ inner
          obtain ⟨rfl, restMaximal⟩ := ih further
          have markSpelled := mark?_single_sound mark
          dsimp only at sideSpelled
          rw [← sideSpelled] at markSpelled
          rw [markSpelled] at spelled maximal
          exact ⟨spelled, maximal, sideMaximal, restMaximal⟩
        · cases read

end Soundness

section Completeness

variable {fuel : Nat} {rest : List Char}

theorem Rune.isBlank_of_isLambda {rune : Char} (isLambda : Rune.isLambda rune = true) :
    Rune.isBlank rune = false := by
  have each : (Rune.lambdas.all fun glyph => !Rune.isBlank glyph) = true := by decide
  have notBlank := List.all_eq_true.mp each rune (List.contains_iff_mem.mp isLambda)
  simpa using notBlank

theorem Rune.ne_closing_of_isLambda {rune : Char} (isLambda : Rune.isLambda rune = true) :
    rune ≠ ')' := by
  rintro rfl
  cases isLambda

theorem Word.exists_chars_eq_cons (word : Word) :
    ∃ first others, word.chars = first :: others ∧ Rune.isNameRune first = true := by
  obtain ⟨⟨letters, nonempty, named⟩, blanks⟩ := word
  cases letters with
  | nil => exact (nonempty rfl).elim
  | cons first letters => exact ⟨first, _, rfl, named first List.mem_cons_self⟩

theorem Phrase.exists_chars_eq_cons (phrase : Phrase) :
    ∃ first others, phrase.chars = first :: others ∧ Rune.isBlank first = false ∧ first ≠ ')' := by
  cases phrase with
  | word word =>
      obtain ⟨first, others, chars, isNameRune⟩ := word.exists_chars_eq_cons
      refine ⟨first, others, chars, Rune.isBlank_of_isNameRune isNameRune, ?_⟩
      rintro rfl
      cases isNameRune
  | abstraction glyph afterGlyph param afterDot body =>
      exact ⟨_, _, rfl, Rune.isBlank_of_isLambda glyph.2, Rune.ne_closing_of_isLambda glyph.2⟩
  | group afterOpening first more => exact ⟨_, _, rfl, by decide, by decide⟩

theorem Phrase.stops (phrase : Phrase) (rest : List Char) :
    Cursor.Stops Rune.isBlank (phrase.chars ++ rest) := by
  obtain ⟨first, others, chars, notBlank, _⟩ := phrase.exists_chars_eq_cons
  rw [chars]
  rintro char ⟨⟩
  exact notBlank

theorem Phrases.stops (more : Phrases) (rest : List Char) :
    Cursor.Stops Rune.isBlank (more.chars ++ rest) := by
  cases more with
  | close afterClosing =>
      rintro char ⟨⟩
      decide
  | next phrase more =>
      rw [Phrases.chars, List.append_assoc]
      exact phrase.stops _

theorem Script.stops (script : Script) : Cursor.Stops Rune.isBlank script.chars := by
  cases script with
  | body phrase =>
      rw [Script.chars, ← List.append_nil phrase.chars]
      exact phrase.stops []
  | assignment target name bare afterEquals side rest => exact target.stops _

theorem Phrases.length_chars_pos (more : Phrases) : 0 < more.chars.length := by
  cases more with
  | close afterClosing => exact Nat.succ_pos _
  | next phrase more =>
      obtain ⟨first, others, chars, _, _⟩ := phrase.exists_chars_eq_cons
      rw [Phrases.chars, chars]
      exact Nat.succ_pos _

theorem Word.stops (word : Word) (rest : List Char) :
    Cursor.Stops Rune.isBlank (word.chars ++ rest) := by
  obtain ⟨first, others, chars, isNameRune⟩ := word.exists_chars_eq_cons
  rw [chars]
  rintro char ⟨⟩
  exact Rune.isBlank_of_isNameRune isNameRune

theorem mark?_append {expected : List Char} {rune : Char} (member : expected.contains rune = true)
    (blanks : Blanks) (stops : Cursor.Stops Rune.isBlank rest) :
    mark? expected (rune :: (blanks.1 ++ rest)) = some (blanks, rest) := by
  rw [mark?, if_pos member, blanks.front_append stops, dropWhile_append_of_stops blanks.2 stops]

theorem Word.read?_append {word : Word} (maximal : word.Maximal rest)
    (stops : Cursor.Stops Rune.isBlank rest) :
    Word.read? (word.chars ++ rest) = some (word, rest) := by
  have taken : (word.chars ++ rest).takeWhile Rune.isNameRune = word.letters.1 := by
    rw [Word.chars, List.append_assoc]
    exact takeWhile_append_of_stops word.letters.2.2 maximal
  have left : (word.chars ++ rest).dropWhile Rune.isNameRune = word.blanks.1 ++ rest := by
    rw [Word.chars, List.append_assoc]
    exact dropWhile_append_of_stops word.letters.2.2 maximal
  have nonempty : (word.chars ++ rest).takeWhile Rune.isNameRune ≠ [] := by
    rw [taken]
    exact word.letters.2.1
  unfold Word.read?
  dsimp only
  rw [dif_pos nonempty]
  simp only [taken, left, word.blanks.front_append stops,
    dropWhile_append_of_stops word.blanks.2 stops]

mutual

theorem Phrase.read?_append (phrase : Phrase) {fuel : Nat} {rest : List Char}
    (enough : phrase.chars.length ≤ fuel) (maximal : phrase.Maximal rest)
    (stops : Cursor.Stops Rune.isBlank rest) :
    Phrase.read? fuel (phrase.chars ++ rest) = some (phrase, rest) := by
  obtain ⟨first, others, chars, _, _⟩ := phrase.exists_chars_eq_cons
  rw [chars, List.length_cons] at enough
  obtain ⟨fuel, rfl⟩ := Nat.exists_eq_add_of_le' (Nat.le_of_add_left_le enough)
  rw [← List.length_cons, ← chars] at enough
  cases phrase with
  | word word =>
      obtain ⟨first, others, chars, isNameRune⟩ := word.exists_chars_eq_cons
      have notLambda : ¬Rune.isLambda first = true := by
        rw [Rune.isLambda_of_isNameRune isNameRune]
        exact Bool.false_ne_true
      have notOpening : first ≠ '(' := by
        rintro rfl
        cases isNameRune
      have read := Word.read?_append maximal stops
      rw [chars] at read
      rw [Phrase.chars, chars, List.cons_append, Phrase.read?, dif_neg notLambda,
        if_neg notOpening]
      exact Option.bind_eq_some_iff.mpr ⟨_, read, rfl⟩
  | abstraction glyph afterGlyph param afterDot body =>
      simp only [Phrase.chars, List.length_cons, List.length_append] at enough
      have dotStops : Cursor.Stops Rune.isBlank ('.' :: (afterDot.1 ++ (body.chars ++ rest))) := by
        rintro char ⟨⟩
        decide
      have mark := mark?_append glyph.2 afterGlyph
        (param.stops ('.' :: (afterDot.1 ++ (body.chars ++ rest))))
      have name := Word.read?_append maximal.1 dotStops
      have dot := @mark?_append _ Rune.dot '.' rfl afterDot (body.stops rest)
      have inner := @Phrase.read?_append body fuel rest (by omega) maximal.2 stops
      have split : (Phrase.abstraction glyph afterGlyph param afterDot body).chars ++ rest =
          glyph.1 :: (afterGlyph.1 ++
            (param.chars ++ '.' :: (afterDot.1 ++ (body.chars ++ rest)))) := by
        simp only [Phrase.chars, List.cons_append, List.append_assoc]
      rw [split, Phrase.read?, dif_pos glyph.2]
      refine Option.bind_eq_some_iff.mpr ⟨_, mark, ?_⟩
      refine Option.bind_eq_some_iff.mpr ⟨_, name, ?_⟩
      refine Option.bind_eq_some_iff.mpr ⟨_, dot, ?_⟩
      exact Option.bind_eq_some_iff.mpr ⟨_, inner, rfl⟩
  | group afterOpening first more =>
      simp only [Phrase.chars, List.length_cons, List.length_append] at enough
      have mark := @mark?_append _ Rune.openParen '(' rfl afterOpening
        (first.stops (more.chars ++ rest))
      have inner := @Phrase.read?_append first fuel _ (by omega) maximal.1 (more.stops rest)
      have further := @Phrases.read?_append more fuel rest (by omega) maximal.2 stops
      have split : (Phrase.group afterOpening first more).chars ++ rest =
          '(' :: (afterOpening.1 ++ (first.chars ++ (more.chars ++ rest))) := by
        simp only [Phrase.chars, List.cons_append, List.append_assoc]
      rw [split, Phrase.read?, dif_neg (by decide), if_pos rfl]
      refine Option.bind_eq_some_iff.mpr ⟨_, mark, ?_⟩
      refine Option.bind_eq_some_iff.mpr ⟨_, inner, ?_⟩
      exact Option.bind_eq_some_iff.mpr ⟨_, further, rfl⟩

theorem Phrases.read?_append (more : Phrases) {fuel : Nat} {rest : List Char}
    (enough : more.chars.length ≤ fuel) (maximal : more.Maximal rest)
    (stops : Cursor.Stops Rune.isBlank rest) :
    Phrases.read? fuel (more.chars ++ rest) = some (more, rest) := by
  cases more with
  | close afterClosing =>
      rw [Phrases.chars, List.length_cons] at enough
      obtain ⟨fuel, rfl⟩ := Nat.exists_eq_add_of_le' (Nat.le_of_add_left_le enough)
      rw [Phrases.chars, List.cons_append, Phrases.read?, if_pos rfl,
        afterClosing.front_append stops, dropWhile_append_of_stops afterClosing.2 stops]
  | next phrase more =>
      obtain ⟨first, others, chars, _, notClosing⟩ := phrase.exists_chars_eq_cons
      have closing := more.length_chars_pos
      rw [Phrases.chars, List.length_append, chars, List.length_cons] at enough
      obtain ⟨fuel, rfl⟩ := Nat.exists_eq_add_of_le' (show 1 ≤ fuel by omega)
      rw [← List.length_cons, ← chars] at enough
      have inner := @Phrase.read?_append phrase fuel _ (by omega) maximal.1 (more.stops rest)
      have further := @Phrases.read?_append more fuel rest (by omega) maximal.2 stops
      rw [chars, List.cons_append] at inner
      rw [Phrases.chars, List.append_assoc, chars, List.cons_append, Phrases.read?,
        if_neg notClosing]
      refine Option.bind_eq_some_iff.mpr ⟨_, inner, ?_⟩
      exact Option.bind_eq_some_iff.mpr ⟨_, further, rfl⟩

end

theorem Script.read?_chars {script : Script} (enough : script.chars.length < fuel)
    (maximal : script.Maximal) : Script.read? fuel script.chars = some script := by
  induction script generalizing fuel with
  | body phrase =>
      obtain ⟨fuel, rfl⟩ := Nat.exists_eq_succ_of_ne_zero (Nat.ne_zero_of_lt enough)
      have front := phrase.read?_append (Nat.le_of_lt_succ enough) maximal
        fun _ same => (Option.not_mem_none _ same).elim
      rw [List.append_nil] at front
      rw [Script.chars, Script.read?]
      exact Option.bind_eq_some_iff.mpr ⟨_, front, rfl⟩
  | assignment target name bare afterEquals side rest ih =>
      obtain ⟨fuel, rfl⟩ := Nat.exists_eq_succ_of_ne_zero (Nat.ne_zero_of_lt enough)
      obtain ⟨targetMaximal, sideMaximal, restMaximal⟩ := maximal
      simp only [Script.chars, List.length_cons, List.length_append] at enough
      have equalsStops : Cursor.Stops Rune.isBlank
          ('=' :: (afterEquals.1 ++ (side.chars ++ rest.chars))) := by
        rintro char ⟨⟩
        decide
      have front := target.read?_append (show _ ≤ fuel by omega) targetMaximal equalsStops
      have mark := @mark?_append _ Rune.equals '=' rfl afterEquals (side.stops rest.chars)
      have inner := side.read?_append (show _ ≤ fuel by omega) sideMaximal rest.stops
      have further := @ih fuel (by omega) restMaximal
      rw [Script.chars, Script.read?]
      refine Option.bind_eq_some_iff.mpr ⟨_, front, ?_⟩
      dsimp only
      rw [if_neg (by simp)]
      split
      · rename_i found again
        cases bare.symm.trans again
        refine Option.bind_eq_some_iff.mpr ⟨_, mark, ?_⟩
        refine Option.bind_eq_some_iff.mpr ⟨_, inner, ?_⟩
        exact Option.bind_eq_some_iff.mpr ⟨_, further, rfl⟩
      · rename_i other
        exact (other name bare).elim

end Completeness

theorem Derivation.unique {text : List Char} (first second : Derivation text) : first = second := by
  obtain ⟨before, script, spelled, maximal⟩ := first
  obtain ⟨otherBefore, other, otherSpelled, otherMaximal⟩ := second
  have sameBefore : before = otherBefore := by
    rw [← before.front_append script.stops, spelled, ← otherSpelled,
      otherBefore.front_append other.stops]
  subst sameBefore
  have chars : script.chars = other.chars :=
    List.append_cancel_left (spelled.trans otherSpelled.symm)
  have read := Script.read?_chars (Nat.lt_succ_self _) maximal
  have otherRead := Script.read?_chars (Nat.lt_succ_self _) otherMaximal
  rw [chars, otherRead] at read
  cases read
  rfl

end LambdaMachine
