import LambdaMachine.Proofs.Program.Recognition

/-!
A source that goes on. A reader of the grammar that stops before the end of the characters reads the
same off every longer source, so what it has refused there it refuses for good.
-/

namespace LambdaMachine

def Detached (rest further : List Char) : Prop :=
  Cursor.Stops Rune.isNameRune rest → Cursor.Stops Rune.isNameRune further

namespace Detached

theorem cons (first : Char) (rest further : List Char) :
    Detached (first :: rest) (first :: further) :=
  id

theorem prepend {rest further : List Char} (detached : Detached rest further)
    (front : List Char) : Detached (front ++ rest) (front ++ further) := by
  cases front with
  | nil => exact detached
  | cons first front => exact .cons first _ _

theorem append {rest : List Char} (goesOn : rest ≠ []) (more : List Char) :
    Detached rest (rest ++ more) := by
  cases rest with
  | nil => contradiction
  | cons first rest => exact .cons first _ _

end Detached

theorem Cursor.Stops.append {accepts : Char → Bool} {rest : List Char}
    (stops : Cursor.Stops accepts rest) (goesOn : rest ≠ []) (more : List Char) :
    Cursor.Stops accepts (rest ++ more) := by
  cases rest with
  | nil => contradiction
  | cons first rest => exact stops

theorem Word.Maximal.mono {word : Word} {rest further : List Char} (maximal : word.Maximal rest)
    (detached : Detached rest further) : word.Maximal further :=
  detached.prepend word.blanks.1 maximal

mutual

theorem Phrase.Maximal.mono {phrase : Phrase} {rest further : List Char}
    (maximal : phrase.Maximal rest) (detached : Detached rest further) :
    phrase.Maximal further := by
  cases phrase with
  | word word => exact Word.Maximal.mono maximal detached
  | abstraction glyph afterGlyph param afterDot body =>
      exact ⟨maximal.1.mono (.cons '.' _ _), maximal.2.mono detached⟩
  | group afterOpening first more =>
      exact ⟨maximal.1.mono (detached.prepend more.chars), maximal.2.mono detached⟩

theorem Phrases.Maximal.mono {more : Phrases} {rest further : List Char}
    (maximal : more.Maximal rest) (detached : Detached rest further) :
    more.Maximal further := by
  cases more with
  | close afterClosing => trivial
  | next phrase more =>
      exact ⟨maximal.1.mono (detached.prepend more.chars), maximal.2.mono detached⟩

end

section Stopping

variable {fuel : Nat}

theorem mark?_stops {expected chars rest : List Char} {blanks : Blanks}
    (read : mark? expected chars = some (blanks, rest)) : Cursor.Stops Rune.isBlank rest := by
  cases chars with
  | nil => cases read
  | cons rune chars =>
      rw [mark?] at read
      split at read
      · cases read
        exact stops_dropWhile Rune.isBlank chars
      · cases read

theorem Word.read?_stops {chars rest : List Char} {word : Word}
    (read : Word.read? chars = some (word, rest)) : Cursor.Stops Rune.isBlank rest := by
  unfold Word.read? at read
  dsimp only at read
  split at read
  · cases read
    exact stops_dropWhile Rune.isBlank _
  · cases read

def PhraseStops (fuel : Nat) : Prop :=
  ∀ (chars rest : List Char) (phrase : Phrase), Phrase.read? fuel chars = some (phrase, rest) →
    Cursor.Stops Rune.isBlank rest

def PhrasesStop (fuel : Nat) : Prop :=
  ∀ (chars rest : List Char) (more : Phrases), Phrases.read? fuel chars = some (more, rest) →
    Cursor.Stops Rune.isBlank rest

theorem PhraseStops.succ (parts : PhraseStops fuel) (others : PhrasesStop fuel) :
    PhraseStops (fuel + 1) := by
  intro chars rest phrase read
  cases chars with
  | nil => cases read
  | cons rune chars =>
      rw [Phrase.read?] at read
      split at read
      · obtain ⟨_, _, read⟩ := Option.bind_eq_some_iff.mp read
        obtain ⟨_, _, read⟩ := Option.bind_eq_some_iff.mp read
        obtain ⟨_, _, read⟩ := Option.bind_eq_some_iff.mp read
        obtain ⟨_, body, read⟩ := Option.bind_eq_some_iff.mp read
        cases read
        exact parts _ _ _ body
      · split at read
        · obtain ⟨_, _, read⟩ := Option.bind_eq_some_iff.mp read
          obtain ⟨_, _, read⟩ := Option.bind_eq_some_iff.mp read
          obtain ⟨_, more, read⟩ := Option.bind_eq_some_iff.mp read
          cases read
          exact others _ _ _ more
        · obtain ⟨_, name, read⟩ := Option.bind_eq_some_iff.mp read
          cases read
          exact Word.read?_stops name

theorem PhrasesStop.succ (others : PhrasesStop fuel) : PhrasesStop (fuel + 1) := by
  intro chars rest more read
  cases chars with
  | nil => cases read
  | cons rune chars =>
      rw [Phrases.read?] at read
      split at read
      · cases read
        exact stops_dropWhile Rune.isBlank chars
      · obtain ⟨_, _, read⟩ := Option.bind_eq_some_iff.mp read
        obtain ⟨_, further, read⟩ := Option.bind_eq_some_iff.mp read
        cases read
        exact others _ _ _ further

theorem read?_stops (fuel : Nat) : PhraseStops fuel ∧ PhrasesStop fuel := by
  induction fuel with
  | zero => exact ⟨fun _ _ _ read => (by cases read), fun _ _ _ read => (by cases read)⟩
  | succ fuel ih => exact ⟨ih.1.succ ih.2, ih.2.succ⟩

end Stopping

/-- What a reader with an allowance may promise: it takes what it has found off the front, up to a
character that is no blank, and finds all that stands there. -/
structure Exact {α : Type} (read : Nat → List Char → Option (α × List Char))
    (spelling : α → List Char) (maximal : α → List Char → Prop) : Prop where
  sound : ∀ {fuel chars found rest}, read fuel chars = some (found, rest) →
    spelling found ++ rest = chars ∧ maximal found rest ∧ Cursor.Stops Rune.isBlank rest
  complete : ∀ {fuel found rest}, (spelling found).length ≤ fuel → maximal found rest →
    Cursor.Stops Rune.isBlank rest → read fuel (spelling found ++ rest) = some (found, rest)
  mono : ∀ {found rest further}, maximal found rest → Detached rest further →
    maximal found further

theorem exact_word : Exact (fun _ => Word.read?) Word.chars Word.Maximal where
  sound read := ⟨(Word.read?_sound read).1, (Word.read?_sound read).2, Word.read?_stops read⟩
  complete _ := Word.read?_append
  mono := Word.Maximal.mono

theorem exact_phrase : Exact Phrase.read? Phrase.chars Phrase.Maximal where
  sound read := by
    obtain ⟨spelled, maximal⟩ := (read?_sound _).1 _ _ _ read
    exact ⟨spelled, maximal, (read?_stops _).1 _ _ _ read⟩
  complete enough := Phrase.read?_append _ enough
  mono := Phrase.Maximal.mono

section Settling

variable {α β : Type} {read : List Char → Option (α × List Char)} {chars rest : List Char}
  {found : α}

def Settles (read : List Char → Option (α × List Char)) (chars : List Char) (found : α)
    (rest : List Char) : Prop :=
  ∀ more result, read (chars ++ more) = some result → result = (found, rest ++ more)

def Hopeless (read : List Char → Option β) (chars : List Char) : Prop :=
  chars ≠ [] ∧ ∀ more, read (chars ++ more) = none

theorem Settles.bind_eq_none (settles : Settles read chars found rest)
    {next : α × List Char → Option β} {more : List Char}
    (refused : next (found, rest ++ more) = none) : (read (chars ++ more)).bind next = none := by
  cases again : read (chars ++ more) with
  | none => rfl
  | some result =>
      rw [settles more result again]
      exact refused

theorem Exact.settles {read : Nat → List Char → Option (α × List Char)}
    {spelling : α → List Char} {maximal : α → List Char → Prop}
    (exact : Exact read spelling maximal) {fuel : Nat}
    (first : read fuel chars = some (found, rest)) (goesOn : rest ≠ []) (larger : Nat) :
    Settles (read larger) chars found rest := by
  rintro more ⟨other, behind⟩ again
  obtain ⟨spelled, stays, stops⟩ := exact.sound first
  obtain ⟨otherSpelled, otherMaximal, otherStops⟩ := exact.sound again
  have enough := Nat.le_add_right (spelling found).length (spelling other).length
  have otherEnough := Nat.le_add_left (spelling other).length (spelling found).length
  have one := exact.complete enough (exact.mono stays (.append goesOn more))
    (stops.append goesOn more)
  have two := exact.complete otherEnough otherMaximal otherStops
  rw [otherSpelled, ← spelled, List.append_assoc, one] at two
  exact (Option.some.inj two).symm

theorem Word.read?_settles {word : Word} (read : Word.read? chars = some (word, rest))
    (goesOn : rest ≠ []) : Settles Word.read? chars word rest :=
  @Exact.settles _ _ _ _ _ _ _ exact_word 0 read goesOn 0

theorem mark?_settles {expected : List Char} {blanks : Blanks}
    (mark : mark? expected chars = some (blanks, rest)) (goesOn : rest ≠ []) :
    Settles (mark? expected) chars blanks rest := by
  intro more result again
  obtain ⟨rune, member, rfl⟩ := mark?_sound mark
  have stops := (mark?_stops mark).append goesOn more
  rw [List.cons_append, List.append_assoc, mark?_append member blanks stops] at again
  exact (Option.some.inj again).symm

end Settling

section Refusal

variable {α β : Type} {chars rest : List Char}

theorem Hopeless.of_succ {read : Nat → List Char → Option β}
    (none_zero : ∀ text, read 0 text = none) (nonempty : chars ≠ [])
    (refused : ∀ fuel more, read (fuel + 1) (chars ++ more) = none) (fuel : Nat) :
    Hopeless (read fuel) chars := by
  refine ⟨nonempty, fun more => ?_⟩
  cases fuel with
  | zero => exact none_zero (chars ++ more)
  | succ fuel => exact refused fuel more

theorem Hopeless.first {read : List Char → Option α} {next : α → Option β}
    (hopeless : Hopeless read chars) : Hopeless (fun text => read text >>= next) chars := by
  refine ⟨hopeless.1, fun more => ?_⟩
  dsimp only
  rw [hopeless.2 more]
  rfl

theorem Hopeless.bind {read : List Char → Option (α × List Char)} {found : α}
    {next : α × List Char → Option β} (nonempty : chars ≠ [])
    (settles : rest ≠ [] → Settles read chars found rest)
    (hopeless : Hopeless (fun text => next (found, text)) rest) :
    Hopeless (fun text => read text >>= next) chars :=
  ⟨nonempty, fun more => (settles hopeless.1).bind_eq_none (hopeless.2 more)⟩

theorem hopeless_mark? {expected : List Char} {rune : Char}
    (refused : ¬expected.contains rune = true) (rest : List Char) :
    Hopeless (mark? expected) (rune :: rest) := by
  refine ⟨List.cons_ne_nil rune rest, fun more => ?_⟩
  rw [List.cons_append, mark?, if_neg refused]

theorem Word.hopeless {rune : Char} (refused : ¬Rune.isNameRune rune = true) (rest : List Char) :
    Hopeless Word.read? (rune :: rest) :=
  ⟨List.cons_ne_nil rune rest, fun more => Word.read?_eq_none refused (rest ++ more)⟩

section Productions

variable {rune : Char}

theorem Phrase.hopeless_abstraction (isGlyph : Rune.isLambda rune = true)
    (hopeless : ∀ fuel, Hopeless (fun text => do
      let (afterGlyph, rest) ← mark? Rune.lambdas text
      let (param, rest) ← Word.read? rest
      let (afterDot, rest) ← mark? Rune.dot rest
      let (body, rest) ← Phrase.read? fuel rest
      return (Phrase.abstraction ⟨rune, isGlyph⟩ afterGlyph param afterDot body, rest))
        (rune :: chars)) :
    ∀ fuel, Hopeless (Phrase.read? fuel) (rune :: chars) := by
  refine .of_succ (fun _ => rfl) (List.cons_ne_nil rune chars) fun fuel more => ?_
  rw [List.cons_append, Phrase.read?, dif_pos isGlyph]
  exact (hopeless fuel).2 more

theorem Phrase.hopeless_group
    (hopeless : ∀ fuel, Hopeless (fun text => do
      let (afterOpening, rest) ← mark? Rune.openParen text
      let (first, rest) ← Phrase.read? fuel rest
      let (more, rest) ← Phrases.read? fuel rest
      return (Phrase.group afterOpening first more, rest)) ('(' :: chars)) :
    ∀ fuel, Hopeless (Phrase.read? fuel) ('(' :: chars) := by
  refine .of_succ (fun _ => rfl) (List.cons_ne_nil '(' chars) fun fuel more => ?_
  rw [List.cons_append, Phrase.read?, dif_neg (by decide), if_pos rfl]
  exact (hopeless fuel).2 more

theorem Phrase.hopeless_word (notGlyph : ¬Rune.isLambda rune = true) (notOpening : rune ≠ '(')
    (hopeless : Hopeless Word.read? (rune :: chars)) :
    ∀ fuel, Hopeless (Phrase.read? fuel) (rune :: chars) := by
  refine .of_succ (fun _ => rfl) hopeless.1 fun fuel more => ?_
  rw [List.cons_append, Phrase.read?, dif_neg notGlyph, if_neg notOpening]
  exact hopeless.first.2 more

theorem Phrases.hopeless_next (notClosing : rune ≠ ')')
    (hopeless : ∀ fuel, Hopeless (fun text => do
      let (phrase, rest) ← Phrase.read? fuel text
      let (more, rest) ← Phrases.read? fuel rest
      return (Phrases.next phrase more, rest)) (rune :: chars)) :
    ∀ fuel, Hopeless (Phrases.read? fuel) (rune :: chars) := by
  refine .of_succ (fun _ => rfl) (List.cons_ne_nil rune chars) fun fuel more => ?_
  rw [List.cons_append, Phrases.read?, if_neg notClosing]
  exact (hopeless fuel).2 more

end Productions

theorem Script.hopeless_front (hopeless : ∀ fuel, Hopeless (Phrase.read? fuel) chars) :
    ∀ fuel, Hopeless (Script.read? fuel) chars := by
  refine .of_succ (fun _ => rfl) (hopeless 0).1 fun fuel more => ?_
  rw [Script.read?]
  exact (hopeless fuel).first.2 more

theorem Phrase.ne_nil_of_read? {fuel : Nat} {phrase : Phrase}
    (read : Phrase.read? fuel chars = some (phrase, rest)) : chars ≠ [] := by
  rintro rfl
  rw [Phrase.read?_nil] at read
  cases read

section Targets

variable {fuel : Nat} {target : Phrase}
  (front : Phrase.read? fuel chars = some (target, rest)) (goesOn : rest ≠ [])
include front goesOn

theorem Script.hopeless_unparsed (unnamed : ∀ name, target.tree ≠ .var name) :
    ∀ fuel, Hopeless (Script.read? fuel) chars := by
  refine .of_succ (fun _ => rfl) (Phrase.ne_nil_of_read? front) fun larger more => ?_
  rw [Script.read?]
  refine (exact_phrase.settles front goesOn larger).bind_eq_none ?_
  dsimp only
  rw [if_neg (by simp [goesOn])]
  split
  · rename_i name bare
    exact (unnamed name bare).elim
  · rfl

/-- No program is spelled by a name with more behind it, if not by an assignment to the name. -/
theorem Script.hopeless_assignment {name : String} (bare : target.tree = .var name)
    (hopeless : ∀ fuel, Hopeless (fun text => do
      let (afterEquals, rest) ← mark? Rune.equals text
      let (side, rest) ← Phrase.read? fuel rest
      let script ← Script.read? fuel rest
      return Script.assignment target name bare afterEquals side script) rest) :
    ∀ fuel, Hopeless (Script.read? fuel) chars := by
  refine .of_succ (fun _ => rfl) (Phrase.ne_nil_of_read? front) fun larger more => ?_
  rw [Script.read?]
  refine (exact_phrase.settles front goesOn larger).bind_eq_none ?_
  dsimp only
  rw [if_neg (by simp [goesOn])]
  split
  · rename_i other again
    cases bare.symm.trans again
    exact (hopeless larger).2 more
  · rfl

end Targets

end Refusal

theorem Program.exists_parse_of_script {source : String} {script : Script}
    (spelled : source.toList = script.chars) (plain : Rune.comment ∉ source.toList)
    (maximal : script.Maximal) (names : NameTable) :
    ∃ program after, parse (.ofString source) names = (.ok program, after) ∧
      program.arena.Spells after program.root script.tree ∧
      program.assignments = script.assignments := by
  have chars : front source = script.chars := by
    rw [front, uncommented_of_plain plain, spelled]
    exact dropWhile_append_of_stops (List.forall_mem_nil _) script.stops
  have enough := length_front_le source
  rw [chars] at enough
  refine exists_parse_of_read? ?_ names
  rw [chars]
  exact Script.read?_chars (Nat.lt_succ_of_le (Nat.le_succ_of_le enough)) maximal

end LambdaMachine
