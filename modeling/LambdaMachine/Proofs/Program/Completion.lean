import LambdaMachine.Proofs.Program.Extension

/-!
Characters that want an end. What has been read of a production, with an end put behind it, spells
the production: an abstraction whose name, dot or body is missing, a group that is open, an
assignment without its side or without a body after it.
-/

namespace LambdaMachine

/-- With `more` behind them these characters are `full`. No comment opens in what is added, and it
does not go on with a name that ends where the characters start. -/
structure Completes (chars more full : List Char) : Prop where
  spelled : full = chars ++ more
  detached : Detached chars full
  plain : Rune.comment ∉ more

namespace Completes

variable {chars more full : List Char}

theorem prepend (completes : Completes chars more full) (front : List Char) :
    Completes (front ++ chars) more (front ++ full) := by
  refine ⟨?_, completes.detached.prepend front, completes.plain⟩
  rw [completes.spelled, List.append_assoc]

theorem detached_append (completes : Completes chars more full) (nonempty : full ≠ [])
    (further : List Char) : Detached chars (full ++ further) :=
  fun stops => Detached.append nonempty further (completes.detached stops)

theorem append (completes : Completes chars more full) (nonempty : full ≠ [])
    {further : List Char} (plain : Rune.comment ∉ further) :
    Completes chars (more ++ further) (full ++ further) := by
  refine ⟨?_, completes.detached_append nonempty further, ?_⟩
  · rw [completes.spelled, List.append_assoc]
  · rw [List.mem_append, not_or]
    exact ⟨completes.plain, plain⟩

theorem shorten {added : List Char} (completes : Completes (chars ++ added) more full)
    (detached : Detached chars (chars ++ added)) (plain : Rune.comment ∉ added) :
    Completes chars (added ++ more) full := by
  refine ⟨?_, fun stops => completes.detached (detached stops), ?_⟩
  · rw [completes.spelled, List.append_assoc]
  · rw [List.mem_append, not_or]
    exact ⟨plain, completes.plain⟩

end Completes

def Phrase.Unfinished (chars : List Char) : Prop :=
  ∃ more phrase, Completes chars more (Phrase.chars phrase) ∧ ∀ rest, phrase.Maximal rest

def Phrases.Unfinished (chars : List Char) : Prop :=
  ∃ more phrases, Completes chars more (Phrases.chars phrases) ∧ ∀ rest, phrases.Maximal rest

def Script.Unfinished (chars : List Char) : Prop :=
  ∃ more script, Completes chars more (Script.chars script) ∧ script.Maximal

def Blanks.empty : Blanks :=
  ⟨[], List.forall_mem_nil _⟩

def Word.filler : Word :=
  ⟨⟨['x'], List.cons_ne_nil _ _, List.forall_mem_singleton.mpr rfl⟩, .empty⟩

def Phrase.filler : Phrase :=
  .group .empty (.word .filler) (.close .empty)

theorem Phrase.maximal_filler (rest : List Char) : Phrase.filler.Maximal rest := by
  refine ⟨?_, trivial⟩
  rintro char ⟨⟩
  decide

theorem Phrase.chars_ne_nil (phrase : Phrase) : phrase.chars ≠ [] := by
  obtain ⟨first, others, chars, _⟩ := phrase.exists_chars_eq_cons
  rw [chars]
  exact List.cons_ne_nil first others

theorem Phrases.chars_ne_nil (more : Phrases) : more.chars ≠ [] :=
  List.ne_nil_of_length_pos more.length_chars_pos

theorem Phrase.unfinished_nil : Phrase.Unfinished [] := by
  refine ⟨Phrase.filler.chars, .filler, ⟨rfl, fun _ => ?_, by decide⟩, Phrase.maximal_filler⟩
  rintro char ⟨⟩
  decide

theorem Phrases.unfinished_nil : Phrases.Unfinished [] := by
  refine ⟨[')'], .close .empty, ⟨rfl, fun _ => ?_, by decide⟩, fun _ => trivial⟩
  rintro char ⟨⟩
  decide

theorem Phrase.Unfinished.shorten {chars added : List Char}
    (unfinished : Phrase.Unfinished (chars ++ added)) (detached : Detached chars (chars ++ added))
    (plain : Rune.comment ∉ added) : Phrase.Unfinished chars := by
  obtain ⟨more, phrase, completes, maximal⟩ := unfinished
  exact ⟨added ++ more, phrase, completes.shorten detached plain, maximal⟩

section Abstractions

variable (glyph : Glyph) (afterGlyph : Blanks)

theorem Phrase.Unfinished.abstraction {param : Word} {afterDot : Blanks} {rest : List Char}
    (name : param.Maximal ('.' :: (afterDot.1 ++ rest))) (unfinished : Phrase.Unfinished rest) :
    Phrase.Unfinished
      (glyph.1 :: (afterGlyph.1 ++ (param.chars ++ '.' :: (afterDot.1 ++ rest)))) := by
  obtain ⟨more, body, completes, maximal⟩ := unfinished
  refine ⟨more, .abstraction glyph afterGlyph param afterDot body, ?_, fun following => ?_⟩
  · have dotted := (completes.prepend afterDot.1).prepend ['.']
    exact ((dotted.prepend param.chars).prepend afterGlyph.1).prepend [glyph.1]
  · exact ⟨name.mono (.cons '.' _ _), maximal following⟩

theorem Phrase.unfinished_without_dot {param : Word} (name : param.Maximal []) :
    Phrase.Unfinished (glyph.1 :: (afterGlyph.1 ++ param.chars)) := by
  have dotted : param.Maximal ('.' :: (Blanks.empty.1 ++ [])) := by
    refine name.mono fun _ => ?_
    rintro char ⟨⟩
    decide
  have unfinished := Phrase.unfinished_nil.abstraction glyph afterGlyph dotted
  rw [← List.append_assoc, ← List.cons_append] at unfinished
  exact unfinished.shorten (.append (List.cons_ne_nil _ _) _) (by decide)

theorem Phrase.unfinished_without_name : Phrase.Unfinished (glyph.1 :: afterGlyph.1) := by
  have name : Word.filler.Maximal [] := fun _ same => by cases same
  have unfinished := Phrase.unfinished_without_dot glyph afterGlyph name
  rw [← List.cons_append] at unfinished
  exact unfinished.shorten (.append (List.cons_ne_nil _ _) _) (by decide)

end Abstractions

theorem Phrase.Unfinished.opening {rest : List Char} (afterOpening : Blanks)
    (unfinished : Phrase.Unfinished rest) :
    Phrase.Unfinished ('(' :: (afterOpening.1 ++ rest)) := by
  obtain ⟨more, first, completes, maximal⟩ := unfinished
  refine ⟨more ++ [')'], .group afterOpening first (.close .empty), ?_, fun following => ?_⟩
  · have closed : Completes rest (more ++ [')']) (first.chars ++ [')']) :=
      completes.append first.chars_ne_nil (by decide)
    exact (closed.prepend afterOpening.1).prepend ['(']
  · exact ⟨maximal _, trivial⟩

theorem Phrases.Unfinished.group {first : Phrase} {rest : List Char} (afterOpening : Blanks)
    (before : first.Maximal rest) (unfinished : Phrases.Unfinished rest) :
    Phrase.Unfinished ('(' :: (afterOpening.1 ++ (first.chars ++ rest))) := by
  obtain ⟨more, phrases, completes, maximal⟩ := unfinished
  refine ⟨more, .group afterOpening first phrases, ?_, fun following => ⟨?_, maximal following⟩⟩
  · exact ((completes.prepend first.chars).prepend afterOpening.1).prepend ['(']
  · exact before.mono (completes.detached_append phrases.chars_ne_nil following)

theorem Phrase.Unfinished.last {chars : List Char} (unfinished : Phrase.Unfinished chars) :
    Phrases.Unfinished chars := by
  obtain ⟨more, phrase, completes, maximal⟩ := unfinished
  refine ⟨more ++ [')'], .next phrase (.close .empty), ?_, fun following => ⟨maximal _, trivial⟩⟩
  exact completes.append phrase.chars_ne_nil (by decide)

theorem Phrases.Unfinished.next {phrase : Phrase} {rest : List Char}
    (before : phrase.Maximal rest) (unfinished : Phrases.Unfinished rest) :
    Phrases.Unfinished (phrase.chars ++ rest) := by
  obtain ⟨more, phrases, completes, maximal⟩ := unfinished
  refine ⟨more, .next phrase phrases, completes.prepend phrase.chars, fun following => ?_⟩
  exact ⟨before.mono (completes.detached_append phrases.chars_ne_nil following), maximal following⟩

theorem Phrase.Unfinished.body {chars : List Char} (unfinished : Phrase.Unfinished chars) :
    Script.Unfinished chars := by
  obtain ⟨more, phrase, completes, maximal⟩ := unfinished
  exact ⟨more, .body phrase, completes, maximal []⟩

theorem Phrase.Unfinished.side {target : Phrase} {name : String} (bare : target.tree = .var name)
    (afterEquals : Blanks) {rest : List Char}
    (before : target.Maximal ('=' :: (afterEquals.1 ++ rest)))
    (unfinished : Phrase.Unfinished rest) :
    Script.Unfinished (target.chars ++ '=' :: (afterEquals.1 ++ rest)) := by
  obtain ⟨more, side, completes, maximal⟩ := unfinished
  refine ⟨more ++ Phrase.filler.chars,
    .assignment target name bare afterEquals side (.body .filler), ?_, ?_⟩
  · have followed : Completes rest (more ++ Phrase.filler.chars)
        (side.chars ++ Phrase.filler.chars) :=
      completes.append side.chars_ne_nil (by decide)
    exact ((followed.prepend afterEquals.1).prepend ['=']).prepend target.chars
  · exact ⟨before.mono (.cons '=' _ _), maximal _, Phrase.maximal_filler []⟩

theorem Script.Unfinished.assignment {target side : Phrase} {name : String}
    (bare : target.tree = .var name) (afterEquals : Blanks) {rest : List Char}
    (before : target.Maximal ('=' :: (afterEquals.1 ++ (side.chars ++ rest))))
    (between : side.Maximal rest) (unfinished : Script.Unfinished rest) :
    Script.Unfinished (target.chars ++ '=' :: (afterEquals.1 ++ (side.chars ++ rest))) := by
  obtain ⟨more, script, completes, maximal⟩ := unfinished
  refine ⟨more, .assignment target name bare afterEquals side script, ?_, ?_⟩
  · have sided := (completes.prepend side.chars).prepend afterEquals.1
    exact (sided.prepend ['=']).prepend target.chars
  · exact ⟨before.mono (.cons '=' _ _), between.mono completes.detached, maximal⟩

end LambdaMachine
