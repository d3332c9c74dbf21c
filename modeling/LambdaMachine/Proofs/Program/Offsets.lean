import LambdaMachine.Proofs.Program.Extension
import LambdaMachine.Proofs.Program.Nesting
import LambdaMachine.Proofs.Source.Places

/-!
What the offsets of syntax errors point at. The parser asks for its position at several places, each
time behind a character that has been looked at, so the offset is that of the character it reports;
the group it reports as unclosed is the innermost one; and the expression behind which it gives up
is a whole one.
-/

namespace LambdaMachine

inductive Script.Precedes (rest : List Char) : List Char → Prop
  | here : Precedes rest rest
  | assignment {more : List Char} (target : Phrase) (name : String)
      (bare : target.tree = .var name) (afterEquals : Blanks) (side : Phrase)
      (targetMaximal : target.Maximal ('=' :: (afterEquals.1 ++ (side.chars ++ more))))
      (sideMaximal : side.Maximal more) (later : Precedes rest more) :
      Precedes rest (target.chars ++ '=' :: (afterEquals.1 ++ (side.chars ++ more)))

structure Unparsed (chars : List Char) : Prop where
  opens : ∃ first ∈ chars.head?, first = '(' ∨ Rune.isLambda first = true
  whole : ∃ (phrase : Phrase) (rest : List Char), chars = phrase.chars ++ rest ∧
    phrase.Maximal rest ∧ (∀ name, phrase.tree ≠ .var name) ∧
    ∃ next ∈ rest.head?, Rune.isBlank next = false

def FoundAt (total : Nat) (places : List (Char × Nat)) (found : Option Char) (offset : Nat) :
    Prop :=
  match found with
  | some char => (char, offset) ∈ places
  | none => offset = total

theorem found_front (total : Nat) (places : List (Char × Nat)) :
    FoundAt total places (places.head?.map Prod.fst) (placeOf total places) := by
  cases places with
  | nil => rfl
  | cons place places => exact List.mem_cons_self

namespace SyntaxError

def Marks (total : Nat) (places : List (Char × Nat)) : SyntaxError → Prop
  | .unexpected error => FoundAt total places error.found error.offset
  | .expressionExpected found offset => FoundAt total places found offset
  | .nameExpected found offset => FoundAt total places found offset
  | .unclosedGroup opening => ∃ before after, places = before ++ ('(', opening) :: after ∧
      LeavesOpen (after.map Prod.fst)
  | .unparsedInput _ => False

theorem Marks.mono {total : Nat} {later places : List (Char × Nat)} {cause : SyntaxError}
    (suffix : later <:+ places) (marks : cause.Marks total later) : cause.Marks total places := by
  have found {char : Option Char} {offset : Nat} (there : FoundAt total later char offset) :
      FoundAt total places char offset := by
    cases char with
    | none => exact there
    | some char => exact suffix.subset there
  cases cause with
  | unexpected error => exact found marks
  | expressionExpected char offset => exact found marks
  | nameExpected char offset => exact found marks
  | unclosedGroup opening =>
      obtain ⟨front, rfl⟩ := suffix
      obtain ⟨before, after, rfl, leaves⟩ := marks
      exact ⟨front ++ before, after, by rw [List.append_assoc], leaves⟩
  | unparsedInput offset => exact marks

end SyntaxError

namespace Parser

variable {α β γ : Type} {total : Nat} {state : ParserState} {places : List (Char × Nat)}

def Reports (action : Parser α) (state : ParserState) (means : α → ParserState → Prop)
    (blames : SyntaxError → Prop) : Prop :=
  match action state with
  | .ok value after => means value after
  | .error (.malformed cause) _ => blames cause
  | .error _ _ => True

section Rules

variable {action : Parser α} {middle : α → ParserState → Prop} {means : β → ParserState → Prop}
  {blames : SyntaxError → Prop}

theorem Reports.bind {next : α → Parser β} (first : Reports action state middle blames)
    (second : ∀ value between, action state = .ok value between → middle value between →
      Reports (next value) between means blames) :
    Reports (action >>= next) state means blames := by
  unfold Reports at first ⊢
  simp only [Bind.bind, EStateM.bind]
  cases ran : action state with
  | ok value between =>
      rw [ran] at first
      exact second value between ran first
  | error error after =>
      rw [ran] at first
      cases error with
      | malformed cause => exact first
      | stream _ | exhausted => trivial

theorem Reports.mono {others : SyntaxError → Prop} {wanted : α → ParserState → Prop}
    (reports : Reports action state middle blames)
    (implies : ∀ value after, middle value after → wanted value after)
    (widens : ∀ cause, blames cause → others cause) : Reports action state wanted others := by
  unfold Reports at reports ⊢
  split
  · rename_i value after ran
    rw [ran] at reports
    exact implies value after reports
  · rename_i cause after ran
    rw [ran] at reports
    exact widens cause reports
  · trivial

theorem Reports.fail {cause : SyntaxError} (blamed : blames cause) :
    Reports (Parser.fail cause) state means blames :=
  blamed

theorem Reports.of_ok {value : α} {after : ParserState} (ran : action state = .ok value after)
    (meant : middle value after) : Reports action state middle blames := by
  rw [Reports, ran]
  exact meant

end Rules

def Passed (total : Nat) (places : List (Char × Nat)) (after : ParserState) : Prop :=
  ∃ later, later <:+ places ∧ after.cursor.Rests total later

theorem Passed.mono {later : List (Char × Nat)} {after : ParserState}
    (passed : Passed total later after) (suffix : later <:+ places) :
    Passed total places after := by
  obtain ⟨further, more, rests⟩ := passed
  exact ⟨further, more.trans suffix, rests⟩

section Leaves

variable (meets : state.cursor.Meets total places) (blames : SyntaxError → Prop)
include meets

theorem reports_peek :
    Reports (scan Cursor.peek) state (fun found after => found = places.head?.map Prod.fst ∧
      after.cursor.Rests total places ∧ after.cursor.advance.Meets total places.tail) blames := by
  obtain ⟨cursor, peeked, rests, advanced⟩ := meets.peek
  have ran : scan Cursor.peek state = .ok (places.head?.map Prod.fst) { state with cursor } := by
    simp only [scan, peeked]
  exact .of_ok ran ⟨rfl, rests, advanced⟩

theorem reports_atEnd :
    Reports (scan Cursor.atEnd) state (fun ended after => ended = places.isEmpty ∧
      after.cursor.Rests total places) blames := by
  obtain ⟨cursor, asked, rests⟩ := meets.atEnd
  have ran : scan Cursor.atEnd state = .ok places.isEmpty { state with cursor } := by
    simp only [scan, asked]
  exact .of_ok ran ⟨rfl, rests⟩

theorem reports_takeWhile (accepts : Char → Bool) :
    Reports (scan (Cursor.takeWhile accepts)) state (fun _ after => Passed total places after)
      blames := by
  obtain ⟨text, cursor, later, taken, suffix, rests⟩ := meets.takeWhile accepts
  have ran : scan (Cursor.takeWhile accepts) state = .ok text { state with cursor } := by
    simp only [scan, taken]
  exact .of_ok ran ⟨later, suffix, rests⟩

theorem reports_skipBlanks :
    Reports (scan Cursor.skipBlanks) state (fun _ after => Passed total places after) blames := by
  obtain ⟨cursor, later, skipped, suffix, rests⟩ := meets.skipBlanks
  have ran : scan Cursor.skipBlanks state = .ok () { state with cursor } := by
    simp only [scan, skipped]
  exact .of_ok ran ⟨later, suffix, rests⟩

omit blames in
theorem reports_expect (expected : List Char) :
    Reports (expect expected) state (fun _ after => Passed total places after)
      (SyntaxError.Marks total places) := by
  rcases meets.expectOneOf expected with ⟨_, cursor, later, passed, suffix, rests⟩ | ⟨_, refused⟩
  · have ran : expect expected state = .ok () { state with cursor } := by
      simp only [expect, passed]
    exact .of_ok ran ⟨later, suffix, rests⟩
  · unfold Reports expect
    rw [refused]
    exact found_front total places

end Leaves

theorem reports_position (rests : state.cursor.Rests total places) (blames : SyntaxError → Prop) :
    Reports position state (fun offset after => offset = placeOf total places ∧ after = state)
      blames :=
  ⟨rests.position, rfl⟩

theorem reports_addNode {cursor : Cursor} (same : state.cursor = cursor) (node : Node)
    (blames : SyntaxError → Prop) :
    Reports (addNode node) state (fun _ after => after.cursor = cursor) blames :=
  same

theorem reports_get (blames : SyntaxError → Prop) :
    Reports get state (fun found after => found = after ∧ after = state) blames :=
  ⟨rfl, rfl⟩

/-- A complaint about what was found where something else was expected. -/
theorem reports_complaint (rests : state.cursor.Rests total places)
    (complaint : Option Char → Nat → SyntaxError) {means : α → ParserState → Prop}
    (marks : ∀ found offset, FoundAt total places found offset →
      (complaint found offset).Marks total places) :
    Reports (do fail (complaint (places.head?.map Prod.fst) (← position)) : Parser α) state means
      (SyntaxError.Marks total places) := by
  refine (reports_position rests _).bind fun offset _ _ found => ?_
  obtain ⟨rfl, rfl⟩ := found
  exact .fail (marks _ _ (found_front total places))

theorem reports_name (meets : state.cursor.Meets total places) :
    Reports name state (fun _ after => Passed total places after)
      (SyntaxError.Marks total places) := by
  refine (reports_takeWhile meets _ _).bind fun text between _ passed => ?_
  obtain ⟨later, suffix, rests⟩ := passed
  by_cases empty : text.isEmpty = true
  · rw [if_pos empty]
    refine (reports_peek rests.meets _).bind fun found _ _ looked => ?_
    obtain ⟨rfl, restsThere, _⟩ := looked
    exact (reports_complaint restsThere .nameExpected fun _ _ found => found).mono
      (fun _ _ => id) fun _ marks => marks.mono suffix
  · rw [if_neg empty]
    refine (reports_skipBlanks rests.meets _).bind fun _ after _ passed => ?_
    have passedAll := passed.mono suffix
    exact passedAll

theorem Follows.of_ok {action : Parser α} {expected : Option γ} {value : α} {after : ParserState}
    {means : γ → α → ParserState → Prop} (follows : Follows action state expected means)
    (ran : action state = .ok value after) : ∃ found, expected = some found ∧
      state.Before after ∧ means found value after := by
  cases expected with
  | none =>
      obtain ⟨_, _, failed⟩ := follows
      cases ran.symm.trans failed
  | some found =>
      obtain ⟨_, _, again, before, meant⟩ := follows
      cases ran.symm.trans again
      exact ⟨found, rfl, before, meant⟩

/-- The characters behind what an action has passed are known by the reader of the grammar. -/
theorem Passed.exists_rests {after : ParserState} {rest : List Char}
    (passed : Passed total places after) (faces : after.cursor.Faces rest) :
    ∃ later, later <:+ places ∧ after.cursor.Rests total later ∧ later.map Prod.fst = rest := by
  obtain ⟨later, suffix, rests⟩ := passed
  exact ⟨later, suffix, rests, rests.meets.faces.unique faces⟩

def PhraseReports (total fuel : Nat) : Prop :=
  ∀ (state : ParserState) (places : List (Char × Nat)), state.cursor.Meets total places →
    Reports (expression fuel) state (fun _ after => Passed total places after)
      (SyntaxError.Marks total places)

def MarksInGroup (total : Nat) (places : List (Char × Nat)) (opening : Nat) (cause : SyntaxError) :
    Prop :=
  cause.Marks total places ∨ cause = .unclosedGroup opening ∧ LeavesOpen (places.map Prod.fst)

def PhrasesReport (total fuel : Nat) : Prop :=
  ∀ (state : ParserState) (places : List (Char × Nat)) (opening : Nat) (func : NodeId),
    state.cursor.Meets total places →
      Reports (arguments fuel opening func) state (fun _ after => Passed total places after)
        (MarksInGroup total places opening)

section Productions

variable {fuel : Nat} {char : Char} {start : Nat}

theorem PhraseReports.abstraction (parts : PhraseReports total fuel)
    (meets : state.cursor.Meets total places) :
    Reports (do
        expect Rune.lambdas
        let param ← name
        expect Rune.dot
        let body ← expression fuel
        addNode (.lambda param body)) state (fun _ after => Passed total places after)
      (SyntaxError.Marks total places) := by
  have widen {later : List (Char × Nat)} {β : Type} {action : Parser β} {between : ParserState}
      (suffix : later <:+ places)
      (reports : Reports action between (fun _ after => Passed total later after)
        (SyntaxError.Marks total later)) :
      Reports action between (fun _ after => Passed total places after)
        (SyntaxError.Marks total places) :=
    reports.mono (fun _ _ passed => passed.mono suffix) fun _ marks => marks.mono suffix
  refine (reports_expect meets _).bind fun _ _ _ passed => ?_
  obtain ⟨atName, toName, rests⟩ := passed
  refine (widen toName (reports_name rests.meets)).bind fun number _ _ passed => ?_
  obtain ⟨atDot, toDot, rests⟩ := passed
  refine (widen toDot (reports_expect rests.meets _)).bind fun _ _ _ passed => ?_
  obtain ⟨atBody, toBody, rests⟩ := passed
  refine (widen toBody (parts _ _ rests.meets)).bind fun body _ _ passed => ?_
  obtain ⟨behind, toEnd, rests⟩ := passed
  exact ⟨behind, toEnd, rests⟩

theorem PhraseReports.group (parts : PhraseReports total fuel) (others : PhrasesReport total fuel)
    (rests : state.cursor.Rests total (('(', start) :: places)) :
    Reports (do
        expect Rune.openParen
        if ← scan Cursor.atEnd then fail (.unclosedGroup start)
        else
          let func ← expression fuel
          arguments fuel start func) state
      (fun _ after => Passed total (('(', start) :: places) after)
      (SyntaxError.Marks total (('(', start) :: places)) := by
  have unclosed (leaves : LeavesOpen (places.map Prod.fst)) :
      (SyntaxError.unclosedGroup start).Marks total (('(', start) :: places) :=
    ⟨[], places, rfl, leaves⟩
  refine (reports_expect rests.meets _).bind fun _ between ran passed => ?_
  obtain ⟨⟨afterOpening, _⟩, marked, _, faces⟩ := (follows_expect rests.meets.faces _).of_ok ran
  obtain ⟨atFirst, toFirst, rests, rfl⟩ := passed.exists_rests faces
  have spelled := mark?_single_sound marked
  replace spelled : places.map Prod.fst = afterOpening.1 ++ atFirst.map Prod.fst :=
    (List.cons.inj spelled).2
  refine (reports_atEnd rests.meets _).bind fun ended _ _ asked => ?_
  obtain ⟨rfl, rests⟩ := asked
  cases atFirst with
  | nil =>
      refine .fail (unclosed ?_)
      rw [spelled]
      exact leavesOpen_nil.blanks afterOpening
  | cons place atFirst =>
      rw [List.isEmpty_cons, if_neg Bool.false_ne_true]
      refine ((parts _ _ rests.meets).mono (fun _ _ => id) fun _ marks =>
        marks.mono toFirst).bind fun func _ ran passed => ?_
      obtain ⟨⟨first, _⟩, read, _, faces, _⟩ :=
        ((follows_expression fuel).1 _ _ rests.meets.faces).of_ok ran
      obtain ⟨behind, toBehind, rests, rfl⟩ := passed.exists_rests faces
      obtain ⟨firstSpelled, _⟩ := exact_phrase.sound read
      refine (others _ _ start func rests.meets).mono
        (fun _ _ passed => passed.mono (toBehind.trans toFirst)) fun cause marks => ?_
      rcases marks with inside | ⟨rfl, leaves⟩
      · exact inside.mono (toBehind.trans toFirst)
      · refine unclosed ?_
        rw [spelled, ← firstSpelled]
        exact (leaves.phrase first).blanks afterOpening

end Productions

variable {fuel : Nat}

theorem PhraseReports.succ (parts : PhraseReports total fuel) (others : PhrasesReport total fuel) :
    PhraseReports total (fuel + 1) := by
  intro state places meets
  rw [expression]
  refine (reports_peek meets _).bind fun found _ _ looked => ?_
  obtain ⟨rfl, rests, _⟩ := looked
  cases places with
  | nil => exact reports_complaint rests .expressionExpected fun _ _ found => found
  | cons place places =>
      obtain ⟨rune, start⟩ := place
      dsimp only [List.head?_cons, Option.map_some]
      by_cases isGlyph : Rune.isLambda rune = true
      · rw [if_pos isGlyph]
        exact parts.abstraction rests.meets
      · rw [if_neg isGlyph]
        by_cases opens : rune = '('
        · rw [if_pos opens]
          subst opens
          refine (reports_position rests _).bind fun opening _ _ found => ?_
          obtain ⟨rfl, rfl⟩ := found
          exact parts.group others rests
        · rw [if_neg opens]
          by_cases isNameRune : Rune.isNameRune rune = true
          · rw [if_pos isNameRune]
            refine (reports_name rests.meets).bind fun number _ _ passed => ?_
            exact passed
          · rw [if_neg isNameRune]
            exact reports_complaint rests .expressionExpected fun _ _ found => found

theorem PhrasesReport.succ (parts : PhraseReports total fuel) (others : PhrasesReport total fuel) :
    PhrasesReport total (fuel + 1) := by
  intro state places opening func meets
  rw [arguments]
  refine (reports_peek meets _).bind fun found _ _ looked => ?_
  obtain ⟨rfl, rests, advanced⟩ := looked
  cases places with
  | nil => exact .fail (Or.inr ⟨rfl, leavesOpen_nil⟩)
  | cons place places =>
      dsimp only [List.head?_cons, Option.map_some]
      by_cases closes : place.1 = ')'
      · rw [if_pos closes]
        have passing : Reports advance _ (fun _ after => after.cursor.Meets total places)
            (MarksInGroup total (place :: places) opening) := advanced
        refine passing.bind fun _ _ _ meets => ?_
        refine (reports_skipBlanks meets _).bind fun _ _ _ passed => ?_
        exact passed.mono (List.suffix_cons place places)
      · rw [if_neg closes]
        refine ((parts _ _ rests.meets).mono (fun _ _ => id) fun _ => Or.inl).bind
          fun arg _ ran passed => ?_
        obtain ⟨⟨phrase, _⟩, read, _, faces, _⟩ :=
          ((follows_expression fuel).1 _ _ rests.meets.faces).of_ok ran
        obtain ⟨behind, toBehind, rests, rfl⟩ := passed.exists_rests faces
        obtain ⟨spelled, _⟩ := exact_phrase.sound read
        refine (reports_addNode rfl (.apply func arg) _).bind fun applied _ _ same => ?_
        have meetsThere := rests.meets
        rw [← same] at meetsThere
        refine (others _ _ opening applied meetsThere).mono
          (fun _ _ passed => passed.mono toBehind) fun cause marks => ?_
        rcases marks with inside | ⟨rfl, leaves⟩
        · exact Or.inl (inside.mono toBehind)
        · refine Or.inr ⟨rfl, ?_⟩
          rw [← spelled]
          exact leaves.phrase phrase

theorem reports_expression (total fuel : Nat) :
    PhraseReports total fuel ∧ PhrasesReport total fuel := by
  induction fuel with
  | zero => exact ⟨fun _ _ _ => trivial, fun _ _ _ _ _ => trivial⟩
  | succ fuel ih => exact ⟨ih.1.succ ih.2, .succ ih.1 ih.2⟩

def MarksProgram (total : Nat) (places : List (Char × Nat)) (cause : SyntaxError) : Prop :=
  cause.Marks total places ∨ ∃ before after char offset, cause = .unparsedInput offset ∧
    places = before ++ (char, offset) :: after ∧ Unparsed (char :: after.map Prod.fst) ∧
    Script.Precedes (char :: after.map Prod.fst) (places.map Prod.fst)

theorem MarksProgram.assignment {later : List (Char × Nat)} {cause : SyntaxError}
    (marks : MarksProgram total later cause) (suffix : later <:+ places)
    (precedes : ∀ rest, Script.Precedes rest (later.map Prod.fst) →
      Script.Precedes rest (places.map Prod.fst)) : MarksProgram total places cause := by
  rcases marks with inside | ⟨before, after, char, offset, rfl, rfl, unparsed, precedesThere⟩
  · exact Or.inl (inside.mono suffix)
  · obtain ⟨front, rfl⟩ := suffix
    exact Or.inr ⟨front ++ before, after, char, offset, rfl, by rw [List.append_assoc], unparsed,
      precedes _ precedesThere⟩

theorem reports_bindAll (root : NodeId) (bindings : List (NameId × NodeId))
    (blames : SyntaxError → Prop) :
    Reports (bindAll root bindings) state (fun _ _ => True) blames := by
  induction bindings generalizing root state with
  | nil => trivial
  | cons binding bindings ih => exact ih _

/-- A phrase that is no mere name begins with the mark of its kind. -/
theorem unparsed_of_phrase {phrase : Phrase} {rest : List Char} (maximal : phrase.Maximal rest)
    (notName : ∀ name, phrase.tree ≠ .var name) (goesOn : rest ≠ [])
    (stops : Cursor.Stops Rune.isBlank rest) : Unparsed (phrase.chars ++ rest) := by
  refine ⟨?_, phrase, rest, rfl, maximal, notName, ?_⟩
  · cases phrase with
    | word word => exact (notName word.text rfl).elim
    | abstraction glyph afterGlyph param afterDot body => exact ⟨glyph.1, rfl, Or.inr glyph.2⟩
    | group afterOpening first more => exact ⟨'(', rfl, Or.inl rfl⟩
  · obtain ⟨next, rest, rfl⟩ := List.exists_cons_of_ne_nil goesOn
    exact ⟨next, rfl, stops next rfl⟩

def StatementsReport (total fuel : Nat) : Prop :=
  ∀ (state : ParserState) (places : List (Char × Nat)) (bindings : List (NameId × NodeId)),
    state.cursor.Rests total places →
      Reports (statements fuel bindings) state (fun _ _ => True) (MarksProgram total places)

/-- From the target on, which is read and is a mere name. -/
theorem StatementsReport.assignment {fuel : Nat} (others : StatementsReport total fuel)
    {target : Phrase} {name : String} {behind : List (Char × Nat)}
    (spelled : target.chars ++ behind.map Prod.fst = places.map Prod.fst)
    (maximal : target.Maximal (behind.map Prod.fst)) (bare : target.tree = .var name)
    (toBehind : behind <:+ places) (rests : state.cursor.Rests total behind) (number : NameId)
    (bindings : List (NameId × NodeId)) :
    Reports (do
        expect Rune.equals
        let side ← expression fuel
        statements fuel ((number, side) :: bindings)) state (fun _ _ => True)
      (MarksProgram total places) := by
  refine ((reports_expect rests.meets _).mono (fun _ _ passed => passed)
    fun _ marks => Or.inl (marks.mono toBehind)).bind fun _ _ ran passed => ?_
  obtain ⟨⟨afterEquals, _⟩, marked, _, faces⟩ := (follows_expect rests.meets.faces _).of_ok ran
  obtain ⟨atSide, toSide, rests, rfl⟩ := passed.exists_rests faces
  refine (((reports_expression total fuel).1 _ _ rests.meets).mono (fun _ _ passed => passed)
    fun _ marks => Or.inl (marks.mono (toSide.trans toBehind))).bind fun sideId _ ran passed => ?_
  obtain ⟨⟨side, _⟩, read, _, faces, _⟩ :=
    ((follows_expression fuel).1 _ _ rests.meets.faces).of_ok ran
  obtain ⟨later, toLater, rests, rfl⟩ := passed.exists_rests faces
  have equalsSpelled := mark?_single_sound marked
  obtain ⟨sideSpelled, sideMaximal, _⟩ := exact_phrase.sound read
  rw [← sideSpelled] at equalsSpelled
  rw [equalsSpelled] at spelled maximal
  refine (others _ _ ((number, sideId) :: bindings) rests).mono (fun _ _ => id)
    fun cause marks => ?_
  refine marks.assignment (toLater.trans (toSide.trans toBehind)) fun rest precedes => ?_
  rw [← spelled]
  exact .assignment target name bare afterEquals side maximal sideMaximal precedes

theorem reports_statements (total fuel : Nat) : StatementsReport total fuel := by
  induction fuel with
  | zero => exact fun _ _ _ _ => trivial
  | succ fuel ih =>
      intro state places bindings rests
      rw [statements]
      refine (reports_position rests _).bind fun offset _ _ found => ?_
      obtain ⟨rfl, rfl⟩ := found
      refine (((reports_expression total fuel).1 _ _ rests.meets).mono (fun _ _ passed => passed)
        fun _ => Or.inl).bind fun root _ ran passed => ?_
      obtain ⟨⟨phrase, _⟩, read, _, faces, denotes⟩ :=
        ((follows_expression fuel).1 _ _ rests.meets.faces).of_ok ran
      obtain ⟨behind, toBehind, rests, rfl⟩ := passed.exists_rests faces
      obtain ⟨spelled, maximal, stops⟩ := exact_phrase.sound read
      dsimp only at spelled maximal stops denotes
      refine (reports_atEnd rests.meets _).bind fun ended _ ran asked => ?_
      obtain ⟨_, _, toEnd, _⟩ := (follows_atEnd rests.meets.faces).of_ok ran
      obtain ⟨rfl, rests⟩ := asked
      replace denotes := denotes.mono toEnd
      by_cases ended : behind.isEmpty = true
      · rw [if_pos ended]
        exact (reports_bindAll root bindings _).bind fun _ _ _ _ => trivial
      · rw [if_neg ended]
        refine (reports_get _).bind fun found _ _ same => ?_
        obtain ⟨rfl, rfl⟩ := same
        split
        · rename_i number node
          obtain ⟨name, bare, _⟩ := denotes.var_of_node node
          exact ih.assignment spelled maximal bare toBehind rests number bindings
        · rename_i notName
          have notVar : ∀ name, phrase.tree ≠ .var name := by
            intro name bare
            rw [bare] at denotes
            obtain ⟨number, node, _⟩ := denotes
            exact notName number node
          have unparsed := unparsed_of_phrase maximal notVar (by simpa using ended) stops
          rw [spelled] at unparsed
          cases places with
          | nil =>
              obtain ⟨first, others, chars, _⟩ := phrase.exists_chars_eq_cons
              rw [chars] at spelled
              cases spelled
          | cons place after =>
              exact .fail (Or.inr ⟨[], after, place.1, place.2, rfl, rfl, unparsed, .here⟩)

end Parser

namespace SyntaxError

def FoundIn (source : String) (found : Option Char) (offset : Nat) : Prop :=
  match found with
  | some char => ∃ behind, Stands source.toList char offset behind
  | none => offset = source.utf8ByteSize

/-- What an error says about the place it names is true of the source. -/
def PointsInto (source : String) : SyntaxError → Prop
  | .unexpected error => FoundIn source error.found error.offset
  | .expressionExpected found offset => FoundIn source found offset
  | .nameExpected found offset => FoundIn source found offset
  | .unclosedGroup opening => ∃ behind, Stands source.toList '(' opening behind ∧
      closes 0 (uncommented false behind) = false ∧
      ∀ later further, opening < later → Stands source.toList '(' later further →
        closes 0 (uncommented false further) = true
  | .unparsedInput offset => ∃ char behind, Stands source.toList char offset behind ∧
      Unparsed (char :: uncommented false behind) ∧
      ∃ (blanks : Blanks) (chars : List Char),
        uncommented false source.toList = blanks.1 ++ chars ∧
        Script.Precedes (char :: uncommented false behind) chars

end SyntaxError

theorem AllClosed.closes {before after : List Char} (all : AllClosed (before ++ '(' :: after)) :
    closes 0 after = true :=
  all.of_append.1 rfl

theorem length_encode (text : String) :
    (Utf8.encode text.toList).length = text.utf8ByteSize := by
  rw [String.utf8ByteSize, ← String.utf8Encode_toList, List.utf8Encode, List.size_toByteArray]
  rfl

/-- What stands later in a text is among the characters behind what stands before it. -/
theorem Stands.exists_between {text : List Char} {char other : Char} {offset later : Nat}
    {behind further : List Char} (stands : Stands text char offset behind)
    (standsLater : Stands text other later further) (order : offset < later) :
    ∃ between, uncommented false behind = between ++ other :: uncommented false further := by
  obtain ⟨front, rfl, rfl, closed, plain⟩ := stands
  obtain ⟨laterFront, spelled, rfl, laterClosed, laterPlain⟩ := standsLater
  rcases List.append_eq_append_iff.mp spelled with
    ⟨gap, rfl, tail⟩ | ⟨gap, rfl, _⟩
  · rw [Utf8.encode_append, List.length_append] at order
    cases gap with
    | nil => exact absurd order (Nat.lt_irrefl _)
    | cons first gap =>
        obtain ⟨rfl, rfl⟩ := List.cons.inj tail
        have split : gap.append (other :: further) = gap ++ other :: further := rfl
        rw [commentAfter_append, closed, commentAfter, if_neg Bool.false_ne_true,
          decide_eq_false plain] at laterClosed
        refine ⟨uncommented false gap, ?_⟩
        rw [split, uncommented_append, laterClosed, uncommented, if_neg Bool.false_ne_true,
          if_neg laterPlain]
  · rw [Utf8.encode_append, List.length_append] at order
    omega

theorem Program.reports_program (source : String) (names : NameTable) :
    Parser.Reports (do
        Parser.scan Cursor.skipBlanks
        Parser.statements ((Feed.ofString source).length + 2) [])
      ⟨{ feed := .ofString source }, .empty, names⟩ (fun _ _ => True) fun cause =>
        ∃ (blanks : Blanks) (before places : List (Char × Nat)),
          before ++ places = placed false 0 source.toList ∧ before.map Prod.fst = blanks.1 ∧
          Parser.MarksProgram (Utf8.encode source.toList).length places cause := by
  have meets := Cursor.meets_start source
  refine (Parser.reports_skipBlanks meets _).bind fun _ _ ran passed => ?_
  obtain ⟨_, _, _, faces⟩ := (Parser.follows_skipBlanks meets.faces).of_ok ran
  obtain ⟨places, ⟨before, split⟩, rests, same⟩ := passed.exists_rests faces
  refine (Parser.reports_statements _ _ _ places [] rests).mono (fun _ _ => id)
    fun cause marks => ?_
  refine ⟨.front (uncommented false source.toList), before, places, split, ?_, marks⟩
  have chars := congrArg (List.map Prod.fst) split
  rw [List.map_append, map_placed, same, map_placed] at chars
  exact List.append_cancel_right (chars.trans List.takeWhile_append_dropWhile.symm)

theorem FoundAt.foundIn {source : String} {places : List (Char × Nat)} {found : Option Char}
    {offset : Nat} (there : FoundAt (Utf8.encode source.toList).length places found offset)
    (suffix : places <:+ placed false 0 source.toList) :
    SyntaxError.FoundIn source found offset := by
  cases found with
  | none => exact Eq.trans there (length_encode source)
  | some char =>
      obtain ⟨before, after, split⟩ := List.append_of_mem (suffix.subset there)
      obtain ⟨behind, stands, _⟩ := stands_of_placed split
      exact ⟨behind, stands⟩

/-- Each offset of a syntax error is that of what the error is about. -/
theorem Program.offsets_point_into_source {source : String} {names after : NameTable}
    {cause : SyntaxError}
    (failed : parse (.ofString source) names = (.error (.malformed cause), after)) :
    cause.PointsInto source := by
  rw [parse] at failed
  split at failed
  · cases failed
  · rename_i reached ran
    cases failed
    have reports := reports_program source names
    rw [Parser.Reports, ran] at reports
    obtain ⟨blanks, before, places, split, blank, marks⟩ := reports
    have suffix : places <:+ placed false 0 source.toList := ⟨before, split⟩
    rcases marks with inside | ⟨front, after, char, offset, rfl, rfl, unparsed, precedes⟩
    · cases cause with
      | unexpected error => exact inside.foundIn suffix
      | expressionExpected found offset => exact inside.foundIn suffix
      | nameExpected found offset => exact inside.foundIn suffix
      | unclosedGroup opening =>
          obtain ⟨front, after, rfl, stays, inner⟩ := inside
          rw [← List.append_assoc] at split
          obtain ⟨behind, stands, same⟩ := stands_of_placed split.symm
          rw [same] at stays inner
          refine ⟨behind, stands, stays, fun later further order standsLater => ?_⟩
          obtain ⟨between, spelled⟩ := stands.exists_between standsLater order
          rw [spelled] at inner
          exact inner.closes
      | unparsedInput offset => exact inside.elim
    · have chars := congrArg (List.map Prod.fst) split
      rw [List.map_append, map_placed, blank] at chars
      rw [← List.append_assoc] at split
      obtain ⟨behind, stands, same⟩ := stands_of_placed split.symm
      rw [same] at unparsed precedes
      exact ⟨char, behind, stands, unparsed, blanks, _, chars.symm, precedes⟩

/-- The parenthesis in the comment is none, and the one behind it is the innermost open one. -/
theorem Program.unclosed_group_points_into_source :
    (parse (.ofString "\\é. # (\n (a (b)") .empty).1 =
        .error (.malformed (.unclosedGroup 10)) ∧
      (SyntaxError.unclosedGroup 10).PointsInto "\\é. # (\n (a (b)" := by
  have unclosed : (parse (.ofString "\\é. # (\n (a (b)") .empty).1 =
      .error (.malformed (.unclosedGroup 10)) := by decide +kernel
  have failed : parse (.ofString "\\é. # (\n (a (b)") .empty =
      (.error (.malformed (.unclosedGroup 10)), (parse (.ofString "\\é. # (\n (a (b)") .empty).2) :=
    Prod.ext unclosed rfl
  exact ⟨unclosed, offsets_point_into_source failed⟩

end LambdaMachine
