import LambdaMachine.Proofs.Program.Completion

/-!
Errors at the end of a source. Where the parser runs out of characters, what it has passed so far
can be gone on with to a program; where it stops at a character, no source that begins like this one
is a program.
-/

namespace LambdaMachine

/-- What was wanted is missing at the end of the input, and no character is in its place. -/
def SyntaxError.AtEnd : SyntaxError → Prop
  | .unexpected error => error.found = none
  | .expressionExpected found _ => found = none
  | .nameExpected found _ => found = none
  | .unclosedGroup _ => True
  | .unparsedInput _ => False

namespace Parser

variable {α β γ : Type}

/-- When the action fails, it is for want of an end if the cause is at the end of the input, and for
good if it is not. -/
def Rejects (action : Parser α) (state : ParserState) (unfinished hopeless : Prop) : Prop :=
  ∀ error after, action state = .error error after →
    ∃ cause, error = .malformed cause ∧ (cause.AtEnd → unfinished) ∧ (¬cause.AtEnd → hopeless)

section Rules

variable {state : ParserState} {unfinished hopeless : Prop}

theorem Rejects.mono {action : Parser α} {wants fails : Prop}
    (rejects : Rejects action state wants fails) (completes : wants → unfinished)
    (refuses : fails → hopeless) : Rejects action state unfinished hopeless := by
  intro error after failed
  obtain ⟨cause, rfl, atEnd, otherwise⟩ := rejects error after failed
  exact ⟨cause, rfl, completes ∘ atEnd, refuses ∘ otherwise⟩

theorem Rejects.of_follows {action : Parser α} {found : γ} {means : γ → α → ParserState → Prop}
    (follows : Follows action state (some found) means) :
    Rejects action state unfinished hopeless := by
  intro error after failed
  obtain ⟨value, reached, ran, _⟩ := follows
  cases ran.symm.trans failed

theorem Rejects.bind {action : Parser α} {next : α → Parser β} {expected : Option γ}
    {middle : γ → α → ParserState → Prop} (follows : Follows action state expected middle)
    (first : Rejects action state unfinished hopeless)
    (second : ∀ found value between, expected = some found → state.Before between →
      middle found value between → Rejects (next value) between unfinished hopeless) :
    Rejects (action >>= next) state unfinished hopeless := by
  intro error after failed
  simp only [Bind.bind, EStateM.bind] at failed
  cases ran : action state with
  | error cause reached =>
      rw [ran] at failed
      cases failed
      exact first error after ran
  | ok value between =>
      rw [ran] at failed
      cases expected with
      | none =>
          obtain ⟨_, _, again⟩ := follows
          cases ran.symm.trans again
      | some found =>
          obtain ⟨_, _, again, before, meant⟩ := follows
          cases ran.symm.trans again
          exact second found value between rfl before meant error after failed

theorem Rejects.after {action : Parser α} {next : α → Parser β} {found : γ}
    {middle : γ → α → ParserState → Prop} (follows : Follows action state (some found) middle)
    (second : ∀ value between, state.Before between → middle found value between →
      Rejects (next value) between unfinished hopeless) :
    Rejects (action >>= next) state unfinished hopeless := by
  refine .bind follows (.of_follows follows) fun other value between same before meant => ?_
  cases same
  exact second value between before meant

theorem Rejects.fail {cause : SyntaxError} (atEnd : cause.AtEnd → unfinished)
    (otherwise : ¬cause.AtEnd → hopeless) :
    Rejects (Parser.fail cause : Parser α) state unfinished hopeless := by
  intro error after failed
  cases failed
  exact ⟨cause, rfl, atEnd, otherwise⟩

end Rules

section Leaves

variable {state : ParserState} {chars : List Char} (faces : state.cursor.Faces chars)
include faces

theorem rejects_expect (expected : List Char) :
    Rejects (expect expected) state (chars = []) (Hopeless (mark? expected) chars) := by
  have missing (absent : ∀ rune, chars.head? = some rune → ¬expected.contains rune = true) :
      ∃ cause after, expect expected state = .error (.malformed (.unexpected cause)) after ∧
        cause.found = chars.head? := by
    obtain ⟨offset, cursor, refused⟩ := faces.expectOneOf_neg absent
    unfold expect
    rw [refused]
    exact ⟨_, _, rfl, rfl⟩
  intro error after failed
  cases chars with
  | nil =>
      obtain ⟨cause, _, ran, found⟩ := missing fun _ front => by cases front
      cases ran.symm.trans failed
      exact ⟨_, rfl, fun _ => rfl, fun before => (before found).elim⟩
  | cons rune chars =>
      by_cases member : expected.contains rune = true
      · obtain ⟨cursor, passed, _⟩ := faces.expectOneOf_pos member
        unfold expect at failed
        rw [passed] at failed
        cases failed
      · obtain ⟨cause, _, ran, found⟩ := missing fun other front => by cases front; exact member
        cases ran.symm.trans failed
        refine ⟨_, rfl, fun atEnd => ?_, fun _ => hopeless_mark? member chars⟩
        cases found.symm.trans atEnd

theorem rejects_name : Rejects name state (chars = []) (Hopeless Word.read? chars) := by
  refine .after (follows_takeWhile faces Rune.isNameRune) fun text between _ found => ?_
  obtain ⟨rfl, behind⟩ := found
  by_cases empty : chars.takeWhile Rune.isNameRune = []
  · rw [if_pos (isEmpty_ofList.mpr empty)]
    refine .after (follows_peek behind) fun found _ _ looked => ?_
    obtain ⟨rfl, behind, _⟩ := looked
    refine .after (follows_position behind) fun offset _ _ _ => ?_
    cases chars with
    | nil => exact .fail (fun _ => rfl) fun before => (before rfl).elim
    | cons rune chars =>
        have refused : ¬Rune.isNameRune rune = true := fun accepted => by
          rw [List.takeWhile_cons_of_pos accepted] at empty
          cases empty
        rw [List.dropWhile_cons_of_neg refused]
        exact .fail (fun atEnd => by cases atEnd) fun _ => Word.hopeless refused chars
  · rw [if_neg (mt isEmpty_ofList.mp empty)]
    refine .after (follows_skipBlanks behind) fun _ last _ _ => ?_
    intro error after failed
    cases failed

end Leaves

theorem rejects_bindAll (root : NodeId) (bindings : List (NameId × NodeId)) (state : ParserState)
    {unfinished hopeless : Prop} : Rejects (bindAll root bindings) state unfinished hopeless := by
  induction bindings generalizing root state with
  | nil =>
      intro error after failed
      cases failed
  | cons binding bindings ih =>
      intro error after failed
      exact ih _ _ error after failed

def PhraseRejects (fuel : Nat) : Prop :=
  ∀ (state : ParserState) (chars : List Char), state.cursor.Faces chars → chars.length < fuel →
    Rejects (expression fuel) state (Phrase.Unfinished chars)
      (∀ larger, Hopeless (Phrase.read? larger) chars)

def PhrasesReject (fuel : Nat) : Prop :=
  ∀ (state : ParserState) (chars : List Char) (opening : Nat) (func : NodeId),
    state.cursor.Faces chars → chars.length + 1 < fuel →
      Rejects (arguments fuel opening func) state (Phrases.Unfinished chars)
        (∀ larger, Hopeless (Phrases.read? larger) chars)

section Productions

variable {fuel : Nat} {state : ParserState} {rune : Char} {chars : List Char}
  (front : state.cursor.Faces (rune :: chars)) (enough : chars.length < fuel)
include front enough

theorem PhraseRejects.abstraction (parts : PhraseRejects fuel)
    (isGlyph : Rune.isLambda rune = true) :
    Rejects (do
        expect Rune.lambdas
        let param ← name
        expect Rune.dot
        let body ← expression fuel
        addNode (.lambda param body)) state (Phrase.Unfinished (rune :: chars))
      (∀ larger, Hopeless (Phrase.read? larger) (rune :: chars)) := by
  have nonempty : rune :: chars ≠ [] := List.cons_ne_nil rune chars
  refine .bind (follows_expect front _) ?_ fun mark _ _ marked _ atName => ?_
  · refine (rejects_expect front _).mono (fun none => (nonempty none).elim) fun hopeless => ?_
    exact Phrase.hopeless_abstraction isGlyph fun _ => hopeless.first
  obtain ⟨afterGlyph, behindGlyph⟩ := mark
  obtain ⟨_, _, spelled⟩ := mark?_sound marked
  have glyphSettles := mark?_settles marked
  refine .bind (follows_name atName) ?_ fun word _ _ named _ atDot => ?_
  · refine (rejects_name atName).mono (fun none => ?_) fun hopeless => ?_
    · cases (none : behindGlyph = [])
      cases spelled
      rw [List.append_nil]
      exact Phrase.unfinished_without_name ⟨rune, isGlyph⟩ afterGlyph
    · exact Phrase.hopeless_abstraction isGlyph fun _ => .bind nonempty glyphSettles hopeless.first
  obtain ⟨param, behindName⟩ := word
  obtain ⟨nameSpelled, maximal⟩ := Word.read?_sound named
  have nameSettles := Word.read?_settles named
  have nameThere : behindGlyph ≠ [] := by
    rintro rfl
    cases named
  refine .bind (follows_expect atDot.1 _) ?_ fun mark _ _ dotted _ atBody => ?_
  · refine (rejects_expect atDot.1 _).mono (fun none => ?_) fun hopeless => ?_
    · cases (none : behindName = [])
      rw [List.append_nil] at nameSpelled
      subst nameSpelled
      cases spelled
      exact Phrase.unfinished_without_dot ⟨rune, isGlyph⟩ afterGlyph maximal
    · exact Phrase.hopeless_abstraction isGlyph fun _ =>
        .bind nonempty glyphSettles (.bind nameThere nameSettles hopeless.first)
  obtain ⟨afterDot, behindDot⟩ := mark
  have dotSpelled := mark?_single_sound dotted
  have dotSettles := mark?_settles dotted
  have dotThere : behindName ≠ [] := by
    rintro rfl
    cases dotted
  have shorter : behindDot.length < fuel := by
    have glyphLength := congrArg List.length spelled
    have nameLength := congrArg List.length nameSpelled
    have dotLength := congrArg List.length dotSpelled
    simp only [List.length_cons, List.length_append] at glyphLength nameLength dotLength
    omega
  refine .bind ((follows_expression fuel).1 _ _ atBody) ?_ fun body _ _ _ _ found => ?_
  · refine (parts _ _ atBody shorter).mono (fun unfinished => ?_) fun hopeless => ?_
    · dsimp only at dotSpelled nameSpelled
      subst dotSpelled nameSpelled
      cases spelled
      exact unfinished.abstraction ⟨rune, isGlyph⟩ afterGlyph maximal
    · exact Phrase.hopeless_abstraction isGlyph fun larger => .bind nonempty glyphSettles
        (.bind nameThere nameSettles (.bind dotThere dotSettles (hopeless larger).first))
  exact .of_follows (follows_addNode found.1 _)

theorem PhraseRejects.group (parts : PhraseRejects fuel) (others : PhrasesReject fuel)
    (opens : rune = '(') (opening : Nat) :
    Rejects (do
        expect Rune.openParen
        if ← scan Cursor.atEnd then fail (.unclosedGroup opening)
        else
          let func ← expression fuel
          arguments fuel opening func) state (Phrase.Unfinished (rune :: chars))
      (∀ larger, Hopeless (Phrase.read? larger) (rune :: chars)) := by
  subst opens
  have nonempty : '(' :: chars ≠ [] := List.cons_ne_nil '(' chars
  refine .bind (follows_expect front _) ?_ fun mark _ _ marked _ atFirst => ?_
  · refine (rejects_expect front _).mono (fun none => (nonempty none).elim) fun hopeless => ?_
    exact Phrase.hopeless_group fun _ => hopeless.first
  obtain ⟨afterOpening, behindOpening⟩ := mark
  have spelled := mark?_single_sound marked
  have openingSettles := mark?_settles marked
  have openingLength := congrArg List.length spelled
  refine .after (follows_atEnd atFirst) fun ended _ _ asked => ?_
  obtain ⟨rfl, atFirst⟩ := asked
  cases behindOpening with
  | nil =>
      rw [spelled]
      exact .fail (fun _ => Phrase.unfinished_nil.opening afterOpening) fun before =>
        (before trivial).elim
  | cons next rest =>
      have firstThere : next :: rest ≠ [] := List.cons_ne_nil next rest
      simp only [List.length_cons, List.length_append] at openingLength
      have shorter : (next :: rest).length < fuel := by
        rw [List.length_cons]
        omega
      refine .bind ((follows_expression fuel).1 _ _ atFirst) ?_ fun phrase id _ read _ found => ?_
      · refine (parts _ _ atFirst shorter).mono (fun unfinished => ?_) fun hopeless => ?_
        · rw [spelled]
          exact unfinished.opening afterOpening
        · exact Phrase.hopeless_group fun larger =>
            .bind nonempty openingSettles (hopeless larger).first
      obtain ⟨first, behindFirst⟩ := phrase
      obtain ⟨firstSpelled, maximal, _⟩ := exact_phrase.sound read
      dsimp only at firstSpelled
      have firstSettles := exact_phrase.settles read
      have fewer : behindFirst.length + 1 < fuel := by
        have firstLength := congrArg List.length firstSpelled
        have firstPositive := List.length_pos_of_ne_nil first.chars_ne_nil
        rw [List.length_append] at firstLength
        omega
      refine (others _ _ opening id found.1 fewer).mono (fun unfinished => ?_) fun hopeless => ?_
      · rw [spelled, ← firstSpelled]
        exact unfinished.group afterOpening maximal
      · exact Phrase.hopeless_group fun larger => .bind nonempty openingSettles
          (.bind firstThere (fun goesOn => firstSettles goesOn larger) (hopeless larger).first)

end Productions

variable {fuel : Nat}

theorem PhraseRejects.succ (parts : PhraseRejects fuel) (others : PhrasesReject fuel) :
    PhraseRejects (fuel + 1) := by
  intro state chars faces enough
  rw [expression]
  refine .after (follows_peek faces) fun found _ _ looked => ?_
  obtain ⟨rfl, faces, _⟩ := looked
  cases chars with
  | nil =>
      refine .after (follows_position faces) fun _ _ _ _ => ?_
      exact .fail (fun _ => Phrase.unfinished_nil) fun before => (before rfl).elim
  | cons rune chars =>
      replace enough := Nat.lt_of_succ_lt_succ enough
      dsimp only [List.head?_cons]
      by_cases isGlyph : Rune.isLambda rune = true
      · rw [if_pos isGlyph]
        exact parts.abstraction faces enough isGlyph
      · rw [if_neg isGlyph]
        by_cases opens : rune = '('
        · rw [if_pos opens]
          refine .after (follows_position faces) fun opening _ _ faces => ?_
          exact parts.group faces enough others opens opening
        · rw [if_neg opens]
          by_cases isNameRune : Rune.isNameRune rune = true
          · rw [if_pos isNameRune]
            refine .bind (follows_name faces) ?_ fun _ _ _ _ _ found => ?_
            · refine (rejects_name faces).mono (fun none => by cases none) fun hopeless => ?_
              exact Phrase.hopeless_word isGlyph opens hopeless
            · exact .of_follows (follows_addNode found.1 _)
          · rw [if_neg isNameRune]
            refine .after (follows_position faces) fun _ _ _ _ => ?_
            exact .fail (fun atEnd => by cases atEnd) fun _ =>
              Phrase.hopeless_word isGlyph opens (Word.hopeless isNameRune chars)

theorem PhrasesReject.succ (parts : PhraseRejects fuel) (others : PhrasesReject fuel) :
    PhrasesReject (fuel + 1) := by
  intro state chars opening func faces enough
  replace enough := Nat.lt_of_succ_lt_succ enough
  rw [arguments]
  refine .after (follows_peek faces) fun found _ _ looked => ?_
  obtain ⟨rfl, faces, advanced⟩ := looked
  cases chars with
  | nil => exact .fail (fun _ => Phrases.unfinished_nil) fun before => (before trivial).elim
  | cons rune chars =>
      have nonempty : rune :: chars ≠ [] := List.cons_ne_nil rune chars
      dsimp only [List.head?_cons]
      by_cases closes : rune = ')'
      · rw [if_pos closes]
        refine .after (follows_advance advanced) fun _ _ _ faces => ?_
        refine .after (follows_skipBlanks faces) fun _ _ _ _ => ?_
        intro error after failed
        cases failed
      · rw [if_neg closes]
        refine .bind ((follows_expression fuel).1 _ _ faces) ?_ fun phrase arg _ read _ found => ?_
        · refine (parts _ _ faces enough).mono Phrase.Unfinished.last fun hopeless => ?_
          exact Phrases.hopeless_next closes fun larger => (hopeless larger).first
        obtain ⟨phrase, behind⟩ := phrase
        obtain ⟨spelled, maximal, _⟩ := exact_phrase.sound read
        have settles := exact_phrase.settles read
        have fewer : behind.length + 1 < fuel := by
          have phraseLength := congrArg List.length spelled
          have positive := List.length_pos_of_ne_nil phrase.chars_ne_nil
          rw [List.length_append] at phraseLength
          omega
        refine .after (follows_addNode found.1 _) fun applied _ _ added => ?_
        refine (others _ _ opening applied added.1 fewer).mono (fun unfinished => ?_)
          fun hopeless => ?_
        · rw [← spelled]
          exact unfinished.next maximal
        · exact Phrases.hopeless_next closes fun larger =>
            .bind nonempty (fun goesOn => settles goesOn larger) (hopeless larger).first

theorem rejects_expression (fuel : Nat) : PhraseRejects fuel ∧ PhrasesReject fuel := by
  induction fuel with
  | zero =>
      exact ⟨fun _ _ _ enough => (Nat.not_lt_zero _ enough).elim,
        fun _ _ _ _ _ enough => (Nat.not_lt_zero _ enough).elim⟩
  | succ fuel ih => exact ⟨ih.1.succ ih.2, .succ ih.1 ih.2⟩

section Statements

variable {fuel : Nat} {state : ParserState} {chars : List Char}

def ScriptRejects (fuel : Nat) : Prop :=
  ∀ (state : ParserState) (chars : List Char) (bindings : List (NameId × NodeId)),
    state.cursor.Faces chars → chars.length + 1 < fuel →
      Rejects (statements fuel bindings) state (Script.Unfinished chars)
        (∀ larger, Hopeless (Script.read? larger) chars)

/-- From the target on, which is read and is a mere name. -/
theorem ScriptRejects.assignment (later : ScriptRejects fuel) {target : Phrase} {name : String}
    {behind : List Char} (front : Phrase.read? fuel chars = some (target, behind))
    (bare : target.tree = .var name) (goesOn : behind ≠ []) (enough : chars.length < fuel)
    (faces : state.cursor.Faces behind) (number : NameId) (bindings : List (NameId × NodeId)) :
    Rejects (do
        expect Rune.equals
        let side ← expression fuel
        statements fuel ((number, side) :: bindings)) state (Script.Unfinished chars)
      (∀ larger, Hopeless (Script.read? larger) chars) := by
  obtain ⟨spelled, maximal, _⟩ := exact_phrase.sound front
  have hopeless := Script.hopeless_assignment front goesOn bare
  refine .bind (follows_expect faces _) ?_ fun mark _ _ marked _ atSide => ?_
  · exact (rejects_expect faces _).mono (fun none => (goesOn none).elim) fun refused =>
      hopeless fun _ => refused.first
  obtain ⟨afterEquals, behindEquals⟩ := mark
  have markSpelled := mark?_single_sound marked
  have markSettles := mark?_settles marked
  have shorter : behindEquals.length < fuel := by
    have targetLength := congrArg List.length spelled
    have markLength := congrArg List.length markSpelled
    simp only [List.length_cons, List.length_append] at targetLength markLength
    omega
  rw [markSpelled] at spelled maximal
  refine .bind ((follows_expression fuel).1 _ _ atSide) ?_ fun phrase sideId _ read _ found => ?_
  · refine ((rejects_expression fuel).1 _ _ atSide shorter).mono
      (fun unfinished => ?_) fun refused => ?_
    · rw [← spelled]
      exact unfinished.side bare afterEquals maximal
    · exact hopeless fun larger => .bind goesOn markSettles (refused larger).first
  obtain ⟨side, behindSide⟩ := phrase
  obtain ⟨sideSpelled, sideMaximal, _⟩ := exact_phrase.sound read
  have sideSettles := exact_phrase.settles read
  dsimp only at sideSpelled
  subst sideSpelled
  have sideThere := Phrase.ne_nil_of_read? read
  have fewer : behindSide.length + 1 < fuel := by
    have positive := List.length_pos_of_ne_nil side.chars_ne_nil
    rw [List.length_append] at shorter
    omega
  refine (later _ _ ((number, sideId) :: bindings) found.1 fewer).mono (fun unfinished => ?_)
    fun refused => ?_
  · rw [← spelled]
    exact unfinished.assignment bare afterEquals maximal sideMaximal
  · exact hopeless fun larger => .bind goesOn markSettles
      (.bind sideThere (fun further => sideSettles further larger) (refused larger).first)

theorem rejects_statements (fuel : Nat) : ScriptRejects fuel := by
  induction fuel with
  | zero => exact fun _ _ _ _ enough => (Nat.not_lt_zero _ enough).elim
  | succ fuel ih =>
      intro state chars bindings faces enough
      replace enough := Nat.lt_of_succ_lt_succ enough
      rw [statements]
      refine .after (follows_position faces) fun offset _ _ faces => ?_
      refine .bind ((follows_expression fuel).1 _ _ faces) ?_ fun phrase id _ read _ found => ?_
      · exact ((rejects_expression fuel).1 _ _ faces enough).mono Phrase.Unfinished.body
          Script.hopeless_front
      obtain ⟨target, behind⟩ := phrase
      obtain ⟨faces, denotes⟩ := found
      refine .after (follows_atEnd faces) fun ended _ toEnd asked => ?_
      obtain ⟨rfl, faces⟩ := asked
      replace denotes := denotes.mono toEnd
      by_cases ended : behind.head?.isNone = true
      · rw [if_pos ended]
        intro error after failed
        simp only [Bind.bind, EStateM.bind] at failed
        split at failed
        · cases failed
        · rename_i bound
          cases failed
          exact rejects_bindAll id bindings _ _ _ bound
      · rw [if_neg ended]
        have goesOn : behind ≠ [] := by
          rintro rfl
          exact ended rfl
        refine .after (follows_get faces) fun found _ toFound got => ?_
        obtain ⟨rfl, faces⟩ := got
        replace denotes := denotes.mono toFound
        split
        · rename_i number node
          obtain ⟨text, bare, _⟩ := denotes.var_of_node node
          exact ih.assignment read bare goesOn enough faces number bindings
        · rename_i notName
          refine .fail False.elim fun _ => Script.hopeless_unparsed read goesOn fun name bare => ?_
          rw [bare] at denotes
          obtain ⟨number, node, _⟩ := denotes
          exact notName number node

end Statements

end Parser

namespace Program

theorem rejects_program (source : String) (names : NameTable) :
    Parser.Rejects (do
        Parser.scan Cursor.skipBlanks
        Parser.statements ((Feed.ofString source).length + 2) [])
      ⟨{ feed := .ofString source }, .empty, names⟩
      (Script.Unfinished (front source))
      (∀ larger, Hopeless (Script.read? larger) (front source)) := by
  refine .after (Parser.follows_skipBlanks (Cursor.faces_start source)) fun _ _ _ faces => ?_
  refine Parser.rejects_statements _ _ _ [] faces ?_
  exact Nat.succ_lt_succ (Nat.lt_succ_of_le (length_front_le source))

theorem front_append {source : String} {chars : List Char} (more : String)
    (added : uncommented (commentAfter false source.toList) more.toList = chars)
    (stops : Cursor.Stops Rune.isBlank (front source ++ chars)) :
    front (source ++ more) = front source ++ chars := by
  have blanks := @List.takeWhile_append_dropWhile _ Rune.isBlank (uncommented false source.toList)
  rw [front, String.toList_append, uncommented_append, added]
  conv => lhs; rw [← blanks]
  rw [List.append_assoc]
  exact dropWhile_append_of_stops (fun _ among => List.mem_takeWhile_imp among) stops

def resumption (source : String) : List Char :=
  if commentAfter false source.toList then ['\n'] else []

theorem uncommented_resumption (source : String) {chars : List Char}
    (plain : Rune.comment ∉ chars) :
    uncommented (commentAfter false source.toList) (resumption source ++ chars) = chars := by
  unfold resumption
  cases commentAfter false source.toList with
  | false => exact uncommented_of_plain plain
  | true => exact uncommented_of_plain plain

theorem exists_parse_of_unfinished {source : String}
    (unfinished : Script.Unfinished (front source)) (names : NameTable) :
    ∃ more program after, parse (.ofString (source ++ more)) names = (.ok program, after) := by
  obtain ⟨added, script, completes, maximal⟩ := unfinished
  have stops := script.stops
  rw [completes.spelled] at stops
  have chars := front_append (String.ofList (resumption source ++ added))
    ((congrArg _ String.toList_ofList).trans (uncommented_resumption source completes.plain)) stops
  rw [← completes.spelled] at chars
  refine ⟨String.ofList (resumption source ++ added),
    (exists_parse_iff _ names).mpr ⟨script, ?_⟩⟩
  have enough := length_front_le (source ++ String.ofList (resumption source ++ added))
  rw [chars] at enough ⊢
  exact Script.read?_chars (Nat.lt_succ_of_le (Nat.le_succ_of_le enough)) maximal

theorem not_parse_of_hopeless {source : String}
    (hopeless : ∀ larger, Hopeless (Script.read? larger) (front source)) (more : String)
    (names : NameTable) :
    ¬∃ program after, parse (.ofString (source ++ more)) names = (.ok program, after) := by
  rw [exists_parse_iff]
  rintro ⟨script, read⟩
  have stops := (stops_dropWhile Rune.isBlank (uncommented false source.toList)).append
    (hopeless 0).1 (uncommented (commentAfter false source.toList) more.toList)
  rw [front_append more rfl stops, (hopeless _).2] at read
  cases read

/-- A text that is no program has a syntax error. The error is at the end of the input exactly if
some text behind this one makes a program of both together. -/
theorem atEnd_iff_exists_parse_append (source : String) {names after : NameTable}
    {error : ParseError} (failed : parse (.ofString source) names = (.error error, after))
    (others : NameTable) :
    ∃ cause, error = .malformed cause ∧ (cause.AtEnd ↔ ∃ more program later,
      parse (.ofString (source ++ more)) others = (.ok program, later)) := by
  rw [parse] at failed
  split at failed
  · cases failed
  · rename_i reached ran
    cases failed
    obtain ⟨cause, rfl, atEnd, otherwise⟩ := rejects_program source names error reached ran
    refine ⟨cause, rfl, fun ended => exists_parse_of_unfinished (atEnd ended) others, ?_⟩
    rintro ⟨more, parsed⟩
    by_contra before
    exact not_parse_of_hopeless (otherwise before) more others parsed

theorem open_comment_goes_on :
    (∃ more program later,
      parse (.ofString ("(x # c" ++ more)) .empty = (.ok program, later)) ∧
    ¬∃ more program later, parse (.ofString ("\\x = y" ++ more)) .empty = (.ok program, later) := by
  have unclosed : parse (.ofString "(x # c") .empty =
      (.error (.malformed (.unclosedGroup 0)), (parse (.ofString "(x # c") .empty).2) :=
    Prod.ext (by decide +kernel) rfl
  have misplaced : parse (.ofString "\\x = y") .empty =
      (.error (.malformed (.unexpected ⟨Rune.dot, some '=', 3⟩)),
        (parse (.ofString "\\x = y") .empty).2) :=
    Prod.ext (by decide +kernel) rfl
  obtain ⟨_, same, goesOn⟩ := atEnd_iff_exists_parse_append _ unclosed .empty
  obtain ⟨_, other, refused⟩ := atEnd_iff_exists_parse_append _ misplaced .empty
  cases same
  cases other
  exact ⟨goesOn.mp trivial, fun found => by cases refused.mpr found⟩

end Program

end LambdaMachine
