import LambdaMachine.Proofs.Program.Grammar
import LambdaMachine.Proofs.Program.RoundTrip
import LambdaMachine.Proofs.Source.Spelling
import LambdaMachine.Proofs.Term.Spelled

/-!
The parser against the grammar. On every source each production succeeds where the reader of the
grammar does, with the same characters left, and fails where it fails; so what the parser accepts is
what has a derivation once the comments are taken out.
-/

namespace LambdaMachine

theorem ParserState.Denotes.var_of_node {state : ParserState} {id : NodeId} {tree : Tree String}
    {name : NameId} (denotes : state.Denotes id tree)
    (node : state.arena.node? id = some (.var name)) :
    ∃ text, tree = .var text ∧ state.names.numbers[text]? = some name := by
  cases tree with
  | var text =>
      obtain ⟨number, found, known⟩ := denotes
      cases node.symm.trans found
      exact ⟨text, rfl, known⟩
  | lambda text tree =>
      obtain ⟨_, _, found, _⟩ := denotes
      cases node.symm.trans found
  | apply left right =>
      obtain ⟨_, _, found, _⟩ := denotes
      cases node.symm.trans found

theorem ParserState.Denotes.spells {state : ParserState} {id : NodeId} {tree : Tree String}
    (denotes : state.Denotes id tree) : state.arena.Spells state.names id tree := by
  induction tree generalizing id with
  | var text => exact denotes
  | lambda text tree ih =>
      obtain ⟨name, body, node, known, bodyDenotes⟩ := denotes
      exact ⟨name, body, node, known, ih bodyDenotes⟩
  | apply left right leftIh rightIh =>
      obtain ⟨func, arg, node, funcDenotes, argDenotes⟩ := denotes
      exact ⟨func, arg, node, leftIh funcDenotes, rightIh argDenotes⟩

theorem isEmpty_ofList {chars : List Char} :
    (String.ofList chars).isEmpty = true ↔ chars = [] := by
  rw [String.isEmpty_iff, ← String.toList_eq_nil_iff, String.toList_ofList]

namespace Parser

variable {α β γ δ : Type}

def Follows (action : Parser α) (state : ParserState) (expected : Option γ)
    (means : γ → α → ParserState → Prop) : Prop :=
  match expected with
  | some found =>
      ∃ value after, action state = .ok value after ∧ state.Before after ∧ means found value after
  | none => ∃ error after, action state = .error error after

theorem Follows.bind_ok {action : Parser α} {next : α → Parser β} {state between : ParserState}
    {value : α} {expected : Option γ} {means : γ → β → ParserState → Prop}
    (ran : action state = .ok value between) (before : state.Before between)
    (rest : Follows (next value) between expected means) :
    Follows (action >>= next) state expected means := by
  unfold Follows at rest ⊢
  simp only [Bind.bind, EStateM.bind, ran]
  cases expected with
  | none => exact rest
  | some found =>
      obtain ⟨result, after, ranNext, toAfter, meant⟩ := rest
      exact ⟨result, after, ranNext, before.trans toAfter, meant⟩

theorem Follows.bind {action : Parser α} {next : α → Parser β} {state : ParserState}
    {expected : Option γ} {further : γ → Option δ} {middle : γ → α → ParserState → Prop}
    {means : δ → β → ParserState → Prop} (first : Follows action state expected middle)
    (second : ∀ found value between, state.Before between → middle found value between →
      Follows (next value) between (further found) means) :
    Follows (action >>= next) state (expected >>= further) means := by
  cases expected with
  | none =>
      obtain ⟨error, after, ran⟩ := first
      refine ⟨error, after, ?_⟩
      simp only [Bind.bind, EStateM.bind, ran]
  | some found =>
      obtain ⟨value, between, ran, before, meant⟩ := first
      exact .bind_ok ran before (second found value between before meant)

/-- The first action succeeds whatever is expected of both together. -/
theorem Follows.after {action : Parser α} {next : α → Parser β} {state : ParserState} {found : γ}
    {expected : Option δ} {middle : γ → α → ParserState → Prop} {means : δ → β → ParserState → Prop}
    (first : Follows action state (some found) middle)
    (second : ∀ value between, state.Before between → middle found value between →
      Follows (next value) between expected means) :
    Follows (action >>= next) state expected means := by
  obtain ⟨value, between, ran, before, meant⟩ := first
  exact .bind_ok ran before (second value between before meant)

theorem Follows.map {action : Parser α} {state : ParserState} {expected : Option γ}
    {further : γ → δ} {middle : γ → α → ParserState → Prop} {means : δ → α → ParserState → Prop}
    (follows : Follows action state expected middle)
    (implies : ∀ found value after, middle found value after → means (further found) value after) :
    Follows action state (expected >>= fun found => some (further found)) means := by
  cases expected with
  | none => exact follows
  | some found =>
      obtain ⟨value, after, ran, before, meant⟩ := follows
      exact ⟨value, after, ran, before, implies found value after meant⟩

theorem Follows.mono {action : Parser α} {state : ParserState} {expected : Option γ}
    {means weaker : γ → α → ParserState → Prop} (follows : Follows action state expected means)
    (implies : ∀ found value after, means found value after → weaker found value after) :
    Follows action state expected weaker := by
  cases expected with
  | none => exact follows
  | some found =>
      obtain ⟨value, after, ran, before, meant⟩ := follows
      exact ⟨value, after, ran, before, implies found value after meant⟩

/-- What else is true whenever the action succeeds. -/
theorem Follows.and {action : Parser α} {state : ParserState} {expected : Option γ}
    {means : γ → α → ParserState → Prop} {also : α → ParserState → Prop}
    (follows : Follows action state expected means)
    (holds : ∀ value after, action state = .ok value after → also value after) :
    Follows action state expected fun found value after => means found value after ∧
      also value after := by
  cases expected with
  | none => exact follows
  | some found =>
      obtain ⟨value, after, ran, before, meant⟩ := follows
      exact ⟨value, after, ran, before, meant, holds value after ran⟩

theorem Follows.pure {state : ParserState} {found : γ} {means : γ → α → ParserState → Prop}
    {value : α} (meant : means found value state) :
    Follows (Pure.pure value) state (some found) means :=
  ⟨value, state, rfl, ⟨.refl, .refl _⟩, meant⟩

theorem Follows.fail {state : ParserState} {means : γ → α → ParserState → Prop}
    (error : SyntaxError) : Follows (Parser.fail error) state none means :=
  ⟨_, state, rfl⟩

theorem scan_keeps {action : Scan α} {state after : ParserState} {value : α}
    (ran : scan action state = .ok value after) :
    after.names = state.names ∧ after.arena = state.arena := by
  unfold scan at ran
  split at ran
  · cases ran
    exact ⟨rfl, rfl⟩
  · cases ran

theorem expect_keeps {expected : List Char} {state after : ParserState} {value : Unit}
    (ran : expect expected state = .ok value after) :
    after.names = state.names ∧ after.arena = state.arena := by
  unfold expect at ran
  split at ran
  · cases ran
    exact ⟨rfl, rfl⟩
  · cases ran
  · cases ran

theorem position_keeps {state after : ParserState} {value : Nat}
    (ran : position state = .ok value after) : after = state := by
  cases ran
  rfl

theorem get_keeps {state after found : ParserState}
    (ran : (get : Parser ParserState) state = .ok found after) : after = state := by
  cases ran
  rfl

theorem advance_keeps {state after : ParserState} {value : Unit}
    (ran : advance state = .ok value after) :
    after.names = state.names ∧ after.arena = state.arena := by
  cases ran
  exact ⟨rfl, rfl⟩

section Characters

variable {state : ParserState} {chars : List Char} (faces : state.cursor.Faces chars)
include faces

theorem follows_peek :
    Follows (scan Cursor.peek) state (some chars.head?) fun front found after => found = front ∧
      after.cursor.Faces chars ∧ after.cursor.advance.Faces chars.tail := by
  obtain ⟨cursor, peeked, kept, advanced⟩ := faces.peek
  refine ⟨_, { state with cursor }, ?_, ⟨.refl, .refl _⟩, rfl, kept, advanced⟩
  simp only [scan, peeked]

theorem follows_position :
    Follows position state (some ()) fun _ _ after => after.cursor.Faces chars :=
  ⟨_, state, rfl, ⟨.refl, .refl _⟩, faces⟩

theorem follows_get :
    Follows get state (some ()) fun _ found after => found = after ∧ after.cursor.Faces chars :=
  ⟨state, state, rfl, ⟨.refl, .refl _⟩, rfl, faces⟩

theorem follows_atEnd :
    Follows (scan Cursor.atEnd) state (some ()) fun _ ended after =>
      ended = chars.head?.isNone ∧ after.cursor.Faces chars := by
  obtain ⟨cursor, asked, kept⟩ := faces.atEnd
  refine ⟨_, { state with cursor }, ?_, ⟨.refl, .refl _⟩, rfl, kept⟩
  simp only [scan, asked]

theorem follows_skipBlanks :
    Follows (scan Cursor.skipBlanks) state (some ()) fun _ _ after =>
      after.cursor.Faces (chars.dropWhile Rune.isBlank) := by
  obtain ⟨cursor, skipped, kept⟩ := faces.skipBlanks
  refine ⟨(), { state with cursor }, ?_, ⟨.refl, .refl _⟩, kept⟩
  simp only [scan, skipped]

theorem follows_addNode (node : Node) :
    Follows (addNode node) state (some ()) fun _ id after =>
      after.cursor.Faces chars ∧ after.arena.node? id = some node :=
  ⟨_, _, rfl, ⟨.refl, state.arena.extends_add node⟩, faces, state.arena.node?_add_size node⟩

theorem follows_expect (expected : List Char) :
    Follows (expect expected) state (mark? expected chars) fun read _ after =>
      after.cursor.Faces read.2 := by
  have missing (absent : ∀ rune, chars.head? = some rune → ¬expected.contains rune = true) :
      ∃ error after, expect expected state = .error error after := by
    obtain ⟨offset, cursor, refused⟩ := faces.expectOneOf_neg absent
    unfold expect
    rw [refused]
    exact ⟨_, _, rfl⟩
  cases chars with
  | nil => exact missing fun _ front => by cases front
  | cons rune chars =>
      rw [mark?]
      by_cases member : expected.contains rune = true
      · obtain ⟨cursor, passed, kept⟩ := faces.expectOneOf_pos member
        rw [if_pos member]
        refine ⟨(), { state with cursor }, ?_, ⟨.refl, .refl _⟩, kept⟩
        simp only [expect, passed]
      · rw [if_neg member]
        exact missing fun other front => by cases front; exact member

theorem follows_takeWhile (accepts : Char → Bool) :
    Follows (scan (Cursor.takeWhile accepts)) state (some ()) fun _ text after =>
      text = String.ofList (chars.takeWhile accepts) ∧
        after.cursor.Faces (chars.dropWhile accepts) := by
  obtain ⟨cursor, taken, kept⟩ := @Cursor.Faces.takeWhile accepts _ _ faces
  refine ⟨_, { state with cursor }, ?_, ⟨.refl, .refl _⟩, rfl, kept⟩
  simp only [scan, taken]

theorem follows_word :
    Follows name state (Word.read? chars) fun read number after =>
      after.cursor.Faces read.2 ∧ (number, after.names) = state.names.intern read.1.text ∧
        after.arena = state.arena := by
  have taking := (follows_takeWhile faces Rune.isNameRune).and fun _ _ => scan_keeps
  refine taking.after fun text between _ found => ?_
  obtain ⟨⟨rfl, faces⟩, names, arena⟩ := found
  unfold Word.read?
  dsimp only
  by_cases empty : chars.takeWhile Rune.isNameRune = []
  · rw [if_pos (isEmpty_ofList.mpr empty), dif_neg (not_not.mpr empty)]
    refine (follows_peek faces).after fun _ _ _ found => ?_
    exact (follows_position found.2.1).after fun _ _ _ _ => .fail _
  · rw [if_neg (mt isEmpty_ofList.mp empty), dif_pos empty]
    have skipping := (follows_skipBlanks faces).and fun _ _ => scan_keeps
    refine skipping.after fun _ between _ found => ?_
    obtain ⟨faces, namesThere, arenaThere⟩ := found
    refine ⟨_, _, rfl, ⟨.intern .refl _, .refl _⟩, faces, ?_, arenaThere.trans arena⟩
    rw [← names, ← namesThere]
    rfl

theorem follows_name :
    Follows name state (Word.read? chars) fun read number after =>
      after.cursor.Faces read.2 ∧ after.names.numbers[read.1.text]? = some number := by
  refine (follows_word faces).mono fun read number after found => ?_
  obtain ⟨numbered, table⟩ := Prod.mk.inj found.2.1
  rw [numbered, table]
  exact ⟨found.1, state.names.numbers_intern read.1.text⟩

end Characters

theorem follows_advance {state : ParserState} {chars : List Char}
    (advanced : state.cursor.advance.Faces chars) :
    Follows advance state (some ()) fun _ _ after => after.cursor.Faces chars :=
  ⟨(), _, rfl, ⟨.refl, .refl _⟩, advanced⟩

end Parser

theorem Word.read?_eq_none {rune : Char} (refused : ¬Rune.isNameRune rune = true)
    (rest : List Char) : Word.read? (rune :: rest) = none := by
  unfold Word.read?
  dsimp only
  rw [dif_neg]
  rw [List.takeWhile_cons_of_neg refused]
  exact not_not.mpr rfl

theorem Phrase.read?_nil (fuel : Nat) : Phrase.read? fuel [] = none := by
  cases fuel with
  | zero => rfl
  | succ fuel => rfl

namespace Parser

def PhraseFollows (fuel : Nat) : Prop :=
  ∀ (state : ParserState) (chars : List Char), state.cursor.Faces chars →
    Follows (expression fuel) state (Phrase.read? fuel chars) fun read id after =>
      after.cursor.Faces read.2 ∧ after.Denotes id read.1.tree

def PhrasesFollow (fuel : Nat) : Prop :=
  ∀ (state : ParserState) (chars : List Char) (opening : Nat) (func : NodeId)
    (tree : Tree String), state.cursor.Faces chars → state.Denotes func tree →
      Follows (arguments fuel opening func) state (Phrases.read? fuel chars) fun read id after =>
        after.cursor.Faces read.2 ∧ after.Denotes id (read.1.applied tree)

theorem PhraseFollows.succ {fuel : Nat} (parts : PhraseFollows fuel) (others : PhrasesFollow fuel) :
    PhraseFollows (fuel + 1) := by
  intro state chars faces
  rw [expression]
  refine (follows_peek faces).after fun found _ _ looked => ?_
  obtain ⟨rfl, faces, _⟩ := looked
  cases chars with
  | nil => exact (follows_position faces).after fun _ _ _ _ => .fail _
  | cons rune chars =>
      rw [Phrase.read?]
      dsimp only [List.head?_cons]
      by_cases isGlyph : Rune.isLambda rune = true
      · rw [if_pos isGlyph, dif_pos isGlyph]
        refine (follows_expect faces _).bind fun read _ _ _ faces => ?_
        refine (follows_name faces).bind fun read number _ _ found => ?_
        obtain ⟨faces, known⟩ := found
        refine (follows_expect faces _).bind fun read _ _ toDot faces => ?_
        refine (parts _ _ faces).bind fun read id _ toBody found => ?_
        obtain ⟨faces, denotes⟩ := found
        have added := follows_addNode faces (.lambda number id)
        obtain ⟨outer, after, ran, before, faces, node⟩ := added
        refine ⟨outer, after, ran, before, faces, number, id, node, ?_, denotes.mono before⟩
        exact (toDot.trans (toBody.trans before)).names.extends _ _ known
      · rw [if_neg isGlyph, dif_neg isGlyph]
        by_cases opens : rune = '('
        · rw [if_pos opens, if_pos opens]
          refine (follows_position faces).after fun opening _ _ faces => ?_
          refine (follows_expect faces _).bind fun read _ _ _ faces => ?_
          refine (follows_atEnd faces).after fun ended _ _ asked => ?_
          obtain ⟨rfl, faces⟩ := asked
          obtain ⟨afterOpening, rest⟩ := read
          -- the parser asks for the end by itself, to report the group as unclosed
          cases rest with
          | nil =>
              rw [Phrase.read?_nil]
              exact .fail _
          | cons next rest =>
              refine (parts _ _ faces).bind fun read id _ _ found => ?_
              exact (others _ _ opening id _ found.1 found.2).map fun _ _ _ found => found
        · rw [if_neg opens, if_neg opens]
          by_cases isNameRune : Rune.isNameRune rune = true
          · rw [if_pos isNameRune]
            refine (follows_name faces).bind fun read number _ _ found => ?_
            obtain ⟨faces, known⟩ := found
            obtain ⟨id, after, ran, before, faces, node⟩ := follows_addNode faces (.var number)
            exact ⟨id, after, ran, before, faces, number, node, before.names.extends _ _ known⟩
          · rw [if_neg isNameRune, Word.read?_eq_none isNameRune]
            exact (follows_position faces).after fun _ _ _ _ => .fail _

theorem PhrasesFollow.succ {fuel : Nat} (parts : PhraseFollows fuel) (others : PhrasesFollow fuel) :
    PhrasesFollow (fuel + 1) := by
  intro state chars opening func tree faces denotes
  rw [arguments]
  refine (follows_peek faces).after fun found _ toFront looked => ?_
  obtain ⟨rfl, faces, advanced⟩ := looked
  replace denotes := denotes.mono toFront
  cases chars with
  | nil => exact .fail _
  | cons rune chars =>
      rw [Phrases.read?]
      dsimp only [List.head?_cons]
      by_cases closes : rune = ')'
      · rw [if_pos closes, if_pos closes]
        refine (follows_advance advanced).after fun _ _ toNext faces => ?_
        refine (follows_skipBlanks faces).after fun _ _ toEnd faces => ?_
        exact .pure ⟨faces, (denotes.mono toNext).mono toEnd⟩
      · rw [if_neg closes, if_neg closes]
        refine (parts _ _ faces).bind fun read arg _ toArg found => ?_
        obtain ⟨faces, argDenotes⟩ := found
        refine (follows_addNode faces (.apply func arg)).after fun applied after toNode found => ?_
        have appliedDenotes : after.Denotes applied (.apply tree read.1.tree) :=
          ⟨func, arg, found.2, denotes.mono (toArg.trans toNode), argDenotes.mono toNode⟩
        exact (others _ _ opening applied _ found.1 appliedDenotes).map fun _ _ _ found => found

theorem follows_expression (fuel : Nat) : PhraseFollows fuel ∧ PhrasesFollow fuel := by
  induction fuel with
  | zero => exact ⟨fun state _ _ => ⟨_, state, rfl⟩, fun state _ _ _ _ _ _ => ⟨_, state, rfl⟩⟩
  | succ fuel ih => exact ⟨ih.1.succ ih.2, .succ ih.1 ih.2⟩

theorem follows_statements (fuel : Nat) {state : ParserState} {chars : List Char}
    {bindings : List (NameId × NodeId)} {read : List (String × Tree String)}
    (faces : state.cursor.Faces chars) (binds : state.Binds bindings read) :
    Follows (statements fuel bindings) state (Script.read? fuel chars) fun script result after =>
      after.Denotes result.1 (script.tree.wrap read.reverse) ∧
        result.2 = script.assignments + read.length := by
  induction fuel generalizing state chars bindings read with
  | zero => exact ⟨_, state, rfl⟩
  | succ fuel ih =>
      rw [statements, Script.read?]
      refine (follows_position faces).after fun offset _ toStart faces => ?_
      refine ((follows_expression fuel).1 _ _ faces).bind fun phrase id _ toId found => ?_
      obtain ⟨faces, denotes⟩ := found
      refine (follows_atEnd faces).after fun ended _ toEnd asked => ?_
      obtain ⟨rfl, faces⟩ := asked
      replace denotes := denotes.mono toEnd
      replace binds := binds.mono (toStart.trans (toId.trans toEnd))
      dsimp only
      by_cases ended : phrase.2.head?.isNone = true
      · rw [if_pos ended, if_pos ended]
        obtain ⟨root, after, ran, before, _, found⟩ := bindAll_eq_ok denotes binds
        have bound : Follows (bindAll id bindings) _ (some ()) fun _ root after =>
            after.Denotes root (phrase.1.tree.wrap read.reverse) :=
          ⟨root, after, ran, before, found⟩
        refine bound.after fun root _ _ found => .pure ⟨found, ?_⟩
        rw [binds.length_eq, Script.assignments, Nat.zero_add]
      · rw [if_neg ended, if_neg ended]
        refine (follows_get faces).after fun found between toFound got => ?_
        obtain ⟨rfl, faces⟩ := got
        replace denotes := denotes.mono toFound
        -- the parser looks at the node it has built, the reader at the tree
        split
        · rename_i number node
          obtain ⟨text, shape, known⟩ := denotes.var_of_node node
          split
          · rename_i name bare
            cases shape.symm.trans bare
            refine (follows_expect faces _).bind fun mark _ _ toEquals faces => ?_
            refine ((follows_expression fuel).1 _ _ faces).bind
              fun side sideId _ toSide found => ?_
            obtain ⟨faces, sideDenotes⟩ := found
            have before := toEquals.trans toSide
            have more : ParserState.Binds _ ((number, sideId) :: bindings)
                ((text, side.1.tree) :: read) :=
              .cons ⟨before.names.extends _ _ known, sideDenotes⟩
                (binds.mono (toFound.trans before))
            refine (ih faces more).map
              fun script result after found => ?_
            obtain ⟨denotes, count⟩ := found
            rw [List.reverse_cons, Tree.wrap_append] at denotes
            refine ⟨denotes, ?_⟩
            rw [count, List.length_cons, Script.assignments]
            omega
          · rename_i other
            exact (other text shape).elim
        · rename_i notName
          split
          · rename_i name bare
            rw [bare] at denotes
            obtain ⟨number, node, _⟩ := denotes
            exact (notName number node).elim
          · exact .fail _

end Parser

namespace Program

theorem follows_program (source : String) (names : NameTable) :
    Parser.Follows (do
        Parser.scan Cursor.skipBlanks
        Parser.statements ((Feed.ofString source).length + 2) [])
      ⟨{ feed := .ofString source }, .empty, names⟩
      (Script.read? ((Feed.ofString source).length + 2)
        ((uncommented false source.toList).dropWhile Rune.isBlank))
      fun script result after => after.Denotes result.1 script.tree ∧
        result.2 = script.assignments := by
  refine (Parser.follows_skipBlanks (Cursor.faces_start source)).after fun _ _ _ faces => ?_
  exact Parser.follows_statements _ faces .nil

def front (source : String) : List Char :=
  (uncommented false source.toList).dropWhile Rune.isBlank

theorem length_front_le (source : String) :
    (front source).length ≤ (Feed.ofString source).length := by
  have blanks := List.length_dropWhile_le Rune.isBlank (uncommented false source.toList)
  have comments := length_uncommented_le false source.toList
  have events := Feed.length_le_length_ofChars source.toList
  rw [Feed.ofString_eq_ofChars, front]
  omega

/-- What is read off the characters is what the program spells, whatever the table of names. -/
theorem exists_parse_of_read? {source : String} {script : Script}
    (read : Script.read? ((Feed.ofString source).length + 2) (front source) = some script)
    (names : NameTable) :
    ∃ program after, parse (.ofString source) names = (.ok program, after) ∧
      program.arena.Spells after program.root script.tree ∧
      program.assignments = script.assignments := by
  have follows := follows_program source names
  unfold front at read
  rw [read] at follows
  obtain ⟨⟨root, count⟩, reached, ran, _, denotes, same⟩ := follows
  refine ⟨⟨reached.arena, root, count⟩, reached.names, ?_, denotes.spells, same⟩
  rw [parse, ran]

theorem exists_parse_iff (source : String) (names : NameTable) :
    (∃ program after, parse (.ofString source) names = (.ok program, after)) ↔
      ∃ script, Script.read? ((Feed.ofString source).length + 2) (front source) = some script := by
  constructor
  · rintro ⟨program, after, parsed⟩
    have follows := follows_program source names
    unfold front
    cases read : Script.read? ((Feed.ofString source).length + 2)
        ((uncommented false source.toList).dropWhile Rune.isBlank) with
    | some script => exact ⟨script, rfl⟩
    | none =>
        rw [read] at follows
        obtain ⟨error, reached, ran⟩ := follows
        rw [parse, ran] at parsed
        cases parsed
  · rintro ⟨script, read⟩
    obtain ⟨program, after, parsed, _⟩ := exists_parse_of_read? read names
    exact ⟨program, after, parsed⟩

theorem parsesAs_iff_read? (source : String) {names : NameTable} (coherent : names.Coherent)
    (tree : Tree String) (assignments : Nat) :
    ParsesAs source names tree assignments ↔
      ∃ script, Script.read? ((Feed.ofString source).length + 2)
          ((uncommented false source.toList).dropWhile Rune.isBlank) = some script ∧
        script.tree = tree ∧ script.assignments = assignments := by
  have follows := follows_program source names
  cases read : Script.read? ((Feed.ofString source).length + 2)
      ((uncommented false source.toList).dropWhile Rune.isBlank) with
  | none =>
      rw [read] at follows
      obtain ⟨error, after, ran⟩ := follows
      constructor
      · rintro ⟨program, later, parsed, _⟩
        rw [parse, ran] at parsed
        cases parsed
      · rintro ⟨script, found, _⟩
        cases found
  | some script =>
      rw [read] at follows
      obtain ⟨⟨root, count⟩, after, ran, before, denotes, same⟩ := follows
      dsimp only at denotes same
      subst same
      have parsed : parse (.ofString source) names =
          (.ok ⟨after.arena, root, script.assignments⟩, after.names) := by
        rw [parse, ran]
      obtain ⟨printable, _⟩ := printable_parse coherent parsed
      obtain ⟨inner, denoted, _⟩ := printable.arena.exists_tree? printable.root
      have shown : namedTree? ⟨after.arena, root, script.assignments⟩ after.names =
          some script.tree := by
        rw [namedTree?, denoted, Option.map_some,
          denotes.map_text (before.names.coherent coherent) denoted]
      constructor
      · rintro ⟨program, later, again, sameTree, sameCount⟩
        cases parsed.symm.trans again
        cases shown.symm.trans sameTree
        exact ⟨script, rfl, rfl, sameCount⟩
      · rintro ⟨other, found, sameTree, sameCount⟩
        cases found
        exact ⟨_, _, parsed, sameTree ▸ shown, sameCount⟩

/-- A source is a program exactly if it has a derivation in the grammar once its comments are taken
out; its tree and the number of its assignments are those of the derivation, and there is no
other. -/
theorem parsesAs_iff_derivation (source : String) {names : NameTable}
    (built : NameTable.empty.Interns names) :
    (∀ (tree : Tree String) (assignments : Nat), ParsesAs source names tree assignments ↔
      ∃ derivation : Derivation (uncommented false source.toList),
        derivation.script.tree = tree ∧ derivation.script.assignments = assignments) ∧
    ∀ first second : Derivation (uncommented false source.toList), first = second := by
  refine ⟨fun tree assignments => ?_, Derivation.unique⟩
  rw [parsesAs_iff_read? source (built.coherent NameTable.coherent_empty)]
  constructor
  · rintro ⟨script, read, sameTree, sameCount⟩
    obtain ⟨spelled, maximal⟩ := Script.read?_sound read
    refine ⟨⟨.front (uncommented false source.toList), script, ?_, maximal⟩, sameTree, sameCount⟩
    rw [spelled]
    exact List.takeWhile_append_dropWhile
  · rintro ⟨⟨before, script, spelled, maximal⟩, sameTree, sameCount⟩
    refine ⟨script, ?_, sameTree, sameCount⟩
    have shorter := length_uncommented_le false source.toList
    have events := Feed.length_le_length_ofChars source.toList
    rw [← Feed.ofString_eq_ofChars] at events
    rw [← spelled] at shorter ⊢
    rw [List.length_append] at shorter
    rw [dropWhile_append_of_stops before.2 script.stops]
    exact Script.read?_chars (by omega) maximal

theorem commented_source_parses :
    ParsesAs "(f) = \\a# inside a name\nb. (ab ab ab)\nf" .empty
      (.apply (.lambda "f" (.var "f"))
        (.lambda "ab" (.apply (.apply (.var "ab") (.var "ab")) (.var "ab")))) 1 := by
  have chars : uncommented false "(f) = \\a# inside a name\nb. (ab ab ab)\nf".toList =
      "(f) = \\ab. (ab ab ab)\nf".toList := by decide
  have read : (Script.read? 30 "(f) = \\ab. (ab ab ab)\nf".toList).map
      (fun script => (script.tree, script.assignments)) =
        some (.apply (.lambda "f" (.var "f"))
          (.lambda "ab" (.apply (.apply (.var "ab") (.var "ab")) (.var "ab"))), 1) := by decide
  obtain ⟨script, found, shown⟩ := Option.map_eq_some_iff.mp read
  obtain ⟨tree, assignments⟩ := Prod.mk.inj shown
  obtain ⟨spelled, maximal⟩ := Script.read?_sound found
  refine ((parsesAs_iff_derivation _ .refl).1 _ _).mpr
    ⟨⟨⟨[], List.forall_mem_nil _⟩, script, ?_, maximal⟩, tree, assignments⟩
  exact spelled.trans chars.symm

end Program

end LambdaMachine
