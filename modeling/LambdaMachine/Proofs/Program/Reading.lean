import LambdaMachine.Proofs.Program.Parsing
import LambdaMachine.Proofs.Source.Characters

/-!
Parsing the text of a tree: from every state that has the text in front of it, with nothing behind
it that could belong to it, the parser builds the tree and stops right after it.
-/

namespace LambdaMachine

def Tree.Named {ν : Type} (accepted : ν → Prop) : Tree ν → Prop
  | .var name => accepted name
  | .lambda param body => accepted param ∧ body.Named accepted
  | .apply func arg => func.Named accepted ∧ arg.Named accepted

instance Tree.decidableNamed {ν : Type} {accepted : ν → Prop} [DecidablePred accepted] :
    (tree : Tree ν) → Decidable (tree.Named accepted)
  | .var name => inferInstanceAs (Decidable (accepted name))
  | .lambda _ body =>
      have : Decidable (body.Named accepted) := body.decidableNamed
      inferInstanceAs (Decidable (_ ∧ _))
  | .apply func arg =>
      have : Decidable (func.Named accepted) := func.decidableNamed
      have : Decidable (arg.Named accepted) := arg.decidableNamed
      inferInstanceAs (Decidable (_ ∧ _))

theorem IsName.toList_eq_cons {text : String} (isName : IsName text) :
    ∃ first rest, text.toList = first :: rest ∧ Rune.isNameRune first = true := by
  cases chars : text.toList with
  | nil => exact (isName.1 (String.toList_eq_nil_iff.mp chars)).elim
  | cons first rest =>
      have among : first ∈ text.toList := chars ▸ List.mem_cons_self
      exact ⟨first, rest, rfl, (isName.2 first among).1⟩

theorem Rune.isBlank_of_isNameRune {rune : Char} (isNameRune : Rune.isNameRune rune = true) :
    Rune.isBlank rune = false := by
  simp only [Rune.isNameRune, Bool.and_eq_true, Bool.not_eq_true'] at isNameRune
  exact isNameRune.1.1

theorem Rune.isLambda_of_isNameRune {rune : Char} (isNameRune : Rune.isNameRune rune = true) :
    Rune.isLambda rune = false := by
  simp only [Rune.isNameRune, Bool.and_eq_true, Bool.not_eq_true'] at isNameRune
  exact isNameRune.2

def ParserState.Denotes (state : ParserState) : NodeId → Tree String → Prop
  | id, .var text =>
      ∃ name, state.arena.node? id = some (.var name) ∧ state.names.numbers[text]? = some name
  | id, .lambda text tree =>
      ∃ name body, state.arena.node? id = some (.lambda name body) ∧
        state.names.numbers[text]? = some name ∧ state.Denotes body tree
  | id, .apply left right =>
      ∃ func arg, state.arena.node? id = some (.apply func arg) ∧
        state.Denotes func left ∧ state.Denotes arg right

theorem ParserState.Denotes.mono {earlier later : ParserState} (before : earlier.Before later)
    {id : NodeId} {tree : Tree String} (denotes : earlier.Denotes id tree) :
    later.Denotes id tree := by
  induction tree generalizing id with
  | var text =>
      obtain ⟨name, node, known⟩ := denotes
      exact ⟨name, before.arena _ _ node, before.names.extends _ _ known⟩
  | lambda text tree ih =>
      obtain ⟨name, body, node, known, bodyDenotes⟩ := denotes
      exact ⟨name, body, before.arena _ _ node, before.names.extends _ _ known, ih bodyDenotes⟩
  | apply left right leftIh rightIh =>
      obtain ⟨func, arg, node, funcDenotes, argDenotes⟩ := denotes
      exact ⟨func, arg, before.arena _ _ node, leftIh funcDenotes, rightIh argDenotes⟩

structure Separated (blanks rest : List Char) : Prop where
  blank : ∀ char ∈ blanks, Rune.isBlank char = true
  stops : Cursor.Stops Rune.isBlank rest
  apart : Cursor.Stops Rune.isNameRune (blanks ++ rest)

namespace Parser

variable {α β : Type}

def Reads (action : Parser α) (state : ParserState) (rest : List Char)
    (post : α → ParserState → Prop) : Prop :=
  ∃ value after, action state = .ok value after ∧ state.Before after ∧ after.cursor.Holds rest ∧
    post value after

theorem Reads.bind {action : Parser α} {next : α → Parser β} {state : ParserState}
    {between rest : List Char} {middle : α → ParserState → Prop} {post : β → ParserState → Prop}
    (first : Reads action state between middle)
    (second : ∀ value after, state.Before after → after.cursor.Holds between →
      middle value after → Reads (next value) after rest post) :
    Reads (action >>= next) state rest post := by
  obtain ⟨value, reached, ran, before, holds, found⟩ := first
  obtain ⟨result, after, ranNext, beforeNext, holdsNext, foundNext⟩ :=
    second value reached before holds found
  refine ⟨result, after, ?_, before.trans beforeNext, holdsNext, foundNext⟩
  simp only [Bind.bind, EStateM.bind, ran, ranNext]

theorem Reads.mono {action : Parser α} {state : ParserState} {rest : List Char}
    {post weaker : α → ParserState → Prop} (reads : Reads action state rest post)
    (implies : ∀ value after, state.Before after → post value after → weaker value after) :
    Reads action state rest weaker := by
  obtain ⟨value, after, ran, before, holds, found⟩ := reads
  exact ⟨value, after, ran, before, holds, implies value after before found⟩

theorem Reads.pure {state : ParserState} {rest : List Char} {post : α → ParserState → Prop}
    {value : α} (holds : state.cursor.Holds rest) (reached : post value state) :
    Reads (Pure.pure value) state rest post :=
  ⟨value, state, rfl, ⟨.refl, .refl _⟩, holds, reached⟩

theorem reads_scan {action : Scan α} {state : ParserState} {rest : List Char} {value : α}
    {cursor : Cursor} (ran : action state.cursor = .ok value cursor)
    (holds : cursor.Holds rest) : Reads (scan action) state rest fun found _ => found = value := by
  refine ⟨value, { state with cursor }, ?_, ⟨.refl, .refl _⟩, holds, rfl⟩
  simp only [scan, ran]

theorem reads_peek_cons {state : ParserState} {char : Char} {rest : List Char}
    (holds : state.cursor.Holds (char :: rest)) :
    Reads (scan Cursor.peek) state (char :: rest) fun found after =>
      found = some char ∧ after.cursor.advance.Holds rest := by
  obtain ⟨cursor, peeked, kept, advanced⟩ := holds.peek_cons
  refine ⟨some char, { state with cursor }, ?_, ⟨.refl, .refl _⟩, kept, rfl, advanced⟩
  simp only [scan, peeked]

theorem reads_peek {state : ParserState} {chars : List Char} {char : Char}
    (holds : state.cursor.Holds chars) (front : chars.head? = some char) :
    Reads (scan Cursor.peek) state chars fun found _ => found = some char := by
  obtain ⟨rest, rfl⟩ := List.head?_eq_some_iff.mp front
  exact (reads_peek_cons holds).mono fun _ _ _ found => found.1

theorem reads_advance {state : ParserState} {rest : List Char}
    (holds : state.cursor.advance.Holds rest) : Reads advance state rest fun _ _ => True :=
  ⟨(), _, rfl, ⟨.refl, .refl _⟩, holds, trivial⟩

theorem reads_position {state : ParserState} {rest : List Char}
    (holds : state.cursor.Holds rest) : Reads position state rest fun _ _ => True :=
  ⟨_, state, rfl, ⟨.refl, .refl _⟩, holds, trivial⟩

theorem reads_atEnd_false {state : ParserState} {chars : List Char} {char : Char}
    (holds : state.cursor.Holds chars) (front : chars.head? = some char) :
    Reads (scan Cursor.atEnd) state chars fun ended _ => ended = false := by
  obtain ⟨rest, rfl⟩ := List.head?_eq_some_iff.mp front
  obtain ⟨cursor, peeked, kept, _⟩ := holds.peek_cons
  exact reads_scan (Cursor.atEnd_eq_ok.mpr ⟨_, peeked, rfl⟩) kept

theorem reads_atEnd_true {state : ParserState} (holds : state.cursor.Holds []) :
    Reads (scan Cursor.atEnd) state [] fun ended _ => ended = true := by
  obtain ⟨cursor, peeked, kept⟩ := holds.peek_nil
  exact reads_scan (Cursor.atEnd_eq_ok.mpr ⟨_, peeked, rfl⟩) kept

theorem reads_skipBlanks {state : ParserState} {blanks rest : List Char}
    (holds : state.cursor.Holds (blanks ++ rest))
    (blank : ∀ char ∈ blanks, Rune.isBlank char = true) (stops : Cursor.Stops Rune.isBlank rest) :
    Reads (scan Cursor.skipBlanks) state rest fun _ _ => True := by
  obtain ⟨cursor, skipped, kept⟩ := holds.skipBlanks blank stops
  exact (reads_scan skipped kept).mono fun _ _ _ _ => trivial

theorem reads_expect {state : ParserState} {expected blanks rest : List Char} {rune : Char}
    (holds : state.cursor.Holds (rune :: (blanks ++ rest)))
    (member : expected.contains rune = true)
    (blank : ∀ char ∈ blanks, Rune.isBlank char = true) (stops : Cursor.Stops Rune.isBlank rest) :
    Reads (expect expected) state rest fun _ _ => True := by
  obtain ⟨cursor, passed, kept⟩ := holds.expectOneOf member blank stops
  refine ⟨(), { state with cursor }, ?_, ⟨.refl, .refl _⟩, kept, trivial⟩
  simp only [expect, passed]

theorem reads_mark {state : ParserState} {expected rest : List Char} {rune : Char}
    (holds : state.cursor.Holds (rune :: rest)) (member : expected.contains rune = true)
    (stops : Cursor.Stops Rune.isBlank rest) :
    Reads (expect expected) state rest fun _ _ => True :=
  @reads_expect state expected [] rest rune holds member
    (fun _ among => (List.not_mem_nil among).elim) stops

theorem reads_addNode {state : ParserState} {rest : List Char} (holds : state.cursor.Holds rest)
    (node : Node) :
    Reads (addNode node) state rest fun id after => after.arena.node? id = some node :=
  ⟨_, _, rfl, ⟨.refl, state.arena.extends_add node⟩, holds, state.arena.node?_add_size node⟩

theorem reads_name {state : ParserState} {text : String} {blanks rest : List Char}
    (isName : IsName text) (holds : state.cursor.Holds (text.toList ++ (blanks ++ rest)))
    (separated : Separated blanks rest) :
    Reads name state rest fun name after => after.names.numbers[text]? = some name := by
  obtain ⟨cursor, taken, kept⟩ :=
    holds.takeWhile (fun char among => (isName.2 char among).1) separated.apart
  rw [String.ofList_toList] at taken
  refine (reads_scan taken kept).bind fun found _ _ holdsBlanks same => ?_
  rw [same]
  have nonempty : ¬text.isEmpty = true := fun empty => isName.1 (String.isEmpty_iff.mp empty)
  rw [if_neg nonempty]
  refine (reads_skipBlanks holdsBlanks separated.blank separated.stops).bind
    fun _ between _ holdsRest _ => ?_
  exact ⟨_, _, rfl, ⟨.intern .refl text, .refl _⟩, holdsRest, between.names.numbers_intern text⟩

end Parser

def Tree.chars (tree : Tree String) : List Char :=
  tree.text.toList

namespace Tree

theorem chars_var (name : String) : (Tree.var name).chars = name.toList := by
  rw [chars, text, write, String.empty_append]

theorem chars_lambda (param : String) (body : Tree String) :
    (Tree.lambda param body).chars = Rune.lambda :: (param.toList ++ '.' :: body.chars) := by
  rw [chars, text_lambda]
  simp only [String.toList_append, String.toList_singleton, List.append_assoc,
    List.singleton_append]
  rfl

theorem chars_apply (func arg : Tree String) :
    (Tree.apply func arg).chars =
      if func.isLambda then
        '(' :: '(' :: (func.chars ++ ')' :: ' ' :: (arg.chars ++ [')']))
      else '(' :: (func.chars ++ ' ' :: (arg.chars ++ [')'])) := by
  rw [chars, text_apply]
  split
  · simp only [String.toList_append, List.append_assoc]
    rfl
  · simp only [String.toList_append, List.append_assoc]
    rfl

theorem exists_chars_eq_cons {tree : Tree String} (named : tree.Named IsName) :
    ∃ first rest, tree.chars = first :: rest ∧ Rune.isBlank first = false ∧ first ≠ ')' := by
  cases tree with
  | var name =>
      obtain ⟨first, rest, chars, isNameRune⟩ := named.toList_eq_cons
      refine ⟨first, rest, (chars_var name).trans chars, ?_, ?_⟩
      · exact Rune.isBlank_of_isNameRune isNameRune
      · rintro rfl
        cases isNameRune
  | lambda param body => exact ⟨_, _, chars_lambda param body, by decide, by decide⟩
  | apply func arg =>
      rw [chars_apply]
      split
      · exact ⟨_, _, rfl, by decide, by decide⟩
      · exact ⟨_, _, rfl, by decide, by decide⟩

theorem stops_chars {tree : Tree String} (named : tree.Named IsName) (rest : List Char) :
    Cursor.Stops Rune.isBlank (tree.chars ++ rest) := by
  obtain ⟨first, others, chars, notBlank, _⟩ := exists_chars_eq_cons named
  rw [chars]
  rintro char ⟨⟩
  exact notBlank

end Tree

theorem IsName.stops {text : String} (isName : IsName text) (rest : List Char) :
    Cursor.Stops Rune.isBlank (text.toList ++ rest) := by
  obtain ⟨first, others, chars, isNameRune⟩ := isName.toList_eq_cons
  rw [chars]
  rintro char ⟨⟩
  exact Rune.isBlank_of_isNameRune isNameRune

theorem separated_mark {mark : Char} (notBlank : Rune.isBlank mark = false)
    (notName : Rune.isNameRune mark = false) (rest : List Char) :
    Separated [] (mark :: rest) :=
  ⟨fun _ among => (List.not_mem_nil among).elim, fun _ same => by cases same; exact notBlank,
    fun _ same => by cases same; exact notName⟩

theorem separated_end : Separated [] [] :=
  ⟨fun _ among => (List.not_mem_nil among).elim, fun _ same => (Option.not_mem_none _ same).elim,
    fun _ same => (Option.not_mem_none _ same).elim⟩

theorem separated_blanks {blank : Char} {blanks rest : List Char}
    (allBlank : ∀ char ∈ blank :: blanks, Rune.isBlank char = true)
    (stops : Cursor.Stops Rune.isBlank rest) : Separated (blank :: blanks) rest := by
  refine ⟨allBlank, stops, fun char same => ?_⟩
  cases same
  simp only [Rune.isNameRune, allBlank blank List.mem_cons_self, Bool.not_true, Bool.false_and]

theorem blank_space : ∀ char ∈ [' '], Rune.isBlank char = true :=
  List.forall_mem_singleton.mpr (by decide)

theorem separated_space {rest : List Char} (stops : Cursor.Stops Rune.isBlank rest) :
    Separated [' '] rest :=
  separated_blanks blank_space stops

namespace Parser

variable {fuel opening : Nat} {state : ParserState} {blanks rest : List Char}

theorem reads_variable {name : String} (isName : IsName name)
    (holds : state.cursor.Holds (name.toList ++ (blanks ++ rest)))
    (separated : Separated blanks rest) :
    Reads (expression (fuel + 1)) state rest fun id after => after.Denotes id (.var name) := by
  obtain ⟨first, others, chars, isNameRune⟩ := isName.toList_eq_cons
  have notLambda : ¬Rune.isLambda first = true := by
    rw [Rune.isLambda_of_isNameRune isNameRune]
    exact Bool.false_ne_true
  have notOpening : first ≠ '(' := by
    rintro rfl
    cases isNameRune
  have front : (name.toList ++ (blanks ++ rest)).head? = some first := by
    rw [chars]
    rfl
  rw [expression]
  refine (reads_peek holds front).bind fun found _ _ holds same => ?_
  subst same
  dsimp only
  rw [if_neg notLambda, if_neg notOpening, if_pos isNameRune]
  refine (reads_name isName holds separated).bind fun number _ _ holds known => ?_
  refine (reads_addNode holds (.var number)).mono fun id after before node => ?_
  exact ⟨number, node, before.names.extends _ _ known⟩

theorem reads_abstraction {param : String} {body : Tree String} {tail : List Char}
    (isName : IsName param)
    (holds : state.cursor.Holds (Rune.lambda :: (param.toList ++ '.' :: (body.chars ++ tail))))
    (named : body.Named IsName)
    (readsBody : ∀ {inner : ParserState}, inner.cursor.Holds (body.chars ++ tail) →
      Reads (expression fuel) inner rest fun id after => after.Denotes id body) :
    Reads (expression (fuel + 1)) state rest fun id after =>
      after.Denotes id (.lambda param body) := by
  have isLambda : Rune.isLambda Rune.lambda = true := by decide
  rw [expression]
  refine (reads_peek holds rfl).bind fun found _ _ holds same => ?_
  subst same
  dsimp only
  rw [if_pos isLambda]
  refine (reads_mark holds isLambda (isName.stops _)).bind fun _ _ _ holds _ => ?_
  refine (reads_name isName holds (separated_mark (by decide) (by decide) _)).bind
    fun number _ _ holds known => ?_
  refine (reads_mark holds (by decide) (Tree.stops_chars named tail)).bind
    fun _ _ toDot holds _ => ?_
  refine (readsBody holds).bind fun id _ toBody holds denotes => ?_
  refine (reads_addNode holds (.lambda number id)).mono fun _ after before node => ?_
  have beforeAll := toDot.trans (toBody.trans before)
  exact ⟨number, id, node, beforeAll.names.extends _ _ known, denotes.mono before⟩

/-- A group whose first expression is `func`, given how it and what follows it are read. -/
theorem reads_group (func : Tree String) {first : Char} {inner between : List Char}
    {post : NodeId → ParserState → Prop} (holds : state.cursor.Holds ('(' :: inner))
    (front : inner.head? = some first) (notBlank : Rune.isBlank first = false)
    (readsFunc : ∀ {opened : ParserState}, opened.cursor.Holds inner →
      Reads (expression fuel) opened between fun id after => after.Denotes id func)
    (readsRest : ∀ {opened : ParserState} {opening : Nat} {id : NodeId},
      opened.cursor.Holds between → opened.Denotes id func →
        Reads (arguments fuel opening id) opened rest post) :
    Reads (expression (fuel + 1)) state rest post := by
  have stops : Cursor.Stops Rune.isBlank inner := by
    intro char same
    cases front.symm.trans same
    exact notBlank
  rw [expression]
  refine (reads_peek holds rfl).bind fun found _ _ holds same => ?_
  subst same
  dsimp only
  rw [if_neg (by decide), if_pos rfl]
  refine (reads_position holds).bind fun opening _ _ holds _ => ?_
  refine (reads_mark holds (by decide) stops).bind fun _ _ _ holds _ => ?_
  refine (reads_atEnd_false holds front).bind fun ended _ _ holds same => ?_
  rw [same, if_neg Bool.false_ne_true]
  exact (readsFunc holds).bind fun id _ _ holds denotes => readsRest holds denotes

theorem reads_close {func : NodeId} (holds : state.cursor.Holds (')' :: (blanks ++ rest)))
    (separated : Separated blanks rest) :
    Reads (arguments (fuel + 1) opening func) state rest fun id _ => id = func := by
  rw [arguments]
  refine (reads_peek_cons holds).bind fun found _ _ _ looked => ?_
  rw [looked.1]
  dsimp only
  rw [if_pos rfl]
  refine (reads_advance looked.2).bind fun _ _ _ holds _ => ?_
  refine (reads_skipBlanks holds separated.blank separated.stops).bind fun _ _ _ holds _ => ?_
  exact .pure holds rfl

theorem reads_argument {left right : Tree String} {func : NodeId}
    (holds : state.cursor.Holds (right.chars ++ ')' :: (blanks ++ rest)))
    (named : right.Named IsName) (denotes : state.Denotes func left)
    (separated : Separated blanks rest)
    (readsArg : ∀ {inner : ParserState},
      inner.cursor.Holds (right.chars ++ ')' :: (blanks ++ rest)) →
        Reads (expression (fuel + 1)) inner (')' :: (blanks ++ rest))
          fun id after => after.Denotes id right) :
    Reads (arguments (fuel + 2) opening func) state rest fun id after =>
      after.Denotes id (.apply left right) := by
  obtain ⟨first, others, chars, _, notClosing⟩ := Tree.exists_chars_eq_cons named
  have front : (right.chars ++ ')' :: (blanks ++ rest)).head? = some first := by
    rw [chars]
    rfl
  rw [arguments]
  refine (reads_peek holds front).bind fun found _ toFront holds same => ?_
  subst same
  dsimp only
  rw [if_neg notClosing]
  refine (readsArg holds).bind fun arg _ toArg holds argDenotes => ?_
  refine (reads_addNode holds (.apply func arg)).bind fun id _ toNode holds node => ?_
  refine (reads_close holds separated).mono fun found after toEnd same => ?_
  subst same
  refine ⟨func, arg, toEnd.arena _ _ node, ?_, (argDenotes.mono toNode).mono toEnd⟩
  exact denotes.mono (toFront.trans (toArg.trans (toNode.trans toEnd)))

theorem reads_wrapped {tree : Tree String} (named : tree.Named IsName)
    (holds : state.cursor.Holds ('(' :: (tree.chars ++ ')' :: (blanks ++ rest))))
    (separated : Separated blanks rest)
    (readsTree : ∀ {opened : ParserState},
      opened.cursor.Holds (tree.chars ++ ')' :: (blanks ++ rest)) →
        Reads (expression (fuel + 1)) opened (')' :: (blanks ++ rest))
          fun id after => after.Denotes id tree) :
    Reads (expression (fuel + 2)) state rest fun id after => after.Denotes id tree := by
  obtain ⟨first, others, chars, notBlank, _⟩ := Tree.exists_chars_eq_cons named
  have front : (tree.chars ++ ')' :: (blanks ++ rest)).head? = some first := by
    rw [chars]
    rfl
  refine reads_group tree holds front notBlank readsTree fun holds denotes => ?_
  refine (reads_close holds separated).mono fun id after before same => ?_
  rw [same]
  exact denotes.mono before

theorem reads_application {func arg : Tree String} {first : Char} {inner : List Char}
    (holds : state.cursor.Holds ('(' :: inner)) (front : inner.head? = some first)
    (notBlank : Rune.isBlank first = false) (named : arg.Named IsName)
    (separated : Separated blanks rest)
    (readsFunc : ∀ {opened : ParserState}, opened.cursor.Holds inner →
      Reads (expression (fuel + 2)) opened (arg.chars ++ ')' :: (blanks ++ rest))
        fun id after => after.Denotes id func)
    (readsArg : ∀ {opened : ParserState},
      opened.cursor.Holds (arg.chars ++ ')' :: (blanks ++ rest)) →
        Reads (expression (fuel + 1)) opened (')' :: (blanks ++ rest))
          fun id after => after.Denotes id arg) :
    Reads (expression (fuel + 3)) state rest fun id after => after.Denotes id (.apply func arg) :=
  reads_group func holds front notBlank readsFunc fun holds denotes =>
    reads_argument holds named denotes separated readsArg

/-- The text of a tree reads as the tree, if the fuel reaches for its characters. -/
theorem reads_expression {tree : Tree String} (named : tree.Named IsName) :
    ∀ {fuel : Nat} {state : ParserState} {blanks rest : List Char}, tree.chars.length ≤ fuel →
      state.cursor.Holds (tree.chars ++ (blanks ++ rest)) → Separated blanks rest →
        Reads (expression fuel) state rest fun id after => after.Denotes id tree := by
  induction tree with
  | var name =>
      intro fuel state blanks rest enough holds separated
      rw [Tree.chars_var] at enough holds
      obtain ⟨first, others, chars, _⟩ := IsName.toList_eq_cons named
      rw [chars, List.length_cons] at enough
      obtain ⟨fuel, rfl⟩ := Nat.exists_eq_add_of_le' (Nat.le_of_add_left_le enough)
      exact reads_variable named holds separated
  | lambda param body ih =>
      intro fuel state blanks rest enough holds separated
      rw [Tree.chars_lambda] at enough holds
      simp only [List.length_cons, List.length_append] at enough
      simp only [List.cons_append, List.append_assoc] at holds
      obtain ⟨fuel, rfl⟩ := Nat.exists_eq_add_of_le' (Nat.le_of_add_left_le enough)
      exact reads_abstraction named.1 holds named.2
        fun holds => ih named.2 (by omega) holds separated
  | apply func arg funcIh argIh =>
      intro fuel state blanks rest enough holds separated
      have toArg : Separated [' '] (arg.chars ++ ')' :: (blanks ++ rest)) :=
        separated_space (Tree.stops_chars named.2 _)
      have closing : Separated [] (')' :: (blanks ++ rest)) :=
        separated_mark (by decide) (by decide) _
      rw [Tree.chars_apply] at enough holds
      split at holds
      · rename_i isLambda
        rw [if_pos isLambda] at enough
        simp only [List.length_cons, List.length_append, List.length_nil] at enough
        simp only [List.cons_append, List.append_assoc, List.nil_append] at holds
        obtain ⟨fuel, rfl⟩ := Nat.exists_eq_add_of_le' (show 3 ≤ fuel by omega)
        refine reads_application holds rfl (by decide) named.2 separated (fun holds => ?_)
          fun holds => argIh named.2 (by omega) holds closing
        exact reads_wrapped named.1 holds toArg fun holds =>
          funcIh named.1 (by omega) holds (separated_mark (by decide) (by decide) _)
      · rename_i isLambda
        rw [if_neg isLambda] at enough
        simp only [List.length_cons, List.length_append, List.length_nil] at enough
        simp only [List.cons_append, List.append_assoc, List.nil_append] at holds
        obtain ⟨fuel, rfl⟩ := Nat.exists_eq_add_of_le' (show 3 ≤ fuel by omega)
        obtain ⟨first, others, chars, notBlank, _⟩ := Tree.exists_chars_eq_cons named.1
        have front : (func.chars ++ ' ' :: (arg.chars ++ ')' :: (blanks ++ rest))).head? =
            some first := by
          rw [chars]
          rfl
        exact reads_application holds front notBlank named.2 separated
          (fun holds => funcIh named.1 (by omega) holds toArg)
          fun holds => argIh named.2 (by omega) holds closing

end Parser

end LambdaMachine
