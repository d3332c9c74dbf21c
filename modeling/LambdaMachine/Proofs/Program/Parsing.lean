import LambdaMachine.Program.Parser
import LambdaMachine.Proofs.Source.Cursor
import LambdaMachine.Proofs.Term.Arena
import LambdaMachine.Proofs.Term.Names

/-!
What parsing keeps, whatever it reads: names are only numbered, nodes are only appended, every node
comes after its parts, and every name in a node is one that can be written.
-/

namespace LambdaMachine

def IsName (text : String) : Prop :=
  text ≠ "" ∧ ∀ char ∈ text.toList, Rune.isNameRune char = true ∧ char ≠ Rune.comment

instance (text : String) : Decidable (IsName text) :=
  @instDecidableAnd _ _ _ (List.decidableBAll _ text.toList)

def NameTable.Holds (table : NameTable) (name : NameId) : Prop :=
  ∃ text, IsName text ∧ table.numbers[text]? = some name

theorem NameTable.Holds.mono {earlier later : NameTable} {name : NameId}
    (interns : earlier.Interns later) (holds : earlier.Holds name) : later.Holds name := by
  obtain ⟨text, isName, known⟩ := holds
  exact ⟨text, isName, interns.extends text name known⟩

theorem NameTable.Holds.isName {table : NameTable} {name : NameId} (holds : table.Holds name)
    (coherent : table.Coherent) : IsName (table.text name) := by
  obtain ⟨text, isName, known⟩ := holds
  rw [coherent.text_eq known]
  exact isName

theorem NameTable.holds_intern {table : NameTable} {text : String} (isName : IsName text) :
    (table.intern text).2.Holds (table.intern text).1 :=
  ⟨text, isName, table.numbers_intern text⟩

namespace Program

theorem splitFrom?_mono {earlier later : Arena} (grown : later.Extends earlier) {layers : Nat}
    {id : NodeId} {parts : List (NameId × NodeId) × NodeId}
    (split : splitFrom? earlier layers id = some parts) :
    splitFrom? later layers id = some parts := by
  induction layers generalizing id parts with
  | zero => exact split
  | succ layers ih =>
      simp only [splitFrom?] at split ⊢
      cases node : earlier.node? id with
      | none => simp only [node] at split; cases split
      | some shape =>
          rw [grown id shape node]
          cases shape with
          | var name => simpa only [node] using split
          | lambda param body => simpa only [node] using split
          | apply func arg =>
              simp only [node] at split ⊢
              cases funcNode : earlier.node? func with
              | none => simp only [funcNode] at split; cases split
              | some funcShape =>
                  rw [grown func funcShape funcNode]
                  cases funcShape with
                  | var name => simpa only [funcNode] using split
                  | apply inner last => simpa only [funcNode] using split
                  | lambda param body =>
                      simp only [funcNode] at split ⊢
                      obtain ⟨rest, found, same⟩ := Option.bind_eq_some_iff.mp split
                      exact Option.bind_eq_some_iff.mpr ⟨rest, ih found, same⟩

theorem splitFrom?_assignment {arena : Arena} {id func arg body last : NodeId} {param : NameId}
    {layers : Nat} {bindings : List (NameId × NodeId)}
    (node : arena.node? id = some (.apply func arg))
    (binder : arena.node? func = some (.lambda param body))
    (split : splitFrom? arena layers body = some (bindings, last)) :
    splitFrom? arena (layers + 1) id = some ((param, arg) :: bindings, last) := by
  simp only [splitFrom?, node, binder, split]
  rfl

end Program

structure ParserState.Tidy (state : ParserState) : Prop where
  cursor : state.cursor.Clean
  arena : state.arena.Tidy state.names.Holds

structure ParserState.Before (earlier later : ParserState) : Prop where
  names : earlier.names.Interns later.names
  arena : later.arena.Extends earlier.arena

theorem ParserState.Before.trans {first second third : ParserState}
    (before : first.Before second) (after : second.Before third) : first.Before third :=
  ⟨before.names.trans after.names, after.arena.trans before.arena⟩

namespace Parser

variable {α β : Type}

def Keeps (action : Parser α) (state : ParserState) (post : α → ParserState → Prop) : Prop :=
  match action state with
  | .ok value after => state.Before after ∧ after.Tidy ∧ post value after
  | .error _ after => state.names.Interns after.names

theorem Keeps.bind {action : Parser α} {next : α → Parser β} {state : ParserState}
    {middle : α → ParserState → Prop} {post : β → ParserState → Prop}
    (first : Keeps action state middle)
    (second : ∀ value between, state.Before between → between.Tidy → middle value between →
      Keeps (next value) between post) :
    Keeps (action >>= next) state post := by
  unfold Keeps at first ⊢
  simp only [Bind.bind, EStateM.bind]
  cases ran : action state with
  | error error after => simpa only [ran] using first
  | ok value between =>
      simp only [ran] at first ⊢
      obtain ⟨before, tidy, reached⟩ := first
      have rest := second value between before tidy reached
      unfold Keeps at rest
      cases ranNext : next value between with
      | error error after =>
          simp only [ranNext] at rest ⊢
          exact before.names.trans rest
      | ok result after =>
          simp only [ranNext] at rest ⊢
          exact ⟨before.trans rest.1, rest.2⟩

theorem Keeps.mono {action : Parser α} {state : ParserState} {post weaker : α → ParserState → Prop}
    (keeps : Keeps action state post)
    (implies : ∀ value after, post value after → weaker value after) :
    Keeps action state weaker := by
  unfold Keeps at keeps ⊢
  cases ran : action state with
  | error error after => simpa only [ran] using keeps
  | ok value after =>
      simp only [ran] at keeps ⊢
      exact ⟨keeps.1, keeps.2.1, implies value after keeps.2.2⟩

theorem Keeps.pure {state : ParserState} {post : α → ParserState → Prop} {value : α}
    (tidy : state.Tidy) (reached : post value state) : Keeps (Pure.pure value) state post :=
  ⟨⟨.refl, .refl _⟩, tidy, reached⟩

theorem Keeps.fail {state : ParserState} {post : α → ParserState → Prop} (error : SyntaxError) :
    Keeps (Parser.fail error) state post :=
  NameTable.Interns.refl

theorem Keeps.get {state : ParserState} (tidy : state.Tidy) :
    Keeps get state fun found after => found = after :=
  ⟨⟨.refl, .refl _⟩, tidy, rfl⟩

theorem keeps_scan {action : Scan α} {state : ParserState} {post : α → Prop} (tidy : state.Tidy)
    (clean : ∀ value after, action state.cursor = .ok value after → after.Clean ∧ post value) :
    Keeps (scan action) state fun value _ => post value := by
  unfold Keeps scan
  cases ran : action state.cursor with
  | error error after => exact .refl
  | ok value after =>
      obtain ⟨afterClean, reached⟩ := clean value after ran
      exact ⟨⟨.refl, .refl _⟩, ⟨afterClean, tidy.arena⟩, reached⟩

theorem keeps_peek {state : ParserState} (tidy : state.Tidy) :
    Keeps (scan Cursor.peek) state fun _ _ => True :=
  keeps_scan tidy fun _ _ peeked => ⟨(tidy.cursor.peek peeked).1, trivial⟩

theorem keeps_skipBlanks {state : ParserState} (tidy : state.Tidy) :
    Keeps (scan Cursor.skipBlanks) state fun _ _ => True :=
  keeps_scan tidy fun _ _ skipped => ⟨tidy.cursor.skipBlanks skipped, trivial⟩

theorem keeps_position {state : ParserState} (tidy : state.Tidy) :
    Keeps position state fun _ _ => True :=
  (Keeps.get tidy).bind fun _ _ _ tidy _ => .pure tidy trivial

theorem keeps_expect {state : ParserState} (tidy : state.Tidy) (expected : List Char) :
    Keeps (expect expected) state fun _ _ => True := by
  unfold Keeps expect
  cases ran : Cursor.expectOneOf expected state.cursor with
  | error error after => cases error <;> exact .refl
  | ok rune after => exact ⟨⟨.refl, .refl _⟩, ⟨.expectOneOf ran, tidy.arena⟩, trivial⟩

theorem keeps_atEnd {state : ParserState} (tidy : state.Tidy) :
    Keeps (scan Cursor.atEnd) state fun _ _ => True := by
  refine keeps_scan tidy fun value after ended => ⟨?_, trivial⟩
  obtain ⟨found, peeked, _⟩ := Cursor.atEnd_eq_ok.mp ended
  exact (tidy.cursor.peek peeked).1

theorem keeps_advance {state : ParserState} (tidy : state.Tidy) :
    Keeps advance state fun _ _ => True :=
  ⟨⟨.refl, .refl _⟩, ⟨Cursor.clean_advance _, tidy.arena⟩, trivial⟩

theorem keeps_addNode {state : ParserState} (tidy : state.Tidy) (node : Node)
    (fits : node.Fits state.names.Holds state.arena.size) :
    Keeps (addNode node) state fun id after => after.arena.node? id = some node :=
  ⟨⟨.refl, state.arena.extends_add node⟩, ⟨tidy.cursor, tidy.arena.add fits⟩,
    state.arena.node?_add_size node⟩

theorem keeps_intern {state : ParserState} (tidy : state.Tidy) {text : String}
    (isName : IsName text) :
    Keeps (intern text) state fun name after => after.names.Holds name := by
  have interns : state.names.Interns (state.names.intern text).2 := .intern .refl text
  exact ⟨⟨interns, .refl _⟩, ⟨tidy.cursor, tidy.arena.mono fun _ holds => holds.mono interns⟩,
    NameTable.holds_intern isName⟩

theorem keeps_name {state : ParserState} (tidy : state.Tidy) :
    Keeps name state fun name after => after.names.Holds name := by
  have taken := @keeps_scan _ (Cursor.takeWhile Rune.isNameRune) state
    (fun text => ∀ char ∈ text.toList, Rune.isNameRune char = true ∧ char ≠ Rune.comment) tidy
    fun _ _ taken => tidy.cursor.takeWhile taken
  refine taken.bind fun text between _ tidy each => ?_
  split
  · refine (keeps_peek tidy).bind fun found _ _ tidy _ => ?_
    exact (keeps_position tidy).bind fun _ _ _ _ _ => .fail _
  · rename_i nonempty
    have isName : IsName text := ⟨fun empty => nonempty (empty ▸ rfl), each⟩
    exact (keeps_skipBlanks tidy).bind fun _ _ _ tidy _ => keeps_intern tidy isName

def ExpressionKeeps (fuel : Nat) : Prop :=
  ∀ state : ParserState, state.Tidy →
    Keeps (expression fuel) state fun id after => id < after.arena.size

def ArgumentsKeeps (fuel : Nat) : Prop :=
  ∀ (state : ParserState) (opening : Nat) (func : NodeId), state.Tidy → func < state.arena.size →
    Keeps (arguments fuel opening func) state fun id after => id < after.arena.size

theorem ExpressionKeeps.succ {fuel : Nat} (parts : ExpressionKeeps fuel)
    (rest : ArgumentsKeeps fuel) : ExpressionKeeps (fuel + 1) := by
  intro state tidy
  rw [expression]
  refine (keeps_peek tidy).bind fun found _ _ tidy _ => ?_
  split
  · exact (keeps_position tidy).bind fun _ _ _ _ _ => .fail _
  · split
    · refine (keeps_expect tidy _).bind fun _ _ _ tidy _ => ?_
      refine (keeps_name tidy).bind fun param _ _ tidy holds => ?_
      refine (keeps_expect tidy _).bind fun _ _ toDot tidy _ => ?_
      refine (parts _ tidy).bind fun body _ toBody tidy inside => ?_
      refine (keeps_addNode tidy (.lambda param body) ?_).mono fun _ _ found =>
        Arena.lt_size_iff.mpr ⟨_, found⟩
      exact ⟨(holds.mono toDot.names).mono toBody.names, inside⟩
    · split
      · refine (keeps_position tidy).bind fun opening _ _ tidy _ => ?_
        refine (keeps_expect tidy _).bind fun _ _ _ tidy _ => ?_
        refine (keeps_atEnd tidy).bind fun atEnd _ _ tidy _ => ?_
        split
        · exact .fail _
        · exact (parts _ tidy).bind fun func _ _ tidy inside => rest _ _ _ tidy inside
      · split
        · refine (keeps_name tidy).bind fun reference _ _ tidy holds => ?_
          exact (keeps_addNode tidy (.var reference) holds).mono fun _ _ found =>
            Arena.lt_size_iff.mpr ⟨_, found⟩
        · exact (keeps_position tidy).bind fun _ _ _ _ _ => .fail _

theorem ArgumentsKeeps.succ {fuel : Nat} (parts : ExpressionKeeps fuel)
    (rest : ArgumentsKeeps fuel) : ArgumentsKeeps (fuel + 1) := by
  intro state opening func tidy inside
  rw [arguments]
  refine (keeps_peek tidy).bind fun found _ toPeek tidy _ => ?_
  replace inside := toPeek.arena.lt_size inside
  split
  · exact .fail _
  · split
    · refine (keeps_advance tidy).bind fun _ _ toNext tidy _ => ?_
      refine (keeps_skipBlanks tidy).bind fun _ _ toEnd tidy _ => ?_
      exact .pure tidy (toEnd.arena.lt_size (toNext.arena.lt_size inside))
    · refine (parts _ tidy).bind fun arg _ toArg tidy argInside => ?_
      have fits := And.intro (toArg.arena.lt_size inside) argInside
      refine (keeps_addNode tidy (.apply func arg) fits).bind fun applied _ _ tidy found => ?_
      exact rest _ _ _ tidy (Arena.lt_size_iff.mpr ⟨_, found⟩)

theorem keeps_expression (fuel : Nat) : ExpressionKeeps fuel ∧ ArgumentsKeeps fuel := by
  induction fuel with
  | zero => exact ⟨fun _ _ => NameTable.Interns.refl, fun _ _ _ _ _ => NameTable.Interns.refl⟩
  | succ fuel ih => exact ⟨ih.1.succ ih.2, .succ ih.1 ih.2⟩

def Read (state : ParserState) (bindings : List (NameId × NodeId)) : Prop :=
  ∀ binding ∈ bindings, state.names.Holds binding.1 ∧ binding.2 < state.arena.size

theorem Read.mono {earlier later : ParserState} {bindings : List (NameId × NodeId)}
    (before : earlier.Before later) (read : Read earlier bindings) : Read later bindings :=
  fun binding among => ⟨(read binding among).1.mono before.names,
    before.arena.lt_size (read binding among).2⟩

/-- The assignments around a body split off again, in the order in which they were read. -/
theorem keeps_bindAll {state : ParserState} {root last : NodeId} {layers : Nat}
    {bindings inner : List (NameId × NodeId)} (tidy : state.Tidy) (inside : root < state.arena.size)
    (read : Read state bindings)
    (split : Program.splitFrom? state.arena layers root = some (inner, last)) :
    Keeps (bindAll root bindings) state fun id after => id < after.arena.size ∧
      Program.splitFrom? after.arena (bindings.length + layers) id =
        some (bindings.reverse ++ inner, last) := by
  induction bindings generalizing state root layers inner with
  | nil =>
      refine .pure tidy ⟨inside, ?_⟩
      simpa only [List.length_nil, Nat.zero_add, List.reverse_nil, List.nil_append] using split
  | cons binding earlier ih =>
      obtain ⟨name, side⟩ := binding
      obtain ⟨holds, sideInside⟩ := read _ List.mem_cons_self
      have readEarlier : Read state earlier :=
        fun other among => read other (List.mem_cons_of_mem _ among)
      rw [bindAll]
      refine (keeps_addNode tidy (.lambda name root) ⟨holds, inside⟩).bind
        fun binder _ toBinder tidy binderFound => ?_
      have fits := And.intro (Arena.lt_size_iff.mpr ⟨_, binderFound⟩)
        (toBinder.arena.lt_size sideInside)
      refine (keeps_addNode tidy (.apply binder side) fits).bind
        fun outer _ toOuter tidy outerFound => ?_
      have before := toBinder.trans toOuter
      have splitOuter := Program.splitFrom?_assignment outerFound
        (toOuter.arena _ _ binderFound) (Program.splitFrom?_mono before.arena split)
      refine (ih tidy (Arena.lt_size_iff.mpr ⟨_, outerFound⟩) (readEarlier.mono before)
        splitOuter).mono fun id after found => ⟨found.1, ?_⟩
      rw [List.length_cons, List.reverse_cons, List.append_assoc, Nat.add_assoc, Nat.add_comm 1]
      exact found.2

theorem keeps_statements (fuel : Nat) {state : ParserState} {bindings : List (NameId × NodeId)}
    (tidy : state.Tidy) (read : Read state bindings) :
    Keeps (statements fuel bindings) state fun result after => result.1 < after.arena.size ∧
      ∃ assignments body, assignments.length = result.2 ∧
        Program.splitFrom? after.arena result.2 result.1 = some (assignments, body) := by
  induction fuel generalizing state bindings with
  | zero => exact NameTable.Interns.refl
  | succ fuel ih =>
      rw [statements]
      refine (keeps_position tidy).bind fun offset _ toStart tidy _ => ?_
      refine ((keeps_expression fuel).1 _ tidy).bind fun id _ toId tidy inside => ?_
      refine (keeps_atEnd tidy).bind fun atEnd _ toEnd tidy _ => ?_
      replace read := read.mono (toStart.trans (toId.trans toEnd))
      replace inside := toEnd.arena.lt_size inside
      split
      · refine (keeps_bindAll tidy inside read (Program.splitFrom?.eq_1 _ id)).bind
          fun root _ _ tidy found => .pure tidy ⟨found.1, ?_⟩
        exact ⟨_, id, by rw [List.append_nil, List.length_reverse], found.2⟩
      · refine (Keeps.get tidy).bind fun found _ toFound tidy same => ?_
        subst same
        split
        · rename_i name node
          have holds : found.names.Holds name := tidy.arena id _ node
          refine (keeps_expect tidy _).bind fun _ _ toEquals tidy _ => ?_
          refine ((keeps_expression fuel).1 _ tidy).bind fun side _ toSide tidy sideInside => ?_
          have before := toEquals.trans toSide
          refine ih tidy fun binding among => ?_
          rcases List.mem_cons.mp among with rfl | earlier
          · exact ⟨holds.mono before.names, sideInside⟩
          · exact read.mono (toFound.trans before) binding earlier
        · exact .fail _

end Parser

namespace Program

/-- What printing a program and reading it back relies on: the root lies in the arena, every node
comes after its parts, and every name reads as one. -/
structure Printable (program : Program) (names : NameTable) : Prop where
  root : program.root < program.arena.size
  arena : program.arena.Tidy fun name => IsName (names.text name)

theorem keeps_parse (feed : Feed) (names : NameTable) :
    Parser.Keeps (do
        Parser.scan Cursor.skipBlanks
        Parser.statements (feed.length + 2) [])
      ⟨{ feed }, .empty, names⟩ fun result after => result.1 < after.arena.size ∧
        ∃ assignments body, assignments.length = result.2 ∧
          splitFrom? after.arena result.2 result.1 = some (assignments, body) := by
  have tidy : (⟨{ feed }, .empty, names⟩ : ParserState).Tidy :=
    ⟨Cursor.clean_start feed, Arena.tidy_empty _⟩
  refine (Parser.keeps_skipBlanks tidy).bind fun _ _ _ tidy _ => ?_
  exact Parser.keeps_statements _ tidy fun _ among => by cases among

theorem interns_parse (feed : Feed) (names : NameTable) : names.Interns (parse feed names).2 := by
  have keeps := keeps_parse feed names
  unfold Parser.Keeps at keeps
  rw [parse]
  split
  · rename_i root assignments state ran
    simp only [ran] at keeps
    exact keeps.1.names
  · rename_i error state ran
    simp only [ran] at keeps
    exact keeps

/-- The root of a program that was parsed lies in its arena, and the names in it are numbered. -/
theorem tidy_parse {feed : Feed} {names later : NameTable} {program : Program}
    (parsed : parse feed names = (.ok program, later)) :
    program.root < program.arena.size ∧ program.arena.Tidy later.Holds ∧
      ∃ assignments body, assignments.length = program.assignments ∧
        program.split? = some (assignments, body) := by
  have keeps := keeps_parse feed names
  unfold Parser.Keeps at keeps
  rw [parse] at parsed
  split at parsed
  · rename_i root assignments state ran
    simp only [ran] at keeps
    cases parsed
    obtain ⟨_, tidy, inside, split⟩ := keeps
    exact ⟨inside, tidy.arena, split⟩
  · cases parsed

/-- A program that was parsed can be printed, and splits into its assignments. -/
theorem printable_parse {feed : Feed} {names later : NameTable} {program : Program}
    (coherent : names.Coherent) (parsed : parse feed names = (.ok program, later)) :
    program.Printable later ∧
      ∃ assignments body, assignments.length = program.assignments ∧
        program.split? = some (assignments, body) := by
  have interns := interns_parse feed names
  rw [parsed] at interns
  obtain ⟨inside, tidy, split⟩ := tidy_parse parsed
  exact ⟨⟨inside, tidy.mono fun name holds => holds.isName (interns.coherent coherent)⟩, split⟩

end Program

end LambdaMachine
