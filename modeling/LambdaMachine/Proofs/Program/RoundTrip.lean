import LambdaMachine.Proofs.Program.Printing
import Mathlib.Data.List.Forall2

/-!
Printing a program and parsing its text gives the program back, up to the numbers of its names and
nodes: the parser reads the lines as assignments, and wraps the body in them.
-/

namespace LambdaMachine

namespace Arena

/-- A node of a tidy arena has a tree: its parts come before it, so its index bounds the depth. -/
theorem Tidy.exists_treeWithin? {accepted : NameId → Prop} {arena : Arena}
    (tidy : arena.Tidy accepted) {id : NodeId} (inside : id < arena.size) :
    ∃ tree, arena.treeWithin? (id + 1) id = some tree ∧ tree.Named accepted := by
  induction id using Nat.strongRecOn with
  | _ id ih =>
      obtain ⟨node, found⟩ := lt_size_iff.mp inside
      have fits := tidy id node found
      cases node with
      | var name => exact ⟨.var name, by simp only [treeWithin?, found], fits⟩
      | lambda param body =>
          obtain ⟨tree, within, named⟩ := ih body fits.2 (Nat.lt_trans fits.2 inside)
          refine ⟨.lambda param tree, ?_, fits.1, named⟩
          simp only [treeWithin?, found, treeWithin?_mono fits.2 within]
          rfl
      | apply func arg =>
          obtain ⟨left, leftWithin, leftNamed⟩ := ih func fits.1 (Nat.lt_trans fits.1 inside)
          obtain ⟨right, rightWithin, rightNamed⟩ := ih arg fits.2 (Nat.lt_trans fits.2 inside)
          refine ⟨.apply left right, ?_, leftNamed, rightNamed⟩
          simp only [treeWithin?, found, treeWithin?_mono fits.1 leftWithin,
            treeWithin?_mono fits.2 rightWithin]
          rfl

theorem Tidy.exists_tree? {accepted : NameId → Prop} {arena : Arena} (tidy : arena.Tidy accepted)
    {id : NodeId} (inside : id < arena.size) :
    ∃ tree, arena.tree? id = some tree ∧ tree.Named accepted := by
  obtain ⟨tree, within, named⟩ := tidy.exists_treeWithin? inside
  exact ⟨tree, tree?_of_treeWithin? inside within, named⟩

end Arena

namespace ParserState

theorem Denotes.map_text {state : ParserState} (coherent : state.names.Coherent) {id : NodeId}
    {tree : Tree String} {inner : Tree NameId} (denotes : state.Denotes id tree)
    (denoted : state.arena.tree? id = some inner) : inner.map state.names.text = tree := by
  induction tree generalizing id inner with
  | var text =>
      obtain ⟨name, node, known⟩ := denotes
      rw [Arena.tree?_var node denoted, Tree.map, coherent.text_eq known]
  | lambda text tree ih =>
      obtain ⟨name, body, node, known, bodyDenotes⟩ := denotes
      obtain ⟨bodyTree, bodyDenoted, rfl⟩ := Arena.tree?_lambda node denoted
      rw [Tree.map, coherent.text_eq known, ih bodyDenotes bodyDenoted]
  | apply left right leftIh rightIh =>
      obtain ⟨func, arg, node, funcDenotes, argDenotes⟩ := denotes
      obtain ⟨funcTree, argTree, funcDenoted, argDenoted, rfl⟩ := Arena.tree?_apply node denoted
      rw [Tree.map, leftIh funcDenotes funcDenoted, rightIh argDenotes argDenoted]

def Binds (state : ParserState) (bindings : List (NameId × NodeId))
    (read : List (String × Tree String)) : Prop :=
  List.Forall₂ (fun binding shown => state.names.numbers[shown.1]? = some binding.1 ∧
    state.Denotes binding.2 shown.2) bindings read

theorem Binds.mono {earlier later : ParserState} (before : earlier.Before later)
    {bindings : List (NameId × NodeId)} {read : List (String × Tree String)}
    (binds : earlier.Binds bindings read) : later.Binds bindings read :=
  binds.imp fun _ _ bound => ⟨before.names.extends _ _ bound.1, bound.2.mono before⟩

end ParserState

namespace Parser

theorem reads_get {state : ParserState} {rest : List Char} (holds : state.cursor.Holds rest) :
    Reads get state rest fun found after => found = after :=
  ⟨state, state, rfl, ⟨.refl, .refl _⟩, holds, rfl⟩

theorem bindAll_eq_ok {state : ParserState} {root : NodeId} {bindings : List (NameId × NodeId)}
    {read : List (String × Tree String)} {body : Tree String} (denotes : state.Denotes root body)
    (binds : state.Binds bindings read) :
    ∃ id after, bindAll root bindings state = .ok id after ∧ state.Before after ∧
      after.cursor = state.cursor ∧ after.Denotes id (body.wrap read.reverse) := by
  induction bindings generalizing state root read body with
  | nil =>
      cases binds
      exact ⟨root, state, rfl, ⟨.refl, .refl _⟩, rfl, denotes⟩
  | cons binding earlier ih =>
      obtain ⟨name, side⟩ := binding
      cases binds with
      | @cons _ shown _ shownEarlier bound boundEarlier =>
          obtain ⟨text, tree⟩ := shown
          obtain ⟨known, sideDenotes⟩ := bound
          let inner : ParserState :=
            { state with arena := (state.arena.add (.lambda name root)).2 }
          let outer : ParserState :=
            { inner with arena := (inner.arena.add (.apply state.arena.size side)).2 }
          have toInner : state.Before inner := ⟨.refl, state.arena.extends_add _⟩
          have toOuter : inner.Before outer := ⟨.refl, inner.arena.extends_add _⟩
          have before := toInner.trans toOuter
          have binderFound : inner.arena.node? state.arena.size = some (.lambda name root) :=
            state.arena.node?_add_size _
          have outerDenotes : outer.Denotes inner.arena.size (body.wrap [(text, tree)]) := by
            refine ⟨state.arena.size, side, inner.arena.node?_add_size _, ?_,
              sideDenotes.mono before⟩
            exact ⟨name, root, toOuter.arena _ _ binderFound, known, denotes.mono before⟩
          obtain ⟨id, after, ran, fromOuter, kept, found⟩ :=
            ih outerDenotes (ParserState.Binds.mono before boundEarlier)
          rw [List.reverse_cons, Tree.wrap_append]
          exact ⟨id, after, ran, before.trans fromOuter, kept, found⟩

theorem reads_bindAll {state : ParserState} {rest : List Char} {root : NodeId}
    {bindings : List (NameId × NodeId)} {read : List (String × Tree String)} {body : Tree String}
    (holds : state.cursor.Holds rest) (denotes : state.Denotes root body)
    (binds : state.Binds bindings read) :
    Reads (bindAll root bindings) state rest fun id after =>
      after.Denotes id (body.wrap read.reverse) := by
  obtain ⟨id, after, ran, before, kept, found⟩ := bindAll_eq_ok denotes binds
  rw [← kept] at holds
  exact ⟨id, after, ran, before, holds, found⟩

end Parser

def BindingNamed (binding : String × Tree String) : Prop :=
  IsName binding.1 ∧ binding.2.Named IsName

theorem blank_gapChars {α : Type} (bindings : List α) :
    ∀ char ∈ gapChars bindings, Rune.isBlank char = true := by
  refine List.forall_mem_cons.mpr ⟨by decide, ?_⟩
  cases bindings.isEmpty with
  | true => exact List.forall_mem_singleton.mpr (by decide)
  | false => exact List.forall_mem_nil _

theorem stops_programChars {body : Tree String} {bindings : List (String × Tree String)}
    (named : body.Named IsName) (each : ∀ binding ∈ bindings, BindingNamed binding) :
    Cursor.Stops Rune.isBlank (programChars body bindings) := by
  cases bindings with
  | nil =>
      rw [programChars, ← List.append_nil body.chars]
      exact Tree.stops_chars named []
  | cons binding bindings =>
      rw [programChars, lineChars, List.append_assoc]
      exact (each binding List.mem_cons_self).1.stops _

namespace Parser

theorem reads_assignment {fuel : Nat} {state : ParserState} {bindings : List (NameId × NodeId)}
    {read : List (String × Tree String)} {binding : String × Tree String}
    {blanks rest ending : List Char} {post : NodeId × Nat → ParserState → Prop}
    (named : BindingNamed binding) (enough : (lineChars binding).length ≤ fuel)
    (holds : state.cursor.Holds (lineChars binding ++ (blanks ++ rest)))
    (separated : Separated blanks rest) (binds : state.Binds bindings read)
    (continues : ∀ {after : ParserState} {bindings : List (NameId × NodeId)},
      after.cursor.Holds rest → after.Binds bindings (binding :: read) →
        Reads (statements fuel bindings) after ending post) :
    Reads (statements (fuel + 1) bindings) state ending post := by
  obtain ⟨param, side⟩ := binding
  simp only [lineChars, List.length_append, List.length_cons] at enough
  simp only [lineChars, List.append_assoc, List.cons_append] at holds
  have paramNamed : (Tree.var param).Named IsName := named.1
  have sideNamed : side.Named IsName := named.2
  have afterParam : Separated [' '] ('=' :: ' ' :: (side.chars ++ (blanks ++ rest))) :=
    separated_space fun _ same => by cases same; decide
  rw [statements]
  refine (reads_position holds).bind fun _ _ toStart holds _ => ?_
  rw [← Tree.chars_var param] at holds enough
  refine (reads_expression paramNamed (by omega) holds afterParam).bind
    fun id _ toParam holds shown => ?_
  refine (reads_atEnd_false holds rfl).bind fun ended _ toFront holds same => ?_
  rw [same, if_neg Bool.false_ne_true]
  refine (reads_get holds).bind fun found _ toFound holds same => ?_
  subst same
  obtain ⟨name, node, known⟩ := (shown.mono toFront).mono toFound
  rw [node]
  dsimp only
  refine (@reads_expect _ _ [' '] _ '=' holds (by decide) blank_space
    (Tree.stops_chars sideNamed _)).bind fun _ _ toEquals holds _ => ?_
  refine (reads_expression sideNamed (by omega) holds separated).bind
    fun sideId _ toSide holds denotes => ?_
  have before := toEquals.trans toSide
  have beforeAll := toStart.trans (toParam.trans (toFront.trans (toFound.trans before)))
  exact continues holds (.cons ⟨before.names.extends _ _ known, denotes⟩ (binds.mono beforeAll))

/-- What follows the assignments reads as the body, up to blanks at the end. -/
theorem reads_body {fuel : Nat} {state : ParserState} {bindings : List (NameId × NodeId)}
    {read : List (String × Tree String)} {body : Tree String} {blanks : List Char}
    (named : body.Named IsName) (enough : body.chars.length ≤ fuel)
    (holds : state.cursor.Holds (body.chars ++ (blanks ++ []))) (separated : Separated blanks [])
    (binds : state.Binds bindings read) :
    Reads (statements (fuel + 1) bindings) state [] fun result after =>
      after.Denotes result.1 (body.wrap read.reverse) ∧ result.2 = read.length := by
  rw [statements]
  refine (reads_position holds).bind fun _ _ toStart holds _ => ?_
  refine (reads_expression named enough holds separated).bind
    fun id _ toBody holds denotes => ?_
  refine (reads_atEnd_true holds).bind fun ended _ toEnd holds same => ?_
  rw [same, if_pos rfl]
  have before := toStart.trans (toBody.trans toEnd)
  exact (reads_bindAll holds (denotes.mono toEnd) (binds.mono before)).bind
    fun root _ _ holds denotes => .pure holds ⟨denotes, binds.length_eq⟩

/-- The text of a program reads as its body inside its assignments, those that were read before
included. -/
theorem reads_statements {body : Tree String} {pending : List (String × Tree String)}
    (named : body.Named IsName) (each : ∀ binding ∈ pending, BindingNamed binding) :
    ∀ {fuel : Nat} {state : ParserState} {bindings : List (NameId × NodeId)}
      {read : List (String × Tree String)}, (programChars body pending).length < fuel →
      state.cursor.Holds (programChars body pending) → state.Binds bindings read →
        Reads (statements fuel bindings) state [] fun result after =>
          after.Denotes result.1 (body.wrap (read.reverse ++ pending)) ∧
            result.2 = read.length + pending.length := by
  induction pending with
  | nil =>
      intro fuel state bindings read enough holds binds
      obtain ⟨fuel, rfl⟩ := Nat.exists_eq_succ_of_ne_zero (Nat.ne_zero_of_lt enough)
      rw [programChars] at enough holds
      rw [← List.append_nil body.chars] at holds
      rw [List.append_nil]
      exact reads_body named (Nat.le_of_lt_succ enough) holds separated_end binds
  | cons binding pending ih =>
      intro fuel state bindings read enough holds binds
      obtain ⟨fuel, rfl⟩ := Nat.exists_eq_succ_of_ne_zero (Nat.ne_zero_of_lt enough)
      have eachPending : ∀ binding ∈ pending, BindingNamed binding :=
        fun binding among => each binding (List.mem_cons_of_mem _ among)
      have separated : Separated (gapChars pending) (programChars body pending) :=
        separated_blanks (blank_gapChars pending) (stops_programChars named eachPending)
      rw [programChars, List.length_append, List.length_append] at enough
      refine reads_assignment (each binding List.mem_cons_self) (by omega) holds separated binds
        fun holds binds => ?_
      have shorter : (programChars body pending).length < fuel := by
        have gap : 0 < (gapChars pending).length := Nat.succ_pos _
        omega
      refine (ih eachPending shorter holds binds).mono fun result _ _ found => ⟨?_, ?_⟩
      · rw [List.append_cons, ← List.reverse_cons]
        exact found.1
      · rw [found.2, List.length_cons, List.length_cons]
        omega

end Parser

namespace Tree

theorem plain_chars {tree : Tree String} (named : tree.Named IsName) :
    ∀ char ∈ tree.chars, char ≠ Rune.comment := by
  have plainName : ∀ {text : String}, IsName text → ∀ char ∈ text.toList, char ≠ Rune.comment :=
    fun isName char among => (isName.2 char among).2
  induction tree with
  | var name =>
      rw [chars_var]
      exact plainName named
  | lambda param body ih =>
      rw [chars_lambda]
      simp only [List.forall_mem_cons, List.forall_mem_append]
      exact ⟨by decide, plainName named.1, by decide, ih named.2⟩
  | apply func arg funcIh argIh =>
      rw [chars_apply]
      split
      · simp only [List.forall_mem_cons, List.forall_mem_append]
        exact ⟨by decide, by decide, funcIh named.1, by decide, by decide, argIh named.2,
          by decide, List.forall_mem_nil _⟩
      · simp only [List.forall_mem_cons, List.forall_mem_append]
        exact ⟨by decide, funcIh named.1, by decide, argIh named.2, by decide,
          List.forall_mem_nil _⟩

end Tree

theorem plain_programChars {body : Tree String} {bindings : List (String × Tree String)}
    (named : body.Named IsName) (each : ∀ binding ∈ bindings, BindingNamed binding) :
    ∀ char ∈ programChars body bindings, char ≠ Rune.comment := by
  induction bindings with
  | nil => exact Tree.plain_chars named
  | cons binding bindings ih =>
      obtain ⟨isName, sideNamed⟩ := each binding List.mem_cons_self
      rw [programChars, lineChars]
      simp only [List.forall_mem_cons, List.forall_mem_append]
      refine ⟨⟨fun char among => (isName.2 char among).2, by decide, by decide, by decide,
        Tree.plain_chars sideNamed⟩, fun char among => ?_,
        ih fun other among => each other (List.mem_cons_of_mem _ among)⟩
      rintro rfl
      exact absurd (blank_gapChars bindings _ among) (by decide)

namespace Program

theorem reads_program {reading : NameTable} {feed : Feed} {body : Tree String}
    {bindings : List (String × Tree String)} (named : body.Named IsName)
    (each : ∀ binding ∈ bindings, BindingNamed binding)
    (chars : feed = Feed.ofChars (programChars body bindings)) :
    Parser.Reads (do
        Parser.scan Cursor.skipBlanks
        Parser.statements (feed.length + 2) [])
      ⟨{ feed }, .empty, reading⟩ [] fun result after =>
        after.Denotes result.1 (body.wrap bindings) ∧ result.2 = bindings.length := by
  have enough : (programChars body bindings).length < feed.length + 2 := by
    have shorter := Feed.length_le_length_ofChars (programChars body bindings)
    rw [← chars] at shorter
    omega
  have holds : ({ feed } : Cursor).Holds ([] ++ programChars body bindings) := by
    rw [chars]
    exact Cursor.holds_start (plain_programChars named each)
  refine (Parser.reads_skipBlanks holds (List.forall_mem_nil _)
    (stops_programChars named each)).bind fun _ _ _ holds _ => ?_
  refine (Parser.reads_statements named each enough holds .nil).mono fun result _ _ found => ?_
  rw [List.length_nil, Nat.zero_add] at found
  exact found

theorem parse_of_reads {reading : NameTable} (coherent : reading.Coherent) {text : String}
    {tree : Tree String} {assignments : Nat}
    (reads : Parser.Reads (do
        Parser.scan Cursor.skipBlanks
        Parser.statements ((Feed.ofString text).length + 2) [])
      ⟨{ feed := .ofString text }, .empty, reading⟩ [] fun result after =>
        after.Denotes result.1 tree ∧ result.2 = assignments) :
    ∃ program later, parse (.ofString text) reading = (.ok program, later) ∧
      program.namedTree? later = some tree ∧ program.assignments = assignments := by
  obtain ⟨⟨root, count⟩, after, ran, before, _, denotes, same⟩ := reads
  have parsed : parse (.ofString text) reading = (.ok ⟨after.arena, root, count⟩, after.names) := by
    rw [parse, ran]
  obtain ⟨printable, _⟩ := printable_parse coherent parsed
  obtain ⟨inner, denoted, _⟩ := printable.arena.exists_tree? printable.root
  refine ⟨_, _, parsed, ?_, same⟩
  rw [namedTree?, denoted, Option.map_some,
    denotes.map_text (before.names.coherent coherent) denoted]

theorem parse_programChars {reading : NameTable} (coherent : reading.Coherent) {text : String}
    {body : Tree String} {bindings : List (String × Tree String)} (named : body.Named IsName)
    (each : ∀ binding ∈ bindings, BindingNamed binding)
    (chars : text.toList = programChars body bindings) :
    ∃ program later, parse (.ofString text) reading = (.ok program, later) ∧
      program.namedTree? later = some (body.wrap bindings) ∧
      program.assignments = bindings.length := by
  have feed : Feed.ofString text = Feed.ofChars (programChars body bindings) := by
    rw [Feed.ofString_eq_ofChars, chars]
  exact parse_of_reads coherent (reads_program named each feed)

/-- Parsed with the names of `reading`, the text is a program with this tree and this number of
assignments. -/
def ParsesAs (text : String) (reading : NameTable) (tree : Tree String) (assignments : Nat) :
    Prop :=
  ∃ program later, parse (.ofString text) reading = (.ok program, later) ∧
    program.namedTree? later = some tree ∧ program.assignments = assignments

theorem Printable.exists_namedTree? {program : Program} {names : NameTable}
    (printable : program.Printable names) :
    ∃ tree, program.namedTree? names = some tree ∧ tree.Named IsName := by
  obtain ⟨tree, denoted, named⟩ := printable.arena.exists_tree? printable.root
  refine ⟨tree.map names.text, ?_, Tree.named_map.mpr named⟩
  rw [namedTree?, denoted, Option.map_some]

theorem parsesAs_text {reading : NameTable} (coherent : reading.Coherent) {program : Program}
    {names : NameTable} {tree : Tree String} (shown : program.namedTree? names = some tree)
    (named : tree.Named IsName) :
    ∃ text bindings body, program.text? names = some text ∧
      program.split? = some (bindings, body) ∧ ParsesAs text reading tree bindings.length := by
  obtain ⟨text, bindings, body, printed, split, lengths, chars⟩ := text?_of_namedTree? shown
  obtain ⟨each, bodyNamed⟩ := @Tree.named_peel _ _ program.assignments _ named
  obtain ⟨again, later, parsed, same, count⟩ := parse_programChars coherent bodyNamed each chars
  refine ⟨text, bindings, body, printed, split, again, later, parsed, ?_, ?_⟩
  · rw [same, Tree.wrap_peel]
  · rw [count, lengths]

theorem parsesAs_rootText {reading : NameTable} (coherent : reading.Coherent) {tree : Tree String}
    (named : tree.Named IsName) : ParsesAs tree.text reading tree 0 :=
  @parse_programChars reading coherent tree.text tree [] named
    (fun _ among => (List.not_mem_nil among).elim) rfl

/-- The end of the line after the text of a tree changes nothing. -/
theorem parsesAs_line {reading : NameTable} (coherent : reading.Coherent) {tree : Tree String}
    (named : tree.Named IsName) : ParsesAs (tree.text ++ "\n") reading tree 0 := by
  have chars : (tree.text ++ "\n").toList = tree.chars ++ (['\n'] ++ []) := by
    rw [String.toList_append]
    rfl
  have plain : ∀ char ∈ tree.chars ++ (['\n'] ++ []), char ≠ Rune.comment :=
    List.forall_mem_append.mpr ⟨Tree.plain_chars named, List.forall_mem_singleton.mpr (by decide)⟩
  have enough := Feed.length_le_length_ofChars (tree.text ++ "\n").toList
  rw [← Feed.ofString_eq_ofChars, chars, List.length_append] at enough
  have holds : ({ feed := .ofString (tree.text ++ "\n") } : Cursor).Holds
      ([] ++ (tree.chars ++ (['\n'] ++ []))) := by
    rw [Feed.ofString_eq_ofChars, chars]
    exact Cursor.holds_start plain
  have lineEnd : Separated ['\n'] [] :=
    separated_blanks (List.forall_mem_singleton.mpr (by decide)) fun _ same => by cases same
  refine parse_of_reads coherent ((Parser.reads_skipBlanks holds (List.forall_mem_nil _)
    (Tree.stops_chars named _)).bind fun _ _ _ holds _ => ?_)
  exact Parser.reads_body named (by omega) holds lineEnd .nil

theorem text?_congr {first second : Program} {names others : NameTable} {tree : Tree String}
    (shown : first.namedTree? names = some tree) (again : second.namedTree? others = some tree)
    (same : first.assignments = second.assignments) :
    first.text? names = second.text? others := by
  obtain ⟨text, _, _, printed, _, _, chars⟩ := text?_of_namedTree? shown
  obtain ⟨other, _, _, printedAgain, _, _, charsAgain⟩ := text?_of_namedTree? again
  rw [same, ← charsAgain] at chars
  rw [printed, printedAgain, String.toList_injective chars]

theorem text?_fixed {reading : NameTable} (coherent : reading.Coherent) {program : Program}
    {names : NameTable} (printable : program.Printable names)
    {bindings : List (NameId × NodeId)} {body : NodeId}
    (splits : program.split? = some (bindings, body))
    (count : bindings.length = program.assignments) :
    ∃ text again later, program.text? names = some text ∧
      parse (.ofString text) reading = (.ok again, later) ∧ again.text? later = some text := by
  obtain ⟨tree, shown, named⟩ := printable.exists_namedTree?
  obtain ⟨text, others, last, printed, split, again, later, parsed, same, countAgain⟩ :=
    @parsesAs_text reading coherent program names tree shown named
  cases splits.symm.trans split
  refine ⟨text, again, later, printed, parsed, ?_⟩
  rw [← printed]
  exact text?_congr same shown (countAgain.trans count)

/-- Printing and parsing again keeps the tree of every program that can be printed, with the
assignments it splits into, and the whole expression prints to the same tree without them. Every
program that was parsed can be printed and splits into its assignments, so its text stays. -/
theorem printing_then_parsing_keeps_program {reading : NameTable}
    (built : NameTable.empty.Interns reading) :
    (∀ (program : Program) (names : NameTable), program.Printable names →
      ∃ tree bindings body text rootText, program.namedTree? names = some tree ∧
        program.split? = some (bindings, body) ∧
        program.text? names = some text ∧ ParsesAs text reading tree bindings.length ∧
        program.rootText? names = some rootText ∧ ParsesAs rootText reading tree 0) ∧
    ∀ (feed : Feed) (names later : NameTable) (program : Program),
      NameTable.empty.Interns names → parse feed names = (.ok program, later) →
        program.Printable later ∧
        (∃ bindings body, program.split? = some (bindings, body) ∧
          bindings.length = program.assignments) ∧
        ∃ text again last, program.text? later = some text ∧
          parse (.ofString text) reading = (.ok again, last) ∧ again.text? last = some text := by
  have coherent := built.coherent NameTable.coherent_empty
  constructor
  · intro program names printable
    obtain ⟨tree, shown, named⟩ := printable.exists_namedTree?
    obtain ⟨text, bindings, body, printed, split, parses⟩ :=
      @parsesAs_text reading coherent program names tree shown named
    exact ⟨tree, bindings, body, text, tree.text, shown, split, printed, parses,
      rootText?_of_namedTree? shown, parsesAs_rootText coherent named⟩
  · intro feed names later program namesBuilt parsed
    obtain ⟨printable, bindings, body, count, split⟩ :=
      printable_parse (namesBuilt.coherent NameTable.coherent_empty) parsed
    exact ⟨printable, ⟨bindings, body, split, count⟩,
      text?_fixed coherent printable split count⟩

def namedIdentity : Program where
  arena := (((Arena.empty.add (.var 1)).2.add (.lambda 1 0)).2.add (.apply 1 1)).2
  root := 2
  assignments := 5

theorem namedIdentity_parses_back :
    namedIdentity.Printable (NameTable.empty.intern "x").2 ∧
      namedIdentity.text? (NameTable.empty.intern "x").2 = some "x = λx.x\n\nx" ∧
      ParsesAs "x = λx.x\n\nx" .empty
        (.apply (.lambda "x" (.var "x")) (.lambda "x" (.var "x"))) 1 := by
  have isName : IsName ((NameTable.empty.intern "x").2.text 1) := by
    rw [show (NameTable.empty.intern "x").2.text 1 = "x" by decide]
    exact ⟨by decide, List.forall_mem_singleton.mpr ⟨by decide, by decide⟩⟩
  have printable : namedIdentity.Printable (NameTable.empty.intern "x").2 :=
    ⟨by decide, .add (.add (.add (Arena.tidy_empty _) isName) ⟨isName, by decide⟩)
      ⟨by decide, by decide⟩⟩
  obtain ⟨tree, bindings, body, text, _, shown, split, printed, parses, _⟩ :=
    (@printing_then_parsing_keeps_program .empty .refl).1 _ _ printable
  have sameTree : namedIdentity.namedTree? (NameTable.empty.intern "x").2 =
      some (.apply (.lambda "x" (.var "x")) (.lambda "x" (.var "x"))) := by decide
  have sameSplit : namedIdentity.split? = some ([(1, 1)], 0) := by decide
  have sameText : namedIdentity.text? (NameTable.empty.intern "x").2 =
      some "x = λx.x\n\nx" := by decide
  cases sameTree.symm.trans shown
  cases sameSplit.symm.trans split
  cases sameText.symm.trans printed
  exact ⟨printable, sameText, parses⟩

end Program

end LambdaMachine
