import LambdaMachine.Proofs.Program.Recognition
import LambdaMachine.Proofs.Value.Postorder

/-!
What the parser builds. Each production lays out the tree of what it reads behind the nodes that are
there already. A program lays out the targets and the right-hand sides of its assignments, then the
body, and then the pairs of nodes that wrap the body in the assignments, the last one first.
-/

namespace LambdaMachine

def binderNodes : List (NameId × NodeId) → NodeId → NodeId → List Node
  | [], _, _ => []
  | (name, side) :: earlier, root, base =>
      .lambda name root :: .apply base side :: binderNodes earlier (base + 1) (base + 2)

def binderRoot : List (NameId × NodeId) → NodeId → NodeId → NodeId
  | [], root, _ => root
  | _ :: earlier, _, base => binderRoot earlier (base + 1) (base + 2)

def Script.layOut : Script → List (NameId × NodeId) → NameTable → Arena →
    NodeId × NameTable × Arena
  | .body phrase, bindings, names, arena =>
      let (last, names, arena) := phrase.tree.layOut names arena
      (binderRoot bindings last arena.size, names,
        arena.append (binderNodes bindings last arena.size))
  | .assignment target name _ _ side rest, bindings, names, arena =>
      let number := (names.intern name).1
      let (_, names, arena) := target.tree.layOut names arena
      let (side, names, arena) := side.tree.layOut names arena
      rest.layOut ((number, side) :: bindings) names arena

namespace Parser

def Built (tree : Tree String) (names : NameTable) (arena : Arena) (id : NodeId)
    (after : ParserState) : Prop :=
  (id, after.names, after.arena) = tree.layOut names arena

section Built

variable {tree : Tree String} {names : NameTable} {arena : Arena} {id : NodeId}
  {after : ParserState}

theorem Built.node?_var {text : String} (built : Built (.var text) names arena id after) :
    after.arena.node? id = some (.var (names.intern text).1) := by
  obtain ⟨rfl, rest⟩ := Prod.mk.inj built
  rw [(Prod.mk.inj rest).2]
  exact arena.node?_add_size _

theorem Built.exists_text (built : Built tree names arena id after) {name : NameId}
    (node : after.arena.node? id = some (.var name)) : ∃ text, tree = .var text := by
  cases tree with
  | var text => exact ⟨text, rfl⟩
  | lambda param body =>
      obtain ⟨rfl, rest⟩ := Prod.mk.inj built
      rw [(Prod.mk.inj rest).2] at node
      cases node.symm.trans (Arena.node?_add_size _ _)
  | apply func arg =>
      obtain ⟨rfl, rest⟩ := Prod.mk.inj built
      rw [(Prod.mk.inj rest).2] at node
      cases node.symm.trans (Arena.node?_add_size _ _)

end Built

theorem follows_built {state : ParserState} {chars : List Char}
    (faces : state.cursor.Faces chars) {node : Node} {tree : Tree String} {names : NameTable}
    {arena : Arena} (laid : ((state.arena.add node).1, state.names, (state.arena.add node).2) =
      tree.layOut names arena) :
    Follows (addNode node) state (some ()) fun _ id after =>
      after.cursor.Faces chars ∧ Built tree names arena id after := by
  obtain ⟨id, after, ran, before, found⟩ := follows_addNode faces node
  cases ran
  exact ⟨_, _, rfl, before, found.1, laid⟩

def PhraseLays (fuel : Nat) : Prop :=
  ∀ (state : ParserState) (chars : List Char), state.cursor.Faces chars →
    Follows (expression fuel) state (Phrase.read? fuel chars) fun read id after =>
      after.cursor.Faces read.2 ∧ Built read.1.tree state.names state.arena id after

def PhrasesLay (fuel : Nat) : Prop :=
  ∀ (state : ParserState) (chars : List Char) (opening : Nat) (func : NodeId)
    (tree : Tree String) (names : NameTable) (arena : Arena), state.cursor.Faces chars →
    Built tree names arena func state →
      Follows (arguments fuel opening func) state (Phrases.read? fuel chars) fun read id after =>
        after.cursor.Faces read.2 ∧ Built (read.1.applied tree) names arena id after

theorem PhraseLays.succ {fuel : Nat} (parts : PhraseLays fuel) (others : PhrasesLay fuel) :
    PhraseLays (fuel + 1) := by
  intro state chars faces
  rw [expression]
  refine ((follows_peek faces).and fun _ _ => scan_keeps).after fun found _ _ looked => ?_
  obtain ⟨⟨rfl, faces, _⟩, names, arena⟩ := looked
  rw [← names, ← arena]
  cases chars with
  | nil => exact (follows_position faces).after fun _ _ _ _ => .fail _
  | cons rune chars =>
      rw [Phrase.read?]
      dsimp only [List.head?_cons]
      by_cases isGlyph : Rune.isLambda rune = true
      · rw [if_pos isGlyph, dif_pos isGlyph]
        refine ((follows_expect faces _).and fun _ _ => expect_keeps).bind
          fun read _ _ _ found => ?_
        obtain ⟨faces, names, arena⟩ := found
        rw [← names, ← arena]
        refine (follows_word faces).bind fun read number _ _ found => ?_
        obtain ⟨faces, numbered, arena⟩ := found
        rw [← arena]
        refine ((follows_expect faces _).and fun _ _ => expect_keeps).bind
          fun read _ _ _ found => ?_
        obtain ⟨faces, names, arena⟩ := found
        rw [← names] at numbered
        rw [← arena]
        refine (parts _ _ faces).bind fun read id _ _ found => ?_
        obtain ⟨faces, built⟩ := found
        refine follows_built faces ?_
        rw [Phrase.tree, Tree.layOut, ← numbered]
        dsimp only
        rw [← built]
      · rw [if_neg isGlyph, dif_neg isGlyph]
        by_cases opens : rune = '('
        · rw [if_pos opens, if_pos opens]
          refine ((follows_position faces).and fun _ _ => position_keeps).after
            fun opening _ _ found => ?_
          obtain ⟨faces, rfl⟩ := found
          refine ((follows_expect faces _).and fun _ _ => expect_keeps).bind
            fun read _ _ _ found => ?_
          obtain ⟨faces, names, arena⟩ := found
          rw [← names, ← arena]
          refine ((follows_atEnd faces).and fun _ _ => scan_keeps).after fun ended _ _ asked => ?_
          obtain ⟨⟨rfl, faces⟩, names, arena⟩ := asked
          rw [← names, ← arena]
          obtain ⟨afterOpening, rest⟩ := read
          cases rest with
          | nil =>
              rw [Phrase.read?_nil]
              exact .fail _
          | cons next rest =>
              refine (parts _ _ faces).bind fun read id _ _ found => ?_
              exact (others _ _ opening id _ _ _ found.1 found.2).map fun _ _ _ found => found
        · rw [if_neg opens, if_neg opens]
          by_cases isNameRune : Rune.isNameRune rune = true
          · rw [if_pos isNameRune]
            refine (follows_word faces).bind fun read number _ _ found => ?_
            obtain ⟨faces, numbered, arena⟩ := found
            refine follows_built faces ?_
            rw [Phrase.tree, Tree.layOut, ← numbered, arena]
          · rw [if_neg isNameRune, Word.read?_eq_none isNameRune]
            exact (follows_position faces).after fun _ _ _ _ => .fail _

theorem PhrasesLay.succ {fuel : Nat} (parts : PhraseLays fuel) (others : PhrasesLay fuel) :
    PhrasesLay (fuel + 1) := by
  intro state chars opening func tree names arena faces built
  rw [arguments]
  refine ((follows_peek faces).and fun _ _ => scan_keeps).after fun found _ _ looked => ?_
  obtain ⟨⟨rfl, faces, advanced⟩, sameNames, sameArena⟩ := looked
  unfold Built at built
  rw [← sameNames, ← sameArena] at built
  cases chars with
  | nil => exact .fail _
  | cons rune chars =>
      rw [Phrases.read?]
      dsimp only [List.head?_cons]
      by_cases closes : rune = ')'
      · rw [if_pos closes, if_pos closes]
        refine ((follows_advance advanced).and fun _ _ => advance_keeps).after
          fun _ _ _ found => ?_
        obtain ⟨faces, sameNames, sameArena⟩ := found
        rw [← sameNames, ← sameArena] at built
        refine ((follows_skipBlanks faces).and fun _ _ => scan_keeps).after fun _ _ _ found => ?_
        obtain ⟨faces, sameNames, sameArena⟩ := found
        rw [← sameNames, ← sameArena] at built
        exact .pure ⟨faces, built⟩
      · rw [if_neg closes, if_neg closes]
        refine (parts _ _ faces).bind fun read arg between _ found => ?_
        obtain ⟨faces, argBuilt⟩ := found
        have laid : ((between.arena.add (.apply func arg)).1, between.names,
            (between.arena.add (.apply func arg)).2) =
              (Tree.apply tree read.1.tree).layOut names arena := by
          rw [Tree.layOut, ← built]
          dsimp only
          rw [← argBuilt]
        refine (follows_built faces laid).after fun applied _ _ found => ?_
        exact (others _ _ opening applied _ _ _ found.1 found.2).map fun _ _ _ found => found

theorem lays_expression (fuel : Nat) : PhraseLays fuel ∧ PhrasesLay fuel := by
  induction fuel with
  | zero =>
      exact ⟨fun state _ _ => ⟨_, state, rfl⟩, fun state _ _ _ _ _ _ _ _ => ⟨_, state, rfl⟩⟩
  | succ fuel ih => exact ⟨ih.1.succ ih.2, .succ ih.1 ih.2⟩

theorem addNode_eq (node : Node) (state : ParserState) :
    addNode node state = .ok (state.arena.add node).1
      { state with arena := (state.arena.add node).2 } :=
  rfl

theorem bindAll_eq (root : NodeId) (bindings : List (NameId × NodeId)) (state : ParserState) :
    bindAll root bindings state = .ok (binderRoot bindings root state.arena.size)
      { state with arena := state.arena.append (binderNodes bindings root state.arena.size) } := by
  induction bindings generalizing root state with
  | nil =>
      rw [binderNodes, Arena.append_nil]
      rfl
  | cons binding earlier ih =>
      obtain ⟨name, side⟩ := binding
      have binder : state.arena.add (.lambda name root) =
          (state.arena.size, state.arena.append [.lambda name root]) := rfl
      have outer : (state.arena.append [.lambda name root]).add (.apply state.arena.size side) =
          (state.arena.size + 1,
            state.arena.append [.lambda name root, .apply state.arena.size side]) :=
        state.arena.add_append _ _
      rw [bindAll]
      simp only [bind, EStateM.bind, addNode_eq, binder, outer]
      rw [ih, Arena.size_append, Arena.append_append]
      rfl

theorem lays_statements (fuel : Nat) {state : ParserState} {chars : List Char}
    {bindings : List (NameId × NodeId)} (faces : state.cursor.Faces chars) :
    Follows (statements fuel bindings) state (Script.read? fuel chars) fun script result after =>
      (result.1, after.names, after.arena) = script.layOut bindings state.names state.arena ∧
        result.2 = bindings.length + script.assignments := by
  induction fuel generalizing state chars bindings with
  | zero => exact ⟨_, state, rfl⟩
  | succ fuel ih =>
      rw [statements, Script.read?]
      refine ((follows_position faces).and fun _ _ => position_keeps).after
        fun offset start _ found => ?_
      obtain ⟨faces, rfl⟩ := found
      refine ((lays_expression fuel).1 _ _ faces).bind fun read id between _ found => ?_
      obtain ⟨faces, built⟩ := found
      refine ((follows_atEnd faces).and fun _ _ => scan_keeps).after fun ended middle _ asked => ?_
      obtain ⟨⟨rfl, faces⟩, names, arena⟩ := asked
      replace built : Built read.1.tree start.names start.arena id middle := by
        rw [Built, names, arena]
        exact built
      dsimp only
      by_cases ended : read.2.head?.isNone = true
      · rw [if_pos ended, if_pos ended]
        refine .bind_ok (bindAll_eq _ _ _) ⟨.refl, Arena.extends_append _ _⟩ (.pure ⟨?_, rfl⟩)
        rw [Script.layOut, ← (show _ = _ from built)]
      · rw [if_neg ended, if_neg ended]
        refine ((follows_get faces).and fun _ _ => get_keeps).after fun found after _ got => ?_
        obtain ⟨⟨rfl, faces⟩, rfl⟩ := got
        split
        · rename_i number node
          split
          · rename_i name bare
            have target := built
            rw [bare] at target
            cases target.node?_var.symm.trans node
            refine ((follows_expect faces _).and fun _ _ => expect_keeps).bind
              fun mark _ _ _ found => ?_
            obtain ⟨faces, names, arena⟩ := found
            refine ((lays_expression fuel).1 _ _ faces).bind fun side sideId _ _ found => ?_
            obtain ⟨faces, sideBuilt⟩ := found
            rw [names, arena] at sideBuilt
            refine (ih faces).map fun script result after found => ?_
            rw [Script.layOut, ← (show _ = _ from built)]
            dsimp only
            rw [← (show _ = _ from sideBuilt)]
            refine ⟨found.1, ?_⟩
            rw [found.2, List.length_cons, Script.assignments]
            omega
          · rename_i other
            obtain ⟨text, shape⟩ := built.exists_text node
            exact (other text shape).elim
        · rename_i notName
          split
          · rename_i name bare
            rw [bare] at built
            exact (notName _ built.node?_var).elim
          · exact .fail _

end Parser

namespace Program

theorem lays_program (source : String) (names : NameTable) :
    Parser.Follows (do
        Parser.scan Cursor.skipBlanks
        Parser.statements ((Feed.ofString source).length + 2) [])
      ⟨{ feed := .ofString source }, .empty, names⟩
      (Script.read? ((Feed.ofString source).length + 2) (front source))
      fun script result after =>
        (result.1, after.names, after.arena) = script.layOut [] names .empty ∧
          result.2 = script.assignments := by
  refine ((Parser.follows_skipBlanks (Cursor.faces_start source)).and
    fun _ _ => Parser.scan_keeps).after fun _ _ _ found => ?_
  obtain ⟨faces, sameNames, sameArena⟩ := found
  refine (Parser.lays_statements _ faces).mono fun script result after found => ?_
  rw [sameNames, sameArena, List.length_nil, Nat.zero_add] at found
  exact found

/-- The program of a source is its derivation, laid out in an arena of its own. -/
theorem exists_derivation_of_parse {source : String} {names after : NameTable} {program : Program}
    (parsed : parse (.ofString source) names = (.ok program, after)) :
    ∃ derivation : Derivation (uncommented false source.toList),
      (program.root, after, program.arena) = derivation.script.layOut [] names .empty ∧
        program.assignments = derivation.script.assignments := by
  obtain ⟨script, read⟩ := (exists_parse_iff source names).mp ⟨program, after, parsed⟩
  obtain ⟨spelled, maximal⟩ := Script.read?_sound read
  refine ⟨⟨.front (uncommented false source.toList), script, ?_, maximal⟩, ?_⟩
  · rw [spelled]
    exact List.takeWhile_append_dropWhile
  · have laying := lays_program source names
    rw [read] at laying
    obtain ⟨result, reached, ran, _, laid⟩ := laying
    rw [parse, ran] at parsed
    cases parsed
    exact laid

end Program

end LambdaMachine
