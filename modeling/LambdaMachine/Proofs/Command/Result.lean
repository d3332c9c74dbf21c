import LambdaMachine.Proofs.Command.Silence
import LambdaMachine.Proofs.Machine.Limit
import LambdaMachine.Proofs.Program.RoundTrip

/-!
What a program ends with, if it ends well, is a closure whose abstraction can be printed and read
back. No function of the host and no byte is ever the value of a program.
-/

namespace LambdaMachine

def Closure.abstraction? (closure : Closure) (names : NameTable) : Option (Tree String) :=
  (closure.code.arena.tree? closure.body).map fun body =>
    .lambda (names.text closure.param) (body.map names.text)

theorem Closure.Printable.exists_abstraction {closure : Closure} {names : NameTable}
    (printable : closure.Printable names) (coherent : names.Coherent) :
    ∃ tree, closure.abstraction? names = some tree ∧ tree.Named IsName ∧
      closure.text names = tree.text := by
  obtain ⟨body, denoted, named⟩ := printable.arena.exists_tree? printable.body
  refine ⟨.lambda (names.text closure.param) (body.map names.text), ?_, ⟨?_, ?_⟩, ?_⟩
  · rw [abstraction?, denoted, Option.map_some]
  · exact printable.param.isName coherent
  · exact Tree.named_map.mpr (named.mono fun name holds => holds.isName coherent)
  · rw [Closure.text, Arena.text?, denoted, Option.map_some, Option.getD_some, Tree.text_lambda]

namespace Command

/-- A launch sets out from tables that are right, and from a clean program in a clean
environment. -/
theorem exists_clean_launch {program : Program} {names : NameTable} (coherent : names.Coherent)
    (inside : program.root < program.arena.size) (tidy : program.arena.Tidy names.Holds)
    (options : Options) (io : ByteIo) :
    ∃ env code state catalog, launch options program names io =
        ⟨⟨Surroundings.host, options.maxSteps, ⟨[env], []⟩⟩, .node env code program.root, state⟩ ∧
      Machine.Sound catalog state ∧ env.Known catalog ∧ state.mint.names.Coherent ∧
      (Machine.Task.node env code program.root).erase.Clean state.mint.names := by
  obtain ⟨env, ident, mint, catalog, launched, bounded, known, interns, clean, _⟩ :=
    exists_launch program names
  refine ⟨env, _, _, catalog, launched options io, ⟨bounded, Memo.lawful_empty _ _ _⟩, known,
    interns.coherent coherent, clean.erase, inside, ?_⟩
  exact tidy.mono fun _ holds => holds.mono interns

theorem exists_printable_of_answers {program : Program} {names : NameTable}
    (coherent : names.Coherent) (inside : program.root < program.arena.size)
    (tidy : program.arena.Tidy names.Holds) {options : Options} {io : ByteIo} {fuel : Nat}
    {result : Evaluated} {state : MachineState Surroundings}
    (ended : (launch options program names io).answers fuel = some (.ok result, state)) :
    state.mint.names.Coherent ∧
      ∃ closure, result.value = .closure closure ∧ closure.Printable state.mint.names := by
  obtain ⟨env, code, start, catalog, launched, sound, known, startCoherent, clean⟩ :=
    exists_clean_launch coherent inside tidy options io
  rw [launched] at ended
  have unlimited := Machine.run_withoutLimit ended fun _ same => by cases same
  obtain ⟨outcome, evaluates, same⟩ := Machine.run_iff_evaluates.mp ⟨fuel, unlimited⟩
  cases outcome with
  | error error => cases same
  | ok found =>
      cases same
      have plain := (evaluates.faithful rfl rfl sound known).steady.plain
      refine ⟨plain.interns.coherent startCoherent, ?_⟩
      have resultClean := plain.clean startCoherent clean _ rfl
      obtain ⟨erased, isClosure, printable⟩ := resultClean.exists_printable
      obtain ⟨closure, value, rfl⟩ := Value.erase_eq_closure isClosure
      exact ⟨closure, value, Closure.printable_erase.mp printable⟩

/-- Whatever a program does with what the prelude hands to it, and under every step limit: a program
that ends well ends with a closure. The line that is printed for it is a program without assignments
whose tree is the abstraction of that closure. -/
theorem results_are_printed_abstractions (source : Feed) (options : Options) (io : ByteIo)
    (sink : Sink) {start : Launch} {fuel : Nat} {result : Evaluated}
    {state : MachineState Surroundings}
    (prepared : prepare source options io sink = .inr start)
    (ended : start.answers fuel = some (.ok result, state)) :
    ∃ closure tree, result.value = .closure closure ∧
      closure.abstraction? state.mint.names = some tree ∧
      (options.mode = .result → state.world.io.output.failure = none → sink.failure = none →
        run fuel source options io sink = some ⟨.ok (), state.world.io.flush,
          { sink with text := sink.text ++ (tree.text ++ "\n") }⟩) ∧
      ∀ reading, NameTable.empty.Interns reading →
        Program.ParsesAs tree.text reading tree 0 ∧
        Program.ParsesAs (tree.text ++ "\n") reading tree 0 := by
  obtain ⟨program, names, parsed, same⟩ := exists_launch_of_prepare prepared
  rw [same] at prepared ended
  have interns := Program.interns_parse source .empty
  rw [parsed] at interns
  obtain ⟨inside, tidy, _⟩ := Program.tidy_parse parsed
  obtain ⟨coherent, closure, isClosure, printable⟩ :=
    exists_printable_of_answers (interns.coherent NameTable.coherent_empty) inside tidy ended
  obtain ⟨tree, shown, named, text⟩ := printable.exists_abstraction coherent
  refine ⟨closure, tree, isClosure, shown, fun mode flushes writes => ?_, fun reading built => ?_⟩
  · rw [Launch.answers] at ended
    rw [run, prepared]
    dsimp only
    rw [ended, Option.map_some]
    simp only [conclude, flushes]
    rw [mode, isClosure, Value.text, text, Report.ofLine, Sink.write, writes]
  · have readingCoherent := built.coherent NameTable.coherent_empty
    exact ⟨Program.parsesAs_rootText readingCoherent named,
      Program.parsesAs_line readingCoherent named⟩

/-- The numeral for zero goes through the host and comes back. -/
theorem printed_zero_reads_back :
    let source := Feed.ofString "(PRINT_BYTE \\f.\\x.x)"
    let options : Options := { mode := .result, maxSteps := some 30 }
    ∃ start result state closure tree,
      prepare source options ⟨.silent, .empty⟩ {} = .inr start ∧
      start.answers 60 = some (.ok result, state) ∧ result.value = .closure closure ∧
      closure.abstraction? state.mint.names = some tree ∧ tree.text ++ "\n" = "λf.λx.x\n" ∧
      Program.ParsesAs "λf.λx.x\n" .empty tree 0 := by
  intro source options
  have launches : (prepare source options ⟨.silent, .empty⟩ {}).isRight = true := by
    decide +kernel
  have shown : (run 60 source options ⟨.silent, .empty⟩ {}).map
      (fun report => (report.outcome.isOk, report.sink.text)) = some (true, "λf.λx.x\n") := by
    decide +kernel
  obtain ⟨start, prepared⟩ := Sum.isRight_iff.mp launches
  obtain ⟨report, ran, same⟩ := Option.map_eq_some_iff.mp shown
  rw [run, prepared] at ran
  obtain ⟨⟨outcome, state⟩, ended, rfl⟩ := Option.map_eq_some_iff.mp ran
  cases flushes : state.world.io.output.failure with
  | some text =>
      simp only [conclude, flushes] at same
      cases (Prod.mk.inj same).1
  | none =>
      cases outcome with
      | error error =>
          simp only [conclude, flushes] at same
          cases (Prod.mk.inj same).1
      | ok result =>
          obtain ⟨closure, tree, isClosure, abstraction, reports, parses⟩ :=
            results_are_printed_abstractions source options ⟨.silent, .empty⟩ {} prepared ended
          rw [reports rfl flushes rfl, Option.map_some] at shown
          have line : "" ++ (tree.text ++ "\n") = "λf.λx.x\n" :=
            (Prod.mk.inj (Option.some.inj shown)).2
          rw [String.empty_append] at line
          exact ⟨start, result, state, closure, tree, prepared, ended, isClosure, abstraction, line,
            line ▸ (parses .empty .refl).2⟩

end Command

end LambdaMachine
