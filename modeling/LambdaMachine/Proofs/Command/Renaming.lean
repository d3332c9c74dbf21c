import LambdaMachine.Proofs.Command.Silence
import LambdaMachine.Proofs.Prelude.Renaming

/-!
An evaluation depends on the tree of texts that a program denotes, and on nothing else of it: not on
the numbers of its names, and not on the order, the sharing or the leftovers of its nodes.
-/

namespace LambdaMachine

/-- What can be seen of the end of an evaluation. -/
structure Observation where
  outcome : Except EvalError String
  io : ByteIo
  counters : Counters

def Observation.ofEnding (ending : Except EvalError Evaluated × MachineState Surroundings) :
    Observation :=
  ⟨ending.1.map fun result => result.value.text ending.2.mint.names, ending.2.world.io,
    ending.2.counters⟩

theorem Observation.ofEnding_eq {glossary : Glossary}
    {ending ending' : Except EvalError Evaluated × MachineState Surroundings}
    (outcomes : OutcomesMatch glossary ending.1 ending'.1)
    (states : ending.2.Matches glossary ending'.2) : ofEnding ending = ofEnding ending' := by
  obtain ⟨outcome, state⟩ := ending
  obtain ⟨outcome', state'⟩ := ending'
  dsimp only at outcomes states
  rw [ofEnding, ofEnding]
  dsimp only
  rw [states.world, states.counters, states.mint.left, states.mint.right]
  cases outcomes with
  | error error => rfl
  | ok results => rw [Except.map, Except.map, results.value.text_eq]

namespace Command

variable {names names' : NameTable} {program program' : Program} {tree : Tree String}

structure Launch.Matches (glossary : Glossary) (start start' : Launch) : Prop where
  machine : start.machine.Matches start'.machine
  focus : start.focus.Matches glossary start'.focus
  state : start.state.Matches glossary start'.state

theorem exists_launches_match (built : NameTable.empty.Interns names)
    (built' : NameTable.empty.Interns names')
    (denotes : program.arena.Denotes names program.root tree)
    (denotes' : program'.arena.Denotes names' program'.root tree) (options : Options)
    (io : ByteIo) :
    ∃ glossary, Launch.Matches glossary (launch options program names io)
      (launch options program' names' io) := by
  let glossary : Glossary := ⟨names, names', built.coherent NameTable.coherent_empty,
    built'.coherent NameTable.coherent_empty⟩
  have nodes : glossary.Agree program.arena program.root program'.arena program'.root :=
    ⟨tree, denotes.shows built, denotes'.shows built'⟩
  have mints : Mint.Matches glossary { Mint.new with names } { Mint.new with names := names' } :=
    ⟨rfl, rfl, rfl⟩
  obtain ⟨later, grown, envs, mints⟩ := Prelude.environment_matches mints
  unfold launch
  generalize Prelude.environment [] { Mint.new with names } = made at envs mints ⊢
  generalize Prelude.environment [] { Mint.new with names := names' } = made' at envs mints ⊢
  obtain ⟨env, mint⟩ := made
  obtain ⟨env', mint'⟩ := made'
  dsimp only at envs mints ⊢
  refine ⟨later, ⟨rfl, Surroundings.host_renames, rfl, fun owners => ?_⟩, ?_, ?_⟩
  · funext reached
    simp only [Roots.reach, List.foldl_cons, List.foldl_nil, envs.reach_eq]
  · exact .node envs mints.idents (nodes.mono grown)
  · exact ⟨mints.issue, Memo.matches_empty later, rfl, rfl⟩

/-- Two programs that denote one tree of texts, each in arenas and with numbers of its own, are
still evaluated after the same number of steps, or are seen to end alike: with the same text or
error, the same bytes printed and left, and the same counts. -/
theorem evaluation_depends_on_texts (built : NameTable.empty.Interns names)
    (built' : NameTable.empty.Interns names')
    (denotes : program.arena.Denotes names program.root tree)
    (denotes' : program'.arena.Denotes names' program'.root tree) (options : Options)
    (io : ByteIo) (fuel : Nat) :
    ((launch options program names io).answers fuel).map Observation.ofEnding =
      ((launch options program' names' io).answers fuel).map Observation.ofEnding := by
  obtain ⟨glossary, same⟩ := exists_launches_match built built' denotes denotes' options io
  have runs := Machine.run_matches same.machine fuel same.focus .nil same.state
  rw [Launch.answers, Launch.answers]
  generalize Machine.run _ fuel _ [] _ = ending at runs ⊢
  generalize Machine.run _ fuel _ [] _ = ending' at runs ⊢
  cases runs with
  | none => rfl
  | some matching =>
      obtain ⟨later, outcomes, states⟩ := matching
      rw [Option.map_some, Option.map_some, Observation.ofEnding_eq outcomes states]

/-- Zero is printed by programs whose names are numbered and whose nodes are laid out the other way
round. -/
theorem printing_zero_depends_on_texts :
    let names := (((NameTable.empty.intern "PRINT_BYTE").2.intern "f").2.intern "x").2
    let names' := ((((NameTable.empty.intern "x").2.intern "unused").2.intern "f").2.intern
      "PRINT_BYTE").2
    let program : Program :=
      ⟨⟨#[.var 3, .lambda 3 0, .lambda 2 1, .var 1, .apply 3 2]⟩, 4, 0⟩
    let program' : Program :=
      ⟨⟨#[.apply 1 3, .var 4, .var 2, .lambda 3 4, .lambda 1 5, .var 1]⟩, 0, 0⟩
    let tree : Tree String := .apply (.var "PRINT_BYTE") (.lambda "f" (.lambda "x" (.var "x")))
    let options : Options := { mode := .output, maxSteps := some 30 }
    let io : ByteIo := ⟨.captured #[], .empty⟩
    program.arena.Denotes names program.root tree ∧
      program'.arena.Denotes names' program'.root tree ∧
      ((launch options program names io).answers 60).map Observation.ofEnding =
        ((launch options program' names' io).answers 60).map Observation.ofEnding ∧
      ((launch options program names io).answers 60).map
        (fun ending => (Observation.ofEnding ending).io.output.bytes) = some [0] := by
  intro names names' program program' tree options io
  have denotes : program.arena.Denotes names program.root tree :=
    ⟨.apply (.var 1) (.lambda 2 (.lambda 3 (.var 3))), by decide +kernel, by decide +kernel,
      by decide +kernel⟩
  have denotes' : program'.arena.Denotes names' program'.root tree :=
    ⟨.apply (.var 4) (.lambda 3 (.lambda 1 (.var 1))), by decide +kernel, by decide +kernel,
      by decide +kernel⟩
  have built : NameTable.empty.Interns names :=
    ((NameTable.Interns.refl.intern "PRINT_BYTE").intern "f").intern "x"
  have built' : NameTable.empty.Interns names' :=
    (((NameTable.Interns.refl.intern "x").intern "unused").intern "f").intern "PRINT_BYTE"
  refine ⟨denotes, denotes', ?_, by decide +kernel⟩
  exact evaluation_depends_on_texts built built' denotes denotes' options io 60

end Command

end LambdaMachine
