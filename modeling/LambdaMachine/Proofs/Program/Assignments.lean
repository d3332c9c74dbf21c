import LambdaMachine.Proofs.Machine.Assignments
import LambdaMachine.Proofs.Prelude.Foreign
import LambdaMachine.Proofs.Program.Layout
import LambdaMachine.Proofs.Program.Readers

/-!
Programs with assignments. A program that is parsed from a source has the assignments that are
written there, and to evaluate it is to evaluate their right-hand sides in order and then the body.
-/

namespace LambdaMachine

theorem Tree.peel_wrap {ν : Type} (body : Tree ν) (bindings : List (ν × Tree ν)) :
    (body.wrap bindings).peel bindings.length = (bindings, body) := by
  induction bindings with
  | nil => rfl
  | cons binding bindings ih =>
      obtain ⟨param, side⟩ := binding
      rw [wrap, List.length_cons, peel, ih]

namespace Program

structure Assigns (program : Program) (names : NameTable) (script : Script)
    (bindings : List (NameId × NodeId)) (body : NodeId) : Prop where
  split : program.split? = some (bindings, body)
  count : bindings.length = program.assignments
  sides : (bindings.mapM program.arena.binding?).map (List.map (Tree.renameBinding names.text)) =
    some script.bindings
  last : (program.arena.tree? body).map (Tree.map names.text) = some script.last

theorem exists_assigns {source : String} {names later : NameTable} {program : Program}
    (built : NameTable.empty.Interns names)
    (parsed : parse (.ofString source) names = (.ok program, later)) :
    ∃ (derivation : Derivation (uncommented false source.toList))
      (bindings : List (NameId × NodeId)) (body : NodeId),
        program.Assigns later derivation.script bindings body := by
  obtain ⟨derivation, _, assignments⟩ := exists_derivation_of_parse parsed
  obtain ⟨again, table, sameParse, shown, _⟩ :=
    ((parsesAs_iff_derivation source built).1 _ _).mpr ⟨derivation, rfl, rfl⟩
  cases parsed.symm.trans sameParse
  obtain ⟨tree, denoted, same⟩ := Option.map_eq_some_iff.mp shown
  obtain ⟨bindings, body, split, sides, last⟩ :=
    @Arena.splitFrom?_of_tree? program.arena program.assignments program.root tree denoted
  obtain ⟨_, _, _, _, count, sameSplit⟩ := tidy_parse parsed
  cases split.symm.trans sameSplit
  have layers := assignments.trans derivation.script.length_bindings.symm
  have peeled := Tree.peel_map later.text program.assignments tree
  rw [same, layers, ← derivation.script.wrap_bindings, Tree.peel_wrap] at peeled
  rw [layers] at sides last
  refine ⟨derivation, bindings, body, split, count, ?_, ?_⟩
  · rw [sides]
    exact congrArg some (congrArg Prod.fst peeled).symm
  · rw [last]
    exact congrArg some (congrArg Prod.snd peeled).symm

end Program

namespace Machine

variable {World : Type} {alike : Heap → (Ident → Ident) → World → World → Prop}

/-- Evaluates the assignments of a program in their order and then the body. As in the evaluation of
the whole program its arena becomes shared code first. -/
def evaluateAssignments (machine : Machine World) (fuel : Nat) (env : Env) (program : Program)
    (bindings : List (NameId × NodeId)) (body : NodeId) (state : MachineState World) :
    Option (Except EvalError Value × MachineState World) :=
  let (ident, mint) := state.mint.issue
  machine.evaluateInOrder fuel ⟨ident, program.arena⟩ body bindings env { state with mint }

def withLog (state : MachineState World) (calls : List (Builtin × Value)) :
    MachineState (World × List (Builtin × Value)) :=
  ⟨state.mint, state.memo, state.counters, (state.world, calls)⟩

theorem Consistent.issue {machine : Machine World} {env : Env} {state : MachineState World}
    (blind : machine.host.Blind alike) (consistent : machine.Consistent alike env state) :
    machine.Consistent alike env { state with mint := state.mint.issue.2 } := by
  obtain ⟨heap, next, rests, envInside, memoInside, settled⟩ := consistent
  have grows := heap.grows_skip 1
  exact ⟨heap.skip 1, congrArg (· + 1) next, rests.mono grows, Env.In.mono grows envInside,
    memoInside.mono grows, blind.grows grows settled⟩

theorem Consistent.withLog {machine : Machine World} {env : Env} {state : MachineState World}
    (consistent : machine.Consistent alike env state) (calls : List (Builtin × Value)) :
    machine.logged.Consistent (LogsAlike alike) env (withLog state calls) := by
  obtain ⟨heap, next, rests, envInside, memoInside, settled⟩ := consistent
  exact ⟨heap, next, ⟨rests.envs, rests.values, rests.frames⟩, envInside, memoInside, settled, rfl⟩

/-- To evaluate a program with assignments is to evaluate their right-hand sides in the order in
which they are written, each of them once and where the names before it are bound, and then the
body: with the same calls of host functions, the same first error or the same value, and on the way
to a value two steps more for each assignment. Only these steps can make a limit stop it sooner, and
then it has made the first ones of the calls. What goes on for ever makes the same calls, too. The
program may come from any reader; what that has delivered is the text. -/
theorem assignments_run_in_order {feed : Feed} {names later : NameTable} {program : Program}
    (built : NameTable.empty.Interns names)
    (parsed : Program.parse feed names = (.ok program, later)) (machine : Machine World)
    (blind : machine.host.Blind alike) {env : Env} {state : MachineState World}
    (consistent : machine.Consistent alike env state) (calls : List (Builtin × Value)) :
    ∃ text : String, feed.Carries text.toUTF8.toList ∧
      ∃ (derivation : Derivation (uncommented false text.toList))
        (bindings : List (NameId × NodeId)) (body : NodeId),
        program.Assigns later derivation.script bindings body ∧
        machine.RunsInOrder alike (2 * bindings.length)
          (fun machine fuel => machine.evaluateProgram fuel env program (withLog state calls))
          (fun machine fuel => machine.evaluateAssignments fuel env program bindings body
            (withLog state calls)) ∧
        ∀ fuel,
          (machine.logged.evaluateProgram fuel env program (withLog state calls)).map
              (fun ending => (ending.1, withoutLog ending.2)) =
            machine.evaluateProgram fuel env program state ∧
          (machine.logged.evaluateAssignments fuel env program bindings body
              (withLog state calls)).map (fun ending => (ending.1, withoutLog ending.2)) =
            machine.evaluateAssignments fuel env program bindings body state := by
  obtain ⟨text, carries, fromText⟩ := Program.parse_eq_ok_iff.mp parsed
  obtain ⟨derivation, bindings, body, assigns⟩ := Program.exists_assigns built fromText
  have layers := layers_of_splitFrom? assigns.split
  let code : Code := ⟨state.mint.nextIdent, program.arena⟩
  have logged := blind_logged blind
  have issued := (consistent.withLog calls).issue logged
  have agrees := layers_agree_in_order code logged issued layers (Nat.lt_succ_self _)
  have keepsUp := layers_keep_up code logged issued layers (Nat.lt_succ_self _)
  refine ⟨text, carries, derivation, bindings, body, assigns, agrees.runsInOrder keepsUp,
    fun fuel => ⟨?_, ?_⟩⟩
  · exact (machine.projects_logged.evaluate fuel env _ _ _).symm
  · exact (machine.projects_logged.evaluateInOrder fuel _ _ bindings env _).symm

def sayEnv : Env :=
  .bind 1 4 (.builtin ⟨0, "say", .echo false, .empty⟩) .empty

def greeting : Program where
  arena := ⟨#[.var 1, .var 2, .lambda 2 1, .var 3, .var 4, .var 1, .apply 4 5, .var 3, .var 1,
    .apply 7 8, .lambda 3 9, .apply 10 6, .lambda 1 11, .apply 12 2]⟩
  root := 13
  assignments := 2

def sayMachine : Machine (Surroundings × List Value) :=
  ⟨Surroundings.hostWith Keeper.host, none, ⟨[], []⟩⟩

def SayAlike (heap : Heap) (label : Ident → Ident) (world image : Surroundings × List Value) :
    Prop :=
  world.1 = image.1 ∧ Keeper.Alike heap label world.2 image.2

theorem blind_sayMachine : sayMachine.host.Blind SayAlike :=
  Surroundings.blind_hostWith Keeper.blind_host

theorem consistent_sayEnv (names : NameTable) (world : Surroundings) :
    sayMachine.Consistent SayAlike sayEnv ⟨⟨names, 2⟩, .empty, {}, world, []⟩ := by
  have builtinInside : (Value.builtin ⟨0, "say", .echo false, .empty⟩).In (Heap.empty.skip 1) :=
    Value.within_builtin.mpr ⟨Nat.zero_lt_one, Env.within_empty _ _⟩
  have inside : (Cell.binding 4 (.builtin ⟨0, "say", .echo false, .empty⟩) .empty).Within
      (Heap.empty.skip 1).next (Heap.empty.skip 1).cells :=
    ⟨builtinInside, Env.within_empty _ _⟩
  refine ⟨(Heap.empty.skip 1).add _ inside, rfl, ⟨?_, ?_, ?_⟩, Heap.in_addBinding inside, ?_, rfl,
    ?_, rfl⟩
  · exact fun _ among => (List.not_mem_nil among).elim
  · exact fun _ among => (List.not_mem_nil among).elim
  · exact fun _ among => (List.not_mem_nil among).elim
  · exact Memo.in_empty _
  · exact fun _ among => (List.not_mem_nil among).elim

theorem greeting_runs_in_order :
    let feed : Feed := .interruption :: Feed.ofString "a = \\x.x  b = (say a)  (b a)"
    let names := (Program.parse feed .empty).2
    let state : MachineState (Surroundings × List Value) :=
      ⟨⟨names, 2⟩, .empty, {}, ⟨⟨.silent, .empty⟩, #[]⟩, []⟩
    NameTable.empty.Interns .empty ∧ Program.parse feed .empty = (.ok greeting, names) ∧
      sayMachine.host.Blind SayAlike ∧ sayMachine.Consistent SayAlike sayEnv state ∧
      ∃ text : String, feed.Carries text.toUTF8.toList ∧
        ∃ (derivation : Derivation (uncommented false text.toList))
          (bindings : List (NameId × NodeId)) (body : NodeId),
          greeting.Assigns names derivation.script bindings body ∧
          sayMachine.RunsInOrder SayAlike (2 * bindings.length)
            (fun machine fuel => machine.evaluateProgram fuel sayEnv greeting (withLog state []))
            (fun machine fuel => machine.evaluateAssignments fuel sayEnv greeting bindings body
              (withLog state [])) ∧
          ∀ fuel,
            (sayMachine.logged.evaluateProgram fuel sayEnv greeting (withLog state [])).map
                (fun ending => (ending.1, withoutLog ending.2)) =
              sayMachine.evaluateProgram fuel sayEnv greeting state ∧
            (sayMachine.logged.evaluateAssignments fuel sayEnv greeting bindings body
                (withLog state [])).map (fun ending => (ending.1, withoutLog ending.2)) =
              sayMachine.evaluateAssignments fuel sayEnv greeting bindings body state := by
  intro feed names state
  have program : (Program.parse feed .empty).1 = .ok greeting := by decide +kernel
  have parsed : Program.parse feed .empty = (.ok greeting, names) := Prod.ext program rfl
  have consistent : sayMachine.Consistent SayAlike sayEnv state := consistent_sayEnv _ _
  exact ⟨.refl, parsed, blind_sayMachine, consistent,
    assignments_run_in_order .refl parsed sayMachine blind_sayMachine consistent []⟩

end Machine

end LambdaMachine
