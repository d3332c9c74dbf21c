import LambdaMachine.Proofs.Machine.Effort
import LambdaMachine.Proofs.Memo.Catalog

/-!
What a task achieves. It ends well, and what holds of its value, of the state it ends in and of the
number of host functions called is carried along, so that a rule for a whole follows from the rules
for its parts. There is no limit here.
-/

namespace LambdaMachine

structure MachineState.Quiet {World : Type} (state after : MachineState World) : Prop where
  memo : after.memo = state.memo
  world : after.world = state.world
  idents : state.mint.nextIdent ≤ after.mint.nextIdent

namespace MachineState.Quiet

variable {World : Type} {first second third : MachineState World}

theorem refl (state : MachineState World) : state.Quiet state :=
  ⟨rfl, rfl, Nat.le_refl _⟩

theorem trans (before : first.Quiet second) (after : second.Quiet third) : first.Quiet third :=
  ⟨after.memo.trans before.memo, after.world.trans before.world,
    Nat.le_trans before.idents after.idents⟩

theorem countStep (before : first.Quiet second) : first.Quiet second.countStep :=
  ⟨before.memo, before.world, before.idents⟩

theorem entering (before : first.Quiet second) (callee : Closure) (arg : Value) :
    first.Quiet (second.entering callee arg).2 :=
  ⟨before.memo, before.world, Nat.le_succ_of_le before.idents⟩

theorem closure (before : first.Quiet second) (env : Env) (param : NameId) (body : NodeId)
    (code : Code) :
    first.Quiet { second with mint := (second.mint.closure env param body code).2 } :=
  ⟨before.memo, before.world, Nat.le_succ_of_le before.idents⟩

end MachineState.Quiet

/-- A closure made since then has no entries. -/
theorem Memo.Issued.lookup_eq_none {memo : Memo} {next : Ident} (issued : memo.Issued next)
    {callee : Closure} (fresh : next ≤ callee.ident) (key : Closure) :
    memo.lookup callee key = none := by
  rw [Memo.lookup_eq_entry]
  cases entry : memo.entry callee.ident key.ident with
  | none => rfl
  | some value =>
      exact absurd (issued _ _ _ entry).1 (Nat.not_lt.mpr fresh)

namespace Machine

variable {World : Type}

def Achieves (machine : Machine World) (waiting : List Frame) (task : Task)
    (state : MachineState World) (kind : Evaluated → MachineState World → Nat → Prop) : Prop :=
  ∃ env result after effort,
    machine.Costs true waiting task state (.ok ⟨env, result⟩) after effort ∧
      kind result after effort.calls

section Rules

variable {machine : Machine World} {waiting : List Frame} {env : Env} {code : Code} {id : NodeId}
  {task : Task} {func arg : Evaluated} {callee : Closure} {state : MachineState World}
  {kind other : Evaluated → MachineState World → Nat → Prop}

theorem Achieves.mono (achieves : machine.Achieves waiting task state kind)
    (implies : ∀ result after calls, kind result after calls → other result after calls) :
    machine.Achieves waiting task state other := by
  obtain ⟨env, result, after, effort, costs, holds⟩ := achieves
  exact ⟨env, result, after, effort, costs, implies _ _ _ holds⟩

/-- Whatever limit it has got by with, a task has come to what it achieves. -/
theorem Achieves.of_evaluates {found : Found} {after : MachineState World}
    (achieves : (machine.withLimit none).Achieves waiting task state kind)
    (ended : machine.Evaluates true waiting task state (.ok found) after) :
    ∃ calls, kind found.result after calls := by
  obtain ⟨_, _, _, _, costs, holds⟩ := achieves
  cases costs.evaluates.unique (ended.withoutLimit (by rintro _ ⟨⟩))
  exact ⟨_, holds⟩

theorem Achieves.var (unlimited : machine.limit = none) {name : NameId} {value : Value}
    (node : code.arena.node? id = some (.var name)) (bound : env.lookup name = some value)
    (holds : kind ⟨value, true⟩ state.countStep 0) :
    machine.Achieves waiting (.node env code id) state kind :=
  ⟨_, _, _, _, .variable (overLimit_of_unlimited unlimited _) node bound, holds⟩

theorem Achieves.lambda (unlimited : machine.limit = none) {param : NameId} {body : NodeId}
    (node : code.arena.node? id = some (.lambda param body))
    (holds : kind ⟨.closure (state.mint.closure env param body code).1, true⟩
      { state.countStep with mint := (state.mint.closure env param body code).2 } 0) :
    machine.Achieves waiting (.node env code id) state kind :=
  ⟨_, _, _, _, .abstraction (overLimit_of_unlimited unlimited _) node, holds⟩

theorem Achieves.apply (unlimited : machine.limit = none) {operator operand : NodeId}
    (node : code.arena.node? id = some (.apply operator operand))
    (parts : machine.Achieves (.argument env code operand :: waiting) (.node env code operator)
      state.countStep fun called middle calls =>
        machine.Achieves (.call env called :: waiting) (.node env code operand) middle
          fun passed ready more => machine.Achieves waiting (.application env called passed) ready
            fun result after rest => kind result after (calls + (more + rest))) :
    machine.Achieves waiting (.node env code id) state kind := by
  obtain ⟨_, called, middle, _, operatorCosts, _, passed, ready, _, operandCosts, _, result, after,
    _, applicationCosts, holds⟩ := parts
  refine ⟨_, result, after, _, .applied (overLimit_of_unlimited unlimited _) node operatorCosts
    operandCosts applicationCosts, ?_⟩
  simpa only [Effort.calls_add, Effort.visit, Nat.zero_add] using holds

/-- A host function answers. -/
theorem Achieves.called {function : Builtin} {result : Evaluated} {mint : Mint} {world : World}
    (builtin : func.value = .builtin function)
    (reply : machine.host.apply function arg.value state.mint state.world =
      ⟨.ok result, mint, world⟩)
    (holds : kind ⟨result.value, result.cacheable && (func.cacheable && arg.cacheable)⟩
      { state.countCall with mint, world } 1) :
    machine.Achieves waiting (.application env func arg) state kind := by
  have direct : machine.callDirect env function arg.value (func.cacheable && arg.cacheable) state =
      some (.ok ⟨env, result.value, result.cacheable && (func.cacheable && arg.cacheable)⟩,
        { state.countCall with mint, world }) := by
    simp only [callDirect, MachineState.countCall, reply]
  exact ⟨env, _, _, _, .called builtin direct, holds⟩

/-- A closure that gets something other than a closure asks no table. -/
theorem Achieves.entered (closure : func.value = .closure callee)
    (argument : ∀ key, arg.value ≠ .closure key)
    (body : ∀ frames, machine.Achieves frames (.body callee arg.value state)
      (state.entering callee arg.value).2 fun result after calls =>
        kind ⟨result.value, result.cacheable && (func.cacheable && arg.cacheable)⟩ after calls) :
    machine.Achieves waiting (.application env func arg) state kind := by
  cases cacheable : func.cacheable && arg.cacheable with
  | true =>
      obtain ⟨_, result, after, _, costs, holds⟩ := body waiting
      rw [cacheable, Bool.and_true] at holds
      exact ⟨_, result, after, _, .entered closure cacheable argument costs, holds⟩
  | false =>
      obtain ⟨_, result, after, _, costs, holds⟩ := body (.taint :: waiting)
      rw [cacheable, Bool.and_false] at holds
      exact ⟨_, _, after, _, .tainted closure cacheable costs, holds⟩

/-- The tables have nothing, and nothing but the tables is written to in the end. -/
theorem Achieves.missed {key : Closure} (closure : func.value = .closure callee)
    (argument : arg.value = .closure key)
    (absent : (func.cacheable && arg.cacheable) = true → state.memo.lookup callee key = none)
    (body : ∀ frames, machine.Achieves frames (.body callee arg.value state)
      (state.entering callee arg.value).2 fun result after calls =>
        ∀ last : MachineState World, last.mint = after.mint → last.world = after.world →
          kind ⟨result.value, result.cacheable && (func.cacheable && arg.cacheable)⟩ last calls) :
    machine.Achieves waiting (.application env func arg) state kind := by
  cases cacheable : func.cacheable && arg.cacheable with
  | true =>
      obtain ⟨origin, result, after, _, costs, holds⟩ := body (.memoize callee key :: waiting)
      rw [cacheable, Bool.and_true] at holds
      refine ⟨origin, result, _, _, .missed closure cacheable argument (absent cacheable) costs, ?_⟩
      exact holds _ (machine.mint_remember true waiting callee key ⟨origin, result⟩ after)
        (machine.world_remember true waiting callee key ⟨origin, result⟩ after)
  | false =>
      obtain ⟨_, result, after, _, costs, holds⟩ := body (.taint :: waiting)
      rw [cacheable, Bool.and_false] at holds
      exact ⟨_, _, after, _, .tainted closure cacheable costs, holds _ rfl rfl⟩

end Rules

def Fails (machine : Machine World) (waiting : List Frame) (task : Task)
    (state : MachineState World) : Prop :=
  ∃ error after, machine.Evaluates true waiting task state (.error error) after

section Failures

variable {machine : Machine World} {waiting : List Frame} {env : Env} {code : Code} {id : NodeId}
  {first second : NodeId} {task : Task} {func arg : Evaluated} {state : MachineState World}

theorem Fails.not_ok {found : Found} {after : MachineState World}
    (fails : (machine.withLimit none).Fails waiting task state)
    (ended : machine.Evaluates true waiting task state (.ok found) after) : False := by
  obtain ⟨_, _, failed⟩ := fails
  cases failed.unique (ended.withoutLimit (by rintro _ ⟨⟩))

theorem Fails.operator (unlimited : machine.limit = none)
    (node : code.arena.node? id = some (.apply first second))
    (fails : machine.Fails (.argument env code second :: waiting) (.node env code first)
      state.countStep) :
    machine.Fails waiting (.node env code id) state := by
  obtain ⟨_, _, failed⟩ := fails
  exact ⟨_, _, .operatorFails (overLimit_of_unlimited unlimited _) node failed⟩

theorem Fails.operand (unlimited : machine.limit = none)
    (node : code.arena.node? id = some (.apply first second))
    (parts : machine.Achieves (.argument env code second :: waiting) (.node env code first)
      state.countStep fun called middle _ =>
        machine.Fails (.call env called :: waiting) (.node env code second) middle) :
    machine.Fails waiting (.node env code id) state := by
  obtain ⟨_, _, _, _, operator, _, _, failed⟩ := parts
  exact ⟨_, _, .operandFails (overLimit_of_unlimited unlimited _) node operator.evaluates failed⟩

theorem Fails.application (unlimited : machine.limit = none)
    (node : code.arena.node? id = some (.apply first second))
    (parts : machine.Achieves (.argument env code second :: waiting) (.node env code first)
      state.countStep fun called middle _ =>
        machine.Achieves (.call env called :: waiting) (.node env code second) middle
          fun passed ready _ => machine.Fails waiting (.application env called passed) ready) :
    machine.Fails waiting (.node env code id) state := by
  obtain ⟨_, _, _, _, operator, _, _, _, _, operand, _, _, failed⟩ := parts
  exact ⟨_, _, .applied (overLimit_of_unlimited unlimited _) node operator.evaluates
    operand.evaluates failed⟩

theorem Fails.called {function : Builtin} {error : BuiltinError}
    (builtin : func.value = .builtin function)
    (refused : (machine.host.apply function arg.value state.mint state.world).result =
      .error error) :
    machine.Fails waiting (.application env func arg) state := by
  let reply := machine.host.apply function arg.value state.mint state.world
  have direct : machine.callDirect env function arg.value (func.cacheable && arg.cacheable) state =
      some (.error (.ofBuiltin function.name error),
        { state.countCall with mint := reply.mint, world := reply.world }) := by
    simp only [callDirect, MachineState.countCall, refused, reply]
  exact ⟨_, _, .called builtin direct⟩

end Failures

end Machine

end LambdaMachine
