import LambdaMachine.Proofs.Machine.Direct
import Mathlib.Order.Iterate

/-!
What a machine does cannot be undone: steps are only ever counted up, so a count that is too large
for a limit stays too large, and the world is only ever changed by calls of host functions.
-/

namespace LambdaMachine

namespace Counters

theorem le_bump (count : Nat) : count ≤ bump count := by
  unfold bump
  split
  · exact Nat.le_succ count
  · exact Nat.le_refl count

theorem bump_mono : Monotone bump := by
  intro less more le
  unfold bump
  split <;> split <;> omega

theorem iterate_bump_mono (ahead : Nat) {less more : Nat} (le : less ≤ more) :
    bump^[ahead] less ≤ bump^[ahead] more :=
  bump_mono.iterate ahead le

theorem le_iterate_bump (ahead count : Nat) : count ≤ bump^[ahead] count :=
  Function.id_le_iterate_of_id_le le_bump ahead count

theorem iterate_bump_le {fewer more : Nat} (le : fewer ≤ more) (count : Nat) :
    bump^[fewer] count ≤ bump^[more] count := by
  obtain ⟨extra, rfl⟩ := Nat.exists_eq_add_of_le le
  rw [Function.iterate_add_apply]
  exact iterate_bump_mono fewer (le_iterate_bump extra count)

/-- The steps ahead may be counted before or after a common step. -/
theorem bump_iterate (ahead count : Nat) : bump (bump^[ahead] count) = bump^[ahead] (bump count) :=
  (Function.iterate_succ_apply' bump ahead count).symm.trans
    (Function.iterate_succ_apply bump ahead count)

theorem bump_bump_iterate (ahead count : Nat) :
    bump (bump (bump^[ahead] count)) = bump^[ahead + 2] count := by
  rw [Nat.add_comm ahead 2, Function.iterate_add_apply]
  rfl

end Counters

variable {World : Type}

inductive Host.Leads (host : Host World) (world : World) : World → Prop
  | refl : Leads host world world
  | call {middle : World} (leads : Leads host world middle) (function : Builtin) (arg : Value)
      (mint : Mint) : Leads host world (host.apply function arg mint middle).world

theorem Host.Leads.trans {host : Host World} {first second third : World}
    (before : host.Leads first second) (after : host.Leads second third) :
    host.Leads first third := by
  induction after with
  | refl => exact before
  | call _ function arg mint ih => exact ih.call function arg mint

structure MachineState.Proceeds (host : Host World) (state after : MachineState World) : Prop where
  steps : state.counters.steps ≤ after.counters.steps
  world : host.Leads state.world after.world

namespace MachineState.Proceeds

variable {host : Host World}

theorem refl (state : MachineState World) : state.Proceeds host state :=
  ⟨Nat.le_refl _, .refl⟩

theorem trans {first second third : MachineState World} (before : first.Proceeds host second)
    (after : second.Proceeds host third) : first.Proceeds host third :=
  ⟨Nat.le_trans before.steps after.steps, before.world.trans after.world⟩

theorem countStep (state : MachineState World) : state.Proceeds host state.countStep :=
  ⟨Counters.le_bump _, .refl⟩

theorem of_eq {state after : MachineState World}
    (steps : after.counters.steps = state.counters.steps) (world : after.world = state.world) :
    state.Proceeds host after :=
  ⟨Nat.le_of_eq steps.symm, world ▸ .refl⟩

end MachineState.Proceeds

def Computation.Proceeds {α : Type} (host : Host World) (action : Computation World α) : Prop :=
  ∀ state outcome after, action state = some (outcome, after) → state.Proceeds host after

theorem Computation.Proceeds.bind {α β : Type} {host : Host World} {action : Computation World α}
    {next : α → Computation World β} (proceeds : action.Proceeds host)
    (nextProceeds : ∀ value, (next value).Proceeds host) : (action >>= next).Proceeds host := by
  intro state outcome after ended
  obtain ⟨error, stopped, _⟩ | ⟨value, middle, passed, rest⟩ := bind_eq_some.mp ended
  · exact proceeds state _ after stopped
  · exact (proceeds state _ middle passed).trans (nextProceeds value middle outcome after rest)

namespace Machine

variable {machine : Machine World} {memoizing : Bool}

def Task.begin (state : MachineState World) : Task → MachineState World
  | .node _ _ _ => state.countStep
  | .application _ _ _ => state

theorem proceeds_rememberOutcome (waiting : List Frame) (callee key : Closure) (outcome : Outcome)
    (state : MachineState World) :
    state.Proceeds machine.host
      (machine.rememberOutcome memoizing waiting callee key outcome state) := by
  cases outcome with
  | error error => exact .refl state
  | ok found =>
      simp only [rememberOutcome, remember]
      split <;> exact .of_eq rfl rfl

theorem proceeds_of_body {host : Host World} {callee : Closure} {arg : Value}
    {state after : MachineState World}
    (body : ((Task.body callee arg state).begin (state.entering callee arg).2).Proceeds host
      after) : state.Proceeds host after :=
  ⟨Nat.le_trans (Counters.le_bump _) body.steps, body.world⟩

theorem Evaluates.proceeds {waiting : List Frame} {task : Task} {state after : MachineState World}
    {outcome : Outcome} (ended : machine.Evaluates memoizing waiting task state outcome after) :
    (task.begin state).Proceeds machine.host after := by
  induction ended with
  | limited _ => exact .refl _
  | dangling _ _ => exact .refl _
  | unbound _ _ _ => exact .refl _
  | «variable» _ _ _ => exact .refl _
  | abstraction _ _ => exact .of_eq rfl rfl
  | operatorFails _ _ _ operatorIh => exact (MachineState.Proceeds.countStep _).trans operatorIh
  | operandFails _ _ _ _ operatorIh operandIh =>
      exact ((MachineState.Proceeds.countStep _).trans operatorIh).trans
        ((MachineState.Proceeds.countStep _).trans operandIh)
  | applied _ _ _ _ _ operatorIh operandIh applicationIh =>
      exact ((MachineState.Proceeds.countStep _).trans operatorIh).trans
        (((MachineState.Proceeds.countStep _).trans operandIh).trans applicationIh)
  | notCallable _ => exact .refl _
  | called _ reply =>
      cases reply
      exact ⟨Nat.le_refl _, .call .refl _ _ _⟩
  | recalled _ _ _ _ => exact .of_eq rfl rfl
  | missed _ _ _ _ _ bodyIh =>
      exact (proceeds_of_body bodyIh).trans (proceeds_rememberOutcome _ _ _ _ _)
  | entered _ _ _ _ bodyIh => exact proceeds_of_body bodyIh
  | tainted _ _ _ bodyIh => exact proceeds_of_body bodyIh

theorem proceeds_evalDirect (depth : Nat) (waiting : List Frame) (env : Env) (code : Code)
    (id : NodeId) :
    (machine.evalDirect memoizing depth waiting env code id).Proceeds machine.host :=
  fun state _ _ ended => (MachineState.Proceeds.countStep state).trans
    (evaluates_of_evalDirect ended).proceeds

theorem proceeds_applyDirect (depth : Nat) (waiting : List Frame) (env : Env)
    (func arg : Evaluated) :
    (machine.applyDirect memoizing (machine.evalDirect memoizing depth) waiting env func
      arg).Proceeds machine.host :=
  fun _ _ _ ended => (evaluates_of_applyDirect
    (fun _ _ _ _ _ _ _ bodyEnded => evaluates_of_evalDirect bodyEnded) ended).proceeds

end Machine

end LambdaMachine
