import LambdaMachine.Machine.Basic

/-!
Machines over two worlds. If the functions of one host answer like those of the other, and what they
do to the larger world is what the others do to the part of it that is kept, then the machines run
side by side: forgetting the rest of the world makes one run of the other.
-/

namespace LambdaMachine

variable {Big Small : Type}

def MachineState.mapWorld (forget : Big → Small) (state : MachineState Big) : MachineState Small :=
  ⟨state.mint, state.memo, state.counters, forget state.world⟩

def Transition.mapWorld (forget : Big → Small) : Transition Big → Transition Small
  | .moved focus stack state => .moved focus stack (state.mapWorld forget)
  | .halted outcome state => .halted outcome (state.mapWorld forget)

namespace Machine

structure Projects (big : Machine Big) (small : Machine Small) (forget : Big → Small) : Prop where
  host : ∀ function arg mint world, small.host.apply function arg mint (forget world) =
    ⟨(big.host.apply function arg mint world).result, (big.host.apply function arg mint world).mint,
      forget (big.host.apply function arg mint world).world⟩
  kept : ∀ world, small.host.kept (forget world) = big.host.kept world
  limit : small.limit = big.limit
  held : small.held = big.held

variable {big : Machine Big} {small : Machine Small} {forget : Big → Small}

theorem evalNode_mapWorld (env : Env) (code : Code) (id : NodeId) (stack : List Frame)
    (state : MachineState Big) :
    evalNode env code id stack (state.mapWorld forget) =
      (evalNode env code id stack state).mapWorld forget := by
  unfold evalNode
  split
  · rfl
  · split <;> rfl
  · rfl
  · rfl

theorem Projects.callBuiltin (projects : big.Projects small forget) (env : Env)
    (function : Builtin) (arg : Value) (cacheable : Bool) (stack : List Frame)
    (state : MachineState Big) :
    small.callBuiltin env function arg cacheable stack (state.mapWorld forget) =
      (big.callBuiltin env function arg cacheable stack state).mapWorld forget := by
  simp only [Machine.callBuiltin, MachineState.countCall, MachineState.mapWorld, projects.host]
  split <;> rfl

theorem Projects.apply (projects : big.Projects small forget) (env : Env) (func arg : Evaluated)
    (stack : List Frame) (state : MachineState Big) :
    small.apply env func arg stack (state.mapWorld forget) =
      (big.apply env func arg stack state).mapWorld forget := by
  cases callee : func.value with
  | datum ident datum => simp only [Machine.apply, callee, Transition.mapWorld]
  | builtin function =>
      simp only [Machine.apply, callee]
      exact projects.callBuiltin env function arg.value _ stack state
  | closure closure =>
      simp only [Machine.apply, callee, MachineState.mapWorld]
      split
      · split
        · split <;> rfl
        · rfl
      · rfl

theorem Projects.reachRoots (projects : big.Projects small forget) (env : Env) (result : Evaluated)
    (stack : List Frame) (world : Big) :
    small.reachRoots env result stack (forget world) = big.reachRoots env result stack world := by
  funext owners reached
  simp only [Machine.reachRoots, Machine.reachHeld, projects.held, projects.kept]

theorem Projects.deliver (projects : big.Projects small forget) (env : Env) (result : Evaluated)
    (stack : List Frame) (state : MachineState Big) :
    small.deliver env result stack (state.mapWorld forget) =
      (big.deliver env result stack state).mapWorld forget := by
  cases stack with
  | nil => rfl
  | cons frame rest =>
      cases frame with
      | argument outer code arg => rfl
      | call outer func => exact projects.apply outer func result rest state
      | taint => rfl
      | memoize func arg =>
          simp only [Machine.deliver, MachineState.mapWorld, projects.reachRoots]
          split <;> rfl

theorem Projects.step (projects : big.Projects small forget) (focus : Focus) (stack : List Frame)
    (state : MachineState Big) :
    small.step focus stack (state.mapWorld forget) =
      (big.step focus stack state).mapWorld forget := by
  cases focus with
  | value env result => exact projects.deliver env result stack state
  | node env code id =>
      have same : small.overLimit (state.mapWorld forget).countStep.counters.steps =
          big.overLimit state.countStep.counters.steps := by
        simp only [overLimit, projects.limit]
        rfl
      simp only [Machine.step, same]
      cases big.overLimit state.countStep.counters.steps with
      | some limit => rfl
      | none => exact evalNode_mapWorld env code id stack state.countStep

theorem Projects.run (projects : big.Projects small forget) (fuel : Nat) (focus : Focus)
    (stack : List Frame) (state : MachineState Big) :
    small.run fuel focus stack (state.mapWorld forget) =
      (big.run fuel focus stack state).map fun ending => (ending.1, ending.2.mapWorld forget) := by
  induction fuel generalizing focus stack state with
  | zero => rfl
  | succ fuel ih =>
      rw [Machine.run, Machine.run, projects.step]
      cases big.step focus stack state with
      | moved focus stack state => exact ih focus stack state
      | halted outcome state => rfl

end Machine

end LambdaMachine
