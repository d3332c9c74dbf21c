import LambdaMachine.Proofs.Machine.Trampoline

/-!
Evaluations that are underway. A machine that was set to a task above a stack is, at every moment of
its run, at the beginning of the task, at its end, or underway in one of its parts, with the parts
before that one evaluated. So what holds of evaluations that end can be used for runs that never do.
-/

namespace LambdaMachine.Machine

variable {World : Type}

inductive Underway (machine : Machine World) : List Frame → Task → MachineState World →
    Focus → List Frame → MachineState World → Prop
  | begun {waiting env code id state} :
      Underway machine waiting (.node env code id) state (.node env code id) waiting state
  | ended {waiting task state found after}
      (evaluated : machine.Evaluates true waiting task state (.ok found) after) :
      Underway machine waiting task state (.value found.env found.result) waiting after
  | operator {waiting env code id state func arg focus stack now}
      (within : machine.overLimit state.countStep.counters.steps = none)
      (node : code.arena.node? id = some (.apply func arg))
      (inner : Underway machine (.argument env code arg :: waiting) (.node env code func)
        state.countStep focus stack now) :
      Underway machine waiting (.node env code id) state focus stack now
  | operand {waiting env code id state func arg called middle focus stack now}
      (within : machine.overLimit state.countStep.counters.steps = none)
      (node : code.arena.node? id = some (.apply func arg))
      (operator : machine.Evaluates true (.argument env code arg :: waiting) (.node env code func)
        state.countStep (.ok called) middle)
      (inner : Underway machine (.call env called.result :: waiting) (.node env code arg) middle
        focus stack now) :
      Underway machine waiting (.node env code id) state focus stack now
  | application {waiting env code id state func arg called middle passed ready focus stack now}
      (within : machine.overLimit state.countStep.counters.steps = none)
      (node : code.arena.node? id = some (.apply func arg))
      (operator : machine.Evaluates true (.argument env code arg :: waiting) (.node env code func)
        state.countStep (.ok called) middle)
      (operand : machine.Evaluates true (.call env called.result :: waiting) (.node env code arg)
        middle (.ok passed) ready)
      (inner : Underway machine waiting (.application env called.result passed.result) ready
        focus stack now) :
      Underway machine waiting (.node env code id) state focus stack now
  | missed {waiting env func arg state callee key focus stack now}
      (closure : func.value = .closure callee)
      (cacheable : (func.cacheable && arg.cacheable) = true)
      (argument : arg.value = .closure key) (absent : state.memo.lookup callee key = none)
      (inner : Underway machine (.memoize callee key :: waiting) (.body callee arg.value state)
        (state.entering callee arg.value).2 focus stack now) :
      Underway machine waiting (.application env func arg) state focus stack now
  | entered {waiting env func arg state callee focus stack now}
      (closure : func.value = .closure callee)
      (cacheable : (func.cacheable && arg.cacheable) = true)
      (argument : ∀ key, arg.value ≠ .closure key)
      (inner : Underway machine waiting (.body callee arg.value state)
        (state.entering callee arg.value).2 focus stack now) :
      Underway machine waiting (.application env func arg) state focus stack now
  | tainted {waiting env func arg state callee focus stack now}
      (closure : func.value = .closure callee)
      (uncacheable : (func.cacheable && arg.cacheable) = false)
      (inner : Underway machine (.taint :: waiting) (.body callee arg.value state)
        (state.entering callee arg.value).2 focus stack now) :
      Underway machine waiting (.application env func arg) state focus stack now

def Arrives (machine : Machine World) (waiting : List Frame) (task : Task)
    (state : MachineState World) (focus : Focus) (stack : List Frame) (now : MachineState World) :
    Prop :=
  ∃ found : Found, focus = .value found.env found.result ∧ stack = waiting ∧
    machine.Evaluates true waiting task state (.ok found) now

def Advances (machine : Machine World) (waiting : List Frame) (task : Task)
    (state : MachineState World) : Transition World → Prop
  | .moved focus stack now => machine.Underway waiting task state focus stack now
  | .halted outcome after => ∃ error, outcome = .error error ∧
      machine.Evaluates true waiting task state (.error error) after

section Steps

variable {machine : Machine World} {waiting frames stack : List Frame} {task inner : Task}
  {state start now : MachineState World} {focus : Focus} {env : Env} {code : Code} {id : NodeId}

/-- A part that advances takes the whole with it. -/
theorem Advances.map {next : Transition World}
    (advances : machine.Advances frames inner start next)
    (underway : ∀ {focus stack now}, machine.Underway frames inner start focus stack now →
      machine.Underway waiting task state focus stack now)
    (failed : ∀ {error after}, machine.Evaluates true frames inner start (.error error) after →
      machine.Evaluates true waiting task state (.error error) after) :
    machine.Advances waiting task state next := by
  cases next with
  | moved focus stack now => exact underway advances
  | halted outcome after =>
      obtain ⟨error, rfl, stopped⟩ := advances
      exact ⟨error, rfl, failed stopped⟩

theorem Evaluates.advances {outcome : Outcome} {after : MachineState World}
    (evaluated : machine.Evaluates true waiting task state outcome after) :
    machine.Advances waiting task state (deliverOutcome waiting outcome after) := by
  cases outcome with
  | ok found => exact .ended evaluated
  | error error => exact ⟨error, rfl, evaluated⟩

theorem advances_apply (machine : Machine World) (waiting : List Frame) (env : Env)
    (func arg : Evaluated) (state : MachineState World) :
    machine.Advances waiting (.application env func arg) state
      (machine.apply env func arg waiting state) := by
  rw [apply]
  split
  · rename_i ident data callee
    exact ⟨_, rfl, .notCallable callee⟩
  · rename_i function callee
    obtain ⟨outcome, after, direct, called⟩ := machine.exists_callDirect env function arg.value
      (func.cacheable && arg.cacheable) waiting state
    rw [called]
    exact (Evaluates.called callee direct).advances
  · rename_i callee closure
    split
    · rename_i cacheable
      split
      · rename_i key argument
        split
        · rename_i hit found
          exact .ended (.recalled closure cacheable argument found)
        · rename_i absent
          exact .missed closure cacheable argument absent .begun
      · rename_i argument
        exact .entered closure cacheable argument .begun
    · rename_i uncacheable
      exact .tainted closure (Bool.not_eq_true _ ▸ uncacheable) .begun

theorem advances_evalNode (within : machine.overLimit state.countStep.counters.steps = none) :
    machine.Advances waiting (.node env code id) state
      (evalNode env code id waiting state.countStep) := by
  rw [evalNode]
  split
  · rename_i node
    exact ⟨_, rfl, .dangling within node⟩
  · rename_i name node
    split
    · rename_i value bound
      exact .ended (.variable within node bound)
    · rename_i absent
      exact ⟨_, rfl, .unbound within node absent⟩
  · rename_i param body node
    exact .ended (.abstraction within node)
  · rename_i func arg node
    exact .operator within node .begun

theorem Arrives.map (arrives : machine.Arrives waiting inner start focus stack now)
    (ended : ∀ {found after}, machine.Evaluates true waiting inner start (.ok found) after →
      machine.Evaluates true waiting task state (.ok found) after) :
    machine.Arrives waiting task state focus stack now := by
  obtain ⟨found, rfl, rfl, evaluated⟩ := arrives
  exact ⟨found, rfl, rfl, ended evaluated⟩

/-- A step goes on with the task, unless the task has come to a value before it. -/
theorem Underway.advances (underway : machine.Underway waiting task state focus stack now) :
    machine.Arrives waiting task state focus stack now ∨
      machine.Advances waiting task state (machine.step focus stack now) := by
  induction underway with
  | @begun waiting env code id state =>
      right
      rw [step]
      cases within : machine.overLimit state.countStep.counters.steps with
      | some limit => exact ⟨_, rfl, .limited within⟩
      | none => exact advances_evalNode within
  | ended evaluated => exact .inl ⟨_, rfl, rfl, evaluated⟩
  | operator within node _ innerIh =>
      right
      rcases innerIh with ⟨called, rfl, rfl, evaluated⟩ | advances
      · exact Underway.operand within node evaluated .begun
      · exact advances.map (.operator within node) (.operatorFails within node)
  | @operand waiting env _ _ _ _ _ called _ _ _ ready within node operator _ innerIh =>
      right
      rcases innerIh with ⟨passed, rfl, rfl, evaluated⟩ | advances
      · have applies := machine.advances_apply waiting env called.result passed.result ready
        exact applies.map (.application within node operator evaluated)
          (.applied within node operator evaluated)
      · exact advances.map (.operand within node operator) (.operandFails within node operator)
  | application within node operator operand _ innerIh =>
      rcases innerIh with arrives | advances
      · exact .inl (arrives.map (.applied within node operator operand))
      · exact .inr (advances.map (.application within node operator operand)
          (.applied within node operator operand))
  | missed closure cacheable argument absent _ innerIh =>
      right
      rcases innerIh with ⟨found, rfl, rfl, evaluated⟩ | advances
      · rw [step_memoize]
        exact Underway.ended (.missed closure cacheable argument absent evaluated)
      · exact advances.map (.missed closure cacheable argument absent)
          (.missed closure cacheable argument absent)
  | entered closure cacheable argument _ innerIh =>
      rcases innerIh with arrives | advances
      · exact .inl (arrives.map (.entered closure cacheable argument))
      · exact .inr (advances.map (.entered closure cacheable argument)
          (.entered closure cacheable argument))
  | tainted closure uncacheable _ innerIh =>
      right
      rcases innerIh with ⟨found, rfl, rfl, evaluated⟩ | advances
      · exact Underway.ended (.tainted closure uncacheable evaluated)
      · exact advances.map (.tainted closure uncacheable) (.tainted closure uncacheable)

/-- Where nothing waits for the task, a step that goes on has it still underway. -/
theorem Underway.moved {later : Focus} {rest : List Frame} {next : MachineState World}
    (underway : machine.Underway [] task state focus stack now)
    (step : machine.step focus stack now = .moved later rest next) :
    machine.Underway [] task state later rest next := by
  rcases underway.advances with ⟨found, rfl, rfl, _⟩ | advances
  · cases step
  · rw [step] at advances
    exact advances

/-- Where nothing waits for the task, the machine stops with what the task comes to. -/
theorem Underway.halted {outcome : Except EvalError Evaluated} {after : MachineState World}
    (underway : machine.Underway [] task state focus stack now)
    (step : machine.step focus stack now = .halted outcome after) :
    ∃ ending : Outcome, outcome = ending.map (·.result) ∧
      machine.Evaluates true [] task state ending after := by
  rcases underway.advances with ⟨found, rfl, rfl, evaluated⟩ | advances
  · cases step
    exact ⟨.ok found, rfl, evaluated⟩
  · rw [step] at advances
    obtain ⟨error, rfl, evaluated⟩ := advances
    exact ⟨.error error, rfl, evaluated⟩

end Steps

end LambdaMachine.Machine
