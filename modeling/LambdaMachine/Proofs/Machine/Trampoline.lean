import LambdaMachine.Proofs.Machine.Direct
import LambdaMachine.Proofs.Machine.Projection
import Mathlib.Tactic.ByContra

/-!
The machine agrees with evaluation in direct style. A task that is started above a stack runs
exactly as far as its outcome, and the rest of the run is that of the stack below: a failure drops
the stack, a value is delivered to it.
-/

namespace LambdaMachine.Machine

variable {World : Type} (machine : Machine World)

def runFrom (fuel : Nat) :
    Transition World → Option (Except EvalError Evaluated × MachineState World)
  | .moved focus stack state => machine.run fuel focus stack state
  | .halted outcome state => some (outcome, state)

def start (fuel : Nat) (stack : List Frame) (task : Task) (state : MachineState World) :
    Option (Except EvalError Evaluated × MachineState World) :=
  match task with
  | .node env code id => machine.run fuel (.node env code id) stack state
  | .application env func arg => machine.runFrom fuel (machine.apply env func arg stack state)

def resume (fuel : Nat) (stack : List Frame) (outcome : Outcome) (state : MachineState World) :
    Option (Except EvalError Evaluated × MachineState World) :=
  match outcome with
  | .error error => some (.error error, state)
  | .ok found => machine.run fuel (.value found.env found.result) stack state

variable {machine}

theorem run_succ (fuel : Nat) (focus : Focus) (stack : List Frame) (state : MachineState World) :
    machine.run (fuel + 1) focus stack state =
      machine.runFrom fuel (machine.step focus stack state) :=
  rfl

theorem run_node_succ {fuel : Nat} {env : Env} {code : Code} {id : NodeId} {stack : List Frame}
    {state : MachineState World}
    (within : machine.overLimit state.countStep.counters.steps = none) :
    machine.run (fuel + 1) (.node env code id) stack state =
      machine.runFrom fuel (evalNode env code id stack state.countStep) := by
  simp only [run_succ, step, within]

theorem runFrom_enter (fuel : Nat) (callee : Closure) (arg : Value) (stack : List Frame)
    (state : MachineState World) :
    machine.runFrom fuel (enter callee arg stack state) =
      machine.start fuel stack (.body callee arg state) (state.entering callee arg).2 :=
  rfl

variable (machine) in
inductive Follows : Transition World → Transition World → Prop
  | refl {next} : Follows next next
  | step {focus stack state last} (rest : Follows (machine.step focus stack state) last) :
      Follows (.moved focus stack state) last

theorem Follows.trans {first second third : Transition World}
    (before : machine.Follows first second) (after : machine.Follows second third) :
    machine.Follows first third := by
  induction before with
  | refl => exact after
  | step _ ih => exact .step (ih after)

theorem Follows.runFrom {first last : Transition World} (follows : machine.Follows first last) :
    ∃ steps, ∀ fuel, machine.runFrom (fuel + steps) first = machine.runFrom fuel last := by
  induction follows with
  | refl => exact ⟨0, fun _ => rfl⟩
  | step _ ih =>
      obtain ⟨steps, run⟩ := ih
      exact ⟨steps + 1, run⟩

variable (machine) in
def begin (waiting : List Frame) (task : Task) (state : MachineState World) : Transition World :=
  match task with
  | .node env code id => .moved (.node env code id) waiting state
  | .application env func arg => machine.apply env func arg waiting state

def deliverOutcome (waiting : List Frame) (outcome : Outcome) (after : MachineState World) :
    Transition World :=
  match outcome with
  | .ok found => .moved (.value found.env found.result) waiting after
  | .error error => .halted (.error error) after

section Follows

variable {waiting : List Frame} {env : Env} {code : Code} {id : NodeId} {callee key : Closure}
  {outcome : Outcome} {state after : MachineState World} {last : Transition World}

theorem follows_node (within : machine.overLimit state.countStep.counters.steps = none)
    (rest : machine.Follows (evalNode env code id waiting state.countStep) last) :
    machine.Follows (.moved (.node env code id) waiting state) last := by
  refine .step ?_
  simp only [Machine.step, within]
  exact rest

theorem follows_operator {func arg : NodeId}
    (within : machine.overLimit state.countStep.counters.steps = none)
    (node : code.arena.node? id = some (.apply func arg))
    (rest : machine.Follows (.moved (.node env code func) (.argument env code arg :: waiting)
      state.countStep) last) :
    machine.Follows (.moved (.node env code id) waiting state) last := by
  refine follows_node within ?_
  simp only [evalNode, node]
  exact rest

section Apply

variable {func arg : Evaluated}

theorem apply_missed (closure : func.value = .closure callee)
    (cacheable : (func.cacheable && arg.cacheable) = true) (argument : arg.value = .closure key)
    (absent : state.memo.lookup callee key = none) :
    machine.apply env func arg waiting state =
      machine.begin (.memoize callee key :: waiting) (.body callee arg.value state)
        (state.entering callee arg.value).2 := by
  simp only [apply, closure, cacheable, if_true, argument, absent]
  rfl

theorem apply_entered (closure : func.value = .closure callee)
    (cacheable : (func.cacheable && arg.cacheable) = true)
    (argument : ∀ key, arg.value ≠ .closure key) :
    machine.apply env func arg waiting state =
      machine.begin waiting (.body callee arg.value state) (state.entering callee arg.value).2 := by
  simp only [apply, closure, cacheable, if_true]
  rfl

theorem apply_tainted (closure : func.value = .closure callee)
    (uncacheable : (func.cacheable && arg.cacheable) = false) :
    machine.apply env func arg waiting state =
      machine.begin (.taint :: waiting) (.body callee arg.value state)
        (state.entering callee arg.value).2 := by
  simp only [apply, closure, uncacheable, Bool.false_eq_true, if_false]
  rfl

end Apply

theorem exists_callDirect (machine : Machine World) (env : Env) (function : Builtin) (arg : Value)
    (cacheable : Bool) (stack : List Frame) (state : MachineState World) :
    ∃ outcome after, machine.callDirect env function arg cacheable state = some (outcome, after) ∧
      machine.callBuiltin env function arg cacheable stack state =
        deliverOutcome stack outcome after := by
  refine ⟨_, _, rfl, ?_⟩
  let called := state.countCall
  cases replied : (machine.host.apply function arg called.mint called.world).result with
  | ok result => simp only [callBuiltin, called, replied, deliverOutcome]
  | error error => simp only [callBuiltin, called, replied, deliverOutcome]

theorem step_memoize (machine : Machine World) (found : Found) (callee key : Closure)
    (stack : List Frame) (state : MachineState World) :
    machine.step (.value found.env found.result) (.memoize callee key :: stack) state =
      .moved (.value found.env found.result) stack
        (machine.remember true stack callee key found state) := by
  simp only [step, deliver, remember, Bool.true_and]
  split <;> rfl

theorem follows_memoize (machine : Machine World) (waiting : List Frame) (callee key : Closure)
    (outcome : Outcome) (after : MachineState World) :
    machine.Follows (deliverOutcome (.memoize callee key :: waiting) outcome after)
      (deliverOutcome waiting outcome
        (machine.rememberOutcome true waiting callee key outcome after)) := by
  cases outcome with
  | error error => exact .refl
  | ok found =>
      refine .step ?_
      rw [step_memoize]
      exact .refl

theorem follows_taint (machine : Machine World) (waiting : List Frame) (outcome : Outcome)
    (after : MachineState World) :
    machine.Follows (deliverOutcome (.taint :: waiting) outcome after)
      (deliverOutcome waiting (taintOutcome outcome) after) := by
  cases outcome with
  | error error => exact .refl
  | ok found => exact .step .refl

end Follows

/-- A task that ends is followed by its outcome, whatever waits for it. -/
theorem Evaluates.follows {waiting : List Frame} {task : Task} {state after : MachineState World}
    {outcome : Outcome} (ended : machine.Evaluates true waiting task state outcome after) :
    machine.Follows (machine.begin waiting task state) (deliverOutcome waiting outcome after) := by
  induction ended with
  | limited exceeded =>
      refine .step ?_
      simp only [step, exceeded]
      exact .refl
  | dangling within node =>
      refine follows_node within ?_
      simp only [evalNode, node]
      exact .refl
  | unbound within node absent =>
      refine follows_node within ?_
      simp only [evalNode, node, absent]
      exact .refl
  | «variable» within node bound =>
      refine follows_node within ?_
      simp only [evalNode, node, bound]
      exact .refl
  | abstraction within node =>
      refine follows_node within ?_
      simp only [evalNode, node]
      exact .refl
  | operatorFails within node _ operatorIh => exact follows_operator within node operatorIh
  | operandFails within node _ _ operatorIh operandIh =>
      exact follows_operator within node (operatorIh.trans (.step operandIh))
  | applied within node _ _ _ operatorIh operandIh applicationIh =>
      have rest := operandIh.trans (.step applicationIh)
      exact follows_operator within node (operatorIh.trans (.step rest))
  | notCallable callee =>
      simp only [begin, apply, callee]
      exact .refl
  | @called waiting env func arg state function outcome after callee reply =>
      obtain ⟨_, _, direct, called⟩ := machine.exists_callDirect env function arg.value
        (func.cacheable && arg.cacheable) waiting state
      cases reply.symm.trans direct
      simp only [begin, apply, callee, called]
      exact .refl
  | recalled closure cacheable argument found =>
      simp only [recollect, if_true] at found
      simp only [begin, apply, closure, cacheable, if_true, argument, found]
      exact .refl
  | @missed waiting env func arg state callee key outcome after closure cacheable argument absent
      _ bodyIh =>
      simp only [recollect, if_true] at absent
      rw [begin, apply_missed closure cacheable argument absent]
      exact bodyIh.trans (machine.follows_memoize waiting callee key outcome after)
  | @entered waiting env func arg state callee outcome after closure cacheable argument _ bodyIh =>
      rw [begin, apply_entered closure cacheable argument]
      exact bodyIh
  | @tainted waiting env func arg state callee outcome after closure uncacheable _ bodyIh =>
      rw [begin, apply_tainted closure uncacheable]
      exact bodyIh.trans (machine.follows_taint waiting outcome after)

section Parts

variable {waiting : List Frame} {env : Env} {code : Code} {id func arg : NodeId}
  {called passed : Found} {state middle ready : MachineState World}

theorem follows_operand (within : machine.overLimit state.countStep.counters.steps = none)
    (node : code.arena.node? id = some (.apply func arg))
    (operator : machine.Evaluates true (.argument env code arg :: waiting) (.node env code func)
      state.countStep (.ok called) middle) :
    machine.Follows (.moved (.node env code id) waiting state)
      (.moved (.node env code arg) (.call env called.result :: waiting) middle) :=
  follows_operator within node (operator.follows.trans (.step .refl))

theorem follows_application (within : machine.overLimit state.countStep.counters.steps = none)
    (node : code.arena.node? id = some (.apply func arg))
    (operator : machine.Evaluates true (.argument env code arg :: waiting) (.node env code func)
      state.countStep (.ok called) middle)
    (operand : machine.Evaluates true (.call env called.result :: waiting) (.node env code arg)
      middle (.ok passed) ready) :
    machine.Follows (.moved (.node env code id) waiting state)
      (machine.apply env called.result passed.result waiting ready) :=
  (follows_operand within node operator).trans (operand.follows.trans (.step .refl))

end Parts

/-- A task that ends runs for some steps, which do not depend on the fuel that is left. -/
theorem Evaluates.start_eq_resume {stack : List Frame} {task : Task}
    {state after : MachineState World} {outcome : Outcome}
    (ended : machine.Evaluates true stack task state outcome after) :
    ∃ steps, ∀ fuel, machine.start (fuel + steps) stack task state =
      machine.resume fuel stack outcome after := by
  obtain ⟨steps, run⟩ := ended.follows.runFrom
  refine ⟨steps, fun fuel => ?_⟩
  have begins : machine.start (fuel + steps) stack task state =
      machine.runFrom (fuel + steps) (machine.begin stack task state) := by cases task <;> rfl
  have resumes : machine.resume fuel stack outcome after =
      machine.runFrom fuel (deliverOutcome stack outcome after) := by cases outcome <;> rfl
  rw [begins, run, resumes]

variable (machine) in
theorem run_memoize_succ (fuel : Nat) (found : Found) (callee key : Closure) (stack : List Frame)
    (state : MachineState World) :
    machine.run (fuel + 1) (.value found.env found.result) (.memoize callee key :: stack) state =
      machine.run fuel (.value found.env found.result) stack
        (machine.remember true stack callee key found state) := by
  rw [run_succ, step_memoize]
  rfl

variable (machine) in
theorem run_taint_succ (fuel : Nat) (found : Found) (stack : List Frame)
    (state : MachineState World) :
    machine.run (fuel + 1) (.value found.env found.result) (.taint :: stack) state =
      machine.run fuel (.value found.env ⟨found.result.value, false⟩) stack state :=
  rfl

variable (machine) in
theorem runFrom_callBuiltin (fuel : Nat) (env : Env) (function : Builtin) (arg : Value)
    (cacheable : Bool) (stack : List Frame) (state : MachineState World) :
    ∃ outcome after,
      machine.callDirect env function arg cacheable state = some (outcome, after) ∧
      machine.runFrom fuel (machine.callBuiltin env function arg cacheable stack state) =
        machine.resume fuel stack outcome after := by
  obtain ⟨outcome, after, direct, called⟩ :=
    machine.exists_callDirect env function arg cacheable stack state
  refine ⟨outcome, after, direct, ?_⟩
  rw [called]
  cases outcome <;> rfl

theorem exists_evaluates_of_apply {fuel : Nat} {stack : List Frame} {env : Env}
    {func arg : Evaluated} {state : MachineState World}
    {ending : Except EvalError Evaluated × MachineState World}
    (bodies : ∀ stack env code id state,
      machine.run fuel (.node env code id) stack state = some ending →
        ∃ outcome after rest, rest < fuel ∧
          machine.Evaluates true stack (.node env code id) state outcome after ∧
          machine.resume rest stack outcome after = some ending)
    (ended : machine.runFrom fuel (machine.apply env func arg stack state) = some ending) :
    ∃ outcome after rest, rest ≤ fuel ∧
      machine.Evaluates true stack (.application env func arg) state outcome after ∧
      machine.resume rest stack outcome after = some ending := by
  cases callee : func.value with
  | datum ident datum =>
      simp only [apply, callee] at ended
      exact ⟨_, _, fuel, Nat.le_refl fuel, .notCallable callee, ended⟩
  | builtin function =>
      simp only [apply, callee] at ended
      obtain ⟨outcome, after, direct, run⟩ := machine.runFrom_callBuiltin fuel env function
        arg.value (func.cacheable && arg.cacheable) stack state
      exact ⟨outcome, after, fuel, Nat.le_refl fuel, .called callee direct, run ▸ ended⟩
  | closure closure =>
      simp only [apply, callee] at ended
      split at ended
      · rename_i cacheable
        split at ended
        · rename_i key argument
          split at ended
          · rename_i hit found
            have recalled : recollect true closure key state = some hit := found
            exact ⟨_, _, fuel, Nat.le_refl fuel, .recalled callee cacheable argument recalled,
              ended⟩
          · rename_i absent
            have missing : recollect true closure key state = none := absent
            rw [runFrom_enter] at ended
            obtain ⟨outcome, after, rest, fewer, body, remaining⟩ := bodies _ _ _ _ _ ended
            cases outcome with
            | error error =>
                exact ⟨_, _, rest, by omega, .missed callee cacheable argument missing body,
                  remaining⟩
            | ok found =>
                -- the frame that records the result takes one step of what is left
                cases rest with
                | zero => cases remaining
                | succ rest =>
                    have delivered := machine.run_memoize_succ rest found closure key stack after
                    exact ⟨_, _, rest, by omega, .missed callee cacheable argument missing body,
                      delivered.symm.trans remaining⟩
        · rename_i other
          obtain ⟨outcome, after, rest, fewer, body, remaining⟩ := bodies _ _ _ _ _ ended
          exact ⟨outcome, after, rest, by omega, .entered callee cacheable other body, remaining⟩
      · rename_i uncacheable
        have uncacheable : (func.cacheable && arg.cacheable) = false := by simpa using uncacheable
        obtain ⟨outcome, after, rest, fewer, body, remaining⟩ := bodies _ _ _ _ _ ended
        cases outcome with
        | error error => exact ⟨_, _, rest, by omega, .tainted callee uncacheable body, remaining⟩
        | ok found =>
            cases rest with
            | zero => cases remaining
            | succ rest =>
                have delivered := machine.run_taint_succ rest found stack after
                exact ⟨_, _, rest, by omega, .tainted callee uncacheable body,
                  delivered.symm.trans remaining⟩

/-- A run that halts has computed its first task on the way, with fuel to spare. -/
theorem exists_evaluates_of_run {fuel : Nat} {stack : List Frame} {env : Env} {code : Code}
    {id : NodeId} {state : MachineState World}
    {ending : Except EvalError Evaluated × MachineState World}
    (ended : machine.run fuel (.node env code id) stack state = some ending) :
    ∃ outcome after rest, rest < fuel ∧
      machine.Evaluates true stack (.node env code id) state outcome after ∧
      machine.resume rest stack outcome after = some ending := by
  induction fuel using Nat.strongRecOn generalizing stack env code id state with
  | ind fuel ih =>
      cases fuel with
      | zero => cases ended
      | succ fuel =>
          cases within : machine.overLimit state.countStep.counters.steps with
          | some limit =>
              simp only [run_succ, step, within] at ended
              exact ⟨_, _, fuel, Nat.lt_succ_self fuel, .limited within, ended⟩
          | none =>
              rw [run_node_succ within] at ended
              simp only [evalNode] at ended
              split at ended
              · rename_i node
                exact ⟨_, _, fuel, Nat.lt_succ_self fuel, .dangling within node, ended⟩
              · rename_i name node
                split at ended
                · rename_i value bound
                  exact ⟨_, _, fuel, Nat.lt_succ_self fuel, .variable within node bound, ended⟩
                · rename_i absent
                  exact ⟨_, _, fuel, Nat.lt_succ_self fuel, .unbound within node absent, ended⟩
              · rename_i param body node
                exact ⟨_, _, fuel, Nat.lt_succ_self fuel, .abstraction within node, ended⟩
              · rename_i func arg node
                obtain ⟨called, middle, left, fewer, operator, ended⟩ :=
                  ih fuel (Nat.lt_succ_self fuel) ended
                cases called with
                | error error =>
                    exact ⟨_, _, left, by omega, .operatorFails within node operator, ended⟩
                | ok called =>
                    cases left with
                    | zero => cases ended
                    | succ left =>
                        obtain ⟨passed, ready, spare, fewer, operand, ended⟩ :=
                          ih left (by omega) ended
                        cases passed with
                        | error error =>
                            exact ⟨_, _, spare, by omega,
                              .operandFails within node operator operand, ended⟩
                        | ok passed =>
                            cases spare with
                            | zero => cases ended
                            | succ spare =>
                                obtain ⟨outcome, after, rest, fewer, application, remaining⟩ :=
                                  exists_evaluates_of_apply
                                    (fun _ _ _ _ _ bodyEnded => ih spare (by omega) bodyEnded) ended
                                exact ⟨outcome, after, rest, by omega,
                                  .applied within node operator operand application, remaining⟩

theorem run_iff_evaluates {env : Env} {code : Code} {id : NodeId}
    {state after : MachineState World} {ending : Except EvalError Evaluated} :
    (∃ fuel, machine.run fuel (.node env code id) [] state = some (ending, after)) ↔
      ∃ outcome : Outcome, machine.Evaluates true [] (.node env code id) state outcome after ∧
        ending = outcome.map (·.result) := by
  constructor
  · rintro ⟨fuel, ended⟩
    obtain ⟨outcome, settled, rest, _, evaluates, remaining⟩ := exists_evaluates_of_run ended
    cases outcome with
    | error error =>
        cases remaining
        exact ⟨_, evaluates, rfl⟩
    | ok found =>
        cases rest with
        | zero => cases remaining
        | succ rest =>
            cases remaining
            exact ⟨_, evaluates, rfl⟩
  · rintro ⟨outcome, evaluates, rfl⟩
    obtain ⟨steps, run⟩ := evaluates.start_eq_resume
    refine ⟨1 + steps, (run 1).trans ?_⟩
    cases outcome <;> rfl

theorem evaluate_iff_evaluates {env : Env} {code : Code} {id : NodeId}
    {state after : MachineState World} {ending : Except EvalError Value} :
    (∃ fuel, machine.evaluate fuel env code id state = some (ending, after)) ↔
      ∃ outcome : Outcome, machine.Evaluates true [] (.node env code id) state outcome after ∧
        ending = outcome.map (·.result.value) := by
  constructor
  · rintro ⟨fuel, evaluated⟩
    obtain ⟨⟨result, _⟩, ended, same⟩ := Option.map_eq_some_iff.mp evaluated
    cases same
    obtain ⟨outcome, evaluates, rfl⟩ := run_iff_evaluates.mp ⟨fuel, ended⟩
    refine ⟨outcome, evaluates, ?_⟩
    cases outcome <;> rfl
  · rintro ⟨outcome, evaluates, rfl⟩
    obtain ⟨fuel, ended⟩ := run_iff_evaluates.mpr ⟨outcome, evaluates, rfl⟩
    refine ⟨fuel, Option.map_eq_some_iff.mpr ⟨_, ended, ?_⟩⟩
    cases outcome <;> rfl

def Diverges {α : Type} (answers : Nat → Option α) : Prop :=
  ∀ fuel, answers fuel = none

/-- With enough fuel this is the answer. -/
def Settles {α : Type} (answers : Nat → Option α) (answer : α) : Prop :=
  ∃ bound, ∀ fuel, bound ≤ fuel → answers fuel = some answer

section Answers

variable {α β : Type} {answers : Nat → Option α} {answer other : α}

theorem Settles.unique (settles : Settles answers answer) (again : Settles answers other) :
    answer = other := by
  obtain ⟨bound, settled⟩ := settles
  obtain ⟨otherBound, otherSettled⟩ := again
  have enough := settled (max bound otherBound) (Nat.le_max_left _ _)
  rw [otherSettled (max bound otherBound) (Nat.le_max_right _ _)] at enough
  exact (Option.some.inj enough).symm

theorem Settles.map (settles : Settles answers answer) (change : α → β) :
    Settles (fun fuel => (answers fuel).map change) (change answer) := by
  obtain ⟨bound, settled⟩ := settles
  exact ⟨bound, fun fuel enough => Option.map_eq_some_iff.mpr ⟨answer, settled fuel enough, rfl⟩⟩

theorem Diverges.not_settles (diverges : Diverges answers) : ¬Settles answers answer := by
  rintro ⟨bound, settled⟩
  cases (diverges bound).symm.trans (settled bound (Nat.le_refl bound))

end Answers

theorem Evaluates.settles_run {env : Env} {code : Code} {id : NodeId}
    {state after : MachineState World} {outcome : Outcome}
    (ended : machine.Evaluates true [] (.node env code id) state outcome after) :
    Settles (fun fuel => machine.run fuel (.node env code id) [] state)
      (outcome.map (·.result), after) := by
  obtain ⟨steps, run⟩ := ended.start_eq_resume
  refine ⟨1 + steps, fun fuel enough => ?_⟩
  obtain ⟨spare, rfl⟩ := Nat.exists_eq_add_of_le enough
  have halted := run (spare + 1)
  rw [show spare + 1 + steps = 1 + steps + spare by omega] at halted
  refine halted.trans ?_
  cases outcome <;> rfl

theorem Evaluates.settles_evalDirect {memoizing : Bool} {waiting : List Frame} {env : Env}
    {code : Code} {id : NodeId} {state after : MachineState World} {outcome : Outcome}
    (ended : machine.Evaluates memoizing waiting (.node env code id) state outcome after) :
    Settles (fun depth => machine.evalDirect memoizing depth waiting env code id state)
      (outcome, after) :=
  ended.taskDirect

/-- A task ends in one way only. -/
theorem Evaluates.unique {memoizing : Bool} {waiting : List Frame} {task : Task}
    {state after otherAfter : MachineState World} {outcome other : Outcome}
    (ended : machine.Evaluates memoizing waiting task state outcome after)
    (again : machine.Evaluates memoizing waiting task state other otherAfter) :
    (outcome, after) = (other, otherAfter) :=
  Settles.unique ended.taskDirect again.taskDirect

theorem diverges_run {env : Env} {code : Code} {id : NodeId} {state : MachineState World}
    (never : ¬∃ outcome after,
      machine.Evaluates true [] (.node env code id) state outcome after) :
    Diverges (fun fuel => machine.run fuel (.node env code id) [] state) := by
  intro fuel
  by_contra halts
  obtain ⟨ending, ended⟩ := Option.ne_none_iff_exists'.mp halts
  obtain ⟨outcome, after, _, _, evaluates, _⟩ := exists_evaluates_of_run ended
  exact never ⟨outcome, after, evaluates⟩

variable (machine)

/-- The machine and evaluation in direct style both go on for ever, or both come to the same value
with the same flag, or to the same error, and leave the same state behind. -/
def AgreesWithDirect (env : Env) (code : Code) (id : NodeId) (state : MachineState World) : Prop :=
  (Diverges (fun fuel => machine.run fuel (.node env code id) [] state) ∧
    Diverges (fun depth => machine.evalDirect true depth [] env code id state)) ∨
  ∃ outcome after,
    Settles (fun fuel => machine.run fuel (.node env code id) [] state)
      (outcome.map (·.result), after) ∧
    Settles (fun depth => machine.evalDirect true depth [] env code id state) (outcome, after)

theorem agreesWithDirect (env : Env) (code : Code) (id : NodeId) (state : MachineState World) :
    machine.AgreesWithDirect env code id state := by
  by_cases ends : ∃ outcome after, machine.Evaluates true [] (.node env code id) state outcome after
  · obtain ⟨outcome, after, ended⟩ := ends
    exact Or.inr ⟨outcome, after, ended.settles_run, ended.settles_evalDirect⟩
  · refine Or.inl ⟨diverges_run ends, fun depth => ?_⟩
    by_contra halts
    obtain ⟨⟨outcome, after⟩, ended⟩ := Option.ne_none_iff_exists'.mp halts
    exact ends ⟨outcome, after, evaluates_of_evalDirect ended⟩

def logged : Machine (World × List (Builtin × Value)) where
  host.apply function arg mint world :=
    let reply := machine.host.apply function arg mint world.1
    ⟨reply.result, reply.mint, reply.world, world.2 ++ [(function, arg)]⟩
  host.kept world := machine.host.kept world.1
  limit := machine.limit
  held := machine.held

def withoutLog (state : MachineState (World × List (Builtin × Value))) : MachineState World :=
  ⟨state.mint, state.memo, state.counters, state.world.1⟩

theorem projects_logged : machine.logged.Projects machine Prod.fst :=
  ⟨fun _ _ _ _ => rfl, fun _ => rfl, rfl, rfl⟩

/-- For every host, limit and starting state the machine does what evaluation in direct style does,
with the same calls of host functions in the same order. -/
theorem run_agrees_with_direct_style (env : Env) (code : Code) (id : NodeId)
    (state : MachineState World) (calls : List (Builtin × Value)) :
    machine.AgreesWithDirect env code id state ∧
      machine.logged.AgreesWithDirect env code id
        ⟨state.mint, state.memo, state.counters, (state.world, calls)⟩ ∧
      ∀ fuel,
        (machine.logged.run fuel (.node env code id) []
            ⟨state.mint, state.memo, state.counters, (state.world, calls)⟩).map
          (fun ending => (ending.1, withoutLog ending.2)) =
        machine.run fuel (.node env code id) [] state :=
  ⟨machine.agreesWithDirect env code id state, machine.logged.agreesWithDirect env code id _,
    fun fuel => (machine.projects_logged.run fuel _ _ _).symm⟩

end LambdaMachine.Machine
