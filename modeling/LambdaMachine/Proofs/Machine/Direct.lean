import LambdaMachine.Machine.Basic

/-!
Evaluation in direct style: an application evaluates its function, its argument and the body of
the function by calls, and what is to be done with the value of the body is done when that call
returns. `evalDirect` runs with a bound on the depth of calls, `Evaluates` is the relation it
computes. Without `memoizing` no table is asked and none is written.
-/

namespace LambdaMachine

structure Found where
  env : Env
  result : Evaluated

abbrev Outcome := Except EvalError Found

def Computation (World α : Type) :=
  MachineState World → Option (Except EvalError α × MachineState World)

namespace Computation

variable {World α β : Type}

protected def bind (action : Computation World α) (next : α → Computation World β) :
    Computation World β := fun state =>
  match action state with
  | none => none
  | some (.error error, after) => some (.error error, after)
  | some (.ok value, after) => next value after

instance : Monad (Computation World) where
  pure value := fun state => some (.ok value, state)
  bind := Computation.bind

def fail (error : EvalError) : Computation World α := fun state => some (.error error, state)

theorem bind_eq_some {action : Computation World α} {next : α → Computation World β}
    {state after : MachineState World} {outcome : Except EvalError β} :
    (action >>= next) state = some (outcome, after) ↔
      (∃ error, action state = some (.error error, after) ∧ outcome = .error error) ∨
      ∃ value middle, action state = some (.ok value, middle) ∧
        next value middle = some (outcome, after) := by
  change Computation.bind action next state = some (outcome, after) ↔ _
  unfold Computation.bind
  constructor
  · intro ended
    split at ended
    · cases ended
    · rename_i error middle stopped
      cases ended
      exact Or.inl ⟨error, stopped, rfl⟩
    · rename_i value middle passed
      exact Or.inr ⟨value, middle, passed, ended⟩
  · rintro (⟨error, stopped, rfl⟩ | ⟨value, middle, passed, ended⟩)
    · rw [stopped]
    · rw [passed]
      exact ended

end Computation

namespace MachineState

variable {World : Type}

def entering (state : MachineState World) (callee : Closure) (arg : Value) :
    Env × MachineState World :=
  let (env, mint) := state.mint.extend callee.env callee.param arg
  (env, { state with mint })

end MachineState

namespace Machine

variable {World : Type} (machine : Machine World) (memoizing : Bool)

def recollect (callee key : Closure) (state : MachineState World) : Option Value :=
  if memoizing then state.memo.lookup callee key else none

/-- The closures that are alive when a result is recorded; what waits for the result only matters
here. -/
def aliveAt (waiting : List Frame) (callee key : Closure) (found : Found)
    (state : MachineState World) (memo : Memo) : IdentSet :=
  memo.alive (machine.reachRoots found.env found.result (.memoize callee key :: waiting) state.world)
    state.mint.nextIdent

def remember (waiting : List Frame) (callee key : Closure) (found : Found)
    (state : MachineState World) : MachineState World :=
  if memoizing && found.result.cacheable then
    let alive := machine.aliveAt waiting callee key found state
    { state with memo := state.memo.record callee key found.result.value alive }.countStore
  else state

theorem mint_remember (waiting : List Frame) (callee key : Closure) (found : Found)
    (state : MachineState World) :
    (machine.remember memoizing waiting callee key found state).mint = state.mint := by
  unfold remember
  split <;> rfl

theorem world_remember (waiting : List Frame) (callee key : Closure) (found : Found)
    (state : MachineState World) :
    (machine.remember memoizing waiting callee key found state).world = state.world := by
  unfold remember
  split <;> rfl

theorem memo_remember (waiting : List Frame) (callee key : Closure) (found : Found)
    (state : MachineState World) :
    (machine.remember memoizing waiting callee key found state).memo = state.memo ∨
      found.result.cacheable = true ∧ ∃ alive,
        (machine.remember memoizing waiting callee key found state).memo =
          state.memo.record callee key found.result.value alive := by
  unfold remember
  split
  · rename_i both
    exact Or.inr ⟨(Bool.and_eq_true_iff.mp both).2,
      machine.aliveAt waiting callee key found state, rfl⟩
  · exact Or.inl rfl

def callDirect (env : Env) (function : Builtin) (arg : Value) (cacheable : Bool) :
    Computation World Found := fun state =>
  let state := state.countCall
  let reply := machine.host.apply function arg state.mint state.world
  let outcome := match reply.result with
    | .ok result => .ok ⟨env, result.value, result.cacheable && cacheable⟩
    | .error error => .error (.ofBuiltin function.name error)
  some (outcome, { state with mint := reply.mint, world := reply.world })

def enterDirect (evalBody : Env → Code → NodeId → Computation World Found) (callee : Closure)
    (arg : Value) : Computation World Found := fun state =>
  let (env, state) := state.entering callee arg
  evalBody env callee.code callee.body state

def applyDirect (evalBody : List Frame → Env → Code → NodeId → Computation World Found)
    (waiting : List Frame) (env : Env) (func arg : Evaluated) : Computation World Found :=
  fun state =>
    let cacheable := func.cacheable && arg.cacheable
    match func.value with
    | .datum _ datum => Computation.fail (.notCallable datum.kind) state
    | .builtin function => machine.callDirect env function arg.value cacheable state
    | .closure callee =>
        if cacheable then
          match arg.value with
          | .closure key =>
              match recollect memoizing callee key state with
              | some hit => some (.ok ⟨env, hit, true⟩, state.countHit)
              | none =>
                  (enterDirect (evalBody (.memoize callee key :: waiting)) callee arg.value >>=
                    fun found after =>
                      some (.ok found, machine.remember memoizing waiting callee key found after))
                    state
          | _ => enterDirect (evalBody waiting) callee arg.value state
        else
          (enterDirect (evalBody (.taint :: waiting)) callee arg.value >>= fun found =>
            pure ⟨found.env, found.result.value, false⟩) state

def evalDirect : Nat → List Frame → Env → Code → NodeId → Computation World Found
  | 0, _, _, _, _ => fun _ => none
  | depth + 1, waiting, env, code, id => fun state =>
      let state := state.countStep
      match machine.overLimit state.counters.steps with
      | some limit => Computation.fail (.stepLimit limit) state
      | none =>
          match code.arena.node? id with
          | none => Computation.fail (.dangling id) state
          | some (.var name) =>
              match env.lookup name with
              | some value => some (.ok ⟨env, value, true⟩, state)
              | none => Computation.fail (.unbound (state.mint.names.text name)) state
          | some (.lambda param body) =>
              let (closure, mint) := state.mint.closure env param body code
              some (.ok ⟨env, .closure closure, true⟩, { state with mint })
          | some (.apply func arg) =>
              let application : Computation World Found := do
                let func ← evalDirect depth (.argument env code arg :: waiting) env code func
                let arg ← evalDirect depth (.call env func.result :: waiting) env code arg
                machine.applyDirect memoizing (evalDirect depth) waiting env func.result arg.result
              application state

inductive Task where
  | node (env : Env) (code : Code) (id : NodeId)
  | application (env : Env) (func arg : Evaluated)

def Task.body (callee : Closure) (arg : Value) (state : MachineState World) : Task :=
  .node (state.entering callee arg).1 callee.code callee.body

def taintOutcome (outcome : Outcome) : Outcome :=
  outcome.map fun found => ⟨found.env, found.result.value, false⟩

def rememberOutcome (waiting : List Frame) (callee key : Closure) (outcome : Outcome)
    (state : MachineState World) : MachineState World :=
  match outcome with
  | .ok found => machine.remember memoizing waiting callee key found state
  | .error _ => state

/-- A task, started in a state while `waiting` waits for it, ends with an outcome in a state. -/
inductive Evaluates : List Frame → Task → MachineState World → Outcome → MachineState World → Prop
  | limited {waiting env code id state limit}
      (exceeded : machine.overLimit state.countStep.counters.steps = some limit) :
      Evaluates waiting (.node env code id) state (.error (.stepLimit limit)) state.countStep
  | dangling {waiting env code id state}
      (within : machine.overLimit state.countStep.counters.steps = none)
      (node : code.arena.node? id = none) :
      Evaluates waiting (.node env code id) state (.error (.dangling id)) state.countStep
  | unbound {waiting env code id state name}
      (within : machine.overLimit state.countStep.counters.steps = none)
      (node : code.arena.node? id = some (.var name)) (absent : env.lookup name = none) :
      Evaluates waiting (.node env code id) state
        (.error (.unbound (state.mint.names.text name))) state.countStep
  | variable {waiting env code id state name value}
      (within : machine.overLimit state.countStep.counters.steps = none)
      (node : code.arena.node? id = some (.var name)) (bound : env.lookup name = some value) :
      Evaluates waiting (.node env code id) state (.ok ⟨env, value, true⟩) state.countStep
  | abstraction {waiting env code id state param body}
      (within : machine.overLimit state.countStep.counters.steps = none)
      (node : code.arena.node? id = some (.lambda param body)) :
      Evaluates waiting (.node env code id) state
        (.ok ⟨env, .closure (state.mint.closure env param body code).1, true⟩)
        { state.countStep with mint := (state.mint.closure env param body code).2 }
  | operatorFails {waiting env code id state func arg error after}
      (within : machine.overLimit state.countStep.counters.steps = none)
      (node : code.arena.node? id = some (.apply func arg))
      (operator : Evaluates (.argument env code arg :: waiting) (.node env code func)
        state.countStep (.error error) after) :
      Evaluates waiting (.node env code id) state (.error error) after
  | operandFails {waiting env code id state func arg called middle error after}
      (within : machine.overLimit state.countStep.counters.steps = none)
      (node : code.arena.node? id = some (.apply func arg))
      (operator : Evaluates (.argument env code arg :: waiting) (.node env code func)
        state.countStep (.ok called) middle)
      (operand : Evaluates (.call env called.result :: waiting) (.node env code arg)
        middle (.error error) after) :
      Evaluates waiting (.node env code id) state (.error error) after
  | applied {waiting env code id state func arg called middle passed ready outcome after}
      (within : machine.overLimit state.countStep.counters.steps = none)
      (node : code.arena.node? id = some (.apply func arg))
      (operator : Evaluates (.argument env code arg :: waiting) (.node env code func)
        state.countStep (.ok called) middle)
      (operand : Evaluates (.call env called.result :: waiting) (.node env code arg)
        middle (.ok passed) ready)
      (application : Evaluates waiting (.application env called.result passed.result)
        ready outcome after) :
      Evaluates waiting (.node env code id) state outcome after
  | notCallable {waiting env func arg state ident datum}
      (callee : func.value = .datum ident datum) :
      Evaluates waiting (.application env func arg) state
        (.error (.notCallable datum.kind)) state
  | called {waiting env func arg state function outcome after}
      (callee : func.value = .builtin function)
      (reply : machine.callDirect env function arg.value (func.cacheable && arg.cacheable) state =
        some (outcome, after)) :
      Evaluates waiting (.application env func arg) state outcome after
  | recalled {waiting env func arg state callee key hit}
      (closure : func.value = .closure callee)
      (cacheable : (func.cacheable && arg.cacheable) = true)
      (argument : arg.value = .closure key)
      (found : recollect memoizing callee key state = some hit) :
      Evaluates waiting (.application env func arg) state (.ok ⟨env, hit, true⟩) state.countHit
  | missed {waiting env func arg state callee key outcome after}
      (closure : func.value = .closure callee)
      (cacheable : (func.cacheable && arg.cacheable) = true)
      (argument : arg.value = .closure key)
      (absent : recollect memoizing callee key state = none)
      (body : Evaluates (.memoize callee key :: waiting) (.body callee arg.value state)
        (state.entering callee arg.value).2 outcome after) :
      Evaluates waiting (.application env func arg) state outcome
        (machine.rememberOutcome memoizing waiting callee key outcome after)
  | entered {waiting env func arg state callee outcome after}
      (closure : func.value = .closure callee)
      (cacheable : (func.cacheable && arg.cacheable) = true)
      (argument : ∀ key, arg.value ≠ .closure key)
      (body : Evaluates waiting (.body callee arg.value state)
        (state.entering callee arg.value).2 outcome after) :
      Evaluates waiting (.application env func arg) state outcome after
  | tainted {waiting env func arg state callee outcome after}
      (closure : func.value = .closure callee)
      (uncacheable : (func.cacheable && arg.cacheable) = false)
      (body : Evaluates (.taint :: waiting) (.body callee arg.value state)
        (state.entering callee arg.value).2 outcome after) :
      Evaluates waiting (.application env func arg) state (taintOutcome outcome) after

variable {machine memoizing}

theorem overLimit_of_unlimited (unlimited : machine.limit = none) (steps : Nat) :
    machine.overLimit steps = none := by
  rw [overLimit, unlimited]

theorem evaluates_of_applyDirect
    {evalBody : List Frame → Env → Code → NodeId → Computation World Found}
    (bodies : ∀ waiting env code id state outcome after,
      evalBody waiting env code id state = some (outcome, after) →
        machine.Evaluates memoizing waiting (.node env code id) state outcome after)
    {waiting : List Frame} {env : Env} {func arg : Evaluated}
    {state after : MachineState World} {outcome : Outcome}
    (ended : machine.applyDirect memoizing evalBody waiting env func arg state =
      some (outcome, after)) :
    machine.Evaluates memoizing waiting (.application env func arg) state outcome after := by
  simp only [applyDirect] at ended
  split at ended
  · rename_i ident datum callee
    cases ended
    exact .notCallable callee
  · rename_i function callee
    exact .called callee ended
  · rename_i callee closure
    split at ended
    · rename_i cacheable
      split at ended
      · rename_i key argument
        split at ended
        · rename_i hit found
          cases ended
          exact .recalled closure cacheable argument found
        · rename_i absent
          rcases Computation.bind_eq_some.mp ended with
            ⟨error, stopped, rfl⟩ | ⟨found, middle, passed, kept⟩
          · exact .missed closure cacheable argument absent (bodies _ _ _ _ _ _ _ stopped)
          · cases kept
            exact .missed closure cacheable argument absent (bodies _ _ _ _ _ _ _ passed)
      · rename_i other
        exact .entered closure cacheable other (bodies _ _ _ _ _ _ _ ended)
    · rename_i uncacheable
      have uncacheable : (func.cacheable && arg.cacheable) = false := by simpa using uncacheable
      rcases Computation.bind_eq_some.mp ended with
        ⟨error, stopped, rfl⟩ | ⟨found, middle, passed, kept⟩
      · exact .tainted closure uncacheable (bodies _ _ _ _ _ _ _ stopped)
      · cases kept
        exact .tainted closure uncacheable (bodies _ _ _ _ _ _ _ passed)

theorem evaluates_of_evalDirect {depth : Nat} {waiting : List Frame} {env : Env} {code : Code}
    {id : NodeId} {state after : MachineState World} {outcome : Outcome}
    (ended : machine.evalDirect memoizing depth waiting env code id state =
      some (outcome, after)) :
    machine.Evaluates memoizing waiting (.node env code id) state outcome after := by
  induction depth generalizing waiting env code id state outcome after with
  | zero => cases ended
  | succ depth ih =>
      simp only [evalDirect] at ended
      split at ended
      · rename_i limit exceeded
        cases ended
        exact .limited exceeded
      · rename_i within
        split at ended
        · rename_i node
          cases ended
          exact .dangling within node
        · rename_i name node
          split at ended
          · rename_i value bound
            cases ended
            exact .variable within node bound
          · rename_i absent
            cases ended
            exact .unbound within node absent
        · rename_i param body node
          cases ended
          exact .abstraction within node
        · rename_i func arg node
          rcases Computation.bind_eq_some.mp ended with
            ⟨error, stopped, rfl⟩ | ⟨called, middle, operator, rest⟩
          · exact .operatorFails within node (ih stopped)
          · rcases Computation.bind_eq_some.mp rest with
              ⟨error, stopped, rfl⟩ | ⟨passed, ready, operand, rest⟩
            · exact .operandFails within node (ih operator) (ih stopped)
            · have application := evaluates_of_applyDirect
                (fun _ _ _ _ _ _ _ bodyEnded => ih bodyEnded) rest
              exact .applied within node (ih operator) (ih operand) application

variable (machine memoizing) in
def taskDirect (depth : Nat) (waiting : List Frame) : Task → Computation World Found
  | .node env code id => machine.evalDirect memoizing depth waiting env code id
  | .application env func arg =>
      machine.applyDirect memoizing (machine.evalDirect memoizing depth) waiting env func arg

/-- Every derivation is found by calls that may be nested deeply enough. -/
theorem Evaluates.taskDirect {waiting : List Frame} {task : Task}
    {state after : MachineState World} {outcome : Outcome}
    (ended : machine.Evaluates memoizing waiting task state outcome after) :
    ∃ bound, ∀ depth, bound ≤ depth →
      machine.taskDirect memoizing depth waiting task state = some (outcome, after) := by
  induction ended with
  | limited exceeded =>
      refine ⟨1, fun depth enough => ?_⟩
      obtain ⟨depth, rfl⟩ := Nat.exists_eq_add_of_le' enough
      simp only [Machine.taskDirect, evalDirect, exceeded, Computation.fail]
  | dangling within node =>
      refine ⟨1, fun depth enough => ?_⟩
      obtain ⟨depth, rfl⟩ := Nat.exists_eq_add_of_le' enough
      simp only [Machine.taskDirect, evalDirect, within, node, Computation.fail]
  | unbound within node absent =>
      refine ⟨1, fun depth enough => ?_⟩
      obtain ⟨depth, rfl⟩ := Nat.exists_eq_add_of_le' enough
      simp only [Machine.taskDirect, evalDirect, within, node, absent, Computation.fail]
      rfl
  | «variable» within node bound =>
      refine ⟨1, fun depth enough => ?_⟩
      obtain ⟨depth, rfl⟩ := Nat.exists_eq_add_of_le' enough
      simp only [Machine.taskDirect, evalDirect, within, node, bound]
  | abstraction within node =>
      refine ⟨1, fun depth enough => ?_⟩
      obtain ⟨depth, rfl⟩ := Nat.exists_eq_add_of_le' enough
      simp only [Machine.taskDirect, evalDirect, within, node]
      rfl
  | operatorFails within node _ operatorIh =>
      obtain ⟨bound, operator⟩ := operatorIh
      refine ⟨bound + 1, fun depth enough => ?_⟩
      obtain ⟨depth, rfl⟩ := Nat.exists_eq_add_of_le' (Nat.le_of_add_left_le enough)
      simp only [Machine.taskDirect, evalDirect, within, node]
      exact Computation.bind_eq_some.mpr (Or.inl ⟨_, operator depth (by omega), rfl⟩)
  | operandFails within node _ _ operatorIh operandIh =>
      obtain ⟨operatorBound, operator⟩ := operatorIh
      obtain ⟨operandBound, operand⟩ := operandIh
      refine ⟨max operatorBound operandBound + 1, fun depth enough => ?_⟩
      obtain ⟨depth, rfl⟩ := Nat.exists_eq_add_of_le' (Nat.le_of_add_left_le enough)
      simp only [Machine.taskDirect, evalDirect, within, node]
      apply Computation.bind_eq_some.mpr
      refine Or.inr ⟨_, _, operator depth (by omega), ?_⟩
      exact Computation.bind_eq_some.mpr (Or.inl ⟨_, operand depth (by omega), rfl⟩)
  | applied within node _ _ _ operatorIh operandIh applicationIh =>
      obtain ⟨operatorBound, operator⟩ := operatorIh
      obtain ⟨operandBound, operand⟩ := operandIh
      obtain ⟨applicationBound, application⟩ := applicationIh
      refine ⟨max (max operatorBound operandBound) applicationBound + 1, fun depth enough => ?_⟩
      obtain ⟨depth, rfl⟩ := Nat.exists_eq_add_of_le' (Nat.le_of_add_left_le enough)
      simp only [Machine.taskDirect, evalDirect, within, node]
      apply Computation.bind_eq_some.mpr
      refine Or.inr ⟨_, _, operator depth (by omega), ?_⟩
      apply Computation.bind_eq_some.mpr
      exact Or.inr ⟨_, _, operand depth (by omega), application depth (by omega)⟩
  | notCallable callee =>
      refine ⟨0, fun depth _ => ?_⟩
      simp only [Machine.taskDirect, applyDirect, callee, Computation.fail]
  | called callee reply =>
      refine ⟨0, fun depth _ => ?_⟩
      simp only [Machine.taskDirect, applyDirect, callee, reply]
  | recalled closure cacheable argument found =>
      refine ⟨0, fun depth _ => ?_⟩
      simp only [Machine.taskDirect, applyDirect, closure, cacheable, if_true, argument, found]
  | @missed waiting env func arg state callee key outcome after closure cacheable argument absent
      _ bodyIh =>
      obtain ⟨bound, body⟩ := bodyIh
      refine ⟨bound, fun depth enough => ?_⟩
      simp only [Machine.taskDirect, applyDirect, closure, cacheable, if_true, argument, absent]
      apply Computation.bind_eq_some.mpr
      rw [argument] at body
      cases outcome with
      | error error => exact Or.inl ⟨error, body depth enough, rfl⟩
      | ok found => exact Or.inr ⟨found, after, body depth enough, rfl⟩
  | @entered waiting env func arg state callee outcome after closure cacheable argument _ bodyIh =>
      obtain ⟨bound, body⟩ := bodyIh
      refine ⟨bound, fun depth enough => ?_⟩
      simp only [Machine.taskDirect, applyDirect, closure, cacheable, if_true]
      exact body depth enough
  | @tainted waiting env func arg state callee outcome after closure uncacheable _ bodyIh =>
      obtain ⟨bound, body⟩ := bodyIh
      refine ⟨bound, fun depth enough => ?_⟩
      simp only [Machine.taskDirect, applyDirect, closure, uncacheable, Bool.false_eq_true,
        if_false]
      apply Computation.bind_eq_some.mpr
      cases outcome with
      | error error => exact Or.inl ⟨error, body depth enough, rfl⟩
      | ok found => exact Or.inr ⟨found, after, body depth enough, rfl⟩

theorem evaluates_of_taskDirect {depth : Nat} {waiting : List Frame} {task : Task}
    {state after : MachineState World} {outcome : Outcome}
    (ended : machine.taskDirect memoizing depth waiting task state = some (outcome, after)) :
    machine.Evaluates memoizing waiting task state outcome after := by
  cases task with
  | node env code id => exact evaluates_of_evalDirect ended
  | application env func arg =>
      exact evaluates_of_applyDirect (fun _ _ _ _ _ _ _ body => evaluates_of_evalDirect body) ended

theorem evaluates_iff_evalDirect {waiting : List Frame} {env : Env} {code : Code} {id : NodeId}
    {state after : MachineState World} {outcome : Outcome} :
    machine.Evaluates memoizing waiting (.node env code id) state outcome after ↔
      ∃ depth, machine.evalDirect memoizing depth waiting env code id state =
        some (outcome, after) := by
  constructor
  · intro ended
    obtain ⟨bound, direct⟩ := ended.taskDirect
    exact ⟨bound, direct bound (Nat.le_refl bound)⟩
  · rintro ⟨depth, ended⟩
    exact evaluates_of_evalDirect ended

theorem Evaluates.memo_eq {waiting : List Frame} {task : Task} {state after : MachineState World}
    {outcome : Outcome} (ended : machine.Evaluates false waiting task state outcome after) :
    after.memo = state.memo := by
  induction ended with
  | limited _ => rfl
  | dangling _ _ => rfl
  | unbound _ _ _ => rfl
  | «variable» _ _ _ => rfl
  | abstraction _ _ => rfl
  | operatorFails _ _ _ operatorIh => exact operatorIh
  | operandFails _ _ _ _ operatorIh operandIh => exact operandIh.trans operatorIh
  | applied _ _ _ _ _ operatorIh operandIh applicationIh =>
      exact applicationIh.trans (operandIh.trans operatorIh)
  | notCallable _ => rfl
  | called _ reply =>
      cases reply
      rfl
  | recalled _ _ _ _ => rfl
  | @missed _ _ _ _ _ _ _ outcome _ _ _ _ _ _ bodyIh => cases outcome <;> exact bodyIh
  | entered _ _ _ _ bodyIh => exact bodyIh
  | tainted _ _ _ bodyIh => exact bodyIh

end Machine

end LambdaMachine
