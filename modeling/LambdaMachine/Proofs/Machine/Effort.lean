import LambdaMachine.Proofs.Machine.Counting
import LambdaMachine.Proofs.Machine.Limit

/-!
The effort of an evaluation: the nodes that are visited and the host functions that are called.
`Costs` is evaluation in direct style with its effort. The run of the machine that a derivation
stands for takes exactly that effort, and the counters show it, as far as they go.
-/

namespace LambdaMachine

structure Effort where
  visits : Nat
  calls : Nat

namespace Effort

instance : Zero Effort := ⟨⟨0, 0⟩⟩

instance : Add Effort := ⟨fun first second =>
  ⟨first.visits + second.visits, first.calls + second.calls⟩⟩

instance : LE Effort := ⟨fun less more => less.visits ≤ more.visits ∧ less.calls ≤ more.calls⟩

def visit : Effort := ⟨1, 0⟩

def call : Effort := ⟨0, 1⟩

@[simp] theorem visits_add (first second : Effort) :
    (first + second).visits = first.visits + second.visits := rfl

@[simp] theorem calls_add (first second : Effort) :
    (first + second).calls = first.calls + second.calls := rfl

protected theorem add_assoc (first second third : Effort) :
    first + second + third = first + (second + third) :=
  congrArg₂ mk (Nat.add_assoc _ _ _) (Nat.add_assoc _ _ _)

@[simp] protected theorem zero_add (effort : Effort) : 0 + effort = effort :=
  congrArg₂ mk (Nat.zero_add _) (Nat.zero_add _)

@[simp] protected theorem add_zero (effort : Effort) : effort + 0 = effort :=
  rfl

protected theorem le_refl (effort : Effort) : effort ≤ effort :=
  ⟨Nat.le_refl _, Nat.le_refl _⟩

protected theorem le_trans {first second third : Effort} (less : first ≤ second)
    (more : second ≤ third) : first ≤ third :=
  ⟨Nat.le_trans less.1 more.1, Nat.le_trans less.2 more.2⟩

protected theorem zero_le (effort : Effort) : 0 ≤ effort :=
  ⟨Nat.zero_le _, Nat.zero_le _⟩

protected theorem le_add_right (effort further : Effort) : effort ≤ effort + further :=
  ⟨Nat.le_add_right _ _, Nat.le_add_right _ _⟩

protected theorem add_le_add {first second more further : Effort} (le : first ≤ more)
    (alsoLe : second ≤ further) : first + second ≤ more + further :=
  ⟨Nat.add_le_add le.1 alsoLe.1, Nat.add_le_add le.2 alsoLe.2⟩

protected theorem add_le_add_left (first : Effort) {less more : Effort} (le : less ≤ more) :
    first + less ≤ first + more :=
  Effort.add_le_add (Effort.le_refl first) le

end Effort

structure Counters.Shows (counters : Counters) (effort : Effort) (after : Counters) : Prop where
  steps : after.steps = Counters.bump^[effort.visits] counters.steps
  calls : after.calls = Counters.bump^[effort.calls] counters.calls

namespace Counters.Shows

variable {counters middle after : Counters} {effort further : Effort}

theorem of_eq (steps : after.steps = counters.steps) (calls : after.calls = counters.calls) :
    counters.Shows 0 after :=
  ⟨steps, calls⟩

theorem trans (first : counters.Shows effort middle) (second : middle.Shows further after) :
    counters.Shows (effort + further) after := by
  constructor
  · rw [second.steps, first.steps, ← Function.iterate_add_apply, Nat.add_comm]
    rfl
  · rw [second.calls, first.calls, ← Function.iterate_add_apply, Nat.add_comm]
    rfl

end Counters.Shows

def Focus.effort : Focus → List Frame → Effort
  | .node _ _ _, _ => .visit
  | .value _ _, .call _ func :: _ =>
      match func.value with
      | .builtin _ => .call
      | .closure _ => 0
      | .datum _ _ => 0
  | .value _ _, _ => 0

namespace Machine

variable {World : Type} (machine : Machine World) (memoizing : Bool)

/-- A task, started in a state while `waiting` waits for it, ends with an outcome in a state, and
this is the effort. Asking a table is no effort. -/
inductive Costs :
    List Frame → Task → MachineState World → Outcome → MachineState World → Effort → Prop
  | limited {waiting env code id state limit}
      (exceeded : machine.overLimit state.countStep.counters.steps = some limit) :
      Costs waiting (.node env code id) state (.error (.stepLimit limit)) state.countStep .visit
  | dangling {waiting env code id state}
      (within : machine.overLimit state.countStep.counters.steps = none)
      (node : code.arena.node? id = none) :
      Costs waiting (.node env code id) state (.error (.dangling id)) state.countStep .visit
  | unbound {waiting env code id state name}
      (within : machine.overLimit state.countStep.counters.steps = none)
      (node : code.arena.node? id = some (.var name)) (absent : env.lookup name = none) :
      Costs waiting (.node env code id) state
        (.error (.unbound (state.mint.names.text name))) state.countStep .visit
  | variable {waiting env code id state name value}
      (within : machine.overLimit state.countStep.counters.steps = none)
      (node : code.arena.node? id = some (.var name)) (bound : env.lookup name = some value) :
      Costs waiting (.node env code id) state (.ok ⟨env, value, true⟩) state.countStep .visit
  | abstraction {waiting env code id state param body}
      (within : machine.overLimit state.countStep.counters.steps = none)
      (node : code.arena.node? id = some (.lambda param body)) :
      Costs waiting (.node env code id) state
        (.ok ⟨env, .closure (state.mint.closure env param body code).1, true⟩)
        { state.countStep with mint := (state.mint.closure env param body code).2 } .visit
  | operatorFails {waiting env code id state func arg error after effort}
      (within : machine.overLimit state.countStep.counters.steps = none)
      (node : code.arena.node? id = some (.apply func arg))
      (operator : Costs (.argument env code arg :: waiting) (.node env code func)
        state.countStep (.error error) after effort) :
      Costs waiting (.node env code id) state (.error error) after (.visit + effort)
  | operandFails {waiting env code id state func arg called middle error after effort further}
      (within : machine.overLimit state.countStep.counters.steps = none)
      (node : code.arena.node? id = some (.apply func arg))
      (operator : Costs (.argument env code arg :: waiting) (.node env code func)
        state.countStep (.ok called) middle effort)
      (operand : Costs (.call env called.result :: waiting) (.node env code arg)
        middle (.error error) after further) :
      Costs waiting (.node env code id) state (.error error) after (.visit + (effort + further))
  | applied {waiting env code id state func arg called middle passed ready outcome after
        operatorEffort operandEffort effort}
      (within : machine.overLimit state.countStep.counters.steps = none)
      (node : code.arena.node? id = some (.apply func arg))
      (operator : Costs (.argument env code arg :: waiting) (.node env code func)
        state.countStep (.ok called) middle operatorEffort)
      (operand : Costs (.call env called.result :: waiting) (.node env code arg)
        middle (.ok passed) ready operandEffort)
      (application : Costs waiting (.application env called.result passed.result)
        ready outcome after effort) :
      Costs waiting (.node env code id) state outcome after
        (.visit + (operatorEffort + (operandEffort + effort)))
  | notCallable {waiting env func arg state ident datum}
      (callee : func.value = .datum ident datum) :
      Costs waiting (.application env func arg) state
        (.error (.notCallable datum.kind)) state 0
  | called {waiting env func arg state function outcome after}
      (callee : func.value = .builtin function)
      (reply : machine.callDirect env function arg.value (func.cacheable && arg.cacheable) state =
        some (outcome, after)) :
      Costs waiting (.application env func arg) state outcome after .call
  | recalled {waiting env func arg state callee key hit}
      (closure : func.value = .closure callee)
      (cacheable : (func.cacheable && arg.cacheable) = true)
      (argument : arg.value = .closure key)
      (found : recollect memoizing callee key state = some hit) :
      Costs waiting (.application env func arg) state (.ok ⟨env, hit, true⟩) state.countHit 0
  | missed {waiting env func arg state callee key outcome after effort}
      (closure : func.value = .closure callee)
      (cacheable : (func.cacheable && arg.cacheable) = true)
      (argument : arg.value = .closure key)
      (absent : recollect memoizing callee key state = none)
      (body : Costs (.memoize callee key :: waiting) (.body callee arg.value state)
        (state.entering callee arg.value).2 outcome after effort) :
      Costs waiting (.application env func arg) state outcome
        (machine.rememberOutcome memoizing waiting callee key outcome after) effort
  | entered {waiting env func arg state callee outcome after effort}
      (closure : func.value = .closure callee)
      (cacheable : (func.cacheable && arg.cacheable) = true)
      (argument : ∀ key, arg.value ≠ .closure key)
      (body : Costs waiting (.body callee arg.value state)
        (state.entering callee arg.value).2 outcome after effort) :
      Costs waiting (.application env func arg) state outcome after effort
  | tainted {waiting env func arg state callee outcome after effort}
      (closure : func.value = .closure callee)
      (uncacheable : (func.cacheable && arg.cacheable) = false)
      (body : Costs (.taint :: waiting) (.body callee arg.value state)
        (state.entering callee arg.value).2 outcome after effort) :
      Costs waiting (.application env func arg) state (taintOutcome outcome) after effort

variable {machine memoizing}

section Derivations

variable {waiting : List Frame} {task : Task} {state after : MachineState World}
  {outcome : Outcome} {effort : Effort}

theorem Costs.evaluates (costs : machine.Costs memoizing waiting task state outcome after effort) :
    machine.Evaluates memoizing waiting task state outcome after := by
  induction costs with
  | limited exceeded => exact .limited exceeded
  | dangling within node => exact .dangling within node
  | unbound within node absent => exact .unbound within node absent
  | «variable» within node bound => exact .variable within node bound
  | abstraction within node => exact .abstraction within node
  | operatorFails within node _ operatorIh => exact .operatorFails within node operatorIh
  | operandFails within node _ _ operatorIh operandIh =>
      exact .operandFails within node operatorIh operandIh
  | applied within node _ _ _ operatorIh operandIh applicationIh =>
      exact .applied within node operatorIh operandIh applicationIh
  | notCallable callee => exact .notCallable callee
  | called callee reply => exact .called callee reply
  | recalled closure cacheable argument found => exact .recalled closure cacheable argument found
  | missed closure cacheable argument absent _ bodyIh =>
      exact .missed closure cacheable argument absent bodyIh
  | entered closure cacheable argument _ bodyIh => exact .entered closure cacheable argument bodyIh
  | tainted closure uncacheable _ bodyIh => exact .tainted closure uncacheable bodyIh

theorem Evaluates.exists_costs
    (ended : machine.Evaluates memoizing waiting task state outcome after) :
    ∃ effort, machine.Costs memoizing waiting task state outcome after effort := by
  induction ended with
  | limited exceeded => exact ⟨_, .limited exceeded⟩
  | dangling within node => exact ⟨_, .dangling within node⟩
  | unbound within node absent => exact ⟨_, .unbound within node absent⟩
  | «variable» within node bound => exact ⟨_, .variable within node bound⟩
  | abstraction within node => exact ⟨_, .abstraction within node⟩
  | operatorFails within node _ operatorIh =>
      obtain ⟨_, operator⟩ := operatorIh
      exact ⟨_, .operatorFails within node operator⟩
  | operandFails within node _ _ operatorIh operandIh =>
      obtain ⟨_, operator⟩ := operatorIh
      obtain ⟨_, operand⟩ := operandIh
      exact ⟨_, .operandFails within node operator operand⟩
  | applied within node _ _ _ operatorIh operandIh applicationIh =>
      obtain ⟨_, operator⟩ := operatorIh
      obtain ⟨_, operand⟩ := operandIh
      obtain ⟨_, application⟩ := applicationIh
      exact ⟨_, .applied within node operator operand application⟩
  | notCallable callee => exact ⟨_, .notCallable callee⟩
  | called callee reply => exact ⟨_, .called callee reply⟩
  | recalled closure cacheable argument found =>
      exact ⟨_, .recalled closure cacheable argument found⟩
  | missed closure cacheable argument absent _ bodyIh =>
      obtain ⟨_, body⟩ := bodyIh
      exact ⟨_, .missed closure cacheable argument absent body⟩
  | entered closure cacheable argument _ bodyIh =>
      obtain ⟨_, body⟩ := bodyIh
      exact ⟨_, .entered closure cacheable argument body⟩
  | tainted closure uncacheable _ bodyIh =>
      obtain ⟨_, body⟩ := bodyIh
      exact ⟨_, .tainted closure uncacheable body⟩

theorem shows_rememberOutcome (waiting : List Frame) (callee key : Closure) (outcome : Outcome)
    (state : MachineState World) :
    state.counters.Shows 0
      (machine.rememberOutcome memoizing waiting callee key outcome state).counters := by
  cases outcome with
  | error error => exact .of_eq rfl rfl
  | ok found =>
      simp only [rememberOutcome, remember]
      split <;> exact .of_eq rfl rfl

theorem Costs.shows (costs : machine.Costs memoizing waiting task state outcome after effort) :
    state.counters.Shows effort after.counters := by
  have visited (state : MachineState World) :
      state.counters.Shows .visit state.countStep.counters := ⟨rfl, rfl⟩
  induction costs with
  | limited _ => exact visited _
  | dangling _ _ => exact visited _
  | unbound _ _ _ => exact visited _
  | «variable» _ _ _ => exact visited _
  | abstraction _ _ => exact visited _
  | operatorFails _ _ _ operatorIh => exact (visited _).trans operatorIh
  | operandFails _ _ _ _ operatorIh operandIh => exact (visited _).trans (operatorIh.trans operandIh)
  | applied _ _ _ _ _ operatorIh operandIh applicationIh =>
      exact (visited _).trans (operatorIh.trans (operandIh.trans applicationIh))
  | notCallable _ => exact .of_eq rfl rfl
  | called _ reply =>
      cases reply
      exact ⟨rfl, rfl⟩
  | recalled _ _ _ _ => exact .of_eq rfl rfl
  | missed _ _ _ _ _ bodyIh => exact bodyIh.trans (shows_rememberOutcome _ _ _ _ _)
  | entered _ _ _ _ bodyIh => exact bodyIh
  | tainted _ _ _ bodyIh => exact bodyIh

end Derivations

section Runs

variable (machine) in
def effort : Nat → Focus → List Frame → MachineState World → Effort
  | 0, _, _, _ => 0
  | fuel + 1, focus, stack, state =>
      focus.effort stack +
        match machine.step focus stack state with
        | .moved focus stack state => effort fuel focus stack state
        | .halted _ _ => 0

variable (machine) in
def effortFrom (fuel : Nat) : Transition World → Effort
  | .moved focus stack state => machine.effort fuel focus stack state
  | .halted _ _ => 0

theorem effort_succ (fuel : Nat) (focus : Focus) (stack : List Frame) (state : MachineState World) :
    machine.effort (fuel + 1) focus stack state =
      focus.effort stack + machine.effortFrom fuel (machine.step focus stack state) := by
  rw [effort]
  cases machine.step focus stack state <;> rfl

theorem visits_effort (fuel : Nat) (focus : Focus) (stack : List Frame)
    (state : MachineState World) :
    (machine.effort fuel focus stack state).visits = machine.visits fuel focus stack state := by
  induction fuel generalizing focus stack state with
  | zero => rfl
  | succ fuel ih =>
      have step : (focus.effort stack).visits = focus.cost := by
        unfold Focus.effort
        split
        · rfl
        · split <;> rfl
        · rfl
      rw [effort_succ, visits_succ, Effort.visits_add, step]
      cases machine.step focus stack state with
      | moved focus stack state => exact congrArg (_ + ·) (ih focus stack state)
      | halted outcome after => rfl

variable (machine) in
inductive Passes : Effort → Transition World → Transition World → Prop
  | refl {next} : Passes 0 next next
  | step {focus stack state last effort}
      (rest : Passes effort (machine.step focus stack state) last) :
      Passes (focus.effort stack + effort) (.moved focus stack state) last

section Passes

variable {first second third last : Transition World} {effort further : Effort} {focus : Focus}
  {stack : List Frame} {state : MachineState World}

theorem Passes.trans (before : machine.Passes effort first second)
    (after : machine.Passes further second third) :
    machine.Passes (effort + further) first third := by
  induction before with
  | refl => rwa [Effort.zero_add]
  | step _ ih =>
      rw [Effort.add_assoc]
      exact .step (ih after)

theorem Passes.once (step : machine.step focus stack state = last) :
    machine.Passes (focus.effort stack) (.moved focus stack state) last := by
  subst step
  exact Passes.step .refl

/-- A step that is no effort. -/
theorem Passes.free (free : focus.effort stack = 0)
    (rest : machine.Passes effort (machine.step focus stack state) last) :
    machine.Passes effort (.moved focus stack state) last := by
  have step := Passes.step rest
  rwa [free, Effort.zero_add] at step

theorem Passes.runFrom (passes : machine.Passes effort first last) :
    ∃ steps, ∀ fuel, machine.runFrom (fuel + steps) first = machine.runFrom fuel last ∧
      machine.effortFrom (fuel + steps) first = effort + machine.effortFrom fuel last := by
  induction passes with
  | refl => exact ⟨0, fun _ => ⟨rfl, (Effort.zero_add _).symm⟩⟩
  | step _ ih =>
      obtain ⟨steps, run⟩ := ih
      refine ⟨steps + 1, fun fuel => ⟨(run fuel).1, ?_⟩⟩
      exact (machine.effort_succ _ _ _ _).trans
        ((congrArg (_ + ·) (run fuel).2).trans (Effort.add_assoc _ _ _).symm)

variable {env : Env} {code : Code} {id : NodeId} {waiting : List Frame}

theorem passes_node (within : machine.overLimit state.countStep.counters.steps = none)
    (rest : machine.Passes effort (evalNode env code id waiting state.countStep) last) :
    machine.Passes (.visit + effort) (.moved (.node env code id) waiting state) last := by
  have step : machine.Passes effort (machine.step (.node env code id) waiting state) last := by
    simp only [Machine.step, within]
    exact rest
  exact Passes.step step

theorem passes_leaf (within : machine.overLimit state.countStep.counters.steps = none)
    (next : evalNode env code id waiting state.countStep = last) :
    machine.Passes .visit (.moved (.node env code id) waiting state) last := by
  subst next
  exact passes_node within .refl

theorem passes_operator {func arg : NodeId}
    (within : machine.overLimit state.countStep.counters.steps = none)
    (node : code.arena.node? id = some (.apply func arg))
    (rest : machine.Passes effort (.moved (.node env code func) (.argument env code arg :: waiting)
      state.countStep) last) :
    machine.Passes (.visit + effort) (.moved (.node env code id) waiting state) last := by
  refine passes_node within ?_
  simp only [evalNode, node]
  exact rest

theorem passes_closure {callee : Closure} {origin : Env} {func arg : Evaluated}
    (closure : func.value = .closure callee)
    (rest : machine.Passes effort (machine.apply env func arg waiting state) last) :
    machine.Passes effort (.moved (.value origin arg) (.call env func :: waiting) state) last := by
  refine .free ?_ rest
  simp only [Focus.effort, closure]

theorem passes_memoize (machine : Machine World) (waiting : List Frame) (callee key : Closure)
    (outcome : Outcome) (after : MachineState World) :
    machine.Passes 0 (deliverOutcome (.memoize callee key :: waiting) outcome after)
      (deliverOutcome waiting outcome
        (machine.rememberOutcome true waiting callee key outcome after)) := by
  cases outcome with
  | error error => exact .refl
  | ok found =>
      refine .free rfl ?_
      rw [step_memoize]
      exact .refl

theorem passes_taint (machine : Machine World) (waiting : List Frame) (outcome : Outcome)
    (after : MachineState World) :
    machine.Passes 0 (deliverOutcome (.taint :: waiting) outcome after)
      (deliverOutcome waiting (taintOutcome outcome) after) := by
  cases outcome with
  | error error => exact .refl
  | ok found => exact .free rfl .refl

end Passes

/-- How the machine comes to a task: it is set to the node, or an argument, found in some
environment, is handed to the call. -/
def Task.launch (origin : Env) (waiting : List Frame) (state : MachineState World) :
    Task → Transition World
  | .node env code id => .moved (.node env code id) waiting state
  | .application env func arg => .moved (.value origin arg) (.call env func :: waiting) state

theorem Costs.passes {waiting : List Frame} {task : Task} {state after : MachineState World}
    {outcome : Outcome} {effort : Effort}
    (costs : machine.Costs true waiting task state outcome after effort) (origin : Env) :
    machine.Passes effort (task.launch origin waiting state)
      (deliverOutcome waiting outcome after) := by
  induction costs generalizing origin with
  | @limited waiting env code id state limit exceeded =>
      have step : machine.step (.node env code id) waiting state =
          .halted (.error (.stepLimit limit)) state.countStep := by
        simp only [step, exceeded]
      exact Passes.once step
  | dangling within node =>
      refine passes_leaf within ?_
      simp only [evalNode, node]
      rfl
  | unbound within node absent =>
      refine passes_leaf within ?_
      simp only [evalNode, node, absent]
      rfl
  | «variable» within node bound =>
      refine passes_leaf within ?_
      simp only [evalNode, node, bound]
      rfl
  | abstraction within node =>
      refine passes_leaf within ?_
      simp only [evalNode, node]
      rfl
  | operatorFails within node _ operatorIh => exact passes_operator within node (operatorIh origin)
  | operandFails within node _ _ operatorIh operandIh =>
      exact passes_operator within node ((operatorIh origin).trans (.free rfl (operandIh origin)))
  | @applied _ _ _ _ _ _ _ _ _ passed _ _ _ _ _ _ within node _ _ _ operatorIh operandIh
      applicationIh =>
      have rest := (operandIh origin).trans (applicationIh passed.env)
      exact passes_operator within node ((operatorIh origin).trans (.free rfl rest))
  | @notCallable waiting env func arg state ident datum callee =>
      refine .free ?_ ?_
      · simp only [Focus.effort, callee]
      · simp only [step, deliver, apply, callee]
        exact .refl
  | @called waiting env func arg state function outcome after callee reply =>
      obtain ⟨_, _, direct, called⟩ := machine.exists_callDirect env function arg.value
        (func.cacheable && arg.cacheable) waiting state
      cases reply.symm.trans direct
      have effort : (Focus.value origin arg).effort (.call env func :: waiting) = .call := by
        simp only [Focus.effort, callee]
      have step : machine.step (.value origin arg) (.call env func :: waiting) state =
          deliverOutcome waiting outcome after := by
        simp only [step, deliver, apply, callee, called]
      exact effort ▸ Passes.once step
  | recalled closure cacheable argument found =>
      simp only [recollect, if_true] at found
      refine passes_closure closure ?_
      simp only [apply, closure, cacheable, if_true, argument, found]
      exact .refl
  | @missed waiting env func arg state callee key outcome after effort closure cacheable argument
      absent _ bodyIh =>
      simp only [recollect, if_true] at absent
      refine passes_closure closure ?_
      rw [apply_missed closure cacheable argument absent]
      exact (bodyIh origin).trans (machine.passes_memoize waiting callee key outcome after)
  | @entered waiting env func arg state callee outcome after effort closure cacheable argument _
      bodyIh =>
      refine passes_closure closure ?_
      rw [apply_entered closure cacheable argument]
      exact bodyIh origin
  | @tainted waiting env func arg state callee outcome after effort closure uncacheable _ bodyIh =>
      refine passes_closure closure ?_
      rw [apply_tainted closure uncacheable]
      exact (bodyIh origin).trans (machine.passes_taint waiting outcome after)

/-- The run of the machine takes the effort of the derivation. -/
theorem Costs.run {env : Env} {code : Code} {id : NodeId} {state after : MachineState World}
    {outcome : Outcome} {effort : Effort}
    (costs : machine.Costs true [] (.node env code id) state outcome after effort) :
    ∃ fuel, machine.run fuel (.node env code id) [] state =
        some (outcome.map (·.result), after) ∧
      machine.effort fuel (.node env code id) [] state = effort := by
  obtain ⟨steps, run⟩ := (costs.passes env).runFrom
  refine ⟨1 + steps, (run 1).1.trans ?_, (run 1).2.trans ?_⟩
  · cases outcome <;> rfl
  · cases outcome <;> rfl

end Runs

section Limit

variable {waiting : List Frame} {task : Task} {state after : MachineState World}
  {outcome : Outcome}

theorem taintOutcome_eq_error {error : EvalError} :
    taintOutcome outcome = .error error ↔ outcome = .error error := by
  cases outcome with
  | error other => rfl
  | ok found => constructor <;> rintro ⟨⟩

/-- An evaluation that ends, but not for the limit, ends alike without one. -/
theorem Evaluates.withoutLimit
    (ended : machine.Evaluates memoizing waiting task state outcome after)
    (within : ∀ limit, outcome ≠ .error (.stepLimit limit)) :
    (machine.withLimit none).Evaluates memoizing waiting task state outcome after := by
  induction ended with
  | limited _ => exact (within _ rfl).elim
  | dangling _ node => exact .dangling rfl node
  | unbound _ node absent => exact .unbound rfl node absent
  | «variable» _ node bound => exact .variable rfl node bound
  | abstraction _ node => exact .abstraction rfl node
  | operatorFails _ node _ operatorIh => exact .operatorFails rfl node (operatorIh within)
  | operandFails _ node _ _ operatorIh operandIh =>
      exact .operandFails rfl node (operatorIh (by rintro _ ⟨⟩)) (operandIh within)
  | applied _ node _ _ _ operatorIh operandIh applicationIh =>
      exact .applied rfl node (operatorIh (by rintro _ ⟨⟩)) (operandIh (by rintro _ ⟨⟩))
        (applicationIh within)
  | notCallable callee => exact .notCallable callee
  | called callee reply => exact .called callee reply
  | recalled closure cacheable argument found => exact .recalled closure cacheable argument found
  | missed closure cacheable argument absent _ bodyIh =>
      exact .missed closure cacheable argument absent (bodyIh within)
  | entered closure cacheable argument _ bodyIh =>
      exact .entered closure cacheable argument (bodyIh within)
  | tainted closure uncacheable _ bodyIh =>
      refine .tainted closure uncacheable (bodyIh fun limit cut => ?_)
      exact within limit (taintOutcome_eq_error.mpr cut)

theorem le_of_overLimit {limit steps : Nat} (limited : machine.limit = some limit)
    (within : machine.overLimit steps = none) : steps ≤ limit := by
  rw [overLimit, limited] at within
  dsimp only at within
  split at within
  · cases within
  · omega

theorem Evaluates.steps_le_max {limit : Nat} (limited : machine.limit = some limit)
    (ended : machine.Evaluates memoizing waiting task state outcome after)
    (within : ∀ limit, outcome ≠ .error (.stepLimit limit)) :
    after.counters.steps ≤ max state.counters.steps limit := by
  induction ended with
  | limited _ => exact (within _ rfl).elim
  | dangling begun _ => exact Nat.le_trans (le_of_overLimit limited begun) (Nat.le_max_right _ _)
  | unbound begun _ _ => exact Nat.le_trans (le_of_overLimit limited begun) (Nat.le_max_right _ _)
  | «variable» begun _ _ => exact Nat.le_trans (le_of_overLimit limited begun) (Nat.le_max_right _ _)
  | abstraction begun _ => exact Nat.le_trans (le_of_overLimit limited begun) (Nat.le_max_right _ _)
  | operatorFails begun _ _ operatorIh =>
      have begun := le_of_overLimit limited begun
      have operator := operatorIh within
      omega
  | operandFails begun _ _ _ operatorIh operandIh =>
      have begun := le_of_overLimit limited begun
      have operator := operatorIh (by rintro _ ⟨⟩)
      have operand := operandIh within
      omega
  | applied begun _ _ _ _ operatorIh operandIh applicationIh =>
      have begun := le_of_overLimit limited begun
      have operator := operatorIh (by rintro _ ⟨⟩)
      have operand := operandIh (by rintro _ ⟨⟩)
      have application := applicationIh within
      omega
  | notCallable _ => exact Nat.le_max_left _ _
  | called _ reply =>
      cases reply
      exact Nat.le_max_left _ _
  | recalled _ _ _ _ => exact Nat.le_max_left _ _
  | @missed _ _ _ _ _ _ _ outcome last _ _ _ _ _ bodyIh =>
      exact Nat.le_trans (Nat.le_of_eq (shows_rememberOutcome _ _ _ outcome last).steps)
        (bodyIh within)
  | entered _ _ _ _ bodyIh => exact bodyIh within
  | tainted _ _ _ bodyIh =>
      exact bodyIh fun limit cut => within limit (taintOutcome_eq_error.mpr cut)

/-- The steps of an evaluation that is not cut fit into the limit. -/
theorem Evaluates.steps_le {env : Env} {code : Code} {id : NodeId} {limit : Nat}
    (limited : machine.limit = some limit)
    (ended : machine.Evaluates memoizing waiting (.node env code id) state outcome after)
    (within : ∀ limit, outcome ≠ .error (.stepLimit limit)) : after.counters.steps ≤ limit := by
  have begun : state.counters.steps ≤ limit := by
    refine Nat.le_trans (Counters.le_bump _) ?_
    cases ended with
    | limited _ => exact (within _ rfl).elim
    | dangling begun _ => exact le_of_overLimit limited begun
    | unbound begun _ _ => exact le_of_overLimit limited begun
    | «variable» begun _ _ => exact le_of_overLimit limited begun
    | abstraction begun _ => exact le_of_overLimit limited begun
    | operatorFails begun _ _ => exact le_of_overLimit limited begun
    | operandFails begun _ _ _ => exact le_of_overLimit limited begun
    | applied begun _ _ _ _ => exact le_of_overLimit limited begun
  have steps := ended.steps_le_max limited within
  omega

end Limit

end Machine

end LambdaMachine
