import LambdaMachine.Proofs.Machine.Direct
import LambdaMachine.Proofs.Value.Erasure

/-!
What evaluation means apart from identities and tables. `Plain` has the reduction rules alone: a
scene is what evaluation can notice of a state, and every closure is made without an identity. A
result that is cacheable depends on no part of the scene that can still change.
-/

namespace LambdaMachine

structure Scene (World : Type) where
  names : NameTable
  world : World

def MachineState.scene {World : Type} (state : MachineState World) : Scene World :=
  ⟨state.mint.names, state.world⟩

def Host.answer {World : Type} (host : Host World) (function : Builtin) (arg : Value)
    (scene : Scene World) : Except BuiltinError Evaluated × Scene World :=
  let reply := host.apply function arg ⟨scene.names, 0⟩ scene.world
  (reply.result.map Evaluated.erase, ⟨reply.mint.names, reply.world⟩)

namespace Machine

variable {World : Type}

def Task.erase : Task → Task
  | .node env code id => .node env.erase code.erase id
  | .application env func arg => .application env.erase func.erase arg.erase

theorem Task.erase_eq_node {task : Task} {env : Env} {code : Code} {id : NodeId}
    (same : task.erase = .node env code id) :
    ∃ outer shared, task = .node outer shared id ∧ outer.erase = env ∧ shared.erase = code := by
  cases task with
  | node outer shared _ => cases same; exact ⟨outer, shared, rfl, rfl, rfl⟩
  | application _ _ _ => cases same

theorem Task.erase_eq_application {task : Task} {env : Env} {func arg : Evaluated}
    (same : task.erase = .application env func arg) :
    ∃ outer called passed, task = .application outer called passed ∧
      called.erase = func ∧ passed.erase = arg := by
  cases task with
  | node _ _ _ => cases same
  | application outer called passed => cases same; exact ⟨outer, called, passed, rfl, rfl, rfl⟩

def eraseOutcome (outcome : Outcome) : Except EvalError Evaluated :=
  outcome.map fun found => found.result.erase

theorem eraseOutcome_eq_error {outcome : Outcome} {error : EvalError}
    (same : eraseOutcome outcome = .error error) : outcome = .error error := by
  cases outcome with
  | error other => cases same; rfl
  | ok found => cases same

theorem eraseOutcome_eq_ok {outcome : Outcome} {result : Evaluated}
    (same : eraseOutcome outcome = .ok result) :
    ∃ found, outcome = .ok found ∧ found.result.erase = result := by
  cases outcome with
  | error other => cases same
  | ok found => exact ⟨found, rfl, Except.ok.inj same⟩

def outcomeOfAnswer (function : Builtin) (cacheable : Bool)
    (answer : Except BuiltinError Evaluated) : Except EvalError Evaluated :=
  match answer with
  | .ok result => .ok ⟨result.value, result.cacheable && cacheable⟩
  | .error error => .error (.ofBuiltin function.name error)

def outcomeOfBody (cacheable : Bool) (outcome : Except EvalError Evaluated) :
    Except EvalError Evaluated :=
  outcome.map fun result => ⟨result.value, cacheable && result.cacheable⟩

theorem outcomeOfBody_true (outcome : Except EvalError Evaluated) :
    outcomeOfBody true outcome = outcome := by
  cases outcome <;> rfl

theorem outcomeOfBody_false (outcome : Outcome) :
    outcomeOfBody false (eraseOutcome outcome) = eraseOutcome (taintOutcome outcome) := by
  cases outcome <;> rfl

def Task.plainBody (callee : Closure) (arg : Value) : Task :=
  .node (callee.env.extend 0 callee.param arg) callee.code callee.body

theorem scene_remember (machine : Machine World) (memoizing : Bool) (waiting : List Frame)
    (callee key : Closure) (found : Found) (state : MachineState World) :
    (machine.remember memoizing waiting callee key found state).scene = state.scene := by
  rw [MachineState.scene, mint_remember, world_remember]
  rfl

inductive Plain (host : Host World) :
    Task → Scene World → Except EvalError Evaluated → Scene World → Prop
  | dangling {env code id scene} (node : code.arena.node? id = none) :
      Plain host (.node env code id) scene (.error (.dangling id)) scene
  | unbound {env code id scene name} (node : code.arena.node? id = some (.var name))
      (absent : env.lookup name = none) :
      Plain host (.node env code id) scene (.error (.unbound (scene.names.text name))) scene
  | variable {env code id scene name value} (node : code.arena.node? id = some (.var name))
      (bound : env.lookup name = some value) :
      Plain host (.node env code id) scene (.ok ⟨value, true⟩) scene
  | abstraction {env code id scene param body}
      (node : code.arena.node? id = some (.lambda param body)) :
      Plain host (.node env code id) scene (.ok ⟨.closure ⟨0, env, param, body, code⟩, true⟩) scene
  | operatorFails {env code id scene func arg error after}
      (node : code.arena.node? id = some (.apply func arg))
      (operator : Plain host (.node env code func) scene (.error error) after) :
      Plain host (.node env code id) scene (.error error) after
  | operandFails {env code id scene func arg called middle error after}
      (node : code.arena.node? id = some (.apply func arg))
      (operator : Plain host (.node env code func) scene (.ok called) middle)
      (operand : Plain host (.node env code arg) middle (.error error) after) :
      Plain host (.node env code id) scene (.error error) after
  | applied {env code id scene func arg called middle passed ready outcome after}
      (node : code.arena.node? id = some (.apply func arg))
      (operator : Plain host (.node env code func) scene (.ok called) middle)
      (operand : Plain host (.node env code arg) middle (.ok passed) ready)
      (application : Plain host (.application env called passed) ready outcome after) :
      Plain host (.node env code id) scene outcome after
  | notCallable {env func arg scene ident datum} (callee : func.value = .datum ident datum) :
      Plain host (.application env func arg) scene (.error (.notCallable datum.kind)) scene
  | called {env func arg scene function} (callee : func.value = .builtin function) :
      Plain host (.application env func arg) scene
        (outcomeOfAnswer function (func.cacheable && arg.cacheable)
          (host.answer function arg.value scene).1)
        (host.answer function arg.value scene).2
  | entered {env func arg scene callee outcome after} (closure : func.value = .closure callee)
      (body : Plain host (.plainBody callee arg.value) scene outcome after) :
      Plain host (.application env func arg) scene
        (outcomeOfBody (func.cacheable && arg.cacheable) outcome) after

/-- An application evaluates its function, then its argument, and ends with the first failure or
with what the one applied to the other comes to. -/
theorem Plain.application_cases {host : Host World} {env : Env} {code : Code} {id func arg : NodeId}
    {scene after : Scene World} {outcome : Except EvalError Evaluated}
    (node : code.arena.node? id = some (.apply func arg))
    (plain : Plain host (.node env code id) scene outcome after) :
    (∃ error, outcome = .error error ∧ Plain host (.node env code func) scene (.error error) after) ∨
      ∃ called middle, Plain host (.node env code func) scene (.ok called) middle ∧
        ((∃ error, outcome = .error error ∧
            Plain host (.node env code arg) middle (.error error) after) ∨
          ∃ passed ready, Plain host (.node env code arg) middle (.ok passed) ready ∧
            Plain host (.application env called passed) ready outcome after) := by
  cases plain with
  | dangling other => cases node.symm.trans other
  | unbound other _ => cases node.symm.trans other
  | «variable» other _ => cases node.symm.trans other
  | abstraction other => cases node.symm.trans other
  | operatorFails same operator =>
      cases node.symm.trans same
      exact .inl ⟨_, rfl, operator⟩
  | operandFails same operator operand =>
      cases node.symm.trans same
      exact .inr ⟨_, _, operator, .inl ⟨_, rfl, operand⟩⟩
  | applied same operator operand application =>
      cases node.symm.trans same
      exact .inr ⟨_, _, operator, .inr ⟨_, _, operand, application⟩⟩

section Succeeds

variable {host : Host World} {env : Env} {code : Code} {id : NodeId} {func arg result : Evaluated}
  {scene after : Scene World}

theorem Plain.of_var {name : NameId} (node : code.arena.node? id = some (.var name))
    (plain : Plain host (.node env code id) scene (.ok result) after) :
    env.lookup name = some result.value ∧ after = scene := by
  cases plain with
  | «variable» other bound => cases node.symm.trans other; exact ⟨bound, rfl⟩
  | abstraction other => cases node.symm.trans other
  | applied other _ _ _ => cases node.symm.trans other

theorem Plain.of_lambda {param : NameId} {body : NodeId}
    (node : code.arena.node? id = some (.lambda param body))
    (plain : Plain host (.node env code id) scene (.ok result) after) :
    result.value = .closure ⟨0, env, param, body, code⟩ ∧ after = scene := by
  cases plain with
  | «variable» other _ => cases node.symm.trans other
  | abstraction other => cases node.symm.trans other; exact ⟨rfl, rfl⟩
  | applied other _ _ _ => cases node.symm.trans other

theorem Plain.of_apply {operator operand : NodeId}
    (node : code.arena.node? id = some (.apply operator operand))
    (plain : Plain host (.node env code id) scene (.ok result) after) :
    ∃ called middle passed ready, Plain host (.node env code operator) scene (.ok called) middle ∧
      Plain host (.node env code operand) middle (.ok passed) ready ∧
      Plain host (.application env called passed) ready (.ok result) after := by
  rcases plain.application_cases node with
    ⟨_, ⟨⟩, _⟩ | ⟨called, middle, operator, ⟨_, ⟨⟩, _⟩ | ⟨passed, ready, operand, application⟩⟩
  exact ⟨called, middle, passed, ready, operator, operand, application⟩

theorem Plain.of_closure {callee : Closure} (closure : func.value = .closure callee)
    (plain : Plain host (.application env func arg) scene (.ok result) after) :
    ∃ inner, Plain host (.plainBody callee arg.value) scene (.ok inner) after ∧
      result.value = inner.value := by
  generalize ended : Except.ok result = outcome at plain
  cases plain with
  | notCallable other => cases closure.symm.trans other
  | called other => cases closure.symm.trans other
  | @entered _ _ _ _ _ outcome _ other body =>
      cases closure.symm.trans other
      cases outcome with
      | error error => cases ended
      | ok inner => cases ended; exact ⟨inner, body, rfl⟩

theorem Plain.of_builtin {function : Builtin} (callee : func.value = .builtin function)
    (plain : Plain host (.application env func arg) scene (.ok result) after) :
    ∃ answered, host.answer function arg.value scene = (.ok answered, after) ∧
      result.value = answered.value := by
  generalize ended : Except.ok result = outcome at plain
  cases plain with
  | notCallable other => cases callee.symm.trans other
  | entered other _ => cases callee.symm.trans other
  | called other =>
      cases callee.symm.trans other
      cases answer : host.answer function arg.value scene with
      | mk reply last =>
          rw [answer] at ended
          cases reply with
          | error error => cases ended
          | ok answered => cases ended; exact ⟨answered, rfl, rfl⟩

end Succeeds

theorem Plain.deterministic {host : Host World} {task : Task} {scene left right : Scene World}
    {leftOutcome rightOutcome : Except EvalError Evaluated}
    (toLeft : Plain host task scene leftOutcome left)
    (toRight : Plain host task scene rightOutcome right) :
    leftOutcome = rightOutcome ∧ left = right := by
  induction toLeft generalizing rightOutcome right with
  | dangling node => cases toRight <;> simp_all
  | unbound node absent => cases toRight <;> simp_all
  | «variable» node bound => cases toRight <;> simp_all
  | abstraction node => cases toRight <;> simp_all
  | operatorFails node _ operatorIh =>
      rcases toRight.application_cases node with ⟨_, rfl, operator⟩ | ⟨_, _, operator, _⟩
      · exact operatorIh operator
      · cases (operatorIh operator).1
  | operandFails node _ _ operatorIh operandIh =>
      rcases toRight.application_cases node with ⟨_, rfl, operator⟩ | ⟨_, _, operator, rest⟩
      · cases (operatorIh operator).1
      · obtain ⟨⟨⟩, rfl⟩ := operatorIh operator
        rcases rest with ⟨_, rfl, operand⟩ | ⟨_, _, operand, _⟩
        · exact operandIh operand
        · cases (operandIh operand).1
  | applied node _ _ _ operatorIh operandIh applicationIh =>
      rcases toRight.application_cases node with ⟨_, rfl, operator⟩ | ⟨_, _, operator, rest⟩
      · cases (operatorIh operator).1
      · obtain ⟨⟨⟩, rfl⟩ := operatorIh operator
        rcases rest with ⟨_, rfl, operand⟩ | ⟨_, _, operand, application⟩
        · cases (operandIh operand).1
        · obtain ⟨⟨⟩, rfl⟩ := operandIh operand
          exact applicationIh application
  | notCallable callee =>
      cases toRight with
      | notCallable calleeAgain => cases callee.symm.trans calleeAgain; exact ⟨rfl, rfl⟩
      | called calleeAgain => cases callee.symm.trans calleeAgain
      | entered calleeAgain _ => cases callee.symm.trans calleeAgain
  | called callee =>
      cases toRight with
      | notCallable calleeAgain => cases callee.symm.trans calleeAgain
      | called calleeAgain => cases callee.symm.trans calleeAgain; exact ⟨rfl, rfl⟩
      | entered calleeAgain _ => cases callee.symm.trans calleeAgain
  | entered closure _ bodyIh =>
      cases toRight with
      | notCallable calleeAgain => cases closure.symm.trans calleeAgain
      | called calleeAgain => cases closure.symm.trans calleeAgain
      | entered calleeAgain body =>
          cases closure.symm.trans calleeAgain
          obtain ⟨rfl, rfl⟩ := bodyIh body
          exact ⟨rfl, rfl⟩

end Machine

end LambdaMachine
