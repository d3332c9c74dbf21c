import LambdaMachine.Proofs.Prelude.Simulation

/-!
Printing is not heard inside a program. By the reduction rules an evaluation comes to the same value
or the same error whether its output is captured or switched off, and reads the same bytes; only the
flag that tells what may go into a table differs.
-/

namespace LambdaMachine

def Scene.mute (scene : Scene Surroundings) : Scene Surroundings :=
  ⟨scene.names, { scene.world with io := { scene.world.io with output := .silent } }⟩

def Output.Reliable : Output → Prop
  | .stdout _ => False
  | .captured _ | .silent => True

def Scene.Reliable (scene : Scene Surroundings) : Prop :=
  scene.world.io.output.Reliable

theorem Output.Reliable.failure_eq_none {output : Output} (reliable : output.Reliable) :
    output.failure = none := by
  cases output with
  | stdout stream => exact reliable.elim
  | captured bytes => rfl
  | silent => rfl

theorem Output.Reliable.write {output : Output} (reliable : output.Reliable) (byte : UInt8) :
    (output.write byte).Reliable := by
  cases output with
  | stdout stream => exact reliable.elim
  | captured bytes => trivial
  | silent => trivial

theorem Surroundings.reliable_answer {scene : Scene Surroundings} (reliable : scene.Reliable)
    (function : Builtin) (arg : Value) : (host.answer function arg scene).2.Reliable := by
  change (host.apply function arg ⟨scene.names, 0⟩ scene.world).world.io.output.Reliable
  rcases world_apply function arg ⟨scene.names, 0⟩ scene.world with same | ⟨octet, wrote⟩ | read |
    noted
  · rw [same]
    exact reliable
  · rw [wrote]
    exact reliable.write octet
  · rw [read]
    exact reliable
  · rw [noted]
    exact reliable

def bareOutcome {ε : Type} (outcome : Except ε Evaluated) : Except ε Value :=
  outcome.map (·.value)

theorem Surroundings.answer_mute {scene : Scene Surroundings} (reliable : scene.Reliable)
    (function : Builtin) (arg : Value) :
    bareOutcome (host.answer function arg scene.mute).1 =
        bareOutcome (host.answer function arg scene).1 ∧
      (host.answer function arg scene.mute).2.mute = (host.answer function arg scene).2.mute := by
  cases operation : function.operation with
  | print =>
      rw [answer_print operation, answer_print operation]
      cases arg.byte? with
      | none => exact ⟨rfl, rfl⟩
      | some octet =>
          have off : scene.mute.world.io.output.isSilent = true := rfl
          dsimp only
          rw [if_pos off]
          by_cases silent : scene.world.io.output.isSilent = true
          · rw [if_pos silent]
            exact ⟨rfl, rfl⟩
          · rw [if_neg silent, reliable.failure_eq_none]
            exact ⟨rfl, rfl⟩
  | next =>
      rw [answer_next operation, answer_next operation]
      cases arg.byte? with
      | none => exact ⟨rfl, rfl⟩
      | some octet => exact ⟨rfl, rfl⟩
  | read =>
      rw [answer_read operation, answer_read operation]
      have sameInput : scene.mute.world.io.input = scene.world.io.input := rfl
      rw [sameInput]
      cases scene.world.io.input.read with
      | mk answer input =>
          cases answer with
          | error text => exact ⟨rfl, rfl⟩
          | ok byte => exact ⟨rfl, rfl⟩
  | echo cacheable =>
      simp only [Host.answer, host, operation]
      exact ⟨trivial, rfl⟩
  | successor cacheable =>
      simp only [Host.answer, host, operation]
      cases arg.count? with
      | none => exact ⟨rfl, rfl⟩
      | some number => exact ⟨rfl, rfl⟩
  | refuse text =>
      simp only [Host.answer, host, operation]
      exact ⟨trivial, rfl⟩
  | constant cacheable =>
      simp only [Host.answer, host, operation]
      exact ⟨trivial, rfl⟩

structure Scene.SameUnheard (left right : Scene Surroundings) : Prop where
  mute : left.mute = right.mute
  left : left.Reliable
  right : right.Reliable

theorem Scene.SameUnheard.symm {left right : Scene Surroundings} (same : left.SameUnheard right) :
    right.SameUnheard left :=
  ⟨same.mute.symm, same.right, same.left⟩

theorem Surroundings.answer_of_sameUnheard {left right : Scene Surroundings}
    (same : left.SameUnheard right) (function : Builtin) (arg : Value) :
    bareOutcome (host.answer function arg left).1 =
        bareOutcome (host.answer function arg right).1 ∧
      (host.answer function arg left).2.SameUnheard (host.answer function arg right).2 := by
  obtain ⟨leftAnswer, leftScene⟩ := answer_mute same.left function arg
  obtain ⟨rightAnswer, rightScene⟩ := answer_mute same.right function arg
  refine ⟨?_, ?_, reliable_answer same.left function arg, reliable_answer same.right function arg⟩
  · rw [← leftAnswer, ← rightAnswer, same.mute]
  · rw [← leftScene, ← rightScene, same.mute]

namespace Machine

inductive Task.Like : Task → Task → Prop
  | refl (task : Task) : Like task task
  | application (env : Env) {func arg otherFunc otherArg : Evaluated}
      (sameFunc : otherFunc.value = func.value) (sameArg : otherArg.value = arg.value) :
      Like (.application env func arg) (.application env otherFunc otherArg)

theorem Task.Like.node {env : Env} {code : Code} {id : NodeId} {other : Task}
    (like : Task.Like (.node env code id) other) : other = .node env code id := by
  cases like
  rfl

theorem Task.Like.operands {env : Env} {func arg : Evaluated} {other : Task}
    (like : Task.Like (.application env func arg) other) :
    ∃ otherFunc otherArg, other = .application env otherFunc otherArg ∧
      otherFunc.value = func.value ∧ otherArg.value = arg.value := by
  cases like with
  | refl => exact ⟨func, arg, rfl, rfl, rfl⟩
  | application _ sameFunc sameArg => exact ⟨_, _, rfl, sameFunc, sameArg⟩

theorem bareOutcome_outcomeOfBody (cacheable : Bool) (outcome : Except EvalError Evaluated) :
    bareOutcome (outcomeOfBody cacheable outcome) = bareOutcome outcome := by
  cases outcome with
  | error error => rfl
  | ok result => rfl

theorem bareOutcome_outcomeOfAnswer {left right : Except BuiltinError Evaluated}
    (same : bareOutcome left = bareOutcome right) (function : Builtin)
    (leftCacheable rightCacheable : Bool) :
    bareOutcome (outcomeOfAnswer function leftCacheable left) =
      bareOutcome (outcomeOfAnswer function rightCacheable right) := by
  cases left with
  | error error =>
      cases right with
      | error other => cases same; rfl
      | ok other => cases same
  | ok result =>
      cases right with
      | error other => cases same
      | ok other =>
          have sameValue : result.value = other.value := Except.ok.inj same
          rw [outcomeOfAnswer, outcomeOfAnswer, bareOutcome, bareOutcome, Except.map, Except.map,
            sameValue]

theorem bareOutcome_eq_error {outcome : Except EvalError Evaluated} {error : EvalError}
    (same : bareOutcome outcome = .error error) : outcome = .error error := by
  cases outcome with
  | error other => cases same; rfl
  | ok result => cases same

theorem bareOutcome_eq_ok {outcome : Except EvalError Evaluated} {value : Value}
    (same : bareOutcome outcome = .ok value) : ∃ result, outcome = .ok result ∧
      result.value = value := by
  cases outcome with
  | error other => cases same
  | ok result => exact ⟨result, rfl, Except.ok.inj same⟩

/-- An evaluation that ends in one scene ends in every scene that differs in its output, alike. -/
theorem Plain.exists_of_sameUnheard {task : Task} {scene after : Scene Surroundings}
    {outcome : Except EvalError Evaluated}
    (plain : Plain Surroundings.host task scene outcome after) {other : Task}
    {start : Scene Surroundings} (like : task.Like other) (same : start.SameUnheard scene) :
    ∃ ending last, Plain Surroundings.host other start ending last ∧
      bareOutcome ending = bareOutcome outcome ∧ last.SameUnheard after := by
  induction plain generalizing other start with
  | dangling node =>
      obtain rfl := like.node
      exact ⟨_, start, .dangling node, rfl, same⟩
  | @unbound _ _ _ scene name node absent =>
      obtain rfl := like.node
      have sameNames : start.mute.names = scene.mute.names := congrArg Scene.names same.mute
      replace sameNames : start.names = scene.names := sameNames
      refine ⟨_, start, .unbound node absent, ?_, same⟩
      rw [sameNames]
  | «variable» node bound =>
      obtain rfl := like.node
      exact ⟨_, start, .variable node bound, rfl, same⟩
  | abstraction node =>
      obtain rfl := like.node
      exact ⟨_, start, .abstraction node, rfl, same⟩
  | operatorFails node _ operatorIh =>
      obtain rfl := like.node
      obtain ⟨ending, last, operator, failed, sameLast⟩ := operatorIh (.refl _) same
      cases bareOutcome_eq_error failed
      exact ⟨_, last, .operatorFails node operator, rfl, sameLast⟩
  | operandFails node _ _ operatorIh operandIh =>
      obtain rfl := like.node
      obtain ⟨ending, middle, operator, returned, sameMiddle⟩ := operatorIh (.refl _) same
      obtain ⟨called, rfl, _⟩ := bareOutcome_eq_ok returned
      obtain ⟨ending, last, operand, failed, sameLast⟩ := operandIh (.refl _) sameMiddle
      cases bareOutcome_eq_error failed
      exact ⟨_, last, .operandFails node operator operand, rfl, sameLast⟩
  | applied node _ _ _ operatorIh operandIh applicationIh =>
      obtain rfl := like.node
      obtain ⟨ending, middle, operator, returned, sameMiddle⟩ := operatorIh (.refl _) same
      obtain ⟨called, rfl, sameCalled⟩ := bareOutcome_eq_ok returned
      obtain ⟨ending, ready, operand, returned, sameReady⟩ := operandIh (.refl _) sameMiddle
      obtain ⟨passed, rfl, samePassed⟩ := bareOutcome_eq_ok returned
      obtain ⟨ending, last, application, sameEnding, sameLast⟩ :=
        applicationIh (.application _ sameCalled samePassed) sameReady
      exact ⟨ending, last, .applied node operator operand application, sameEnding, sameLast⟩
  | notCallable callee =>
      obtain ⟨func, arg, rfl, sameFunc, _⟩ := like.operands
      exact ⟨_, start, .notCallable (sameFunc.trans callee), rfl, same⟩
  | @called _ _ arg scene function callee =>
      obtain ⟨func, otherArg, rfl, sameFunc, sameArg⟩ := like.operands
      obtain ⟨sameAnswer, sameLast⟩ :=
        Surroundings.answer_of_sameUnheard same function arg.value
      refine ⟨_, _, .called (sameFunc.trans callee), ?_, ?_⟩
      · rw [sameArg]
        exact bareOutcome_outcomeOfAnswer sameAnswer function _ _
      · rw [sameArg]
        exact sameLast
  | entered closure _ bodyIh =>
      obtain ⟨func, arg, rfl, sameFunc, sameArg⟩ := like.operands
      obtain ⟨ending, last, body, sameEnding, sameLast⟩ := bodyIh (.refl _) same
      rw [← sameArg] at body
      refine ⟨_, last, .entered (sameFunc.trans closure) body, ?_, sameLast⟩
      rw [bareOutcome_outcomeOfBody, bareOutcome_outcomeOfBody, sameEnding]

end Machine

end LambdaMachine
