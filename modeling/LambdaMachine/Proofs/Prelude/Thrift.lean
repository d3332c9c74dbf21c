import LambdaMachine.Proofs.Machine.Effort
import LambdaMachine.Proofs.Prelude.Pure

/-!
Tables save effort. An evaluation that asks tables and one that does not, of the same task in the
same scene, visit the same nodes and call the same host functions, except where a table answers:
there the one stops at once, and the other makes its way to the value that was recorded.
-/

namespace LambdaMachine.Machine

section Parts

variable {World : Type} {machine : Machine World} {memoizing : Bool} {waiting : List Frame}
  {env : Env} {code : Code} {id : NodeId} {func arg : Evaluated} {callee : Closure}
  {state after : MachineState World} {outcome : Outcome} {effort : Effort}

theorem Costs.visit_le
    (costs : machine.Costs memoizing waiting (.node env code id) state outcome after effort) :
    .visit ≤ effort := by
  cases costs with
  | limited _ => exact Effort.le_refl _
  | dangling _ _ => exact Effort.le_refl _
  | unbound _ _ _ => exact Effort.le_refl _
  | «variable» _ _ _ => exact Effort.le_refl _
  | abstraction _ _ => exact Effort.le_refl _
  | operatorFails _ _ _ => exact Effort.le_add_right _ _
  | operandFails _ _ _ _ => exact Effort.le_add_right _ _
  | applied _ _ _ _ _ => exact Effort.le_add_right _ _

/-- The effort of an application covers its visit, its function, its argument if the function
succeeds, and the one applied to the other if both do. -/
theorem Costs.parts {operator operand : NodeId} (unlimited : machine.limit = none)
    (node : code.arena.node? id = some (.apply operator operand))
    (costs : machine.Costs memoizing waiting (.node env code id) state outcome after effort) :
    ∃ operatorOutcome middle spent,
      machine.Costs memoizing (.argument env code operand :: waiting) (.node env code operator)
        state.countStep operatorOutcome middle spent ∧ .visit + spent ≤ effort ∧
      ∀ called, operatorOutcome = .ok called → ∃ operandOutcome ready further,
        machine.Costs memoizing (.call env called.result :: waiting) (.node env code operand) middle
          operandOutcome ready further ∧ .visit + (spent + further) ≤ effort ∧
        ∀ passed, operandOutcome = .ok passed → ∃ rest,
          machine.Costs memoizing waiting (.application env called.result passed.result) ready
            outcome after rest ∧ .visit + (spent + (further + rest)) ≤ effort := by
  cases costs with
  | limited exceeded => rw [overLimit_of_unlimited unlimited] at exceeded; cases exceeded
  | dangling _ other => cases node.symm.trans other
  | unbound _ other _ => cases node.symm.trans other
  | «variable» _ other _ => cases node.symm.trans other
  | abstraction _ other => cases node.symm.trans other
  | operatorFails _ same operator =>
      cases node.symm.trans same
      exact ⟨_, _, _, operator, Effort.le_refl _, by rintro _ ⟨⟩⟩
  | operandFails _ same operator operand =>
      cases node.symm.trans same
      refine ⟨_, _, _, operator, ?_, ?_⟩
      · exact Effort.add_le_add_left _ (Effort.le_add_right _ _)
      · rintro _ ⟨⟩
        exact ⟨_, _, _, operand, Effort.le_refl _, by rintro _ ⟨⟩⟩
  | applied _ same operator operand application =>
      cases node.symm.trans same
      refine ⟨_, _, _, operator, ?_, ?_⟩
      · exact Effort.add_le_add_left _ (Effort.le_add_right _ _)
      · rintro _ ⟨⟩
        refine ⟨_, _, _, operand, ?_, ?_⟩
        · exact Effort.add_le_add_left _ (Effort.add_le_add_left _ (Effort.le_add_right _ _))
        · rintro _ ⟨⟩
          exact ⟨_, application, Effort.le_refl _⟩

theorem Costs.eq_call {function : Builtin} (callee : func.value = .builtin function)
    (costs : machine.Costs memoizing waiting (.application env func arg) state outcome after
      effort) : effort = .call := by
  cases costs with
  | notCallable other => cases callee.symm.trans other
  | called _ _ => rfl
  | recalled other _ _ _ => cases callee.symm.trans other
  | missed other _ _ _ _ => cases callee.symm.trans other
  | entered other _ _ _ => cases callee.symm.trans other
  | tainted other _ _ => cases callee.symm.trans other

/-- Without tables the body of a closure is entered whenever it is applied. -/
theorem Costs.enters (closure : func.value = .closure callee)
    (costs : machine.Costs false waiting (.application env func arg) state outcome after effort) :
    ∃ frames inner last, machine.Costs false frames (.body callee arg.value state)
      (state.entering callee arg.value).2 inner last effort := by
  cases costs with
  | notCallable other => cases closure.symm.trans other
  | called other _ => cases closure.symm.trans other
  | recalled _ _ _ found => cases found
  | missed same _ _ _ body =>
      cases closure.symm.trans same
      exact ⟨_, _, _, body⟩
  | entered same _ _ body =>
      cases closure.symm.trans same
      exact ⟨_, _, _, body⟩
  | tainted same _ body =>
      cases closure.symm.trans same
      exact ⟨_, _, _, body⟩

end Parts

structure Twins (catalog other : Catalog) (task twin : Task)
    (state twinState : MachineState Surroundings) : Prop where
  tasks : task.erase = twin.erase
  scenes : state.scene = twinState.scene
  sound : Sound catalog state
  known : task.Known catalog
  twinSound : Sound other twinState
  twinKnown : twin.Known other

section Twins

variable {catalog other : Catalog} {env twinEnv : Env} {code twinCode : Code} {id : NodeId}
  {task twin : Task} {state twinState after twinAfter : MachineState Surroundings}
  {outcome twinOutcome : Outcome}

theorem Twins.exists_node (twins : Twins catalog other (.node env code id) twin state twinState)
    {operator operand : NodeId} (node : code.arena.node? id = some (.apply operator operand)) :
    ∃ twinEnv twinCode, twin = .node twinEnv twinCode id ∧
      twinCode.arena.node? id = some (.apply operator operand) ∧
      Twins catalog other (.node env code operator) (.node twinEnv twinCode operator)
        state.countStep twinState.countStep := by
  obtain ⟨twinEnv, twinCode, rfl, sameEnv, sameCode⟩ := Task.erase_eq_node twins.tasks.symm
  have sameArena : twinCode.erase.arena = code.erase.arena := congrArg Code.arena sameCode
  refine ⟨twinEnv, twinCode, rfl, sameArena.symm ▸ node, ?_, twins.scenes, twins.sound.countStep,
    twins.known, twins.twinSound.countStep, twins.twinKnown⟩
  rw [Task.erase, Task.erase, sameEnv, sameCode]

/-- Without tables the twin of an application of a closure enters the twin of its body. -/
theorem Twins.exists_body {machine : Machine Surroundings} {waiting : List Frame}
    {func arg : Evaluated} {callee : Closure} {effort : Effort}
    (twins : Twins catalog other (.application env func arg) twin state twinState)
    (closure : func.value = .closure callee)
    (free : machine.Costs false waiting twin twinState twinOutcome twinAfter effort) :
    ∃ frames body start inner last, machine.Costs false frames body start inner last effort ∧
      Twins catalog other (.body callee arg.value state) body (state.entering callee arg.value).2
        start := by
  obtain ⟨twinEnv, twinFunc, twinArg, rfl, sameFunc, sameArg⟩ :=
    Task.erase_eq_application twins.tasks.symm
  have sameCallee := congrArg Evaluated.value sameFunc
  rw [Evaluated.value_erase_closure closure] at sameCallee
  obtain ⟨twinCallee, twinClosure, sameCallee⟩ := Value.erase_eq_closure sameCallee
  have sameArg : twinArg.value.erase = arg.value.erase := congrArg Evaluated.value sameArg
  obtain ⟨frames, inner, last, body⟩ := free.enters twinClosure
  refine ⟨frames, _, _, inner, last, body, ?_, twins.scenes, twins.sound.entering _ _,
    Task.known_body (closure ▸ twins.known.1) twins.known.2 _, twins.twinSound.entering _ _,
    Task.known_body (twinClosure ▸ twins.twinKnown.1) twins.twinKnown.2 _⟩
  rw [Task.erase_body, Task.erase_body, sameCallee, sameArg]

/-- Twins come to results that are alike, and the tables stay right on both sides. -/
theorem Twins.succeed {machine : Machine Surroundings} {memoizing twinMemoizing : Bool}
    {waiting twinWaiting : List Frame} {found : Found}
    (prelude : machine.host = Surroundings.host) (unlimited : machine.limit = none)
    (twins : Twins catalog other task twin state twinState)
    (ended : machine.Evaluates memoizing waiting task state (.ok found) after)
    (twinEnded : machine.Evaluates twinMemoizing twinWaiting twin twinState twinOutcome twinAfter) :
    ∃ twinFound later twinLater, twinOutcome = .ok twinFound ∧
      found.result.erase = twinFound.result.erase ∧
      found.result.value.Known later ∧ twinFound.result.value.Known twinLater ∧
      catalog.Grows state.mint.nextIdent later after.mint.nextIdent ∧
      other.Grows twinState.mint.nextIdent twinLater twinAfter.mint.nextIdent ∧
      after.scene = twinAfter.scene ∧ Sound later after ∧ Sound twinLater twinAfter := by
  have twinFaithful := twinEnded.faithful prelude unlimited twins.twinSound twins.twinKnown
  have plain := twinFaithful.steady.plain
  rw [← twins.tasks, ← twins.scenes] at plain
  obtain ⟨sameOutcome, sameScene, later, grows, sound, known⟩ :=
    ended.outcome_eq prelude unlimited twins.sound twins.known plain
  obtain ⟨twinLater, twinGrows, twinSound, twinKnown⟩ := twinFaithful.leaves
  obtain ⟨twinFound, rfl, alike⟩ := eraseOutcome_eq_ok sameOutcome.symm
  exact ⟨twinFound, later, twinLater, rfl, alike.symm, known found rfl, twinKnown twinFound rfl,
    grows, twinGrows, sameScene, sound, twinSound⟩

/-- Once the functions of twins are evaluated, their arguments are twins. -/
theorem Twins.operand {later twinLater : Catalog} {operator : NodeId}
    (operators : Twins catalog other (.node env code operator) (.node twinEnv twinCode operator)
      state twinState)
    (grows : catalog.Grows state.mint.nextIdent later after.mint.nextIdent)
    (twinGrows : other.Grows twinState.mint.nextIdent twinLater twinAfter.mint.nextIdent)
    (scenes : after.scene = twinAfter.scene) (sound : Sound later after)
    (twinSound : Sound twinLater twinAfter) (operand : NodeId) :
    Twins later twinLater (.node env code operand) (.node twinEnv twinCode operand) after
      twinAfter := by
  obtain ⟨sameEnv, sameCode, _⟩ := Task.node.inj operators.tasks
  refine ⟨?_, scenes, sound, operators.known.mono grows, twinSound,
    operators.twinKnown.mono twinGrows⟩
  rw [Task.erase, Task.erase, sameEnv, sameCode]

theorem Twins.application {func arg twinFunc twinArg : Evaluated}
    (sameEnv : env.erase = twinEnv.erase)
    (funcsAlike : func.erase = twinFunc.erase) (argsAlike : arg.erase = twinArg.erase)
    (scenes : state.scene = twinState.scene) (sound : Sound catalog state)
    (funcKnown : func.value.Known catalog) (argKnown : arg.value.Known catalog)
    (twinSound : Sound other twinState) (twinFuncKnown : twinFunc.value.Known other)
    (twinArgKnown : twinArg.value.Known other) :
    Twins catalog other (.application env func arg) (.application twinEnv twinFunc twinArg) state
      twinState := by
  refine ⟨?_, scenes, sound, ⟨funcKnown, argKnown⟩, twinSound, ⟨twinFuncKnown, twinArgKnown⟩⟩
  rw [Task.erase, Task.erase, sameEnv, funcsAlike, argsAlike]

end Twins

/-- Asking tables that are right takes no more effort than doing without. -/
theorem Costs.le_memoFree {machine : Machine Surroundings} {waiting twinWaiting : List Frame}
    {task twin : Task} {state twinState after twinAfter : MachineState Surroundings}
    {outcome twinOutcome : Outcome} {effort twinEffort : Effort} {catalog other : Catalog}
    (prelude : machine.host = Surroundings.host) (unlimited : machine.limit = none)
    (costs : machine.Costs true waiting task state outcome after effort)
    (free : machine.Costs false twinWaiting twin twinState twinOutcome twinAfter twinEffort)
    (twins : Twins catalog other task twin state twinState) : effort ≤ twinEffort := by
  induction costs generalizing catalog other twinWaiting twin twinState twinOutcome twinAfter
    twinEffort with
  | limited exceeded => rw [overLimit_of_unlimited unlimited] at exceeded; cases exceeded
  | dangling _ _ =>
      obtain ⟨_, _, rfl, _⟩ := Task.erase_eq_node twins.tasks.symm
      exact free.visit_le
  | unbound _ _ _ =>
      obtain ⟨_, _, rfl, _⟩ := Task.erase_eq_node twins.tasks.symm
      exact free.visit_le
  | «variable» _ _ _ =>
      obtain ⟨_, _, rfl, _⟩ := Task.erase_eq_node twins.tasks.symm
      exact free.visit_le
  | abstraction _ _ =>
      obtain ⟨_, _, rfl, _⟩ := Task.erase_eq_node twins.tasks.symm
      exact free.visit_le
  | operatorFails _ node _ operatorIh =>
      obtain ⟨twinEnv, twinCode, rfl, twinNode, operators⟩ := twins.exists_node node
      obtain ⟨_, _, _, operator, covers, _⟩ := free.parts unlimited twinNode
      refine Effort.le_trans ?_ covers
      exact Effort.add_le_add_left _ (operatorIh operator operators)
  | operandFails _ node operator _ operatorIh operandIh =>
      obtain ⟨twinEnv, twinCode, rfl, twinNode, operators⟩ := twins.exists_node node
      obtain ⟨_, _, _, twinOperator, _, rest⟩ := free.parts unlimited twinNode
      obtain ⟨twinCalled, _, _, rfl, _, _, _, grows, twinGrows, scenes, sound, twinSound⟩ :=
        operators.succeed prelude unlimited operator.evaluates twinOperator.evaluates
      obtain ⟨_, _, _, twinOperand, covers, _⟩ := rest twinCalled rfl
      have operands := operators.operand grows twinGrows scenes sound twinSound
      refine Effort.le_trans ?_ covers
      refine Effort.add_le_add_left _ ?_
      exact Effort.add_le_add (operatorIh twinOperator operators)
        (operandIh twinOperand (operands _))
  | applied _ node operator operand _ operatorIh operandIh applicationIh =>
      obtain ⟨twinEnv, twinCode, rfl, twinNode, operators⟩ := twins.exists_node node
      obtain ⟨_, _, _, twinOperator, _, rest⟩ := free.parts unlimited twinNode
      obtain ⟨twinCalled, _, _, rfl, calledAlike, calledKnown, twinCalledKnown, grows, twinGrows,
        scenes, sound, twinSound⟩ :=
          operators.succeed prelude unlimited operator.evaluates twinOperator.evaluates
      obtain ⟨_, _, _, twinOperand, _, rest⟩ := rest twinCalled rfl
      have operands := operators.operand grows twinGrows scenes sound twinSound
      obtain ⟨twinPassed, _, _, rfl, passedAlike, passedKnown, twinPassedKnown, grows, twinGrows,
        scenes, sound, twinSound⟩ :=
          (operands _).succeed prelude unlimited operand.evaluates twinOperand.evaluates
      obtain ⟨_, twinApplication, covers⟩ := rest twinPassed rfl
      refine Effort.le_trans ?_ covers
      refine Effort.add_le_add_left _ ?_
      refine Effort.add_le_add (operatorIh twinOperator operators) ?_
      have applications := Twins.application (Task.node.inj operators.tasks).1 calledAlike
        passedAlike scenes sound (calledKnown.mono grows) passedKnown twinSound
        (twinCalledKnown.mono twinGrows) twinPassedKnown
      exact Effort.add_le_add (operandIh twinOperand (operands _))
        (applicationIh twinApplication applications)
  | notCallable _ => exact Effort.zero_le _
  | called callee _ =>
      obtain ⟨_, _, _, rfl, sameFunc, _⟩ := Task.erase_eq_application twins.tasks.symm
      have same := congrArg Evaluated.value sameFunc
      rw [Evaluated.value_erase_builtin callee] at same
      obtain ⟨_, twinCallee, _⟩ := Value.erase_eq_builtin same
      rw [free.eq_call twinCallee]
      exact Effort.le_refl _
  | recalled _ _ _ _ => exact Effort.zero_le _
  | missed closure _ _ _ _ bodyIh =>
      obtain ⟨_, _, _, _, _, body, bodies⟩ := twins.exists_body closure free
      exact bodyIh body bodies
  | entered closure _ _ _ bodyIh =>
      obtain ⟨_, _, _, _, _, body, bodies⟩ := twins.exists_body closure free
      exact bodyIh body bodies
  | tainted closure _ _ bodyIh =>
      obtain ⟨_, _, _, _, _, body, bodies⟩ := twins.exists_body closure free
      exact bodyIh body bodies

/-- What is finished without tables is finished with tables that are right, alike and with no more
effort. -/
theorem Costs.exists_memoizing {machine : Machine Surroundings} {waiting : List Frame} {task : Task}
    {state after : MachineState Surroundings} {outcome : Outcome} {effort : Effort}
    {catalog : Catalog} (prelude : machine.host = Surroundings.host)
    (unlimited : machine.limit = none)
    (free : machine.Costs false waiting task state outcome after effort)
    (sound : Sound catalog state) (known : task.Known catalog) :
    ∃ ending last spent, machine.Costs true waiting task state ending last spent ∧
      eraseOutcome ending = eraseOutcome outcome ∧ last.scene = after.scene ∧ spent ≤ effort := by
  have plain := (free.evaluates.faithful prelude unlimited sound known).steady.plain
  obtain ⟨ending, last, ended⟩ := plain.realized true prelude unlimited waiting rfl rfl sound known
  obtain ⟨sameOutcome, sameScene, _⟩ := ended.outcome_eq prelude unlimited sound known plain
  obtain ⟨spent, costs⟩ := ended.exists_costs
  have twins : Twins catalog catalog task task state state :=
    ⟨rfl, rfl, sound, known, sound, known⟩
  exact ⟨ending, last, spent, costs, sameOutcome, sameScene,
    costs.le_memoFree prelude unlimited free twins⟩

def Task.Cacheable : Task → Prop
  | .node _ _ _ => True
  | .application _ func arg => (func.cacheable && arg.cacheable) = true

theorem Pure.plain {scene : Scene Surroundings} {cost : Nat} {task : Task} {value : Value}
    (pure : Pure scene cost task value) (cacheable : task.Cacheable) :
    Plain Surroundings.host task scene (.ok ⟨value, true⟩) scene := by
  induction pure with
  | «variable» node bound => exact .variable node bound
  | abstraction node => exact .abstraction node
  | applied node _ _ _ operatorIh operandIh applicationIh =>
      exact .applied node (operatorIh trivial) (operandIh trivial) (applicationIh rfl)
  | @called env func arg function value callee _ answer =>
      have called := @Plain.called _ Surroundings.host env func arg scene function callee
      rw [answer, outcomeOfAnswer, show (func.cacheable && arg.cacheable) = true from cacheable]
        at called
      exact called
  | @entered env func arg callee value _ closure _ bodyIh =>
      have entered := @Plain.entered _ Surroundings.host env func arg scene _ _ _ closure
        (bodyIh trivial)
      rw [show (func.cacheable && arg.cacheable) = true from cacheable, outcomeOfBody_true]
        at entered
      exact entered

/-- Results of pure runs are right. -/
theorem Backed.sound {catalog : Catalog} {state : MachineState Surroundings}
    (backed : Backed catalog state) : Sound catalog state := by
  refine ⟨backed.bounded, ?_⟩
  refine backed.lawful.grow (Nat.le_refl _) (Catalog.Grows.refl backed.bounded).grown ?_
  intro func arg value backs
  obtain ⟨cost, pure⟩ := backs.pure
  exact ⟨backs.known, fun later before => (pure.again before).plain trivial⟩

end LambdaMachine.Machine
