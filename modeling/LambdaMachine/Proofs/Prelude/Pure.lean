import LambdaMachine.Proofs.Prelude.Simulation

/-!
Pure runs. A run is pure in a scene if it leaves the scene as it is and every part of it is
cacheable. Its cost, the number of rules it takes, depends on the task alone, so no pure run has a
pure run of its own task as a part.
-/

namespace LambdaMachine.Machine

inductive Pure (scene : Scene Surroundings) : Nat → Task → Value → Prop
  | variable {env code id name value} (node : code.arena.node? id = some (.var name))
      (bound : env.lookup name = some value) : Pure scene 1 (.node env code id) value
  | abstraction {env code id param body}
      (node : code.arena.node? id = some (.lambda param body)) :
      Pure scene 1 (.node env code id) (.closure ⟨0, env, param, body, code⟩)
  | applied {env code id func arg called passed value operatorCost operandCost applicationCost}
      (node : code.arena.node? id = some (.apply func arg))
      (operator : Pure scene operatorCost (.node env code func) called)
      (operand : Pure scene operandCost (.node env code arg) passed)
      (application : Pure scene applicationCost
        (.application env ⟨called, true⟩ ⟨passed, true⟩) value) :
      Pure scene (operatorCost + operandCost + applicationCost + 1) (.node env code id) value
  | called {env func arg function value} (callee : func.value = .builtin function)
      (native : function.operation.Native)
      (answer : Surroundings.host.answer function arg.value scene = (.ok ⟨value, true⟩, scene)) :
      Pure scene 1 (.application env func arg) value
  | entered {env func arg callee value cost} (closure : func.value = .closure callee)
      (body : Pure scene cost (.plainBody callee arg.value) value) :
      Pure scene (cost + 1) (.application env func arg) value

section Pure

variable {scene later : Scene Surroundings} {cost other : Nat} {task : Task} {value result : Value}

/-- A pure run can be made again in every later scene. -/
theorem Pure.again (pure : Pure scene cost task value) (before : scene.Before later) :
    Pure later cost task value := by
  induction pure with
  | «variable» node bound => exact .variable node bound
  | abstraction node => exact .abstraction node
  | applied node _ _ _ operatorIh operandIh applicationIh =>
      exact .applied node operatorIh operandIh applicationIh
  | @called _ _ arg function value callee native answer =>
      have answered : (Surroundings.host.answer function arg.value scene).1 =
          .ok ⟨value, true⟩ := by rw [answer]
      have reached : (Surroundings.host.answer function arg.value scene).2.Before later := by
        rw [answer]
        exact before
      exact .called callee native (Surroundings.answer_again native answered rfl reached)
  | entered closure _ bodyIh => exact .entered closure bodyIh

theorem Pure.deterministic (pure : Pure scene cost task value)
    (repeated : Pure scene other task result) : cost = other ∧ value = result := by
  induction pure generalizing other result with
  | «variable» node bound =>
      cases repeated with
      | «variable» same found =>
          cases node.symm.trans same
          exact ⟨rfl, Option.some.inj (bound.symm.trans found)⟩
      | abstraction same => cases node.symm.trans same
      | applied same _ _ _ => cases node.symm.trans same
  | abstraction node =>
      cases repeated with
      | «variable» same _ => cases node.symm.trans same
      | abstraction same => cases node.symm.trans same; exact ⟨rfl, rfl⟩
      | applied same _ _ _ => cases node.symm.trans same
  | applied node _ _ _ operatorIh operandIh applicationIh =>
      cases repeated with
      | «variable» same _ => cases node.symm.trans same
      | abstraction same => cases node.symm.trans same
      | applied same operator operand application =>
          cases node.symm.trans same
          obtain ⟨rfl, rfl⟩ := operatorIh operator
          obtain ⟨rfl, rfl⟩ := operandIh operand
          obtain ⟨rfl, rfl⟩ := applicationIh application
          exact ⟨rfl, rfl⟩
  | called callee _ answer =>
      cases repeated with
      | called calleeAgain _ answerAgain =>
          cases callee.symm.trans calleeAgain
          cases answer.symm.trans answerAgain
          exact ⟨rfl, rfl⟩
      | entered closure _ => cases callee.symm.trans closure
  | entered closure _ bodyIh =>
      cases repeated with
      | called callee _ _ => cases closure.symm.trans callee
      | entered closureAgain body =>
          cases closure.symm.trans closureAgain
          obtain ⟨rfl, rfl⟩ := bodyIh body
          exact ⟨rfl, rfl⟩

end Pure

def CheaperThan (cost : Nat) (scene : Scene Surroundings) (func arg : Closure) : Prop :=
  ∃ less value, less < cost ∧ Pure scene less (.plainBody func.erase (.closure arg.erase)) value

theorem CheaperThan.grow {cost more : Nat} {scene later : Scene Surroundings} {func arg : Closure}
    (cheaper : CheaperThan cost scene func arg) (le : cost ≤ more)
    (before : scene.Before later) : CheaperThan more later func arg := by
  obtain ⟨less, value, fewer, pure⟩ := cheaper
  exact ⟨less, value, Nat.lt_of_lt_of_le fewer le, pure.again before⟩

structure Backs (catalog : Catalog) (scene : Scene Surroundings) (func arg : Closure)
    (value : Value) : Prop where
  known : value.Known catalog
  pure : ∃ cost, Pure scene cost (.plainBody func.erase (.closure arg.erase)) value.erase

structure Backed (catalog : Catalog) (state : MachineState Surroundings) : Prop where
  bounded : catalog.Bounded state.mint.nextIdent
  lawful : state.memo.Lawful catalog state.mint.nextIdent (Backs catalog state.scene)

section Backed

variable {catalog later : Catalog} {state after : MachineState Surroundings}

theorem Backed.grow (backed : Backed catalog state) (sameMemo : after.memo = state.memo)
    (before : state.scene.Before after.scene)
    (grows : catalog.Grows state.mint.nextIdent later after.mint.nextIdent) :
    Backed later after := by
  refine ⟨grows.after, ?_⟩
  rw [sameMemo]
  refine backed.lawful.grow grows.le grows.grown fun func arg value backs => ?_
  obtain ⟨cost, pure⟩ := backs.pure
  exact ⟨backs.known.mono grows, cost, pure.again before⟩

theorem Backed.countStep (backed : Backed catalog state) : Backed catalog state.countStep :=
  ⟨backed.bounded, backed.lawful⟩

theorem Backed.entering (backed : Backed catalog state) (callee : Closure) (arg : Value) :
    Backed catalog (state.entering callee arg).2 :=
  backed.grow rfl (.refl _) (.skip backed.bounded (Nat.le_succ _))

/-- The closures of an entry were listed already when the entry was there. -/
theorem Backed.listed_of_lookup (backed : Backed catalog state)
    (grows : catalog.Grows state.mint.nextIdent later after.mint.nextIdent) {func arg : Closure}
    {value : Value} (found : state.memo.lookup func arg = some value)
    (funcListed : later.Lists func) (argListed : later.Lists arg) :
    catalog.Lists func ∧ catalog.Lists arg := by
  have issued := backed.lawful.issued _ _ value found
  exact ⟨(grows.grown _ issued.1).symm.trans funcListed,
    (grows.grown _ issued.2).symm.trans argListed⟩

end Backed

def AddsCheaper (cost : Nat) (catalog : Catalog) (state after : MachineState Surroundings) : Prop :=
  ∀ func arg value, catalog.Lists func → catalog.Lists arg →
    after.memo.lookup func arg = some value → state.memo.lookup func arg = none →
      CheaperThan cost after.scene func arg

/-- What an evaluation leaves behind: tables that are backed, and, if its result is cacheable, a
pure run that is dearer than all that were recorded on the way. -/
structure Grounded (catalog : Catalog) (task : Task) (state : MachineState Surroundings)
    (outcome : Outcome) (after : MachineState Surroundings) (later : Catalog) : Prop where
  grows : catalog.Grows state.mint.nextIdent later after.mint.nextIdent
  backed : Backed later after
  before : state.scene.Before after.scene
  known : ∀ found, outcome = .ok found → found.result.value.Known later
  pure : ∀ found, outcome = .ok found → found.result.cacheable = true →
    ∃ cost, Pure after.scene cost task.erase found.result.value.erase ∧
      AddsCheaper cost later state after

section Rules

variable {catalog first second later : Catalog} {env : Env} {code : Code} {id : NodeId}
  {task : Task} {func arg : Evaluated} {callee : Closure}
  {state middle ready after : MachineState Surroundings} {outcome : Outcome}

theorem AddsCheaper.trans {less cost : Nat} (early : AddsCheaper less first state middle)
    (late : AddsCheaper cost second middle after) {total : Nat} (lessLe : less ≤ total)
    (costLe : cost ≤ total) (backed : Backed first middle)
    (grows : first.Grows middle.mint.nextIdent second after.mint.nextIdent)
    (before : middle.scene.Before after.scene) : AddsCheaper total second state after := by
  intro func arg value funcListed argListed found absent
  cases meanwhile : middle.memo.lookup func arg with
  | none =>
      exact (late func arg value funcListed argListed found meanwhile).grow costLe (.refl _)
  | some earlier =>
      obtain ⟨funcThen, argThen⟩ := backed.listed_of_lookup grows meanwhile funcListed argListed
      exact (early func arg earlier funcThen argThen meanwhile absent).grow lessLe before

theorem AddsCheaper.of_memo_eq (same : after.memo = state.memo) (cost : Nat) (catalog : Catalog) :
    AddsCheaper cost catalog state after := by
  intro func arg value _ _ found absent
  rw [same, absent] at found
  cases found

theorem Evaluates.operands_cacheable {machine : Machine Surroundings} {memoizing : Bool}
    {waiting : List Frame} {found : Found}
    (ended : machine.Evaluates memoizing waiting (.application env func arg) state
      (.ok found) after)
    (cacheable : found.result.cacheable = true) : func.cacheable = true ∧ arg.cacheable = true := by
  rw [← Bool.and_eq_true]
  generalize returned : Except.ok found = outcome at ended
  cases ended with
  | notCallable _ => cases returned
  | @called _ _ _ _ _ function _ _ _ reply =>
      subst returned
      simp only [callDirect, Option.some.injEq, Prod.mk.injEq] at reply
      obtain ⟨answered, _⟩ := reply
      split at answered
      · cases answered
        exact (Bool.and_eq_true_iff.mp cacheable).2
      · cases answered
  | recalled _ both _ _ => exact both
  | missed _ both _ _ _ => exact both
  | entered _ both _ _ => exact both
  | @tainted _ _ _ _ _ _ outcome _ _ _ _ =>
      cases outcome with
      | error error => cases returned
      | ok inner => cases returned; cases cacheable

theorem Grounded.failed (backed : Backed catalog state) (error : EvalError) (counters : Counters) :
    Grounded catalog task state (.error error) { state with counters } catalog :=
  ⟨.refl backed.bounded, ⟨backed.bounded, backed.lawful⟩, .refl _, by rintro _ ⟨⟩, by rintro _ ⟨⟩⟩

theorem Grounded.settled {found : Found} {cost : Nat} (backed : Backed catalog state)
    (known : found.result.value.Known catalog)
    (pure : Pure state.scene cost task.erase found.result.value.erase) (counters : Counters) :
    Grounded catalog task state (.ok found) { state with counters } catalog := by
  refine ⟨.refl backed.bounded, ⟨backed.bounded, backed.lawful⟩, .refl _, ?_, ?_⟩
  · rintro _ ⟨⟩
    exact known
  · rintro _ ⟨⟩ _
    exact ⟨cost, pure, .of_memo_eq rfl _ _⟩

theorem Grounded.applied {operator operand : NodeId} {called passed : Found}
    (node : code.arena.node? id = some (.apply operator operand))
    (func : Grounded catalog (.node env code operator) state.countStep (.ok called) middle first)
    (arg : Grounded first (.node env code operand) middle (.ok passed) ready second)
    (application : Grounded second (.application env called.result passed.result) ready outcome
      after later)
    (operands : ∀ found, outcome = .ok found → found.result.cacheable = true →
      called.result.cacheable = true ∧ passed.result.cacheable = true) :
    Grounded catalog (.node env code id) state outcome after later := by
  refine ⟨func.grows.trans (arg.grows.trans application.grows), application.backed,
    func.before.trans (arg.before.trans application.before), application.known, ?_⟩
  intro found returned cacheable
  obtain ⟨calledCacheable, passedCacheable⟩ := operands found returned cacheable
  obtain ⟨funcCost, funcPure, funcAdds⟩ := func.pure called rfl calledCacheable
  obtain ⟨argCost, argPure, argAdds⟩ := arg.pure passed rfl passedCacheable
  obtain ⟨cost, pure, adds⟩ := application.pure found returned cacheable
  have operandsErased : (Task.application env called.result passed.result).erase =
      .application env.erase ⟨called.result.value.erase, true⟩
        ⟨passed.result.value.erase, true⟩ := by
    rw [Task.erase, Evaluated.erase, Evaluated.erase, calledCacheable, passedCacheable]
  rw [operandsErased] at pure
  refine ⟨_, .applied node (funcPure.again (arg.before.trans application.before))
    (argPure.again application.before) pure, ?_⟩
  have early := funcAdds.trans argAdds (Nat.le_add_right funcCost argCost)
    (Nat.le_add_left argCost funcCost) func.backed arg.grows arg.before
  exact early.trans adds (by omega) (by omega) arg.backed application.grows application.before

theorem Grounded.entered {state : MachineState Surroundings} (backed : Backed catalog state)
    (closure : func.value = .closure callee)
    (body : Grounded catalog (.body callee arg.value state) (state.entering callee arg.value).2
      outcome after later) :
    Grounded catalog (.application env func arg) state outcome after later := by
  refine ⟨(Catalog.Grows.skip backed.bounded (Nat.le_succ _)).trans body.grows, body.backed,
    body.before, body.known, fun found returned cacheable => ?_⟩
  obtain ⟨cost, pure, adds⟩ := body.pure found returned cacheable
  rw [Task.erase_body] at pure
  refine ⟨cost + 1, .entered (Evaluated.value_erase_closure closure) pure, ?_⟩
  intro func arg value funcListed argListed present absent
  exact (adds func arg value funcListed argListed present absent).grow (Nat.le_succ _) (.refl _)

theorem Grounded.taint (grounded : Grounded catalog task state outcome after later) :
    Grounded catalog task state (taintOutcome outcome) after later := by
  cases outcome with
  | error error => exact grounded
  | ok found =>
      refine ⟨grounded.grows, grounded.backed, grounded.before, ?_, ?_⟩
      · rintro _ ⟨⟩
        exact grounded.known found rfl
      · rintro _ ⟨⟩ ⟨⟩

theorem Grounded.called {machine : Machine Surroundings} {function : Builtin}
    (prelude : machine.host = Surroundings.host) (backed : Backed catalog state)
    (callee : func.value = .builtin function)
    (known : (Task.application env func arg).Known catalog)
    (reply : machine.callDirect env function arg.value (func.cacheable && arg.cacheable) state =
      some (outcome, after)) :
    ∃ later, Grounded catalog (.application env func arg) state outcome after later := by
  have funcKnown := known.1
  rw [callee, Value.known_builtin] at funcKnown
  have native := funcKnown.1
  have nativeErased : function.erase.operation.Native := by rw [function.erase_eq]; exact native
  have answer := Surroundings.answer_erase native arg.value state.mint state.world
  have before := Surroundings.before_answer nativeErased arg.value.erase state.scene
  have again := fun result => @Surroundings.answer_again function.erase nativeErased
    arg.value.erase state.scene (Surroundings.host.answer function.erase arg.value.erase state.scene).2
    result
  obtain ⟨later, grows, answeredKnown⟩ :=
    Surroundings.grows_apply native backed.bounded known.2 state.world
  have sameScene : (⟨state.mint.names, state.world⟩ : Scene Surroundings) = state.scene := rfl
  rw [sameScene] at answer
  rw [answer] at before again
  simp only [callDirect, MachineState.countCall, prelude, Option.some.injEq,
    Prod.mk.injEq] at reply
  obtain ⟨rfl, rfl⟩ := reply
  refine ⟨later, grows, backed.grow rfl before grows, before, ?_, ?_⟩
  · intro found returned
    cases answered : (Surroundings.host.apply function arg.value state.mint state.world).result with
    | error error => rw [answered] at returned; cases returned
    | ok result => rw [answered] at returned; cases returned; exact answeredKnown result answered
  · intro found returned cacheable
    cases answered : (Surroundings.host.apply function arg.value state.mint state.world).result with
    | error error => rw [answered] at returned; cases returned
    | ok result =>
        rw [answered] at returned again
        cases returned
        have both := Bool.and_eq_true_iff.mp cacheable
        have repeated := again result.erase rfl both.1 (.refl _)
        have flag : result.erase = ⟨result.value.erase, true⟩ := by rw [Evaluated.erase, both.1]
        rw [flag] at repeated
        exact ⟨1, .called (Evaluated.value_erase_builtin callee) nativeErased repeated,
          .of_memo_eq rfl _ _⟩

theorem Grounded.recalled {key : Closure} {hit : Value} (backed : Backed catalog state)
    (closure : func.value = .closure callee) (argument : arg.value = .closure key)
    (known : (Task.application env func arg).Known catalog)
    (found : state.memo.lookup callee key = some hit) :
    Grounded catalog (.application env func arg) state (.ok ⟨env, hit, true⟩) state.countHit
      catalog := by
  have calleeListed := (Value.known_closure.mp (closure ▸ known.1)).1
  have keyListed := (Value.known_closure.mp (argument ▸ known.2)).1
  have backs := backed.lawful.lawful callee key hit calleeListed keyListed found
  obtain ⟨cost, pure⟩ := backs.pure
  rw [← Value.erase, ← argument] at pure
  exact .settled backed backs.known (.entered (Evaluated.value_erase_closure closure) pure) _

/-- No table has an entry yet for an application whose body has just come to a cacheable result, if
there was none when the body was entered. -/
theorem Grounded.absent {key : Closure} {found : Found} (argument : arg.value = .closure key)
    (known : (Value.closure callee).Known catalog) (argKnown : arg.value.Known catalog)
    (body : Grounded catalog (.body callee arg.value state) (state.entering callee arg.value).2
      (.ok found) after later)
    (cacheable : found.result.cacheable = true) (absent : state.memo.lookup callee key = none) :
    after.memo.lookup callee key = none := by
  obtain ⟨cost, pure, adds⟩ := body.pure found rfl cacheable
  rw [Task.erase_body, argument, Value.erase] at pure
  have calleeListed := (Value.known_closure.mp known).1
  have keyListed := (Value.known_closure.mp (argument ▸ argKnown)).1
  cases present : after.memo.lookup callee key with
  | none => rfl
  | some value =>
      -- the entry would come of a run of the same body that is a part of this one
      obtain ⟨less, result, fewer, nested⟩ := adds callee key value
        (calleeListed.mono body.grows.before body.grows.grown)
        (keyListed.mono body.grows.before body.grows.grown) present absent
      have same := (nested.deterministic pure).1
      omega

theorem AddsCheaper.record {key : Closure} {value : Value} {cost : Nat}
    {last : MachineState Surroundings}
    (adds : AddsCheaper cost catalog state after) (calleeListed : catalog.Lists callee)
    (keyListed : catalog.Lists key)
    (pure : Pure after.scene cost (.plainBody callee.erase (.closure key.erase)) value.erase)
    {alive : Memo → IdentSet} (recorded : last.memo = after.memo.record callee key value alive)
    (sameScene : last.scene = after.scene) : AddsCheaper (cost + 1) catalog state last := by
  intro func arg other funcListed argListed found absent
  rw [sameScene]
  rw [recorded] at found
  rcases Memo.entry_of_entry_record found with ⟨sameFunc, sameArg, _⟩ | earlier
  · rw [Catalog.Lists, ← sameFunc, calleeListed] at funcListed
    rw [Catalog.Lists, ← sameArg, keyListed] at argListed
    cases funcListed
    cases argListed
    exact ⟨cost, value.erase, Nat.lt_succ_self cost, pure⟩
  · exact (adds func arg other funcListed argListed earlier absent).grow (Nat.le_succ _) (.refl _)

/-- Nothing changes if neither the tables nor anything else does. -/
theorem Grounded.stays {last : MachineState Surroundings}
    (grounded : Grounded catalog task state outcome after later)
    (sameMemo : last.memo = after.memo) (sameMint : last.mint = after.mint)
    (sameScene : last.scene = after.scene) :
    Grounded catalog task state outcome last later := by
  have toLast : after.scene.Before last.scene := by
    rw [sameScene]
    exact .refl _
  have stays : later.Grows after.mint.nextIdent later last.mint.nextIdent := by
    rw [sameMint]
    exact .refl grounded.backed.bounded
  refine ⟨grounded.grows.trans stays, grounded.backed.grow sameMemo toLast stays,
    grounded.before.trans toLast, grounded.known, ?_⟩
  intro found returned cacheable
  obtain ⟨cost, pure, adds⟩ := grounded.pure found returned cacheable
  have nothingAdded : AddsCheaper cost later after last := .of_memo_eq sameMemo cost later
  exact ⟨cost, pure.again toLast,
    adds.trans nothingAdded (Nat.le_refl _) (Nat.le_refl _) grounded.backed stays toLast⟩

theorem Grounded.missed {machine : Machine Surroundings} {waiting : List Frame} {key : Closure}
    (backed : Backed catalog state) (closure : func.value = .closure callee)
    (argument : arg.value = .closure key) (known : (Task.application env func arg).Known catalog)
    (body : Grounded catalog (.body callee arg.value state) (state.entering callee arg.value).2
      outcome after later) :
    Grounded catalog (.application env func arg) state outcome
      (machine.rememberOutcome true waiting callee key outcome after) later := by
  have entered : Grounded catalog (.application env func arg) state outcome after later :=
    .entered backed closure body
  cases outcome with
  | error error => exact entered
  | ok found =>
      have calleeListed := (Value.known_closure.mp (closure ▸ known.1)).1.mono
        entered.grows.before entered.grows.grown
      have keyListed := (Value.known_closure.mp (argument ▸ known.2)).1.mono
        entered.grows.before entered.grows.grown
      have sameMint := machine.mint_remember true waiting callee key found after
      have sameScene := scene_remember machine true waiting callee key found after
      have remembered := machine.memo_remember true waiting callee key found after
      rw [rememberOutcome]
      generalize machine.remember true waiting callee key found after = last
        at sameMint sameScene remembered ⊢
      rcases remembered with same | ⟨cacheable, alive, recorded⟩
      · exact entered.stays same sameMint sameScene
      · obtain ⟨cost, pure, adds⟩ := body.pure found rfl cacheable
        rw [Task.erase_body] at pure
        have run : Pure after.scene (cost + 1) (Task.application env func arg).erase
            found.result.value.erase := .entered (Evaluated.value_erase_closure closure) pure
        rw [argument, Value.erase] at pure
        have added := adds.record calleeListed keyListed pure recorded sameScene
        have lawful := entered.backed.lawful.record entered.backed.bounded calleeListed keyListed
          ⟨entered.known found rfl, cost, pure⟩ alive
        rw [← recorded, ← sameMint, ← sameScene] at lawful
        rw [← sameScene] at run
        refine ⟨sameMint ▸ entered.grows, ⟨sameMint ▸ entered.backed.bounded, lawful⟩,
          sameScene ▸ entered.before, entered.known, ?_⟩
        rintro _ ⟨⟩ _
        exact ⟨cost + 1, run, added⟩

end Rules

/-- Whatever the limit: evaluation leaves tables whose entries come of pure runs. -/
theorem Evaluates.grounded {machine : Machine Surroundings} {waiting : List Frame} {task : Task}
    {state after : MachineState Surroundings} {outcome : Outcome}
    (prelude : machine.host = Surroundings.host)
    (ended : machine.Evaluates true waiting task state outcome after) {catalog : Catalog}
    (backed : Backed catalog state) (known : task.Known catalog) :
    ∃ later, Grounded catalog task state outcome after later := by
  induction ended generalizing catalog with
  | limited _ => exact ⟨catalog, .failed backed _ _⟩
  | dangling _ _ => exact ⟨catalog, .failed backed _ _⟩
  | unbound _ _ _ => exact ⟨catalog, .failed backed _ _⟩
  | @«variable» _ env code id state name value _ node bound =>
      have boundErased : env.erase.lookup name = some value.erase := by
        rw [Env.lookup_erase, bound]
        rfl
      have pure : Pure state.scene 1 (Task.node env code id).erase value.erase := by
        rw [Task.erase]
        exact .variable node boundErased
      exact ⟨catalog, .settled backed (known.of_lookup bound) pure _⟩
  | @abstraction _ env code _ state param body _ node =>
      obtain ⟨later, grows, closureKnown⟩ := Mint.makes_closure backed.bounded known param body code
      refine ⟨later, grows, backed.grow rfl (.refl _) grows, .refl _, ?_, ?_⟩
      · rintro _ ⟨⟩
        exact closureKnown
      · rintro _ ⟨⟩ _
        refine ⟨1, ?_, .of_memo_eq rfl _ _⟩
        rw [Task.erase]
        exact .abstraction node
  | operatorFails _ _ _ operatorIh =>
      obtain ⟨later, operator⟩ := operatorIh backed.countStep known
      exact ⟨later, operator.grows, operator.backed, operator.before, by rintro _ ⟨⟩, by rintro _ ⟨⟩⟩
  | operandFails _ _ _ _ operatorIh operandIh =>
      obtain ⟨middle, operator⟩ := operatorIh backed.countStep known
      obtain ⟨later, operand⟩ := operandIh operator.backed (known.mono operator.grows)
      exact ⟨later, operator.grows.trans operand.grows, operand.backed,
        operator.before.trans operand.before, by rintro _ ⟨⟩, by rintro _ ⟨⟩⟩
  | @applied _ _ _ _ _ _ _ called _ passed _ _ _ _ node _ _ applied operatorIh operandIh
      applicationIh =>
      obtain ⟨middle, operator⟩ := operatorIh backed.countStep known
      obtain ⟨ready, operand⟩ := operandIh operator.backed (known.mono operator.grows)
      have calledKnown := (operator.known called rfl).mono operand.grows
      obtain ⟨later, application⟩ :=
        applicationIh operand.backed ⟨calledKnown, operand.known passed rfl⟩
      refine ⟨later, .applied node operator operand application fun found returned cacheable => ?_⟩
      subst returned
      exact applied.operands_cacheable cacheable
  | notCallable _ => exact ⟨catalog, .failed backed _ _⟩
  | called callee reply => exact Grounded.called prelude backed callee known reply
  | recalled closure _ argument found =>
      exact ⟨catalog, .recalled backed closure argument known found⟩
  | missed closure _ argument _ _ bodyIh =>
      obtain ⟨later, body⟩ := bodyIh (backed.entering _ _)
        (Task.known_body (closure ▸ known.1) known.2 _)
      exact ⟨later, .missed backed closure argument known body⟩
  | entered closure _ _ _ bodyIh =>
      obtain ⟨later, body⟩ := bodyIh (backed.entering _ _)
        (Task.known_body (closure ▸ known.1) known.2 _)
      exact ⟨later, .entered backed closure body⟩
  | tainted closure _ _ bodyIh =>
      obtain ⟨later, body⟩ := bodyIh (backed.entering _ _)
        (Task.known_body (closure ▸ known.1) known.2 _)
      exact ⟨later, (Grounded.entered backed closure body).taint⟩

end LambdaMachine.Machine
