import LambdaMachine.Proofs.Prelude.Host

/-!
Evaluation with tables and identities against evaluation with neither, for programs whose host
functions are those of the prelude. Each entry of each table is a result that would be found again
in every scene that can come later, so asking a table changes nothing but how long it takes.
-/

namespace LambdaMachine.Machine

structure Steady (task : Task) (scene : Scene Surroundings) (outcome : Except EvalError Evaluated)
    (after : Scene Surroundings) : Prop where
  plain : Plain Surroundings.host task scene outcome after
  before : scene.Before after
  again : ∀ result, outcome = .ok result → result.cacheable = true →
    ∀ later, after.Before later → Plain Surroundings.host task later (.ok result) later

theorem Steady.failed {task : Task} {scene after : Scene Surroundings} {error : EvalError}
    (plain : Plain Surroundings.host task scene (.error error) after)
    (before : scene.Before after) :
    Steady task scene (.error error) after :=
  ⟨plain, before, fun _ succeeded => by cases succeeded⟩

theorem Steady.settled {task : Task} {scene : Scene Surroundings} {result : Evaluated}
    (plain : ∀ later, scene.Before later →
      Plain Surroundings.host task later (.ok result) later) :
    Steady task scene (.ok result) scene := by
  refine ⟨plain scene (.refl scene), .refl scene, ?_⟩
  intro other same _ later reached
  cases same
  exact plain later reached

theorem Plain.operands_cacheable {env : Env} {func arg result : Evaluated}
    {scene after : Scene Surroundings}
    (applied : Plain Surroundings.host (.application env func arg) scene (.ok result) after)
    (cacheable : result.cacheable = true) : func.cacheable = true ∧ arg.cacheable = true := by
  rw [← Bool.and_eq_true]
  generalize ended : Except.ok result = outcome at applied
  cases applied with
  | notCallable callee => cases ended
  | @called _ _ _ _ function callee =>
      cases answer : (Surroundings.host.answer function arg.value scene).1 with
      | error error => rw [answer] at ended; cases ended
      | ok answered =>
          rw [answer] at ended
          cases ended
          exact (Bool.and_eq_true_iff.mp cacheable).2
  | @entered _ _ _ _ callee outcome _ closure body =>
      cases outcome with
      | error error => cases ended
      | ok entered =>
          cases ended
          exact (Bool.and_eq_true_iff.mp cacheable).1

theorem Steady.applied {env : Env} {code : Code} {id func arg : NodeId}
    {called passed : Evaluated} {outcome : Except EvalError Evaluated}
    {scene middle ready after : Scene Surroundings}
    (node : code.arena.node? id = some (.apply func arg))
    (operator : Steady (.node env code func) scene (.ok called) middle)
    (operand : Steady (.node env code arg) middle (.ok passed) ready)
    (application : Steady (.application env called passed) ready outcome after) :
    Steady (.node env code id) scene outcome after := by
  refine ⟨.applied node operator.plain operand.plain application.plain,
    operator.before.trans (operand.before.trans application.before), ?_⟩
  intro result ended cacheable later reached
  subst ended
  have fromReady := application.before.trans reached
  have parts := application.plain.operands_cacheable cacheable
  exact .applied node
    (operator.again called rfl parts.1 later (operand.before.trans fromReady))
    (operand.again passed rfl parts.2 later fromReady)
    (application.again result rfl cacheable later reached)

theorem Steady.called {env : Env} {func arg : Evaluated} {scene : Scene Surroundings}
    {function : Builtin} (callee : func.value = .builtin function)
    (native : function.operation.Native) :
    Steady (.application env func arg) scene
      (outcomeOfAnswer function (func.cacheable && arg.cacheable)
        (Surroundings.host.answer function arg.value scene).1)
      (Surroundings.host.answer function arg.value scene).2 := by
  refine ⟨.called callee, Surroundings.before_answer native _ _, ?_⟩
  intro result ended cacheable later reached
  cases answered : (Surroundings.host.answer function arg.value scene).1 with
  | error error => rw [answered] at ended; cases ended
  | ok answer =>
      rw [answered] at ended
      cases ended
      have same := Surroundings.answer_again native answered
        (Bool.and_eq_true_iff.mp cacheable).1 reached
      have repeated := @Plain.called _ Surroundings.host env func arg later function callee
      rw [same] at repeated
      exact repeated

theorem Steady.entered {env : Env} {func arg : Evaluated} {scene after : Scene Surroundings}
    {callee : Closure} {outcome : Except EvalError Evaluated}
    (closure : func.value = .closure callee)
    (body : Steady (.plainBody callee arg.value) scene outcome after) :
    Steady (.application env func arg) scene
      (outcomeOfBody (func.cacheable && arg.cacheable) outcome) after := by
  refine ⟨.entered closure body.plain, body.before, ?_⟩
  intro result ended cacheable later reached
  cases outcome with
  | error error => cases ended
  | ok found =>
      cases ended
      have again := body.again found rfl (Bool.and_eq_true_iff.mp cacheable).2 later reached
      exact Plain.entered closure again

def Task.Known (catalog : Catalog) : Task → Prop
  | .node env _ _ => env.Known catalog
  | .application _ func arg => func.value.Known catalog ∧ arg.value.Known catalog

/-- What an entry of a table stands for: entering the body anew would give the same value, in this
scene and in every later one, and would leave no trace. -/
structure Replays (catalog : Catalog) (scene : Scene Surroundings) (func arg : Closure)
    (value : Value) : Prop where
  known : value.Known catalog
  again : ∀ later, scene.Before later →
    Plain Surroundings.host (.plainBody func.erase (.closure arg.erase)) later
      (.ok ⟨value.erase, true⟩) later

structure Sound (catalog : Catalog) (state : MachineState Surroundings) : Prop where
  bounded : catalog.Bounded state.mint.nextIdent
  lawful : state.memo.Lawful catalog state.mint.nextIdent (Replays catalog state.scene)

theorem Sound.grow {catalog later : Catalog} {state after : MachineState Surroundings}
    (sound : Sound catalog state) (sameMemo : after.memo = state.memo)
    (before : state.scene.Before after.scene)
    (grows : catalog.Grows state.mint.nextIdent later after.mint.nextIdent) :
    Sound later after := by
  refine ⟨grows.after, ?_⟩
  rw [sameMemo]
  refine sound.lawful.grow grows.le grows.grown ?_
  intro func arg value replays
  exact ⟨replays.known.mono grows, fun scene reached => replays.again scene (before.trans reached)⟩

structure Faithful (catalog : Catalog) (task : Task) (state : MachineState Surroundings)
    (outcome : Outcome) (after : MachineState Surroundings) : Prop where
  steady : Steady task.erase state.scene (eraseOutcome outcome) after.scene
  leaves : ∃ later, catalog.Grows state.mint.nextIdent later after.mint.nextIdent ∧
    Sound later after ∧ ∀ found, outcome = .ok found → found.result.value.Known later

theorem Faithful.failed {catalog : Catalog} {task : Task} {error : EvalError}
    {state : MachineState Surroundings} (sound : Sound catalog state)
    (plain : Plain Surroundings.host task.erase state.scene (.error error) state.scene)
    (counters : Counters) : Faithful catalog task state (.error error) { state with counters } :=
  ⟨.failed plain (.refl _), catalog, .refl sound.bounded, ⟨sound.bounded, sound.lawful⟩,
    fun _ succeeded => by cases succeeded⟩

theorem Faithful.settled {catalog : Catalog} {task : Task} {found : Found}
    {state : MachineState Surroundings} (sound : Sound catalog state)
    (known : found.result.value.Known catalog)
    (plain : ∀ later, state.scene.Before later →
      Plain Surroundings.host task.erase later (.ok found.result.erase) later)
    (counters : Counters) : Faithful catalog task state (.ok found) { state with counters } :=
  ⟨.settled plain, catalog, .refl sound.bounded, ⟨sound.bounded, sound.lawful⟩,
    fun _ same => by cases same; exact known⟩

section Application

variable {catalog : Catalog} {env : Env} {func arg : Evaluated} {callee : Closure}
  {state after : MachineState Surroundings} {outcome : Outcome}

theorem Task.erase_body (callee : Closure) (arg : Value) (state : MachineState Surroundings) :
    (Task.body callee arg state).erase = .plainBody callee.erase arg.erase := by
  rw [Closure.erase_eq, Task.body, Task.erase, Task.plainBody]
  exact congrArg (Task.node · _ _) (Env.erase_extend _ _ _ _)

theorem Faithful.steady_entered (env : Env) (closure : func.value = .closure callee)
    (body : Faithful catalog (.body callee arg.value state) (state.entering callee arg.value).2
      outcome after) :
    Steady (Task.application env func arg).erase state.scene
      (outcomeOfBody (func.cacheable && arg.cacheable) (eraseOutcome outcome)) after.scene := by
  have steady := body.steady
  rw [Task.erase_body] at steady
  exact .entered (Evaluated.value_erase_closure closure) steady

theorem Sound.entering (sound : Sound catalog state) (callee : Closure) (arg : Value) :
    Sound catalog (state.entering callee arg).2 :=
  sound.grow rfl (.refl _) (.skip sound.bounded (Nat.le_succ _))

theorem Sound.countStep (sound : Sound catalog state) : Sound catalog state.countStep :=
  ⟨sound.bounded, sound.lawful⟩

theorem Task.known_body (listed : (Value.closure callee).Known catalog)
    (argKnown : arg.value.Known catalog) (state : MachineState Surroundings) :
    (Task.body callee arg.value state).Known catalog :=
  (Value.known_closure.mp listed).2.extend argKnown _ _

theorem Faithful.leaves_entered (sound : Sound catalog state)
    (body : Faithful catalog (.body callee arg.value state) (state.entering callee arg.value).2
      outcome after) :
    ∃ later, catalog.Grows state.mint.nextIdent later after.mint.nextIdent ∧
      Sound later after ∧ ∀ found, outcome = .ok found → found.result.value.Known later := by
  obtain ⟨later, grows, soundLater, known⟩ := body.leaves
  exact ⟨later, (Catalog.Grows.skip sound.bounded (Nat.le_succ _)).trans grows, soundLater, known⟩

theorem Faithful.called {machine : Machine Surroundings} {function : Builtin}
    (prelude : machine.host = Surroundings.host) (sound : Sound catalog state)
    (callee : func.value = .builtin function) (funcKnown : func.value.Known catalog)
    (argKnown : arg.value.Known catalog)
    (reply : machine.callDirect env function arg.value (func.cacheable && arg.cacheable) state =
      some (outcome, after)) :
    Faithful catalog (.application env func arg) state outcome after := by
  rw [callee, Value.known_builtin] at funcKnown
  have answer := Surroundings.answer_erase funcKnown.1 arg.value state.mint state.world
  have steady := @Steady.called env.erase func.erase arg.erase state.scene function.erase
    (Evaluated.value_erase_builtin callee) (by rw [function.erase_eq]; exact funcKnown.1)
  obtain ⟨later, grows, known⟩ :=
    Surroundings.grows_apply funcKnown.1 sound.bounded argKnown state.world
  simp only [callDirect, MachineState.countCall, prelude, Option.some.injEq,
    Prod.mk.injEq] at reply
  obtain ⟨rfl, rfl⟩ := reply
  change Steady _ _ (outcomeOfAnswer function.erase _
    (Surroundings.host.answer function.erase arg.value.erase ⟨state.mint.names, state.world⟩).1)
    (Surroundings.host.answer function.erase arg.value.erase
      ⟨state.mint.names, state.world⟩).2 at steady
  rw [answer] at steady
  refine ⟨?_, later, grows, sound.grow rfl steady.before grows, ?_⟩
  · cases answered : (Surroundings.host.apply function arg.value state.mint state.world).result with
    | error error =>
        rw [answered, function.erase_eq] at steady
        exact steady
    | ok result =>
        rw [answered] at steady
        exact steady
  · intro found ended
    cases answered : (Surroundings.host.apply function arg.value state.mint state.world).result with
    | error error =>
        rw [answered] at ended
        cases ended
    | ok result =>
        rw [answered] at ended
        cases ended
        exact known result answered

theorem Sound.remember {machine : Machine Surroundings} {memoizing : Bool} {waiting : List Frame}
    {key : Closure} {found : Found} (sound : Sound catalog after)
    (calleeListed : catalog.Lists callee) (keyListed : catalog.Lists key)
    (replays : found.result.cacheable = true →
      Replays catalog after.scene callee key found.result.value) :
    Sound catalog (machine.remember memoizing waiting callee key found after) := by
  constructor
  · rw [mint_remember]
    exact sound.bounded
  · rw [scene_remember, mint_remember]
    rcases machine.memo_remember memoizing waiting callee key found after with
      same | ⟨cacheable, alive, recorded⟩
    · rw [same]
      exact sound.lawful
    · rw [recorded]
      exact sound.lawful.record sound.bounded calleeListed keyListed (replays cacheable) alive

theorem Faithful.missed {machine : Machine Surroundings} {memoizing : Bool} {waiting : List Frame}
    {key : Closure} (sound : Sound catalog state) (closure : func.value = .closure callee)
    (cacheable : (func.cacheable && arg.cacheable) = true) (argument : arg.value = .closure key)
    (funcKnown : func.value.Known catalog) (argKnown : arg.value.Known catalog)
    (body : Faithful catalog (.body callee arg.value state) (state.entering callee arg.value).2
      outcome after) :
    Faithful catalog (.application env func arg) state outcome
      (machine.rememberOutcome memoizing waiting callee key outcome after) := by
  have steady := body.steady_entered env closure
  obtain ⟨later, grows, soundLater, known⟩ := body.leaves_entered sound
  rw [cacheable, outcomeOfBody_true] at steady
  cases outcome with
  | error error => exact ⟨steady, later, grows, soundLater, known⟩
  | ok found =>
      have calleeListed := (Value.known_closure.mp (closure ▸ funcKnown)).1
      have keyListed := (Value.known_closure.mp (argument ▸ argKnown)).1
      have replays (again : found.result.cacheable = true) :
          Replays later after.scene callee key found.result.value := by
        refine ⟨known found rfl, fun scene reached => ?_⟩
        have repeated := body.steady.again found.result.erase rfl again scene reached
        rw [Task.erase_body, argument, Value.erase, Evaluated.erase, again] at repeated
        exact repeated
      have remembered : Sound later
          (machine.remember memoizing waiting callee key found after) :=
        soundLater.remember (calleeListed.mono grows.before grows.grown)
          (keyListed.mono grows.before grows.grown) replays
      refine ⟨?_, later, ?_, remembered, known⟩
      · rw [rememberOutcome, scene_remember]
        exact steady
      · rw [rememberOutcome, mint_remember]
        exact grows

theorem Faithful.recalled {memoizing : Bool} {key : Closure} {hit : Value}
    (sound : Sound catalog state) (closure : func.value = .closure callee)
    (cacheable : (func.cacheable && arg.cacheable) = true) (argument : arg.value = .closure key)
    (funcKnown : func.value.Known catalog) (argKnown : arg.value.Known catalog)
    (found : recollect memoizing callee key state = some hit) :
    Faithful catalog (.application env func arg) state (.ok ⟨env, hit, true⟩) state.countHit := by
  have recorded : state.memo.lookup callee key = some hit := by
    rw [recollect] at found
    split at found
    · exact found
    · cases found
  rw [closure, Value.known_closure] at funcKnown
  rw [argument, Value.known_closure] at argKnown
  have replays := sound.lawful.lawful callee key hit funcKnown.1 argKnown.1 recorded
  refine .settled sound replays.known (fun later reached => ?_) _
  have body := replays.again later reached
  rw [← Value.erase, ← argument] at body
  have entered := @Plain.entered _ Surroundings.host env.erase func.erase arg.erase later _ _ _
    (Evaluated.value_erase_closure closure) body
  have operands : (func.erase.cacheable && arg.erase.cacheable) = true := cacheable
  rw [operands, outcomeOfBody_true] at entered
  exact entered

end Application

/-- Evaluation agrees with the reduction rules, whether or not tables are asked. -/
theorem Evaluates.faithful {machine : Machine Surroundings} {memoizing : Bool}
    {waiting : List Frame} {task : Task} {state after : MachineState Surroundings}
    {outcome : Outcome} (prelude : machine.host = Surroundings.host)
    (unlimited : machine.limit = none)
    (ended : machine.Evaluates memoizing waiting task state outcome after) {catalog : Catalog}
    (sound : Sound catalog state) (known : task.Known catalog) :
    Faithful catalog task state outcome after := by
  induction ended generalizing catalog with
  | limited exceeded => rw [overLimit_of_unlimited unlimited] at exceeded; cases exceeded
  | dangling _ node =>
      refine .failed sound ?_ _
      rw [Task.erase]
      exact .dangling node
  | @unbound _ env _ _ _ name _ node absent =>
      have absentErased : env.erase.lookup name = none := by rw [Env.lookup_erase, absent]; rfl
      refine .failed sound ?_ _
      rw [Task.erase]
      exact .unbound node absentErased
  | @«variable» _ env _ _ _ name value _ node bound =>
      have boundErased : env.erase.lookup name = some value.erase := by
        rw [Env.lookup_erase, bound]
        rfl
      refine .settled sound (known.of_lookup bound) (fun later _ => ?_) _
      rw [Task.erase]
      exact .variable node boundErased
  | @abstraction _ env code _ _ param body _ node =>
      obtain ⟨later, grows, closureKnown⟩ := Mint.makes_closure sound.bounded known param body code
      refine ⟨?_, later, grows, sound.grow rfl (.refl _) grows, ?_⟩
      · refine .settled fun scene _ => ?_
        rw [Task.erase]
        exact .abstraction node
      · intro found same
        cases same
        exact closureKnown
  | @operatorFails _ _ _ _ state _ _ _ _ _ node _ operatorIh =>
      have operator := operatorIh sound.countStep known
      obtain ⟨later, grows, soundLater, _⟩ := operator.leaves
      refine ⟨.failed ?_ operator.steady.before, later, grows, soundLater, by rintro _ ⟨⟩⟩
      rw [Task.erase]
      exact .operatorFails node operator.steady.plain
  | operandFails _ node _ _ operatorIh operandIh =>
      have operator := operatorIh sound.countStep known
      obtain ⟨middle, toMiddle, soundMiddle, _⟩ := operator.leaves
      have operand := operandIh soundMiddle (known.mono toMiddle)
      obtain ⟨later, grows, soundLater, _⟩ := operand.leaves
      have before := operator.steady.before.trans operand.steady.before
      refine ⟨.failed ?_ before, later, toMiddle.trans grows, soundLater, by rintro _ ⟨⟩⟩
      rw [Task.erase]
      exact .operandFails node operator.steady.plain operand.steady.plain
  | applied _ node _ _ _ operatorIh operandIh applicationIh =>
      have operator := operatorIh sound.countStep known
      obtain ⟨middle, toMiddle, soundMiddle, calledKnown⟩ := operator.leaves
      have operand := operandIh soundMiddle (known.mono toMiddle)
      obtain ⟨ready, toReady, soundReady, passedKnown⟩ := operand.leaves
      have application := applicationIh soundReady
        ⟨(calledKnown _ rfl).mono toReady, passedKnown _ rfl⟩
      obtain ⟨later, grows, soundLater, resultKnown⟩ := application.leaves
      refine ⟨?_, later, toMiddle.trans (toReady.trans grows), soundLater, resultKnown⟩
      rw [Task.erase]
      exact .applied node operator.steady operand.steady application.steady
  | @notCallable _ _ func _ _ ident datum callee =>
      have calleeErased : func.erase.value = .datum 0 datum := by
        rw [Evaluated.erase, callee, Value.erase]
      refine .failed sound ?_ _
      rw [Task.erase]
      exact .notCallable calleeErased
  | called callee reply => exact .called prelude sound callee known.1 known.2 reply
  | recalled closure cacheable argument found =>
      exact .recalled sound closure cacheable argument known.1 known.2 found
  | missed closure cacheable argument _ _ bodyIh =>
      have body := bodyIh (sound.entering _ _) (Task.known_body (closure ▸ known.1) known.2 _)
      exact .missed sound closure cacheable argument known.1 known.2 body
  | @entered _ env _ _ _ _ _ _ closure cacheable _ _ bodyIh =>
      have body := bodyIh (sound.entering _ _) (Task.known_body (closure ▸ known.1) known.2 _)
      have steady := body.steady_entered env closure
      rw [cacheable, outcomeOfBody_true] at steady
      exact ⟨steady, body.leaves_entered sound⟩
  | @tainted _ env _ _ _ _ outcome _ closure uncacheable _ bodyIh =>
      have body := bodyIh (sound.entering _ _) (Task.known_body (closure ▸ known.1) known.2 _)
      have steady := body.steady_entered env closure
      rw [uncacheable, outcomeOfBody_false] at steady
      obtain ⟨later, grows, soundLater, resultKnown⟩ := body.leaves_entered sound
      refine ⟨steady, later, grows, soundLater, ?_⟩
      intro found same
      cases outcome with
      | error error => cases same
      | ok passed =>
          cases same
          exact resultKnown passed rfl

theorem Evaluates.outcome_eq {machine : Machine Surroundings} {memoizing : Bool}
    {waiting : List Frame} {task : Task} {state after : MachineState Surroundings}
    {outcome : Outcome} {expected : Except EvalError Evaluated} {scene : Scene Surroundings}
    {catalog : Catalog} (ended : machine.Evaluates memoizing waiting task state outcome after)
    (prelude : machine.host = Surroundings.host) (unlimited : machine.limit = none)
    (sound : Sound catalog state) (known : task.Known catalog)
    (plain : Plain Surroundings.host task.erase state.scene expected scene) :
    eraseOutcome outcome = expected ∧ after.scene = scene ∧
      ∃ later, catalog.Grows state.mint.nextIdent later after.mint.nextIdent ∧
        Sound later after ∧ ∀ found, outcome = .ok found → found.result.value.Known later := by
  have faithful := ended.faithful prelude unlimited sound known
  obtain ⟨sameOutcome, sameScene⟩ := faithful.steady.plain.deterministic plain
  exact ⟨sameOutcome, sameScene, faithful.leaves⟩

theorem exists_evaluates_of_entered {machine : Machine Surroundings} {memoizing : Bool}
    {waiting : List Frame} {env : Env} {func arg : Evaluated} {callee : Closure}
    {state : MachineState Surroundings} (closure : func.value = .closure callee)
    (entered : ∀ frames, ∃ outcome after, machine.Evaluates memoizing frames
      (.body callee arg.value state) (state.entering callee arg.value).2 outcome after) :
    ∃ outcome after,
      machine.Evaluates memoizing waiting (.application env func arg) state outcome after := by
  cases cacheable : (func.cacheable && arg.cacheable) with
  | false =>
      obtain ⟨_, _, body⟩ := entered (.taint :: waiting)
      exact ⟨_, _, .tainted closure cacheable body⟩
  | true =>
      by_cases argument : ∃ key, arg.value = .closure key
      · obtain ⟨key, argument⟩ := argument
        cases recalled : recollect memoizing callee key state with
        | some hit => exact ⟨_, _, .recalled closure cacheable argument recalled⟩
        | none =>
            obtain ⟨_, _, body⟩ := entered (.memoize callee key :: waiting)
            exact ⟨_, _, .missed closure cacheable argument recalled body⟩
      · obtain ⟨_, _, body⟩ := entered waiting
        exact ⟨_, _, .entered closure cacheable (not_exists.mp argument) body⟩

def Realized (machine : Machine Surroundings) (memoizing : Bool) (plainTask : Task)
    (start : Scene Surroundings) : Prop :=
  ∀ {task : Task} {state : MachineState Surroundings} {catalog : Catalog} (waiting : List Frame),
    task.erase = plainTask → state.scene = start → Sound catalog state → task.Known catalog →
      ∃ outcome after, machine.Evaluates memoizing waiting task state outcome after

section Realized

variable {machine : Machine Surroundings} {memoizing : Bool} {task plainTask : Task}
  {state : MachineState Surroundings} {start scene : Scene Surroundings} {catalog : Catalog}

theorem Realized.fails (realized : Realized machine memoizing task.erase state.scene)
    (prelude : machine.host = Surroundings.host) (unlimited : machine.limit = none)
    {error : EvalError} (plain : Plain Surroundings.host task.erase state.scene (.error error) scene)
    (waiting : List Frame) (sound : Sound catalog state) (known : task.Known catalog) :
    ∃ after, machine.Evaluates memoizing waiting task state (.error error) after := by
  obtain ⟨outcome, after, ended⟩ := realized waiting rfl rfl sound known
  obtain ⟨stopped, _⟩ := ended.outcome_eq prelude unlimited sound known plain
  cases eraseOutcome_eq_error stopped
  exact ⟨after, ended⟩

theorem Realized.succeeds (realized : Realized machine memoizing task.erase state.scene)
    (prelude : machine.host = Surroundings.host) (unlimited : machine.limit = none)
    {result : Evaluated}
    (plain : Plain Surroundings.host task.erase state.scene (.ok result) scene)
    (waiting : List Frame) (sound : Sound catalog state) (known : task.Known catalog) :
    ∃ found after later, machine.Evaluates memoizing waiting task state (.ok found) after ∧
      found.result.erase = result ∧ after.scene = scene ∧
      catalog.Grows state.mint.nextIdent later after.mint.nextIdent ∧ Sound later after ∧
      found.result.value.Known later := by
  obtain ⟨outcome, after, ended⟩ := realized waiting rfl rfl sound known
  obtain ⟨same, sameScene, later, grows, soundLater, resultKnown⟩ :=
    ended.outcome_eq prelude unlimited sound known plain
  obtain ⟨found, rfl, sameResult⟩ := eraseOutcome_eq_ok same
  exact ⟨found, after, later, ended, sameResult, sameScene, grows, soundLater,
    resultKnown found rfl⟩

/-- What the reduction rules bring to an end, the machine brings to an end. -/
theorem Plain.realized (memoizing : Bool) (prelude : machine.host = Surroundings.host)
    (unlimited : machine.limit = none) {expected : Except EvalError Evaluated}
    (plain : Plain Surroundings.host plainTask start expected scene) :
    Realized machine memoizing plainTask start := by
  have within := overLimit_of_unlimited unlimited
  induction plain with
  | dangling node =>
      intro task state catalog waiting sameTask sameScene sound known
      obtain ⟨env, code, rfl, rfl, rfl⟩ := Task.erase_eq_node sameTask
      exact ⟨_, _, .dangling (within _) node⟩
  | unbound node absent =>
      intro task state catalog waiting sameTask sameScene sound known
      obtain ⟨env, code, rfl, rfl, rfl⟩ := Task.erase_eq_node sameTask
      rw [Env.lookup_erase, Option.map_eq_none_iff] at absent
      exact ⟨_, _, .unbound (within _) node absent⟩
  | «variable» node bound =>
      intro task state catalog waiting sameTask sameScene sound known
      obtain ⟨env, code, rfl, rfl, rfl⟩ := Task.erase_eq_node sameTask
      rw [Env.lookup_erase, Option.map_eq_some_iff] at bound
      obtain ⟨value, bound, _⟩ := bound
      exact ⟨_, _, .variable (within _) node bound⟩
  | abstraction node =>
      intro task state catalog waiting sameTask sameScene sound known
      obtain ⟨env, code, rfl, rfl, rfl⟩ := Task.erase_eq_node sameTask
      exact ⟨_, _, .abstraction (within _) node⟩
  | @operatorFails _ _ _ _ func arg _ _ node operator operatorIh =>
      intro task state catalog waiting sameTask sameScene sound known
      obtain ⟨env, code, rfl, rfl, rfl⟩ := Task.erase_eq_node sameTask
      subst sameScene
      obtain ⟨_, ended⟩ := @Realized.fails _ _ (.node env code func) state.countStep _ _
        operatorIh prelude unlimited _ operator (.argument env code arg :: waiting)
        sound.countStep known
      exact ⟨_, _, .operatorFails (within _) node ended⟩
  | @operandFails _ _ _ _ func arg _ _ _ _ node operator operand operatorIh operandIh =>
      intro task state catalog waiting sameTask sameScene sound known
      obtain ⟨env, code, rfl, rfl, rfl⟩ := Task.erase_eq_node sameTask
      subst sameScene
      obtain ⟨called, ready, middle, operatorEnded, rfl, rfl, toMiddle, soundMiddle, _⟩ :=
        @Realized.succeeds _ _ (.node env code func) state.countStep _ _ operatorIh prelude
          unlimited _ operator (.argument env code arg :: waiting) sound.countStep known
      obtain ⟨_, operandEnded⟩ := @Realized.fails _ _ (.node env code arg) ready _ _ operandIh
        prelude unlimited _ operand (.call env called.result :: waiting) soundMiddle
        (known.mono toMiddle)
      exact ⟨_, _, .operandFails (within _) node operatorEnded operandEnded⟩
  | @applied _ _ _ _ func arg _ _ _ _ _ _ node operator operand _ operatorIh operandIh
      applicationIh =>
      intro task state catalog waiting sameTask sameScene sound known
      obtain ⟨env, code, rfl, rfl, rfl⟩ := Task.erase_eq_node sameTask
      subst sameScene
      obtain ⟨called, calling, middle, operatorEnded, rfl, rfl, toMiddle, soundMiddle,
        calledKnown⟩ := @Realized.succeeds _ _ (.node env code func) state.countStep _ _
          operatorIh prelude unlimited _ operator (.argument env code arg :: waiting)
          sound.countStep known
      obtain ⟨passed, passing, ready, operandEnded, rfl, rfl, toReady, soundReady,
        passedKnown⟩ := @Realized.succeeds _ _ (.node env code arg) calling _ _ operandIh
          prelude unlimited _ operand (.call env called.result :: waiting) soundMiddle
          (known.mono toMiddle)
      have operandsKnown : (Task.application env called.result passed.result).Known ready :=
        ⟨calledKnown.mono toReady, passedKnown⟩
      obtain ⟨_, _, ended⟩ := applicationIh waiting rfl rfl soundReady operandsKnown
      exact ⟨_, _, .applied (within _) node operatorEnded operandEnded ended⟩
  | notCallable callee =>
      intro task state catalog waiting sameTask sameScene sound known
      obtain ⟨env, func, arg, rfl, rfl, rfl⟩ := Task.erase_eq_application sameTask
      obtain ⟨ident, callee⟩ := Value.erase_eq_datum callee
      exact ⟨_, _, .notCallable callee⟩
  | called callee =>
      intro task state catalog waiting sameTask sameScene sound known
      obtain ⟨env, func, arg, rfl, rfl, rfl⟩ := Task.erase_eq_application sameTask
      obtain ⟨function, callee, _⟩ := Value.erase_eq_builtin callee
      exact ⟨_, _, .called callee rfl⟩
  | entered closure body bodyIh =>
      intro task state catalog waiting sameTask sameScene sound known
      obtain ⟨env, func, arg, rfl, rfl, rfl⟩ := Task.erase_eq_application sameTask
      obtain ⟨callee, isClosure, rfl⟩ := Value.erase_eq_closure closure
      have entering : (state.entering callee arg.value).2.scene = state.scene := rfl
      have entered (frames : List Frame) := bodyIh frames (Task.erase_body callee arg.value state)
        (entering.trans sameScene) (sound.entering callee arg.value)
        (Task.known_body (isClosure ▸ known.1) known.2 state)
      exact exists_evaluates_of_entered isClosure entered

end Realized

end LambdaMachine.Machine
