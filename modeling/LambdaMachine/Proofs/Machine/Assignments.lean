import LambdaMachine.Proofs.Machine.Limit
import LambdaMachine.Proofs.Machine.Mirroring
import LambdaMachine.Proofs.Machine.Projection

/-!
Assignments are evaluated in their order. An expression whose outer layers are assignments does what
evaluating the right-hand sides one after the other does, each where the names before it are bound,
and then the body. Each layer takes two steps more, one for the application and one for the
abstraction.
-/

namespace LambdaMachine

variable {World : Type}

namespace Machine

def holding (machine : Machine World) (env : Env) : Machine World :=
  { machine with held := { machine.held with envs := env :: machine.held.envs } }

def evaluateInOrder (machine : Machine World) (fuel : Nat) (code : Code) (body : NodeId) :
    List (NameId × NodeId) → Env → MachineState World →
      Option (Except EvalError Value × MachineState World)
  | [], env, state => (machine.holding env).evaluate fuel env code body state
  | (name, side) :: rest, env, state =>
      match (machine.holding env).evaluate fuel env code side state with
      | some (.ok value, after) =>
          let (env, mint) := after.mint.extend env name value
          machine.evaluateInOrder fuel code body rest env { after with mint }
      | stopped => stopped

def EndsInOrder (machine : Machine World) (code : Code) (body : NodeId) :
    List (NameId × NodeId) → Env → MachineState World → Except EvalError Value →
      MachineState World → Prop
  | [], env, state, ending, after => ∃ outcome : Outcome,
      (machine.holding env).Evaluates true [] (.node env code body) state outcome after ∧
        ending = outcome.map (·.result.value)
  | (name, side) :: rest, env, state, ending, after =>
      (∃ error, (machine.holding env).Evaluates true [] (.node env code side) state
        (.error error) after ∧ ending = .error error) ∨
      ∃ found middle, (machine.holding env).Evaluates true [] (.node env code side) state
        (.ok found) middle ∧
          machine.EndsInOrder code body rest
            (middle.mint.extend env name found.result.value).1
            { middle with mint := (middle.mint.extend env name found.result.value).2 }
            ending after

section InOrder

variable {machine : Machine World} {code : Code} {body : NodeId}

theorem evaluate_mono {env : Env} {id : NodeId} {state : MachineState World} {less more : Nat}
    {ending : Except EvalError Value × MachineState World} (enough : less ≤ more)
    (ended : machine.evaluate less env code id state = some ending) :
    machine.evaluate more env code id state = some ending := by
  obtain ⟨result, ran, same⟩ := Option.map_eq_some_iff.mp ended
  exact Option.map_eq_some_iff.mpr ⟨result, run_mono enough ran, same⟩

theorem EndsInOrder.settles {bindings : List (NameId × NodeId)} {env : Env}
    {state after : MachineState World} {ending : Except EvalError Value}
    (ended : machine.EndsInOrder code body bindings env state ending after) :
    Settles (fun fuel => machine.evaluateInOrder fuel code body bindings env state)
      (ending, after) := by
  induction bindings generalizing env state with
  | nil =>
      obtain ⟨fuel, ended⟩ := evaluate_iff_evaluates.mpr ended
      exact ⟨fuel, fun _ enough => evaluate_mono enough ended⟩
  | cons binding rest ih =>
      obtain ⟨name, side⟩ := binding
      rcases ended with ⟨error, failed, rfl⟩ | ⟨found, middle, passed, restEnded⟩
      · obtain ⟨fuel, ended⟩ := evaluate_iff_evaluates.mpr ⟨_, failed, rfl⟩
        refine ⟨fuel, fun more enough => ?_⟩
        simp only [evaluateInOrder, evaluate_mono enough ended]
        rfl
      · obtain ⟨fuel, ended⟩ := evaluate_iff_evaluates.mpr ⟨_, passed, rfl⟩
        obtain ⟨bound, restSettled⟩ := ih restEnded
        refine ⟨max fuel bound, fun more enough => ?_⟩
        simp only [evaluateInOrder,
          evaluate_mono (Nat.le_trans (Nat.le_max_left fuel bound) enough) ended]
        exact restSettled more (Nat.le_trans (Nat.le_max_right fuel bound) enough)

theorem endsInOrder_of_evaluateInOrder {bindings : List (NameId × NodeId)} {env : Env}
    {state after : MachineState World} {ending : Except EvalError Value} {fuel : Nat}
    (ended : machine.evaluateInOrder fuel code body bindings env state = some (ending, after)) :
    machine.EndsInOrder code body bindings env state ending after := by
  induction bindings generalizing env state with
  | nil => exact evaluate_iff_evaluates.mp ⟨fuel, ended⟩
  | cons binding rest ih =>
      obtain ⟨name, side⟩ := binding
      rw [evaluateInOrder] at ended
      split at ended
      · rename_i value middle passed
        obtain ⟨outcome, evaluates, same⟩ := evaluate_iff_evaluates.mp ⟨fuel, passed⟩
        cases outcome with
        | error error => cases same
        | ok found =>
            cases same
            exact .inr ⟨found, middle, evaluates, ih ended⟩
      · rename_i other
        obtain ⟨outcome, evaluates, same⟩ := evaluate_iff_evaluates.mp ⟨fuel, ended⟩
        cases outcome with
        | error error => exact .inl ⟨error, evaluates, same⟩
        | ok found =>
            cases same
            exact (other _ _ ended).elim

/-- Once the first right-hand side has come to a value, the rest is what there is to do. -/
theorem endsInOrder_cons_iff {name : NameId} {side : NodeId} {rest : List (NameId × NodeId)}
    {env : Env} {state middle : MachineState World} {found : Found}
    (passed : (machine.holding env).Evaluates true [] (.node env code side) state (.ok found)
      middle)
    {ending : Except EvalError Value} {final : MachineState World} :
    machine.EndsInOrder code body ((name, side) :: rest) env state ending final ↔
      machine.EndsInOrder code body rest (middle.mint.extend env name found.result.value).1
        { middle with mint := (middle.mint.extend env name found.result.value).2 } ending
        final := by
  constructor
  · rintro (⟨error, failed, _⟩ | ⟨other, ready, again, restEnded⟩)
    · cases passed.settles_evalDirect.unique failed.settles_evalDirect
    · cases passed.settles_evalDirect.unique again.settles_evalDirect
      exact restEnded
  · exact fun restEnded => .inr ⟨found, middle, passed, restEnded⟩

theorem EndsInOrder.proceeds {bindings : List (NameId × NodeId)} {env : Env}
    {state after : MachineState World} {ending : Except EvalError Value}
    (ended : machine.EndsInOrder code body bindings env state ending after) :
    state.Proceeds machine.host after := by
  induction bindings generalizing env state with
  | nil =>
      obtain ⟨_, evaluates, _⟩ := ended
      exact (MachineState.Proceeds.countStep state).trans evaluates.proceeds
  | cons binding rest ih =>
      obtain ⟨name, side⟩ := binding
      have counted : state.Proceeds machine.host state.countStep := .countStep state
      rcases ended with ⟨error, failed, _⟩ | ⟨found, middle, passed, restEnded⟩
      · exact counted.trans failed.proceeds
      · have onward := ih restEnded
        exact (counted.trans passed.proceeds).trans ⟨onward.steps, onward.world⟩

end InOrder

inductive Layers (arena : Arena) : NodeId → List (NameId × NodeId) → NodeId → Prop
  | body (id : NodeId) : Layers arena id [] id
  | assignment {id func next side last name rest} (node : arena.node? id = some (.apply func side))
      (binder : arena.node? func = some (.lambda name next)) (inner : Layers arena next rest last) :
      Layers arena id ((name, side) :: rest) last

theorem layers_of_splitFrom? {arena : Arena} {layers : Nat} {id last : NodeId}
    {bindings : List (NameId × NodeId)}
    (split : Program.splitFrom? arena layers id = some (bindings, last)) :
    Layers arena id bindings last := by
  induction layers generalizing id bindings with
  | zero =>
      cases split
      exact .body _
  | succ layers ih =>
      rw [Program.splitFrom?] at split
      split at split
      · cases split
      · rename_i func arg node
        split at split
        · cases split
        · rename_i param body binder
          obtain ⟨⟨inner, lastInner⟩, innerSplit, same⟩ := Option.bind_eq_some_iff.mp split
          cases same
          exact .assignment node binder (ih innerSplit)
        · cases split
          exact .body _
      · cases split
        exact .body _

section Layer

variable {machine : Machine World} {waiting : List Frame} {env : Env} {code : Code}

def binder (env : Env) (code : Code) (name : NameId) (next : NodeId) (state : MachineState World) :
    Closure :=
  (state.mint.closure env name next code).1

def opened (state : MachineState World) : MachineState World :=
  { state.countStep.countStep with mint := state.mint.issue.2 }

section Open

variable {id func next side : NodeId} {name : NameId} {state after : MachineState World}
  {outcome : Outcome}

theorem evaluates_layer_iff (node : code.arena.node? id = some (.apply func side))
    (abstraction : code.arena.node? func = some (.lambda name next))
    (within : machine.overLimit state.countStep.counters.steps = none)
    (innerWithin : machine.overLimit state.countStep.countStep.counters.steps = none) :
    let callee : Evaluated := ⟨.closure (binder env code name next state), true⟩
    machine.Evaluates true waiting (.node env code id) state outcome after ↔
      (∃ error, machine.Evaluates true (.call env callee :: waiting) (.node env code side)
        (opened state) (.error error) after ∧ outcome = .error error) ∨
      ∃ passed ready, machine.Evaluates true (.call env callee :: waiting) (.node env code side)
        (opened state) (.ok passed) ready ∧
          machine.Evaluates true waiting (.application env callee passed.result) ready
            outcome after := by
  intro callee
  have operator : machine.Evaluates true (.argument env code side :: waiting) (.node env code func)
      state.countStep (.ok ⟨env, callee⟩) (opened state) := .abstraction innerWithin abstraction
  have only (called : Outcome) (middle : MachineState World)
      (ended : machine.Evaluates true (.argument env code side :: waiting) (.node env code func)
        state.countStep called middle) : called = .ok ⟨env, callee⟩ ∧ middle = opened state := by
    cases operator.settles_evalDirect.unique ended.settles_evalDirect
    exact ⟨rfl, rfl⟩
  constructor
  · intro ended
    cases ended with
    | limited exceeded => cases within.symm.trans exceeded
    | dangling _ other => cases node.symm.trans other
    | unbound _ other _ => cases node.symm.trans other
    | «variable» _ other _ => cases node.symm.trans other
    | abstraction _ other => cases node.symm.trans other
    | operatorFails _ other failed =>
        cases node.symm.trans other
        cases (only _ _ failed).1
    | operandFails _ other passed failed =>
        cases node.symm.trans other
        obtain ⟨same, rfl⟩ := only _ _ passed
        cases same
        exact .inl ⟨_, failed, rfl⟩
    | applied _ other passed operand application =>
        cases node.symm.trans other
        obtain ⟨same, rfl⟩ := only _ _ passed
        cases same
        exact .inr ⟨_, _, operand, application⟩
  · rintro (⟨error, failed, rfl⟩ | ⟨passed, ready, operand, application⟩)
    · exact .operandFails within node operator failed
    · exact .applied within node operator operand application

end Open

structure Kept (inner : Outcome) (innerAfter : MachineState World) (outcome : Outcome)
    (after : MachineState World) : Prop where
  value : outcome.map (·.result.value) = inner.map (·.result.value)
  steps : after.counters.steps = innerAfter.counters.steps
  hits : after.counters.hits = innerAfter.counters.hits
  calls : after.counters.calls = innerAfter.counters.calls
  world : after.world = innerAfter.world

theorem Kept.refl (outcome : Outcome) (after : MachineState World) :
    Kept outcome after outcome after :=
  ⟨rfl, rfl, rfl, rfl, rfl⟩

theorem kept_rememberOutcome (callee key : Closure) (inner : Outcome)
    (innerAfter : MachineState World) :
    Kept inner innerAfter inner
      (machine.rememberOutcome true waiting callee key inner innerAfter) := by
  cases inner with
  | error error => exact .refl _ _
  | ok found =>
      rw [rememberOutcome, remember]
      split <;> exact ⟨rfl, rfl, rfl, rfl, rfl⟩

structure Enters (machine : Machine World) (waiting : List Frame) (env : Env) (callee : Closure)
    (arg : Evaluated) (state : MachineState World) (frames : List Frame) : Prop where
  inside : ∀ heap, callee.In heap → arg.value.In heap → ∀ frame ∈ frames, frame.In heap
  onward : ∀ inner innerAfter, machine.Evaluates true (frames ++ waiting)
    (.body callee arg.value state) (state.entering callee arg.value).2 inner innerAfter →
      ∃ outcome after, machine.Evaluates true waiting
        (.application env ⟨.closure callee, true⟩ arg) state outcome after ∧
          Kept inner innerAfter outcome after
  only : ∀ outcome after, machine.Evaluates true waiting
    (.application env ⟨.closure callee, true⟩ arg) state outcome after →
      ∃ inner innerAfter, machine.Evaluates true (frames ++ waiting)
        (.body callee arg.value state) (state.entering callee arg.value).2 inner innerAfter ∧
          Kept inner innerAfter outcome after

section Enters

variable {callee : Closure} {arg : Evaluated} {state : MachineState World}

theorem enters_uncacheable (uncacheable : arg.cacheable = false) :
    machine.Enters waiting env callee arg state [.taint] := by
  have kept (inner : Outcome) (innerAfter : MachineState World) :
      Kept inner innerAfter (taintOutcome inner) innerAfter := by
    cases inner <;> exact ⟨rfl, rfl, rfl, rfl, rfl⟩
  constructor
  · intro heap _ _ frame among
    cases List.mem_singleton.mp among
    trivial
  · exact fun inner innerAfter ended => ⟨_, _, .tainted rfl uncacheable ended, kept _ _⟩
  · intro outcome after ended
    cases ended with
    | notCallable other => cases other
    | called other _ => cases other
    | recalled _ other _ _ => cases uncacheable.symm.trans other
    | missed _ other _ _ _ => cases uncacheable.symm.trans other
    | entered _ other _ _ => cases uncacheable.symm.trans other
    | tainted closure _ body =>
        cases closure
        exact ⟨_, _, body, kept _ _⟩

theorem enters_closure {key : Closure} (cacheable : arg.cacheable = true)
    (argument : arg.value = .closure key) (never : recollect true callee key state = none) :
    machine.Enters waiting env callee arg state [.memoize callee key] := by
  constructor
  · intro heap calleeInside argInside frame among
    cases List.mem_singleton.mp among
    rw [argument] at argInside
    exact ⟨calleeInside, Value.within_closure.mp argInside⟩
  · exact fun inner innerAfter ended =>
      ⟨_, _, .missed rfl cacheable argument never ended, kept_rememberOutcome _ _ _ _⟩
  · intro outcome after ended
    cases ended with
    | notCallable other => cases other
    | called other _ => cases other
    | recalled closure _ same found =>
        cases closure
        cases argument.symm.trans same
        cases never.symm.trans found
    | missed closure _ other _ body =>
        cases closure
        cases argument.symm.trans other
        exact ⟨_, _, body, kept_rememberOutcome _ _ _ _⟩
    | entered _ _ other _ => exact (other key argument).elim
    | tainted _ other _ => cases cacheable.symm.trans other

theorem enters_other (cacheable : arg.cacheable = true)
    (noClosure : ∀ key, arg.value ≠ .closure key) :
    machine.Enters waiting env callee arg state [] := by
  constructor
  · exact fun _ _ _ _ among => (List.not_mem_nil among).elim
  · exact fun inner innerAfter ended =>
      ⟨_, _, .entered rfl cacheable noClosure ended, .refl _ _⟩
  · intro outcome after ended
    cases ended with
    | notCallable other => cases other
    | called other _ => cases other
    | recalled _ _ other _ => exact (noClosure _ other).elim
    | missed _ _ other _ _ => exact (noClosure _ other).elim
    | entered closure _ _ body =>
        cases closure
        exact ⟨_, _, body, .refl _ _⟩
    | tainted _ other _ => cases cacheable.symm.trans other

/-- A closure without results is entered, whatever it is applied to. -/
theorem exists_enters (absent : ∀ key, state.memo.entry callee.ident key = none) :
    ∃ frames, machine.Enters waiting env callee arg state frames := by
  cases cacheable : arg.cacheable with
  | false => exact ⟨_, enters_uncacheable cacheable⟩
  | true =>
      by_cases isClosure : ∃ key, arg.value = .closure key
      · obtain ⟨key, argument⟩ := isClosure
        exact ⟨_, enters_closure cacheable argument (absent key.ident)⟩
      · exact ⟨_, enters_other cacheable fun key same => isClosure ⟨key, same⟩⟩

end Enters

end Layer

/-- How the evaluation of the layers ends, next to the one in order: neither ends, the layers are
stopped by their limit, where the other would be too with the steps that the layers take, they
outlast the other, which has another limit, both fail alike, or both come to the same value. -/
inductive Tied (machine image : Machine World)
    (alike : Heap → (Ident → Ident) → World → World → Prop) (most : Nat)
    (inOrder : Except EvalError Value → MachineState World → Prop)
    (ends : Outcome → MachineState World → Prop) : Prop
  | endless (inOrderNever : ∀ ending final, ¬inOrder ending final)
      (never : ∀ outcome after, ¬ends outcome after)
  | stopped {bound after} (limited : image.limit = some bound)
      (ended : ends (.error (.stepLimit bound)) after)
      (overtaken : ∀ ending final, inOrder ending final →
        final.Overtaken machine.host (AlikeSomehow alike) most bound after)
  | outlasted {bound final} (differ : image.limit ≠ machine.limit)
      (inOrderEnded : inOrder (.error (.stepLimit bound)) final)
      (precedes : ∀ outcome after, ends outcome after →
        final.Precedes image.host (AlikeSomehow alike) after)
  | failed {error final after ahead} (inOrderEnded : inOrder (.error error) final)
      (ended : ends (.error error) after) (few : ahead ≤ most)
      (states : final.Alike (AlikeSomehow alike) ahead after)
  | passed {value final found after heap label} (inOrderEnded : inOrder (.ok value) final)
      (ended : ends (.ok found) after) (same : found.result.value = value.relabel label)
      (states : final.Alike (alike heap label) most after)

theorem Kept.alike {alike : World → World → Prop} {ahead : Nat} {inner outcome : Outcome}
    {state innerAfter after : MachineState World} (kept : Kept inner innerAfter outcome after)
    (states : state.Alike alike ahead innerAfter) : state.Alike alike ahead after := by
  refine ⟨kept.steps.trans states.steps, kept.hits.trans states.hits, kept.calls.trans states.calls,
    ?_⟩
  rw [kept.world]
  exact states.worlds

theorem Kept.precedes {host : Host World} {alike : World → World → Prop} {inner outcome : Outcome}
    {state innerAfter after : MachineState World} (kept : Kept inner innerAfter outcome after)
    (precedes : state.Precedes host alike innerAfter) : state.Precedes host alike after := by
  rw [MachineState.Precedes, kept.world]
  exact precedes

theorem Kept.overtaken {host : Host World} {alike : World → World → Prop} {ahead bound : Nat}
    {inner outcome : Outcome} {state innerAfter after : MachineState World}
    (kept : Kept inner innerAfter outcome after)
    (overtaken : state.Overtaken host alike ahead bound innerAfter) :
    state.Overtaken host alike ahead bound after :=
  ⟨overtaken.late, kept.world ▸ overtaken.early⟩

/-- What a layer adds at its end changes nothing of how it ends. -/
theorem Tied.kept {machine image : Machine World}
    {alike : Heap → (Ident → Ident) → World → World → Prop} {most : Nat}
    {inOrder : Except EvalError Value → MachineState World → Prop}
    {innerEnds ends : Outcome → MachineState World → Prop}
    (tied : machine.Tied image alike most inOrder innerEnds)
    (entered : ∀ inner innerAfter, innerEnds inner innerAfter →
      ∃ outcome after, ends outcome after ∧ Kept inner innerAfter outcome after)
    (only : ∀ outcome after, ends outcome after →
      ∃ inner innerAfter, innerEnds inner innerAfter ∧ Kept inner innerAfter outcome after) :
    machine.Tied image alike most inOrder ends := by
  cases tied with
  | endless inOrderNever never =>
      refine .endless inOrderNever fun outcome after ended => ?_
      obtain ⟨inner, innerAfter, innerEnded, _⟩ := only outcome after ended
      exact never inner innerAfter innerEnded
  | stopped limited ended overtaken =>
      obtain ⟨outcome, after, ended, kept⟩ := entered _ _ ended
      cases outcome with
      | error error =>
          cases kept.value
          exact .stopped limited ended fun ending final inOrderEnded =>
            kept.overtaken (overtaken ending final inOrderEnded)
      | ok found => cases kept.value
  | outlasted differ inOrderEnded precedes =>
      refine .outlasted differ inOrderEnded fun outcome after ended => ?_
      obtain ⟨inner, innerAfter, innerEnded, kept⟩ := only outcome after ended
      exact kept.precedes (precedes inner innerAfter innerEnded)
  | failed inOrderEnded ended few states =>
      obtain ⟨outcome, after, ended, kept⟩ := entered _ _ ended
      cases outcome with
      | error error =>
          cases kept.value
          exact .failed inOrderEnded ended few (kept.alike states)
      | ok found => cases kept.value
  | passed inOrderEnded ended same states =>
      obtain ⟨outcome, after, ended, kept⟩ := entered _ _ ended
      cases outcome with
      | error error => cases kept.value
      | ok found =>
          exact .passed inOrderEnded ended ((Except.ok.inj kept.value).trans same)
            (kept.alike states)

section Tied

variable {machine image : Machine World} {alike : Heap → (Ident → Ident) → World → World → Prop}
  {label : Ident → Ident} {ahead : Nat} {heap copy : Heap} {env : Env} {code : Code}
  {state imageState : MachineState World} {imageWaiting : List Frame}

theorem Rests.holding (rests : machine.Rests heap []) (envInside : env.In heap) :
    (machine.holding env).Rests heap [] := by
  refine ⟨fun other among => ?_, rests.values, rests.frames⟩
  rcases List.mem_cons.mp among with rfl | before
  · exact envInside
  · exact rests.envs other before

def TiedInOrder (machine image : Machine World)
    (alike : Heap → (Ident → Ident) → World → World → Prop) (label : Ident → Ident)
    (ahead most : Nat) (code : Code) (id : NodeId)
    (bindings : List (NameId × NodeId)) (last : NodeId) : Prop :=
  ∀ {heap copy : Heap} {env : Env} {state imageState : MachineState World}
    {imageWaiting : List Frame},
    state.Mirrors machine.host alike label ahead heap copy (· ∈ env.link) imageState → env.In heap →
      code.ident < heap.next → machine.Rests heap [] → image.Rests copy imageWaiting →
        machine.Tied image alike most (machine.EndsInOrder code last bindings env state)
          (image.Evaluates true imageWaiting (.node (env.relabel label) (code.relabel label) id)
            imageState)

theorem tied_body (sameHost : image.host = machine.host)
    (blind : machine.host.Blind alike)
    (id : NodeId) : TiedInOrder machine image alike label ahead ahead code id [] id := by
  intro heap copy env state imageState imageWaiting states envInside codeBelow rests imageRests
  have waits : (machine.holding env).Waits image label heap copy (fun _ => False) []
      imageWaiting :=
    ⟨rests.holding envInside, imageRests, fun _ nothing => nothing.elim,
      fun _ nothing => nothing.elim⟩
  have sameHost : image.host = (machine.holding env).host := sameHost
  cases compared_evaluates sameHost blind id waits
    (states.fewer fun _ isRoot => isRoot.resolve_left (·)) envInside codeBelow with
  | endless never imageNever =>
      refine .endless ?_ imageNever
      rintro ending final ⟨outcome, ended, _⟩
      exact never outcome final ended
  | stopped limited imageEnded overtaken =>
      refine .stopped limited imageEnded ?_
      rintro ending final ⟨outcome, ended, _⟩
      exact overtaken outcome final ended
  | outlasted _ differ ended precedes =>
      exact .outlasted differ ⟨_, ended, rfl⟩ precedes
  | failed ended imageEnded states =>
      exact .failed ⟨_, ended, rfl⟩ imageEnded (Nat.le_refl _) states
  | passed ended imageEnded _ _ _ states =>
      exact .passed ⟨_, ended, rfl⟩ imageEnded rfl states.alike

/-- The right-hand side of the outermost layer, next to the one that is evaluated by itself. On the
image's side there is a closure more by now, and two steps have been counted. -/
theorem exists_compared_side (sameHost : image.host = machine.host)
    (blind : machine.host.Blind alike)
    (states : state.Mirrors machine.host alike label ahead heap copy (· ∈ env.link) imageState)
    (envInside : env.In heap) (codeBelow : code.ident < heap.next) (rests : machine.Rests heap [])
    (imageRests : image.Rests copy imageWaiting) (name : NameId) (next side : NodeId) :
    let callee := binder (env.relabel label) (code.relabel label) name next imageState
    ∃ opening, copy.Grows opening ∧ callee.In opening ∧
      (machine.holding env).Compared image alike (labelPast label heap.next) (ahead + 2) heap
        opening (· ∈ env.link) ((machine.holding env).Evaluates true [] (.node env code side) state)
        (image.Evaluates true (.call (env.relabel label) ⟨.closure callee, true⟩ :: imageWaiting)
          (.node (env.relabel label) (code.relabel label) side) (opened imageState)) := by
  intro callee
  have imageEnvInside := states.copied.env envInside
  have inside : callee.cell.Within copy.next copy.cells :=
    ⟨states.copied.relabels.lt codeBelow, imageEnvInside⟩
  have calleeInside : callee.In (copy.add callee.cell inside) :=
    Heap.in_addClosure states.imageNext.symm inside
  have grows := @Heap.grows_add copy _ inside
  have past := states.past blind inside
  have sameEnv := @Env.In.relabel_past heap label env envInside
  have sameCode : code.relabel (labelPast label heap.next) = code.relabel label :=
    congrArg (Code.mk · code.arena) (labelPast_of_lt codeBelow)
  have waits : (machine.holding env).Waits image (labelPast label heap.next) heap
      (copy.add callee.cell inside) (· ∈ env.link) []
      (.call (env.relabel label) ⟨.closure callee, true⟩ :: imageWaiting) := by
    refine ⟨rests.holding envInside, (imageRests.mono grows).push ⟨Env.In.mono grows imageEnvInside,
      Value.within_closure.mpr calleeInside⟩, fun ident linked => ?_, fun ident linked => ?_⟩
    · exact .inl ⟨env, List.mem_cons_self, linked⟩
    · refine holds_frame (List.mem_append_left _ ?_)
      rw [← sameEnv, Env.link_relabel]
      exact List.mem_map_of_mem linked
  have sameHost : image.host = (machine.holding env).host := sameHost
  have compared := compared_evaluates sameHost blind side waits
    (past.fewer fun _ isRoot => isRoot.elim (·) (·)) envInside codeBelow
  rw [sameEnv, sameCode] at compared
  exact ⟨_, grows, calleeInside, compared⟩

/-- The limit stops the image at the application of a layer or at its abstraction. -/
theorem exists_overtaken_layer {bound : Nat} {id func side : NodeId}
    (states : state.Alike (alike heap label) ahead imageState)
    (node : code.arena.node? id = some (.apply func side))
    (exceeded : image.overLimit imageState.countStep.counters.steps = some bound ∨
      image.overLimit imageState.countStep.countStep.counters.steps = some bound) :
    ∃ after, image.Evaluates true imageWaiting (.node env code id) imageState
        (.error (.stepLimit bound)) after ∧
      state.Overtaken machine.host (AlikeSomehow alike) (ahead + 2) bound after := by
  have steps : imageState.countStep.countStep.counters.steps =
      Counters.bump^[ahead + 2] state.counters.steps := by
    rw [← Counters.bump_bump_iterate, ← states.steps]
    rfl
  have late : bound < Counters.bump^[ahead + 2] state.counters.steps := by
    rw [← steps]
    exact exceeded.elim
      (fun first => Nat.lt_of_lt_of_le (lt_of_overLimit first) (Counters.le_bump _)) lt_of_overLimit
  have early : ∃ world, AlikeSomehow alike world imageState.world ∧
      machine.host.Leads world state.world :=
    ⟨state.world, states.somehow.worlds, .refl⟩
  cases outer : image.overLimit imageState.countStep.counters.steps with
  | some limit =>
      have limited := exceeded.elim limit_of_overLimit limit_of_overLimit
      cases (limit_of_overLimit outer).symm.trans limited
      exact ⟨_, .limited outer, late, early⟩
  | none =>
      rw [outer] at exceeded
      have inner := exceeded.resolve_left fun impossible => by cases impossible
      exact ⟨_, .operatorFails outer node (.limited inner), late, early⟩

/-- Nothing has been recorded for an instance that the image alone has. -/
theorem entry_past {later laterCopy : Heap} {roots : Ident → Prop} {most : Nat}
    (states : state.Mirrors machine.host alike (labelPast label heap.next) most later laterCopy roots
      imageState)
    (copied : heap.Copied label copy) (key : Ident) :
    imageState.memo.entry copy.next key = none := by
  refine Option.eq_none_iff_forall_ne_some.mpr fun value recorded => ?_
  obtain ⟨ident, same⟩ := states.memo.owners _ _ _ recorded
  exact copied.relabels.past_ne ident same.symm

/-- The binder of a layer is applied to what its right-hand side has come to: the body is evaluated
where that is bound, on both sides. -/
theorem tied_application (blind : machine.host.Blind alike) {name : NameId} {next last : NodeId}
    {rest : List (NameId × NodeId)} {most : Nat} {found : Found}
    {middle imageMiddle : MachineState World}
    {opening later laterCopy : Heap}
    (inner : TiedInOrder machine image alike (labelPast label heap.next) (ahead + 2) most code next
      rest last)
    (states : state.Mirrors machine.host alike label ahead heap copy (· ∈ env.link) imageState)
    (envInside : env.In heap) (codeBelow : code.ident < heap.next) (rests : machine.Rests heap [])
    (imageRests : image.Rests copy imageWaiting) (copyGrows : copy.Grows opening)
    (calleeInside :
      (binder (env.relabel label) (code.relabel label) name next imageState).In opening)
    (grows : heap.Grows later) (openingGrows : opening.Grows laterCopy)
    (value : found.result.value.In later)
    (middleStates : middle.Mirrors machine.host alike (labelPast label heap.next) (ahead + 2) later
      laterCopy (Rooted (· ∈ env.link) found.result.value.link) imageMiddle) :
    machine.Tied image alike most
      (machine.EndsInOrder code last rest (middle.mint.extend env name found.result.value).1
        { middle with mint := (middle.mint.extend env name found.result.value).2 })
      (image.Evaluates true imageWaiting (.application (env.relabel label)
        ⟨.closure (binder (env.relabel label) (code.relabel label) name next imageState), true⟩
        (found.result.relabel (labelPast label heap.next))) imageMiddle) := by
  have self : (binder (env.relabel label) (code.relabel label) name next imageState).ident =
      copy.next := states.imageNext.symm
  have absent (key : Ident) := self ▸ entry_past middleStates states.copied key
  obtain ⟨frames, enters⟩ := @exists_enters _ image imageWaiting (env.relabel label) _
    (found.result.relabel (labelPast label heap.next)) imageMiddle absent
  obtain ⟨more, moreCopy, moreGrows, moreCopyGrows, extendedInside, same, entered⟩ :=
    middleStates.extend blind name (Env.In.mono grows envInside) value
      (fun link among => .root (.inl among)) (fun link among => .root (.inr among))
      (fun _ (nothing : False) => nothing.elim)
  have bodyCopyGrows := openingGrows.trans moreCopyGrows
  have valueInside := Value.In.mono moreCopyGrows (middleStates.copied.value value)
  have tied := inner (entered.fewer fun _ linked => .inr linked) extendedInside
    (Nat.lt_of_lt_of_le codeBelow (grows.trans moreGrows).le) (rests.mono (grows.trans moreGrows))
    ((imageRests.mono (copyGrows.trans bodyCopyGrows)).append
      (enters.inside moreCopy (Closure.In.mono bodyCopyGrows calleeInside) valueInside))
  have sameEnv := @Env.In.relabel_past heap label env envInside
  have sameCode : code.relabel (labelPast label heap.next) = code.relabel label :=
    congrArg (Code.mk · code.arena) (labelPast_of_lt codeBelow)
  rw [← same, sameEnv, sameCode] at tied
  exact tied.kept enters.onward enters.only

/-- The layers do what evaluation in order does: on the number of layers. -/
theorem tied_layers (sameHost : image.host = machine.host)
    (blind : machine.host.Blind alike)
    {bindings : List (NameId × NodeId)} {id last : NodeId}
    (layers : Layers code.arena id bindings last) :
    TiedInOrder machine image alike label ahead (ahead + 2 * bindings.length) code id bindings
      last := by
  induction layers generalizing label ahead with
  | body id => exact tied_body sameHost blind id
  | @assignment id func next side last name rest node abstraction inner ih =>
      intro heap copy env state imageState imageWaiting states envInside codeBelow rests imageRests
      have most : ahead + 2 * ((name, side) :: rest).length = ahead + 2 + 2 * rest.length := by
        rw [List.length_cons]
        omega
      rw [most]
      by_cases exceeded : ∃ bound,
        image.overLimit imageState.countStep.counters.steps = some bound ∨
        image.overLimit imageState.countStep.countStep.counters.steps = some bound
      · obtain ⟨bound, exceeded⟩ := exceeded
        obtain ⟨after, stopped, overtaken⟩ := @exists_overtaken_layer _ machine image alike label ahead
          heap (env.relabel label) (code.relabel label) state imageState imageWaiting bound id func side
          states.alike node exceeded
        have limited := exceeded.elim limit_of_overLimit limit_of_overLimit
        exact .stopped limited stopped fun ending final ended =>
          overtaken.mono (Nat.le_add_right _ _) ended.proceeds
      · have within : image.overLimit imageState.countStep.counters.steps = none :=
          Option.eq_none_iff_forall_ne_some.mpr fun bound first => exceeded ⟨bound, .inl first⟩
        have innerWithin : image.overLimit imageState.countStep.countStep.counters.steps = none :=
          Option.eq_none_iff_forall_ne_some.mpr fun bound second => exceeded ⟨bound, .inr second⟩
        have layer {outcome : Outcome} {after : MachineState World} :=
          @evaluates_layer_iff _ image imageWaiting (env.relabel label) (code.relabel label) id func
            next side name imageState after outcome node abstraction within innerWithin
        obtain ⟨opening, copyGrows, calleeInside, compared⟩ := exists_compared_side sameHost blind
          states envInside codeBelow rests imageRests name next side
        cases compared with
        | endless never imageNever =>
            refine .endless ?_ fun outcome after ended => ?_
            · rintro ending final (⟨error, failed, _⟩ | ⟨found, middle, passed, _⟩)
              · exact never _ _ failed
              · exact never _ _ passed
            · rcases layer.mp ended with ⟨error, failed, _⟩ | ⟨passed, ready, operand, _⟩
              · exact imageNever _ _ failed
              · exact imageNever _ _ operand
        | stopped limited imageEnded overtaken =>
            refine .stopped limited (layer.mpr (.inl ⟨_, imageEnded, rfl⟩)) ?_
            rintro ending final (⟨error, failed, _⟩ | ⟨found, middle, passed, restEnded⟩)
            · exact (overtaken _ _ failed).mono (Nat.le_add_right _ _) (.refl final)
            · have proceeds := restEnded.proceeds
              exact (overtaken _ _ passed).mono (Nat.le_add_right _ _)
                ⟨proceeds.steps, proceeds.world⟩
        | outlasted _ differ ended precedes =>
            refine .outlasted differ (.inl ⟨_, ended, rfl⟩) fun outcome after layerEnded => ?_
            rcases layer.mp layerEnded with ⟨error, failed, _⟩ | ⟨_, ready, operand, application⟩
            · exact precedes _ _ failed
            · exact (precedes _ _ operand).mono application.proceeds
        | failed ended imageEnded states =>
            exact .failed (.inl ⟨_, ended, rfl⟩) (layer.mpr (.inl ⟨_, imageEnded, rfl⟩))
              (Nat.le_add_right _ _) states
        | @passed found middle imageMiddle later laterCopy ended imageEnded grows openingGrows value
            middleStates =>
            have tied := tied_application blind ih states envInside codeBelow rests imageRests copyGrows
              calleeInside grows openingGrows value middleStates
            have inOrder : machine.EndsInOrder code last ((name, side) :: rest) env state = _ :=
              funext fun ending => funext fun final => propext (endsInOrder_cons_iff ended)
            rw [inOrder]
            refine tied.kept (fun outcome after application => ?_) fun outcome after ended => ?_
            · exact ⟨outcome, after, layer.mpr (.inr ⟨_, _, imageEnded, application⟩), .refl _ _⟩
            · rcases layer.mp ended with ⟨error, failed, _⟩ | ⟨passed, ready, operand, application⟩
              · cases imageEnded.settles_evalDirect.unique failed.settles_evalDirect
              · cases imageEnded.settles_evalDirect.unique operand.settles_evalDirect
                exact ⟨outcome, after, application, .refl _ _⟩

end Tied

/-- No identity that is held belongs to two instances: there is a heap that all that the machine
holds, the environment, the results in the tables and what the host keeps are in. -/
def Consistent (machine : Machine World) (alike : Heap → (Ident → Ident) → World → World → Prop)
    (env : Env) (state : MachineState World) : Prop :=
  ∃ heap : Heap, heap.next = state.mint.nextIdent ∧ machine.Rests heap [] ∧ env.In heap ∧
    state.memo.In heap ∧ Settled alike heap state.world

inductive AgreesInOrder (machine : Machine World)
    (alike : Heap → (Ident → Ident) → World → World → Prop) (most : Nat)
    (evaluated inOrder : Nat → Option (Except EvalError Value × MachineState World)) : Prop
  | endless (evaluatedDiverges : Diverges evaluated) (inOrderDiverges : Diverges inOrder)
  | stopped {bound after} (limited : machine.limit = some bound)
      (evaluatedSettles : Settles evaluated (.error (.stepLimit bound), after))
      (overtaken : ∀ ending final, Settles inOrder (ending, final) →
        final.Overtaken machine.host (AlikeSomehow alike) most bound after)
  | failed {error after final} (evaluatedSettles : Settles evaluated (.error error, after))
      (inOrderSettles : Settles inOrder (.error error, final))
      (hits : after.counters.hits = final.counters.hits)
      (calls : after.counters.calls = final.counters.calls)
      (worlds : AlikeSomehow alike final.world after.world)
  | passed {value inOrderValue after final}
      (evaluatedSettles : Settles evaluated (.ok value, after))
      (inOrderSettles : Settles inOrder (.ok inOrderValue, final))
      (same : value.erase = inOrderValue.erase)
      (steps : after.counters.steps = Counters.bump^[most] final.counters.steps)
      (hits : after.counters.hits = final.counters.hits)
      (calls : after.counters.calls = final.counters.calls)
      (worlds : AlikeSomehow alike final.world after.world)

def KeepsUp (machine : Machine World)
    (alike : Heap → (Ident → Ident) → World → World → Prop) (most : Nat)
    (evaluated inOrder :
      Machine World → Nat → Option (Except EvalError Value × MachineState World)) : Prop :=
  ∀ (limit : Option Nat) (larger : Nat) (ending outcome : Except EvalError Value)
    (final after : MachineState World),
    Settles (inOrder (machine.withLimit limit)) (ending, final) →
      Settles (evaluated (machine.withLimit (some larger))) (outcome, after) →
        Counters.bump^[most] final.counters.steps ≤ larger →
          final.Precedes machine.host (AlikeSomehow alike) after

section Agreement

variable {machine : Machine World} {alike : Heap → (Ident → Ident) → World → World → Prop}
  {env : Env} {code : Code} {state : MachineState World}

structure Computes (answers : Nat → Option (Except EvalError Value × MachineState World))
    (ends : Except EvalError Value → MachineState World → Prop) : Prop where
  settles : ∀ ending after, ends ending after → Settles answers (ending, after)
  sound : ∀ fuel ending after, answers fuel = some (ending, after) → ends ending after

section Computes

variable {evaluated inOrder : Nat → Option (Except EvalError Value × MachineState World)}
  {ends : Except EvalError Value → MachineState World → Prop}
  {outcomes : Outcome → MachineState World → Prop} {most : Nat}

theorem Computes.diverges (computes : Computes evaluated ends)
    (never : ∀ ending after, ¬ends ending after) : Diverges evaluated := by
  intro fuel
  by_contra halts
  obtain ⟨⟨ending, after⟩, ended⟩ := Option.ne_none_iff_exists'.mp halts
  exact never ending after (computes.sound fuel ending after ended)

theorem Computes.of_settles (computes : Computes evaluated ends) {ending : Except EvalError Value}
    {after : MachineState World} (settles : Settles evaluated (ending, after)) :
    ends ending after := by
  obtain ⟨bound, settled⟩ := settles
  exact computes.sound bound ending after (settled bound (Nat.le_refl bound))

def Values (outcomes : Outcome → MachineState World → Prop) (ending : Except EvalError Value)
    (after : MachineState World) : Prop :=
  ∃ outcome, outcomes outcome after ∧ ending = outcome.map (·.result.value)

theorem Tied.agreesInOrder (tied : machine.Tied machine alike most ends outcomes)
    (evaluates : Computes evaluated (Values outcomes)) (orders : Computes inOrder ends) :
    machine.AgreesInOrder alike most evaluated inOrder := by
  cases tied with
  | endless inOrderNever never =>
      refine .endless (evaluates.diverges ?_) (orders.diverges inOrderNever)
      rintro ending after ⟨outcome, ended, _⟩
      exact never outcome after ended
  | stopped limited ended overtaken =>
      exact .stopped limited (evaluates.settles _ _ ⟨_, ended, rfl⟩) fun ending final settles =>
        overtaken ending final (orders.of_settles settles)
  | outlasted differ _ _ => exact (differ rfl).elim
  | failed inOrderEnded ended _ states =>
      exact .failed (evaluates.settles _ _ ⟨_, ended, rfl⟩) (orders.settles _ _ inOrderEnded)
        states.hits states.calls states.worlds
  | passed inOrderEnded ended same states =>
      exact .passed (evaluates.settles _ _ ⟨_, ended, rfl⟩) (orders.settles _ _ inOrderEnded)
        ((congrArg Value.erase same).trans (Value.erase_relabel _)) states.steps states.hits
        states.calls states.somehow.worlds

/-- A limit with room for the steps that the first takes more does not stop it before it has made
the calls of the second. -/
theorem Tied.precedes {image : Machine World} {larger : Nat}
    {ending outcome : Except EvalError Value} {final after : MachineState World}
    (tied : machine.Tied image alike most ends outcomes)
    (evaluates : Computes evaluated (Values outcomes)) (orders : Computes inOrder ends)
    (limited : image.limit = some larger) (sameHost : image.host = machine.host)
    (inOrderSettles : Settles inOrder (ending, final))
    (settles : Settles evaluated (outcome, after))
    (room : Counters.bump^[most] final.counters.steps ≤ larger) :
    final.Precedes machine.host (AlikeSomehow alike) after := by
  have inOrderEnds := orders.of_settles inOrderSettles
  obtain ⟨found, evaluated, _⟩ := evaluates.of_settles settles
  cases tied with
  | endless _ never => exact (never _ _ evaluated).elim
  | stopped limit _ overtaken =>
      cases limited.symm.trans limit
      exact (Nat.not_lt.mpr room (overtaken _ _ inOrderEnds).late).elim
  | outlasted _ inOrderEnded precedes =>
      cases inOrderSettles.unique (orders.settles _ _ inOrderEnded)
      exact sameHost ▸ precedes _ _ evaluated
  | failed inOrderEnded ended _ states =>
      cases inOrderSettles.unique (orders.settles _ _ inOrderEnded)
      cases settles.unique (evaluates.settles _ _ ⟨_, ended, rfl⟩)
      exact ⟨_, states.worlds, .refl⟩
  | passed inOrderEnded ended _ states =>
      cases inOrderSettles.unique (orders.settles _ _ inOrderEnded)
      cases settles.unique (evaluates.settles _ _ ⟨_, ended, rfl⟩)
      exact ⟨_, states.somehow.worlds, .refl⟩

end Computes

theorem computes_evaluate (machine : Machine World) (env : Env) (code : Code) (id : NodeId)
    (state : MachineState World) :
    Computes (fun fuel => machine.evaluate fuel env code id state)
      (Values fun outcome after =>
        machine.Evaluates true [] (.node env code id) state outcome after) := by
  constructor
  · rintro ending after ended
    obtain ⟨fuel, evaluated⟩ := evaluate_iff_evaluates.mpr ended
    exact ⟨fuel, fun _ enough => evaluate_mono enough evaluated⟩
  · exact fun fuel ending after evaluated => evaluate_iff_evaluates.mp ⟨fuel, evaluated⟩

theorem computes_evaluateInOrder (machine : Machine World) (code : Code) (body : NodeId)
    (bindings : List (NameId × NodeId)) (env : Env) (state : MachineState World) :
    Computes (fun fuel => machine.evaluateInOrder fuel code body bindings env state)
      (machine.EndsInOrder code body bindings env state) :=
  ⟨fun _ _ ended => ended.settles, fun _ _ _ ended => endsInOrder_of_evaluateInOrder ended⟩

section Layers

variable {bindings : List (NameId × NodeId)} {root last : NodeId}

/-- The image of the evaluation in order is the evaluation of the layers, under the same identities
at first. -/
theorem tied_of_consistent (code : Code) (blind : machine.host.Blind alike)
    (consistent : machine.Consistent alike env state)
    (layers : Layers code.arena root bindings last)
    (codeBelow : code.ident < state.mint.nextIdent) (limit imageLimit : Option Nat) :
    (machine.withLimit limit).Tied (machine.withLimit imageLimit) alike (2 * bindings.length)
      ((machine.withLimit limit).EndsInOrder code last bindings env state)
      ((machine.withLimit imageLimit).Evaluates true [] (.node env code root) state) := by
  obtain ⟨heap, next, rests, envInside, memoInside, start⟩ := consistent
  have limitedRests (limit : Option Nat) : (machine.withLimit limit).Rests heap [] :=
    ⟨rests.envs, rests.values, rests.frames⟩
  have states : state.Mirrors (machine.withLimit limit).host alike id 0 heap heap (· ∈ env.link)
      state :=
    ⟨heap.copied_refl, next, next, rfl, Memo.mirrors_refl memoInside, ⟨rfl, rfl, rfl, start⟩⟩
  have sameHost : (machine.withLimit imageLimit).host = (machine.withLimit limit).host := rfl
  have tied := tied_layers sameHost blind layers states envInside (next ▸ codeBelow)
    (limitedRests limit) (limitedRests imageLimit)
  rw [env.relabel_id, Nat.zero_add] at tied
  exact tied

theorem layers_agree_in_order (code : Code) (blind : machine.host.Blind alike)
    (consistent : machine.Consistent alike env state)
    (layers : Layers code.arena root bindings last)
    (codeBelow : code.ident < state.mint.nextIdent) :
    machine.AgreesInOrder alike (2 * bindings.length)
      (fun fuel => machine.evaluate fuel env code root state)
      (fun fuel => machine.evaluateInOrder fuel code last bindings env state) :=
  (tied_of_consistent code blind consistent layers codeBelow machine.limit
    machine.limit).agreesInOrder (computes_evaluate _ _ _ _ _)
    (computes_evaluateInOrder _ _ _ _ _ _)

theorem layers_keep_up (code : Code) (blind : machine.host.Blind alike)
    (consistent : machine.Consistent alike env state)
    (layers : Layers code.arena root bindings last)
    (codeBelow : code.ident < state.mint.nextIdent) :
    machine.KeepsUp alike (2 * bindings.length)
      (fun machine fuel => machine.evaluate fuel env code root state)
      (fun machine fuel => machine.evaluateInOrder fuel code last bindings env state) := by
  intro limit larger ending outcome final after inOrderSettles evaluatedSettles room
  exact (tied_of_consistent code blind consistent layers codeBelow limit
    (some larger)).precedes (computes_evaluate _ _ _ _ _) (computes_evaluateInOrder _ _ _ _ _ _)
    rfl rfl inOrderSettles evaluatedSettles room

end Layers

end Agreement

def callsOf (world : World × List (Builtin × Value)) : List (Builtin × Value) :=
  world.2.map (Prod.map Builtin.erase Value.erase)

def LogsAlike (alike : Heap → (Ident → Ident) → World → World → Prop) (heap : Heap)
    (label : Ident → Ident) (world image : World × List (Builtin × Value)) : Prop :=
  alike heap label world.1 image.1 ∧ callsOf image = callsOf world

section Logs

variable {machine : Machine World} {alike : Heap → (Ident → Ident) → World → World → Prop}

/-- Calls are only ever added to those noted. -/
theorem prefix_of_leads {world final : World × List (Builtin × Value)}
    (leads : machine.logged.host.Leads world final) : callsOf world <+: callsOf final := by
  induction leads with
  | refl => exact List.prefix_refl _
  | call _ function arg mint ih =>
      refine ih.trans ?_
      rw [callsOf, callsOf]
      exact (List.prefix_append _ _).map _

/-- What has been stopped by the limit has made the first calls of the other, and no others. -/
theorem prefix_of_overtaken {ahead bound : Nat}
    {state image : MachineState (World × List (Builtin × Value))}
    (overtaken : state.Overtaken machine.logged.host (AlikeSomehow (LogsAlike alike)) ahead bound
      image) :
    callsOf image.world <+: callsOf state.world := by
  obtain ⟨world, ⟨_, _, _, same⟩, leads⟩ := overtaken.early
  rw [same]
  exact prefix_of_leads leads

theorem prefix_of_precedes {state image : MachineState (World × List (Builtin × Value))}
    (precedes : state.Precedes machine.logged.host (AlikeSomehow (LogsAlike alike)) image) :
    callsOf state.world <+: callsOf image.world := by
  obtain ⟨world, ⟨_, _, _, same⟩, leads⟩ := precedes
  rw [← same]
  exact prefix_of_leads leads

theorem AgreesInOrder.prefix_calls {most : Nat} {evaluated inOrder :
      Nat → Option (Except EvalError Value × MachineState (World × List (Builtin × Value)))}
    (agrees : machine.logged.AgreesInOrder (LogsAlike alike) most evaluated inOrder)
    {outcome ending : Except EvalError Value}
    {after final : MachineState (World × List (Builtin × Value))}
    (settles : Settles evaluated (outcome, after)) (ordered : Settles inOrder (ending, final)) :
    callsOf after.world <+: callsOf final.world := by
  cases agrees with
  | endless diverges _ => exact (diverges.not_settles settles).elim
  | stopped _ evaluatedSettles overtaken =>
      cases evaluatedSettles.unique settles
      exact prefix_of_overtaken (overtaken _ _ ordered)
  | failed evaluatedSettles inOrderSettles _ _ worlds =>
      cases evaluatedSettles.unique settles
      cases inOrderSettles.unique ordered
      obtain ⟨_, _, _, same⟩ := worlds
      exact same ▸ List.prefix_refl _
  | passed evaluatedSettles inOrderSettles _ _ _ _ worlds =>
      cases evaluatedSettles.unique settles
      cases inOrderSettles.unique ordered
      obtain ⟨_, _, _, same⟩ := worlds
      exact same ▸ List.prefix_refl _

/-- With their calls noted the two run alike: they agree on how they end, and the one makes the calls
of the other in the same order, as far as its limit lets it. -/
structure RunsInOrder (machine : Machine World)
    (alike : Heap → (Ident → Ident) → World → World → Prop) (most : Nat)
    (evaluated inOrder : Machine (World × List (Builtin × Value)) → Nat →
      Option (Except EvalError Value × MachineState (World × List (Builtin × Value)))) : Prop where
  agrees : machine.logged.AgreesInOrder (LogsAlike alike) most (evaluated machine.logged)
    (inOrder machine.logged)
  /-- Also what goes on for ever can be followed, under limits that grow. -/
  keepsUp : machine.logged.KeepsUp (LogsAlike alike) most evaluated inOrder
  firstCalls : ∀ outcome ending after final,
    Settles (evaluated machine.logged) (outcome, after) →
      Settles (inOrder machine.logged) (ending, final) → callsOf after.world <+: callsOf final.world
  allCalls : ∀ limit larger outcome ending after final,
    Settles (inOrder (machine.logged.withLimit limit)) (ending, final) →
      Settles (evaluated (machine.logged.withLimit (some larger))) (outcome, after) →
        Counters.bump^[most] final.counters.steps ≤ larger →
          callsOf final.world <+: callsOf after.world

theorem AgreesInOrder.runsInOrder {most : Nat} {evaluated inOrder :
      Machine (World × List (Builtin × Value)) → Nat →
        Option (Except EvalError Value × MachineState (World × List (Builtin × Value)))}
    (agrees : machine.logged.AgreesInOrder (LogsAlike alike) most (evaluated machine.logged)
      (inOrder machine.logged))
    (keepsUp : machine.logged.KeepsUp (LogsAlike alike) most evaluated inOrder) :
    machine.RunsInOrder alike most evaluated inOrder where
  agrees := agrees
  keepsUp := keepsUp
  firstCalls _ _ _ _ settles ordered := agrees.prefix_calls settles ordered
  allCalls limit larger outcome ending after final ordered settles room :=
    prefix_of_precedes (keepsUp limit larger ending outcome final after ordered settles room)

theorem blind_logged (blind : machine.host.Blind alike) :
    machine.logged.host.Blind (LogsAlike alike) where
  keeps worlds := blind.keeps worlds.1
  kept worlds := blind.kept worlds.1
  grows grown worlds := ⟨blind.grows grown worlds.1, worlds.2⟩
  agrees same worlds := ⟨blind.agrees same worlds.1, worlds.2⟩
  within heap function arg mint world := blind.within heap function arg mint world.1
  relabel := by
    rintro heap later label function arg mint image world imageWorld next relabels names
      functionInside argInside ⟨worlds, logs⟩ grows laterNext keeps
    have mirrors := blind.relabel heap later label function arg mint image world.1 imageWorld.1 next
      relabels names functionInside argInside worlds grows laterNext keeps
    refine ⟨mirrors.result, mirrors.names, mirrors.next, mirrors.worlds, ?_⟩
    rw [callsOf, callsOf] at logs
    simp only [callsOf, logged, List.map_append, logs, List.map_cons, List.map_nil, Prod.map,
      function.erase_relabel, arg.erase_relabel]

end Logs

section Projects

variable {Big Small : Type} {big : Machine Big} {small : Machine Small} {forget : Big → Small}

theorem Projects.holding (projects : big.Projects small forget) (env : Env) :
    (big.holding env).Projects (small.holding env) forget := by
  refine ⟨projects.host, projects.kept, projects.limit, ?_⟩
  simp only [Machine.holding, projects.held]

theorem Projects.evaluate (projects : big.Projects small forget) (fuel : Nat) (env : Env)
    (code : Code) (id : NodeId) (state : MachineState Big) :
    small.evaluate fuel env code id (state.mapWorld forget) =
      (big.evaluate fuel env code id state).map fun ending =>
        (ending.1, ending.2.mapWorld forget) := by
  rw [Machine.evaluate, Machine.evaluate, projects.run, Option.map_map, Option.map_map]
  rfl

theorem Projects.evaluateInOrder (projects : big.Projects small forget) (fuel : Nat) (code : Code)
    (body : NodeId) (bindings : List (NameId × NodeId)) (env : Env) (state : MachineState Big) :
    small.evaluateInOrder fuel code body bindings env (state.mapWorld forget) =
      (big.evaluateInOrder fuel code body bindings env state).map fun ending =>
        (ending.1, ending.2.mapWorld forget) := by
  induction bindings generalizing env state with
  | nil => exact (projects.holding env).evaluate fuel env code body state
  | cons binding rest ih =>
      obtain ⟨name, side⟩ := binding
      rw [Machine.evaluateInOrder, Machine.evaluateInOrder, (projects.holding env).evaluate]
      cases (big.holding env).evaluate fuel env code side state with
      | none => rfl
      | some ending =>
          obtain ⟨outcome, after⟩ := ending
          cases outcome with
          | error error => rfl
          | ok value =>
              exact ih (after.mint.extend env name value).1
                { after with mint := (after.mint.extend env name value).2 }

end Projects

end Machine

end LambdaMachine
