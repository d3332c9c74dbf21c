import LambdaMachine.Proofs.Machine.Trampoline
import LambdaMachine.Prelude.Host

/-!
A step limit cuts a run and changes nothing else. Up to the node that is one too many the machine
with a limit takes the steps of the one without. A limited run always ends, since between two nodes
the stack shrinks.
-/

namespace LambdaMachine

namespace Focus

def cost : Focus → Nat
  | .node _ _ _ => 1
  | .value _ _ => 0

end Focus

def Transition.state {World : Type} : Transition World → MachineState World
  | .moved _ _ state => state
  | .halted _ state => state

theorem Counters.bump_eq_min {count : Nat} (bounded : count ≤ Counters.largest) :
    Counters.bump count = min (count + 1) Counters.largest := by
  rw [bump]
  by_cases below : count < Counters.largest
  · rw [if_pos below]
    omega
  · rw [if_neg below]
    omega

namespace Machine

variable {World : Type}

def withLimit (machine : Machine World) (limit : Option Nat) : Machine World :=
  { machine with limit }

def visits (machine : Machine World) : Nat → Focus → List Frame → MachineState World → Nat
  | 0, _, _, _ => 0
  | fuel + 1, focus, stack, state =>
      focus.cost +
        match machine.step focus stack state with
        | .moved focus stack state => machine.visits fuel focus stack state
        | .halted _ _ => 0

def stateAfter (machine : Machine World) :
    Nat → Focus → List Frame → MachineState World → MachineState World
  | 0, _, _, state => state
  | fuel + 1, focus, stack, state =>
      match machine.step focus stack state with
      | .moved focus stack state => machine.stateAfter fuel focus stack state
      | .halted _ state => state

section Steps

variable {machine : Machine World} {stack : List Frame} {state : MachineState World}

structure Descends (machine : Machine World) (stack : List Frame) (state : MachineState World)
    (next : Transition World) : Prop where
  shorter : ∀ env result rest after, next = .moved (.value env result) rest after →
    rest.length < stack.length
  steps : next.state.counters.steps = state.counters.steps
  world : next.state.world = state.world ∨ ∃ function arg mint,
    next.state.world = (machine.host.apply function arg mint state.world).world

theorem Descends.value {env : Env} {result : Evaluated} {rest : List Frame}
    {after : MachineState World} (shorter : rest.length < stack.length)
    (steps : after.counters.steps = state.counters.steps) (world : after.world = state.world) :
    machine.Descends stack state (.moved (.value env result) rest after) :=
  ⟨fun _ _ _ _ same => by cases same; exact shorter, steps, Or.inl world⟩

theorem Descends.node {env : Env} {code : Code} {id : NodeId} {rest : List Frame}
    {after : MachineState World} (steps : after.counters.steps = state.counters.steps)
    (world : after.world = state.world) :
    machine.Descends stack state (.moved (.node env code id) rest after) :=
  ⟨fun _ _ _ _ same => (by cases same), steps, Or.inl world⟩

theorem Descends.halted (outcome : Except EvalError Evaluated) :
    machine.Descends stack state (.halted outcome state) :=
  ⟨fun _ _ _ _ same => (by cases same), rfl, Or.inl rfl⟩

theorem callBuiltin_descends (env : Env) (function : Builtin) (arg : Value) (cacheable : Bool)
    (frame : Frame) :
    machine.Descends (frame :: stack) state
      (machine.callBuiltin env function arg cacheable stack state) := by
  unfold callBuiltin
  dsimp only
  split
  · refine ⟨fun _ _ _ _ same => ?_, rfl, Or.inr ⟨function, arg, state.mint, rfl⟩⟩
    cases same
    exact Nat.lt_succ_self _
  · exact ⟨fun _ _ _ _ same => (by cases same), rfl, Or.inr ⟨function, arg, state.mint, rfl⟩⟩

theorem apply_descends (env : Env) (func arg : Evaluated) (frame : Frame) :
    machine.Descends (frame :: stack) state (machine.apply env func arg stack state) := by
  unfold apply
  dsimp only
  split
  · exact .halted _
  · exact callBuiltin_descends env _ _ _ frame
  · split
    · split
      · split
        · exact .value (Nat.lt_succ_self _) rfl rfl
        · exact .node rfl rfl
      · exact .node rfl rfl
    · exact .node rfl rfl

theorem deliver_descends (env : Env) (result : Evaluated) :
    machine.Descends stack state (machine.deliver env result stack state) := by
  cases stack with
  | nil => exact .halted _
  | cons frame rest =>
      cases frame with
      | argument outer code arg => exact .node rfl rfl
      | call outer func => exact apply_descends outer func result _
      | taint => exact .value (Nat.lt_succ_self _) rfl rfl
      | memoize func arg =>
          unfold deliver
          dsimp only
          split
          · exact .value (Nat.lt_succ_self _) rfl rfl
          · exact .value (Nat.lt_succ_self _) rfl rfl

theorem evalNode_keeps (env : Env) (code : Code) (id : NodeId) :
    (evalNode env code id stack state).state.counters.steps = state.counters.steps ∧
      (evalNode env code id stack state).state.world = state.world := by
  unfold evalNode
  split
  · exact ⟨rfl, rfl⟩
  · split <;> exact ⟨rfl, rfl⟩
  · exact ⟨rfl, rfl⟩
  · exact ⟨rfl, rfl⟩

end Steps

section Free

variable {machine : Machine World} {focus : Focus} {stack : List Frame} {state : MachineState World}

theorem steps_step (bounded : state.counters.steps ≤ Counters.largest) :
    ((machine.withLimit none).step focus stack state).state.counters.steps =
      min (state.counters.steps + focus.cost) Counters.largest := by
  cases focus with
  | node env code id => exact (evalNode_keeps env code id).1.trans (Counters.bump_eq_min bounded)
  | value env result =>
      refine (deliver_descends env result).steps.trans ?_
      rw [Focus.cost]
      omega

theorem visits_succ (fuel : Nat) :
    machine.visits (fuel + 1) focus stack state = focus.cost +
      match machine.step focus stack state with
      | .moved focus stack state => machine.visits fuel focus stack state
      | .halted _ _ => 0 :=
  rfl

/-- Every visit of a node is charged once. -/
theorem steps_stateAfter (fuel : Nat) (bounded : state.counters.steps ≤ Counters.largest) :
    ((machine.withLimit none).stateAfter fuel focus stack state).counters.steps =
      min (state.counters.steps + (machine.withLimit none).visits fuel focus stack state)
        Counters.largest := by
  induction fuel generalizing focus stack state with
  | zero =>
      rw [stateAfter, visits]
      omega
  | succ fuel ih =>
      have charged := @steps_step _ machine focus stack state bounded
      rw [visits_succ, stateAfter]
      cases next : (machine.withLimit none).step focus stack state with
      | moved focus stack after =>
          rw [next, Transition.state] at charged
          dsimp only
          rw [ih (by omega)]
          omega
      | halted outcome after =>
          rw [next, Transition.state] at charged
          exact charged

def OnlyWrites (host : Host World) (written : World → List UInt8) : Prop :=
  ∀ function arg mint world, written world <+: written (host.apply function arg mint world).world

variable {written : World → List UInt8}

theorem written_step (writes : OnlyWrites machine.host written) :
    written state.world <+:
      written ((machine.withLimit none).step focus stack state).state.world := by
  cases focus with
  | node env code id =>
      have kept := (@evalNode_keeps _ stack state.countStep env code id).2
      exact kept ▸ List.prefix_rfl
  | value env result =>
      rcases (@deliver_descends _ (machine.withLimit none) stack state env result).world with
        same | ⟨function, arg, mint, called⟩
      · exact same ▸ List.prefix_rfl
      · exact called ▸ writes function arg mint state.world

theorem written_stateAfter (writes : OnlyWrites machine.host written) (fuel : Nat) :
    written state.world <+:
      written ((machine.withLimit none).stateAfter fuel focus stack state).world := by
  induction fuel generalizing focus stack state with
  | zero => exact List.prefix_rfl
  | succ fuel ih =>
      have first := @written_step _ machine focus stack state _ writes
      rw [stateAfter]
      cases next : (machine.withLimit none).step focus stack state with
      | moved focus stack after =>
          rw [next, Transition.state] at first
          exact first.trans ih
      | halted outcome after =>
          rw [next, Transition.state] at first
          exact first

theorem written_stateAfter_le (writes : OnlyWrites machine.host written) {early late : Nat}
    (later : early ≤ late) :
    written ((machine.withLimit none).stateAfter early focus stack state).world <+:
      written ((machine.withLimit none).stateAfter late focus stack state).world := by
  induction early generalizing late focus stack state with
  | zero => exact written_stateAfter writes late
  | succ early ih =>
      obtain ⟨late, rfl⟩ := Nat.exists_eq_add_of_le' (Nat.le_of_add_left_le later)
      rw [stateAfter, stateAfter]
      cases (machine.withLimit none).step focus stack state with
      | moved focus stack after => exact ih (Nat.le_of_succ_le_succ later)
      | halted outcome after => exact List.prefix_rfl

end Free

theorem run_mono {machine : Machine World} {less more : Nat} {focus : Focus} {stack : List Frame}
    {state : MachineState World} {ending : Except EvalError Evaluated × MachineState World}
    (enough : less ≤ more) (ended : machine.run less focus stack state = some ending) :
    machine.run more focus stack state = some ending := by
  induction less generalizing more focus stack state with
  | zero => cases ended
  | succ less ih =>
      obtain ⟨more, rfl⟩ := Nat.exists_eq_add_of_le' (Nat.le_of_add_left_le enough)
      rw [run_succ] at ended ⊢
      cases next : machine.step focus stack state with
      | moved focus stack after =>
          rw [next] at ended
          exact ih (Nat.le_of_succ_le_succ enough) ended
      | halted outcome after =>
          rw [next] at ended
          exact ended

theorem stateAfter_of_run {machine : Machine World} {fuel : Nat} {focus : Focus}
    {stack : List Frame} {state after : MachineState World} {outcome : Except EvalError Evaluated}
    (ended : machine.run fuel focus stack state = some (outcome, after)) :
    machine.stateAfter fuel focus stack state = after := by
  induction fuel generalizing focus stack state with
  | zero => cases ended
  | succ fuel ih =>
      rw [run_succ] at ended
      rw [stateAfter]
      cases next : machine.step focus stack state with
      | moved focus stack middle =>
          rw [next] at ended
          exact ih ended
      | halted other middle =>
          rw [next] at ended
          cases ended
          rfl

theorem settles_run_of_run {machine : Machine World} {fuel : Nat} {focus : Focus}
    {stack : List Frame} {state : MachineState World}
    {ending : Except EvalError Evaluated × MachineState World}
    (ended : machine.run fuel focus stack state = some ending) :
    Settles (fun fuel => machine.run fuel focus stack state) ending :=
  ⟨fuel, fun _ enough => run_mono enough ended⟩

theorem step_withoutLimit (machine : Machine World) (focus : Focus) (stack : List Frame)
    (state : MachineState World) :
    (∃ limit after, machine.step focus stack state = .halted (.error (.stepLimit limit)) after) ∨
      machine.step focus stack state = (machine.withLimit none).step focus stack state := by
  cases focus with
  | node env code id =>
      cases exceeded : machine.overLimit state.countStep.counters.steps with
      | some limit => exact Or.inl ⟨limit, state.countStep, by simp only [step, exceeded]⟩
      | none =>
          have free : (machine.withLimit none).overLimit state.countStep.counters.steps = none :=
            rfl
          exact Or.inr (by simp only [step, exceeded, free])
  | value env result =>
      cases stack with
      | nil => exact Or.inr rfl
      | cons frame rest => cases frame <;> exact Or.inr rfl

/-- A run that ends, but not for its limit, ends alike without one. -/
theorem run_withoutLimit {machine : Machine World} {fuel : Nat} {focus : Focus}
    {stack : List Frame} {state after : MachineState World} {outcome : Except EvalError Evaluated}
    (ended : machine.run fuel focus stack state = some (outcome, after))
    (within : ∀ limit, outcome ≠ .error (.stepLimit limit)) :
    (machine.withLimit none).run fuel focus stack state = some (outcome, after) := by
  induction fuel generalizing focus stack state with
  | zero => cases ended
  | succ fuel ih =>
      rw [run_succ] at ended ⊢
      rcases machine.step_withoutLimit focus stack state with ⟨limit, cut, same⟩ | same
      · rw [same] at ended
        cases ended
        exact (within limit rfl).elim
      · rw [← same]
        cases next : machine.step focus stack state with
        | moved focus stack middle =>
            rw [next] at ended
            exact ih ended
        | halted other middle =>
            rw [next] at ended
            exact ended

section Limited

variable {machine : Machine World} {limit : Nat} {focus : Focus} {stack : List Frame}
  {state : MachineState World}

theorem step_withLimit (bounded : state.counters.steps ≤ Counters.largest)
    (within : min (state.counters.steps + focus.cost) Counters.largest ≤ limit) :
    (machine.withLimit (some limit)).step focus stack state =
      (machine.withLimit none).step focus stack state := by
  cases focus with
  | node env code id =>
      have notOver : ¬limit < state.countStep.counters.steps := by
        have count : state.countStep.counters.steps = _ := Counters.bump_eq_min bounded
        rw [Focus.cost] at within
        omega
      simp only [step, overLimit, withLimit, if_neg notOver]
  | value env result =>
      cases stack with
      | nil => rfl
      | cons frame rest => cases frame <;> rfl

theorem step_node_of_limit {env : Env} {code : Code} {id : NodeId}
    (bounded : state.counters.steps ≤ Counters.largest) (small : limit < Counters.largest)
    (reached : limit ≤ state.counters.steps) :
    (machine.withLimit (some limit)).step (.node env code id) stack state =
      .halted (.error (.stepLimit limit)) state.countStep := by
  have exceeded : limit < state.countStep.counters.steps := by
    have count : state.countStep.counters.steps = _ := Counters.bump_eq_min bounded
    omega
  simp only [step, overLimit, withLimit, if_pos exceeded]

theorem run_withLimit {fuel : Nat} (bounded : state.counters.steps ≤ Counters.largest)
    (within : min (state.counters.steps +
      (machine.withLimit none).visits fuel focus stack state) Counters.largest ≤ limit) :
    (machine.withLimit (some limit)).run fuel focus stack state =
      (machine.withLimit none).run fuel focus stack state := by
  induction fuel generalizing focus stack state with
  | zero => rfl
  | succ fuel ih =>
      have charged := @steps_step _ machine focus stack state bounded
      rw [visits_succ] at within
      rw [run_succ, run_succ, step_withLimit bounded (by omega)]
      cases next : (machine.withLimit none).step focus stack state with
      | moved focus stack after =>
          rw [next] at within charged
          rw [Transition.state] at charged
          dsimp only at within
          exact ih (by omega) (by omega)
      | halted outcome after => rfl

def Ends (machine : Machine World) (limit : Nat) (focus : Focus) (stack : List Frame)
    (state : MachineState World) : Prop :=
  ∃ fuel, let visited := (machine.withLimit none).visits fuel focus stack state
    (∃ ending, (machine.withLimit none).run fuel focus stack state = some ending ∧
      state.counters.steps + visited ≤ limit) ∨
    ((machine.withLimit (some limit)).run (fuel + 1) focus stack state =
        some (.error (.stepLimit limit),
          ((machine.withLimit none).stateAfter fuel focus stack state).countStep) ∧
      state.counters.steps + visited = limit)

theorem Ends.of_step (small : limit < Counters.largest)
    (within : state.counters.steps + focus.cost ≤ limit)
    (ends : ∀ next rest after,
      (machine.withLimit none).step focus stack state = .moved next rest after →
        after.counters.steps = state.counters.steps + focus.cost →
        machine.Ends limit next rest after) : machine.Ends limit focus stack state := by
  have charged := @steps_step _ machine focus stack state (by omega)
  have sameStep := @step_withLimit _ machine limit focus stack state (by omega) (by omega)
  cases next : (machine.withLimit none).step focus stack state with
  | halted outcome after =>
      refine ⟨1, Or.inl ⟨(outcome, after), ?_, ?_⟩⟩
      · rw [run_succ, next]
        rfl
      · rw [visits_succ, next]
        exact within
  | moved focus stack after =>
      rw [next, Transition.state] at charged
      obtain ⟨fuel, ⟨ending, ended, visited⟩ | ⟨cut, visited⟩⟩ :=
        ends _ _ _ next (by omega)
      · refine ⟨fuel + 1, Or.inl ⟨ending, ?_, ?_⟩⟩
        · rw [run_succ, next]
          exact ended
        · rw [visits_succ, next]
          dsimp only
          omega
      · refine ⟨fuel + 1, Or.inr ⟨?_, ?_⟩⟩
        · rw [run_succ, sameStep, next, stateAfter, next]
          exact cut
        · rw [visits_succ, next]
          dsimp only
          omega

theorem ends_value {count : Nat} (small : limit < Counters.largest) (within : count ≤ limit)
    (nodes : ∀ env code id stack state, state.counters.steps = count →
      machine.Ends limit (.node env code id) stack state)
    (env : Env) (result : Evaluated) (same : state.counters.steps = count) :
    machine.Ends limit (.value env result) stack state := by
  -- values are delivered over ever shorter stacks, so a node or the end comes at last
  induction size : stack.length using Nat.strongRecOn generalizing stack env result state with
  | ind size ih =>
      subst size
      refine .of_step small (by rw [Focus.cost]; omega) fun next rest after moved charged => ?_
      rw [Focus.cost, Nat.add_zero, same] at charged
      cases next with
      | node outer code id => exact nodes outer code id rest after charged
      | value outer value =>
          have shorter := (deliver_descends env result).shorter outer value rest after moved
          exact ih _ shorter outer value charged rfl

theorem ends_node (small : limit < Counters.largest) (budget : Nat) (env : Env) (code : Code)
    (id : NodeId) (within : state.counters.steps + budget = limit) :
    machine.Ends limit (.node env code id) stack state := by
  -- on the number of nodes that may still be visited
  induction budget generalizing env code id stack state with
  | zero =>
      refine ⟨0, Or.inr ⟨?_, within⟩⟩
      rw [run_succ, step_node_of_limit (by omega) small (by omega)]
      rfl
  | succ budget ih =>
      refine .of_step small (by rw [Focus.cost]; omega) fun next rest after moved charged => ?_
      rw [Focus.cost] at charged
      cases next with
      | node outer code id => exact ih outer code id (by omega)
      | value outer value =>
          refine ends_value small (show after.counters.steps ≤ limit by omega) ?_ outer value rfl
          intro inner code id stack state same
          exact ih inner code id (by omega)

end Limited

end Machine

theorem Output.printed_prefix_write (byte : UInt8) (output : Output) :
    output.printed <+: (output.write byte).printed := by
  cases output with
  | stdout stream =>
      rw [write, printed, printed, Stdout.write]
      split
      · exact List.prefix_rfl
      · rw [Array.toList_push]
        exact List.prefix_append _ _
  | captured bytes =>
      rw [write, printed, printed, Array.toList_push]
      exact List.prefix_append _ _
  | silent => exact List.prefix_rfl

theorem Surroundings.onlyWrites_host :
    Machine.OnlyWrites Surroundings.host fun world => world.io.output.printed := by
  intro function arg mint world
  simp only [host]
  cases function.operation with
  | print =>
      simp only [print]
      split
      · exact List.prefix_rfl
      · split
        · exact List.prefix_rfl
        · exact Output.printed_prefix_write _ _
  | next =>
      simp only [next]
      split <;> exact List.prefix_rfl
  | read =>
      simp only [read]
      split <;> exact List.prefix_rfl
  | echo cacheable => exact List.prefix_rfl
  | successor cacheable =>
      dsimp only
      split <;> exact List.prefix_rfl
  | refuse text => exact List.prefix_rfl
  | constant cacheable => exact List.prefix_rfl

namespace Machine

variable {World : Type} (machine : Machine World)

def ReturnsWithin (limit : Nat) (env : Env) (code : Code) (id : NodeId)
    (state : MachineState World) (outcome : Except EvalError Evaluated)
    (after : MachineState World) : Prop :=
  ∃ fuel, (machine.withLimit none).run fuel (.node env code id) [] state = some (outcome, after) ∧
    state.counters.steps + (machine.withLimit none).visits fuel (.node env code id) [] state ≤ limit

/-- The evaluation fails for its limit in the state in which the one without a limit is at this
moment, but for the step that is one too many; and what has been written by then stays written. -/
structure CutAt (limit : Nat) (env : Env) (code : Code) (id : NodeId) (state : MachineState World)
    (moment : Nat) (after : MachineState World) : Prop where
  settles : Settles (fun fuel => (machine.withLimit (some limit)).run fuel (.node env code id) []
    state) (.error (.stepLimit limit), after)
  cut : after =
    ((machine.withLimit none).stateAfter moment (.node env code id) [] state).countStep
  steps : after.counters.steps = min (max state.counters.steps limit + 1) Counters.largest
  written : ∀ written, OnlyWrites machine.host written → ∀ later, moment ≤ later →
    written after.world <+:
      written ((machine.withLimit none).stateAfter later (.node env code id) [] state).world
  returned : ∀ written, OnlyWrites machine.host written → ∀ outcome ending,
    Settles (fun fuel => (machine.withLimit none).run fuel (.node env code id) [] state)
      (outcome, ending) → written after.world <+: written ending.world

/-- What ends within a limit ends as it does without one. Everything else, what goes on for ever
included, fails for the limit and has done until then what it does without one. The largest limit is
none. -/
theorem limit_only_cuts (limit : Nat) (env : Env) (code : Code) (id : NodeId)
    {state : MachineState World} (bounded : state.counters.steps ≤ Counters.largest) :
    (limit < Counters.largest →
      (∀ outcome after, machine.ReturnsWithin limit env code id state outcome after →
        Settles (fun fuel => (machine.withLimit (some limit)).run fuel (.node env code id) [] state)
          (outcome, after)) ∧
      ((∀ outcome after, ¬machine.ReturnsWithin limit env code id state outcome after) →
        ∃ moment after, machine.CutAt limit env code id state moment after)) ∧
    (limit = Counters.largest → ∀ fuel,
      (machine.withLimit (some limit)).run fuel (.node env code id) [] state =
        (machine.withLimit none).run fuel (.node env code id) [] state) := by
  refine ⟨fun small => ⟨?_, fun other => ?_⟩, fun largest fuel => ?_⟩
  · rintro outcome after ⟨fuel, ended, within⟩
    exact settles_run_of_run ((run_withLimit bounded (by omega)).trans ended)
  · have cut : ∃ fuel,
        (machine.withLimit (some limit)).run (fuel + 1) (.node env code id) [] state =
          some (.error (.stepLimit limit), ((machine.withLimit none).stateAfter fuel
            (.node env code id) [] state).countStep) ∧
        max state.counters.steps limit = state.counters.steps +
          (machine.withLimit none).visits fuel (.node env code id) [] state := by
      -- a count that has reached the limit already does not allow a single node
      by_cases reached : limit ≤ state.counters.steps
      · refine ⟨0, ?_, ?_⟩
        · rw [run_succ, step_node_of_limit bounded small reached]
          rfl
        · rw [visits]
          omega
      · obtain ⟨budget, budgetEq⟩ := Nat.exists_eq_add_of_lt (Nat.lt_of_not_le reached)
        obtain ⟨fuel, ⟨⟨outcome, after⟩, ended, visited⟩ | ⟨cut, visited⟩⟩ :=
          @ends_node _ machine limit [] state small (budget + 1) env code id (by omega)
        · exact (other outcome after ⟨fuel, ended, visited⟩).elim
        · exact ⟨fuel, cut, by omega⟩
    obtain ⟨fuel, cut, visited⟩ := cut
    have count := @steps_stateAfter _ machine (.node env code id) [] state fuel bounded
    refine ⟨fuel, _, settles_run_of_run cut, rfl, ?_, ?_, ?_⟩
    · refine (Counters.bump_eq_min (by omega)).trans ?_
      omega
    · intro written writes later after
      exact written_stateAfter_le writes after
    · rintro written writes outcome ending ⟨bound, settled⟩
      have last := stateAfter_of_run (settled (max bound fuel) (Nat.le_max_left bound fuel))
      rw [← last]
      exact written_stateAfter_le writes (Nat.le_max_right bound fuel)
  · exact run_withLimit bounded (by omega)

/-- The identity costs one step: after three steps it fits into a limit of four, and a limit of
three cuts it. -/
theorem identity_at_its_limit :
    let machine : Machine Surroundings := ⟨Surroundings.host, none, ⟨[], []⟩⟩
    let code : Code := ⟨0, ⟨#[.var 1, .lambda 1 0]⟩⟩
    let state : MachineState Surroundings :=
      ⟨.new, .empty, { steps := 3 }, ⟨⟨.captured #[7], .empty⟩, #[]⟩⟩
    (∃ found after, Settles
      (fun fuel => (machine.withLimit (some 4)).run fuel (.node .empty code 1) [] state)
      (.ok found, after)) ∧
    ∃ moment after, machine.CutAt 3 .empty code 1 state moment after ∧ ∀ outcome ending,
      Settles (fun fuel => (machine.withLimit none).run fuel (.node .empty code 1) [] state)
        (outcome, ending) →
          after.world.io.output.printed <+: ending.world.io.output.printed := by
  intro machine code state
  have bounded : state.counters.steps ≤ Counters.largest := by decide
  constructor
  · have returns := ((machine.limit_only_cuts 4 .empty code 1 bounded).1 (by decide)).1
    exact ⟨_, _, returns _ _ ⟨2, rfl, by decide⟩⟩
  · have exceeded (outcome : Except EvalError Evaluated) (after : MachineState Surroundings) :
        ¬machine.ReturnsWithin 3 .empty code 1 state outcome after := by
      rintro ⟨fuel, ended, within⟩
      cases fuel with
      | zero => cases ended
      | succ fuel =>
          rw [visits_succ, Focus.cost] at within
          have three : state.counters.steps = 3 := rfl
          omega
    obtain ⟨moment, after, cut⟩ :=
      ((machine.limit_only_cuts 3 .empty code 1 bounded).1 (by decide)).2 exceeded
    exact ⟨moment, after, cut, cut.returned _ Surroundings.onlyWrites_host⟩

end Machine

end LambdaMachine
