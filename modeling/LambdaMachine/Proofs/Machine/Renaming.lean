import LambdaMachine.Machine.Basic
import LambdaMachine.Proofs.Memo.Renaming

/-!
Two machines in lockstep. Each has its own table of names and its own arenas, and what one works on
matches what the other works on. Every step keeps this up, so both end after as many steps, and
alike.
-/

namespace LambdaMachine

structure Evaluated.Matches (glossary : Glossary) (result other : Evaluated) : Prop where
  value : result.value.Matches glossary other.value
  cacheable : result.cacheable = other.cacheable

inductive OutcomesMatch (glossary : Glossary) {ε : Type} :
    Except ε Evaluated → Except ε Evaluated → Prop
  | error (error : ε) : OutcomesMatch glossary (.error error) (.error error)
  | ok {result other : Evaluated} (results : result.Matches glossary other) :
      OutcomesMatch glossary (.ok result) (.ok other)

inductive Frame.Matches (glossary : Glossary) : Frame → Frame → Prop
  | argument {env env' : Env} {code code' : Code} {arg arg' : NodeId}
      (envs : env.Matches glossary env') (codes : code.ident = code'.ident)
      (args : glossary.Agree code.arena arg code'.arena arg') :
      Matches glossary (.argument env code arg) (.argument env' code' arg')
  | call {env env' : Env} {func func' : Evaluated} (envs : env.Matches glossary env')
      (funcs : func.Matches glossary func') : Matches glossary (.call env func) (.call env' func')
  | memoize {func func' arg arg' : Closure} (funcs : func.Matches glossary func')
      (args : arg.Matches glossary arg') :
      Matches glossary (.memoize func arg) (.memoize func' arg')
  | taint : Matches glossary .taint .taint

def StacksMatch (glossary : Glossary) : List Frame → List Frame → Prop :=
  List.Forall₂ (Frame.Matches glossary)

inductive Focus.Matches (glossary : Glossary) : Focus → Focus → Prop
  | node {env env' : Env} {code code' : Code} {id id' : NodeId}
      (envs : env.Matches glossary env') (codes : code.ident = code'.ident)
      (nodes : glossary.Agree code.arena id code'.arena id') :
      Matches glossary (.node env code id) (.node env' code' id')
  | value {env env' : Env} {result result' : Evaluated} (envs : env.Matches glossary env')
      (results : result.Matches glossary result') :
      Matches glossary (.value env result) (.value env' result')

section Matches

variable {World : Type}

structure MachineState.Matches (glossary : Glossary) (state other : MachineState World) :
    Prop where
  mint : state.mint.Matches glossary other.mint
  memo : state.memo.Matches glossary other.memo
  counters : state.counters = other.counters
  world : state.world = other.world

structure Reply.Matches (glossary : Glossary) (reply other : Reply World) : Prop where
  result : OutcomesMatch glossary reply.result other.result
  mint : reply.mint.Matches glossary other.mint
  world : reply.world = other.world

def Host.Renames (host : Host World) : Prop :=
  ∀ {glossary : Glossary} {function function' : Builtin} {arg arg' : Value} {mint mint' : Mint}
    (world : World), function.Matches glossary function' → arg.Matches glossary arg' →
      mint.Matches glossary mint' → ∃ later, later.Extends glossary ∧
        (host.apply function arg mint world).Matches later
          (host.apply function' arg' mint' world)

inductive Transition.Matches (glossary : Glossary) : Transition World → Transition World → Prop
  | moved {focus focus' : Focus} {stack stack' : List Frame} {state state' : MachineState World}
      (focuses : focus.Matches glossary focus') (waits : StacksMatch glossary stack stack')
      (states : state.Matches glossary state') :
      Matches glossary (.moved focus stack state) (.moved focus' stack' state')
  | halted {outcome outcome' : Except EvalError Evaluated} {state state' : MachineState World}
      (outcomes : OutcomesMatch glossary outcome outcome')
      (states : state.Matches glossary state') :
      Matches glossary (.halted outcome state) (.halted outcome' state')

def Transition.MatchesLater (glossary : Glossary) (next next' : Transition World) : Prop :=
  ∃ later : Glossary, later.Extends glossary ∧ next.Matches later next'

structure Machine.Matches (machine other : Machine World) : Prop where
  host : machine.host = other.host
  renames : machine.host.Renames
  limit : machine.limit = other.limit
  held : ∀ owners, machine.held.reach owners = other.held.reach owners

variable {glossary later : Glossary}

theorem Evaluated.Matches.mono {result other : Evaluated} (same : result.Matches glossary other)
    (grown : later.Extends glossary) : result.Matches later other :=
  ⟨same.value.mono grown, same.cacheable⟩

theorem Frame.Matches.mono {frame other : Frame} (same : frame.Matches glossary other)
    (grown : later.Extends glossary) : frame.Matches later other := by
  cases same with
  | argument envs codes args => exact .argument (envs.mono grown) codes (args.mono grown)
  | call envs funcs => exact .call (envs.mono grown) (funcs.mono grown)
  | memoize funcs args => exact .memoize (funcs.mono grown) (args.mono grown)
  | taint => exact .taint

theorem StacksMatch.mono {stack other : List Frame} (same : StacksMatch glossary stack other)
    (grown : later.Extends glossary) : StacksMatch later stack other :=
  same.imp fun _ _ frames => frames.mono grown

theorem Frame.Matches.reach_eq {frame other : Frame} (same : frame.Matches glossary other)
    (owners : IdentSet) (reached : Reached) :
    frame.reach owners reached = other.reach owners reached := by
  cases same with
  | argument envs _ _ => rw [Frame.reach, Frame.reach, envs.reach_eq]
  | call envs funcs => rw [Frame.reach, Frame.reach, envs.reach_eq, funcs.value.reach_eq]
  | memoize funcs args => rw [Frame.reach, Frame.reach, funcs.reach_eq, args.reach_eq]
  | taint => rfl

theorem StacksMatch.foldl_reach_eq {stack other : List Frame}
    (same : StacksMatch glossary stack other) (owners : IdentSet) (reached : Reached) :
    stack.foldl (Frame.reach owners) reached = other.foldl (Frame.reach owners) reached := by
  induction same generalizing reached with
  | nil => rfl
  | cons frames _ ih => rw [List.foldl_cons, List.foldl_cons, frames.reach_eq, ih]

theorem MachineState.Matches.grow {state other : MachineState World}
    (same : state.Matches glossary other) (grown : later.Extends glossary) {mint mint' : Mint}
    (mints : mint.Matches later mint') {world world' : World} (worlds : world = world') :
    MachineState.Matches later { state with mint, world }
      { other with mint := mint', world := world' } :=
  ⟨mints, same.memo.mono grown, same.counters, worlds⟩

theorem MachineState.Matches.record {state other : MachineState World}
    (same : state.Matches glossary other) {func func' arg arg' : Closure}
    {value value' : Value} (funcs : func.Matches glossary func')
    (args : arg.Matches glossary arg') (values : value.Matches glossary value')
    (reachRoots : IdentSet → Reached → Reached) :
    MachineState.Matches glossary
      { state with memo := state.memo.record func arg value fun memo =>
          memo.alive reachRoots state.mint.nextIdent }
      { other with memo := other.memo.record func' arg' value' fun memo =>
          memo.alive reachRoots other.mint.nextIdent } := by
  rw [same.mint.idents]
  have memos := same.memo.record funcs (Closure.matches_iff.mp args).1 values
    fun left right tables => tables.alive_eq (Eq.refl reachRoots) other.mint.nextIdent
  exact ⟨same.mint, memos, same.counters, same.world⟩

theorem MachineState.Matches.count {state other : MachineState World}
    (same : state.Matches glossary other) (change : Counters → Counters) :
    MachineState.Matches glossary { state with counters := change state.counters }
      { other with counters := change other.counters } :=
  ⟨same.mint, same.memo, congrArg change same.counters, same.world⟩

theorem Transition.Matches.now {next next' : Transition World}
    (same : next.Matches glossary next') :
    Transition.MatchesLater glossary next next' :=
  ⟨glossary, .refl _, same⟩

end Matches

namespace Machine

variable {World : Type} {glossary : Glossary} {machine other : Machine World}
  {env env' : Env} {stack stack' : List Frame} {state state' : MachineState World}

theorem evalNode_matches {code code' : Code} {id id' : NodeId} (envs : env.Matches glossary env')
    (codes : code.ident = code'.ident) (nodes : glossary.Agree code.arena id code'.arena id')
    (waits : StacksMatch glossary stack stack') (states : state.Matches glossary state') :
    (evalNode env code id stack state).Matches glossary (evalNode env' code' id' stack' state') :=
    by
  obtain ⟨node, node', found, found', agree⟩ := nodes.exists_nodes
  rw [evalNode, evalNode, found, found']
  cases agree with
  | @var name name' pairs =>
      have bound := envs.lookup pairs
      dsimp only
      generalize env.lookup name = value at bound ⊢
      generalize env'.lookup name' = value' at bound ⊢
      cases bound with
      | none =>
          dsimp only
          rw [states.mint.left, states.mint.right, pairs.text_eq]
          exact .halted (.error _) states
      | some values => exact .moved (.value envs ⟨values, rfl⟩) waits states
  | lambda pairs bodies =>
      obtain ⟨closures, mints⟩ := states.mint.closure envs pairs codes bodies
      exact .moved (.value envs ⟨Value.matches_closure.mpr closures, rfl⟩) waits
        (states.grow (.refl _) mints states.world)
  | apply funcs args =>
      exact .moved (.node envs codes funcs) (.cons (.argument envs codes args) waits) states

theorem enter_matches {callee callee' : Closure} (callees : callee.Matches glossary callee')
    {arg arg' : Value} (args : arg.Matches glossary arg')
    (waits : StacksMatch glossary stack stack') (states : state.Matches glossary state') :
    (enter callee arg stack state).Matches glossary (enter callee' arg' stack' state') := by
  obtain ⟨_, codes, params, bodies, held⟩ := Closure.matches_iff.mp callees
  obtain ⟨envs, mints⟩ := states.mint.extend held params args
  exact .moved (.node envs codes bodies) waits (states.grow (.refl _) mints states.world)

theorem callBuiltin_matches (machines : machine.Matches other) (envs : env.Matches glossary env')
    {function function' : Builtin} (functions : function.Matches glossary function')
    {arg arg' : Value} (args : arg.Matches glossary arg') {cacheable cacheable' : Bool}
    (flags : cacheable = cacheable') (waits : StacksMatch glossary stack stack')
    (states : state.Matches glossary state') :
    Transition.MatchesLater glossary (machine.callBuiltin env function arg cacheable stack state)
      (other.callBuiltin env' function' arg' cacheable' stack' state') := by
  obtain ⟨later, grown, replies⟩ := machines.renames state.world functions args states.mint
  have counted := states.count fun counters => { counters with calls := Counters.bump counters.calls }
  have after := counted.grow grown replies.mint replies.world
  have answers := replies.result
  refine ⟨later, grown, ?_⟩
  rw [callBuiltin, callBuiltin, ← machines.host, ← flags]
  unfold MachineState.countCall
  dsimp only
  rw [← states.world]
  generalize machine.host.apply function arg state.mint state.world = reply at after answers ⊢
  generalize machine.host.apply function' arg' state'.mint state.world = reply' at after answers ⊢
  obtain ⟨result, mint, world⟩ := reply
  obtain ⟨result', mint', world'⟩ := reply'
  dsimp only at after answers ⊢
  cases answers with
  | error error =>
      rw [(Builtin.matches_iff.mp functions).2.1]
      exact .halted (.error _) after
  | ok results =>
      have flag := congrArg (· && cacheable) results.cacheable
      exact .moved (.value (envs.mono grown) ⟨results.value, flag⟩) (waits.mono grown) after

theorem apply_matches (machines : machine.Matches other) (envs : env.Matches glossary env')
    {func func' arg arg' : Evaluated} (funcs : func.Matches glossary func')
    (args : arg.Matches glossary arg') (waits : StacksMatch glossary stack stack')
    (states : state.Matches glossary state') :
    Transition.MatchesLater glossary (machine.apply env func arg stack state)
      (other.apply env' func' arg' stack' state') := by
  obtain ⟨func, funcFlag⟩ := func
  obtain ⟨func', funcFlag'⟩ := func'
  obtain ⟨funcs, rfl⟩ := funcs
  obtain ⟨arg, argFlag⟩ := arg
  obtain ⟨arg', argFlag'⟩ := arg'
  obtain ⟨args, rfl⟩ := args
  dsimp only at funcs args
  rw [apply, apply]
  dsimp only
  cases func with
  | datum ident data =>
      rw [funcs.of_datum]
      exact (Transition.Matches.halted (.error _) states).now
  | builtin function =>
      obtain ⟨function', rfl, functions⟩ := funcs.of_builtin
      exact callBuiltin_matches machines envs functions args rfl waits states
  | closure callee =>
      obtain ⟨callee', rfl, callees⟩ := funcs.of_closure
      dsimp only
      cases funcFlag && argFlag with
      | false => exact (enter_matches callees args (.cons .taint waits) states).now
      | true =>
          rw [if_pos rfl, if_pos rfl]
          cases arg with
          | builtin function =>
              obtain ⟨function', rfl, functions⟩ := args.of_builtin
              exact (enter_matches callees args waits states).now
          | datum ident data =>
              obtain rfl := args.of_datum
              exact (enter_matches callees args waits states).now
          | closure key =>
              obtain ⟨key', rfl, keys⟩ := args.of_closure
              have hit := states.memo.lookup (Closure.matches_iff.mp callees).1
                (Closure.matches_iff.mp keys).1
              dsimp only
              generalize state.memo.lookup callee key = found at hit ⊢
              generalize state'.memo.lookup callee' key' = found' at hit ⊢
              cases hit with
              | none =>
                  exact (enter_matches callees args (.cons (.memoize callees keys) waits)
                    states).now
              | some values =>
                  have counted := states.count fun counters =>
                    { counters with hits := Counters.bump counters.hits }
                  refine Transition.Matches.now ?_
                  exact .moved (.value envs ⟨values, rfl⟩) waits counted

theorem reachRoots_eq (machines : machine.Matches other) (envs : env.Matches glossary env')
    {result result' : Evaluated} (results : result.Matches glossary result')
    (waits : StacksMatch glossary stack stack') (world : World) :
    machine.reachRoots env result stack world = other.reachRoots env' result' stack' world := by
  funext owners reached
  have held : machine.reachHeld world owners reached = other.reachHeld world owners reached := by
    rw [reachHeld, reachHeld, machines.host, machines.held owners]
  rw [reachRoots, reachRoots, held, envs.reach_eq, results.value.reach_eq, waits.foldl_reach_eq]

theorem deliver_matches (machines : machine.Matches other) (envs : env.Matches glossary env')
    {result result' : Evaluated} (results : result.Matches glossary result')
    (waits : StacksMatch glossary stack stack') (states : state.Matches glossary state') :
    Transition.MatchesLater glossary (machine.deliver env result stack state)
      (other.deliver env' result' stack' state') := by
  cases waits with
  | nil => exact (Transition.Matches.halted (.ok results) states).now
  | @cons _ _ rest rest' frames below =>
      cases frames with
      | argument outers codes args =>
          exact (Transition.Matches.moved (.node outers codes args)
            (.cons (.call outers results) below) states).now
      | call outers funcs => exact apply_matches machines outers funcs results below states
      | taint =>
          refine Transition.Matches.now ?_
          exact .moved (.value envs ⟨results.value, rfl⟩) below states
      | @memoize func func' arg arg' funcs args =>
          rw [deliver, deliver, ← results.cacheable]
          split
          · have frames := Frame.Matches.memoize funcs args
            have roots : machine.reachRoots env result (.memoize func arg :: rest) state.world =
                other.reachRoots env' result' (.memoize func' arg' :: rest') state'.world := by
              rw [← states.world]
              exact reachRoots_eq machines envs results (.cons frames below) state.world
            have recorded := states.record funcs args results.value
              (machine.reachRoots env result (.memoize func arg :: rest) state.world)
            have counted := recorded.count fun counters =>
              { counters with stores := Counters.bump counters.stores }
            rw [← roots]
            exact (Transition.Matches.moved (.value envs results) below counted).now
          · exact (Transition.Matches.moved (.value envs results) below states).now

theorem step_matches (machines : machine.Matches other) {focus focus' : Focus}
    (focuses : focus.Matches glossary focus') (waits : StacksMatch glossary stack stack')
    (states : state.Matches glossary state') :
    Transition.MatchesLater glossary (machine.step focus stack state)
      (other.step focus' stack' state') := by
  cases focuses with
  | value envs results => exact deliver_matches machines envs results waits states
  | node envs codes nodes =>
      have counted := states.count fun counters =>
        { counters with steps := Counters.bump counters.steps }
      have sameLimit : other.overLimit state'.countStep.counters.steps =
          machine.overLimit state.countStep.counters.steps := by
        rw [overLimit, overLimit, ← machines.limit, MachineState.countStep, MachineState.countStep,
          states.counters]
      refine Transition.Matches.now ?_
      rw [step, step, sameLimit]
      cases machine.overLimit state.countStep.counters.steps with
      | some limit => exact .halted (.error _) counted
      | none => exact evalNode_matches envs codes nodes waits counted

/-- Runs from what matches end after as many steps, and match in the end. -/
theorem run_matches (machines : machine.Matches other) (fuel : Nat) {focus focus' : Focus}
    (focuses : focus.Matches glossary focus') (waits : StacksMatch glossary stack stack')
    (states : state.Matches glossary state') :
    Option.Rel (fun ending ending' => ∃ later : Glossary,
        OutcomesMatch later ending.1 ending'.1 ∧ ending.2.Matches later ending'.2)
      (machine.run fuel focus stack state) (other.run fuel focus' stack' state') := by
  induction fuel generalizing glossary focus focus' stack stack' state state' with
  | zero => exact .none
  | succ fuel ih =>
      obtain ⟨later, _, next⟩ := step_matches machines focuses waits states
      rw [run, run]
      generalize machine.step focus stack state = transition at next ⊢
      generalize other.step focus' stack' state' = transition' at next ⊢
      cases next with
      | moved focuses waits states => exact ih focuses waits states
      | halted outcomes states => exact .some ⟨later, outcomes, states⟩

end Machine

end LambdaMachine
