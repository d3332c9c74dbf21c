import LambdaMachine.Machine.Host
import LambdaMachine.Memo.Liveness
import LambdaMachine.Program.Basic

/-!
The evaluator: a machine that works on one focus and a stack of frames. The function of an
application is evaluated first, then the argument, then the body of the function is entered in
place of the application.

A closure that is applied to a closure looks the argument up in its memo table. On a miss the body
is entered above a frame that records its result, provided that nothing noticeable from outside
happened on the way; an application whose parts are not cacheable enters the body above a frame
that taints the result instead.
-/

namespace LambdaMachine

structure Counters where
  steps : Nat := 0
  hits : Nat := 0
  stores : Nat := 0
  calls : Nat := 0
  deriving DecidableEq

/-- Counting stops at the largest 64-bit number. -/
def Counters.largest : Nat := 0xFFFFFFFFFFFFFFFF

def Counters.bump (count : Nat) : Nat :=
  if count < Counters.largest then count + 1 else count

structure MachineState (World : Type) where
  mint : Mint
  memo : Memo
  counters : Counters
  world : World

namespace MachineState

variable {World : Type}

def countStep (state : MachineState World) : MachineState World :=
  { state with counters := { state.counters with steps := Counters.bump state.counters.steps } }

def countHit (state : MachineState World) : MachineState World :=
  { state with counters := { state.counters with hits := Counters.bump state.counters.hits } }

def countStore (state : MachineState World) : MachineState World :=
  { state with counters := { state.counters with stores := Counters.bump state.counters.stores } }

def countCall (state : MachineState World) : MachineState World :=
  { state with counters := { state.counters with calls := Counters.bump state.counters.calls } }

end MachineState

inductive Frame where
  /-- The function of an application is being evaluated; this is the argument. -/
  | argument (env : Env) (code : Code) (arg : NodeId)
  /-- The argument is being evaluated; this is the function. -/
  | call (env : Env) (func : Evaluated)
  /-- The value is the result of applying `func` to `arg`. -/
  | memoize (func arg : Closure)
  /-- The value depends on something that is not cacheable. -/
  | taint

/-- What the machine works on: a node to evaluate, or a value and the environment it was found
in. -/
inductive Focus where
  | node (env : Env) (code : Code) (id : NodeId)
  | value (env : Env) (result : Evaluated)

inductive Transition (World : Type) where
  | moved (focus : Focus) (stack : List Frame) (state : MachineState World)
  | halted (outcome : Except EvalError Evaluated) (state : MachineState World)

/-- A machine: its host, its step limit, and what is held outside its stack and its host. -/
structure Machine (World : Type) where
  host : Host World
  limit : Option Nat
  held : Roots

def Frame.reach (owners : IdentSet) (reached : Reached) : Frame → Reached
  | .argument env _ _ => env.reach owners reached
  | .call env func => func.value.reach owners (env.reach owners reached)
  | .memoize func arg => arg.reach owners (func.reach owners reached)
  | .taint => reached

namespace Machine

variable {World : Type} (machine : Machine World)

def reachHeld (world : World) (owners : IdentSet) (reached : Reached) : Reached :=
  let kept : Roots := ⟨[], machine.host.kept world⟩
  machine.held.reach owners (kept.reach owners reached)

def reachRoots (env : Env) (result : Evaluated) (stack : List Frame) (world : World)
    (owners : IdentSet) (reached : Reached) : Reached :=
  let reached := stack.foldl (Frame.reach owners) (machine.reachHeld world owners reached)
  result.value.reach owners (env.reach owners reached)

def overLimit (steps : Nat) : Option Nat :=
  match machine.limit with
  | some limit => if limit < steps then some limit else none
  | none => none

def evalNode (env : Env) (code : Code) (id : NodeId) (stack : List Frame)
    (state : MachineState World) : Transition World :=
  match code.arena.node? id with
  | none => .halted (.error (.dangling id)) state
  | some (.var name) =>
      match env.lookup name with
      | some value => .moved (.value env ⟨value, true⟩) stack state
      | none => .halted (.error (.unbound (state.mint.names.text name))) state
  | some (.lambda param body) =>
      let (closure, mint) := state.mint.closure env param body code
      .moved (.value env ⟨.closure closure, true⟩) stack { state with mint }
  | some (.apply func arg) =>
      .moved (.node env code func) (.argument env code arg :: stack) state

def enter (callee : Closure) (arg : Value) (stack : List Frame) (state : MachineState World) :
    Transition World :=
  let (env, mint) := state.mint.extend callee.env callee.param arg
  .moved (.node env callee.code callee.body) stack { state with mint }

def callBuiltin (env : Env) (function : Builtin) (arg : Value) (cacheable : Bool)
    (stack : List Frame) (state : MachineState World) : Transition World :=
  let state := state.countCall
  let reply := machine.host.apply function arg state.mint state.world
  let state := { state with mint := reply.mint, world := reply.world }
  match reply.result with
  | .ok result => .moved (.value env ⟨result.value, result.cacheable && cacheable⟩) stack state
  | .error error => .halted (.error (.ofBuiltin function.name error)) state

def apply (env : Env) (func arg : Evaluated) (stack : List Frame) (state : MachineState World) :
    Transition World :=
  let cacheable := func.cacheable && arg.cacheable
  match func.value with
  | .datum _ datum => .halted (.error (.notCallable datum.kind)) state
  | .builtin function => machine.callBuiltin env function arg.value cacheable stack state
  | .closure callee =>
      if cacheable then
        match arg.value with
        | .closure key =>
            match state.memo.lookup callee key with
            | some hit => .moved (.value env ⟨hit, true⟩) stack state.countHit
            | none => enter callee arg.value (.memoize callee key :: stack) state
        | _ => enter callee arg.value stack state
      else enter callee arg.value (.taint :: stack) state

def deliver (env : Env) (result : Evaluated) (stack : List Frame) (state : MachineState World) :
    Transition World :=
  match stack with
  | [] => .halted (.ok result) state
  | .argument outer code arg :: stack =>
      .moved (.node outer code arg) (.call outer result :: stack) state
  | .call outer func :: stack => machine.apply outer func result stack state
  | .taint :: stack => .moved (.value env ⟨result.value, false⟩) stack state
  | .memoize func arg :: rest =>
      if result.cacheable then
        let alive (memo : Memo) :=
          memo.alive (machine.reachRoots env result (.memoize func arg :: rest) state.world)
            state.mint.nextIdent
        let memo := state.memo.record func arg result.value alive
        .moved (.value env result) rest { state with memo }.countStore
      else .moved (.value env result) rest state

/-- One step. Only nodes count towards the limit. -/
def step (focus : Focus) (stack : List Frame) (state : MachineState World) : Transition World :=
  match focus with
  | .value env result => machine.deliver env result stack state
  | .node env code id =>
      let state := state.countStep
      match machine.overLimit state.counters.steps with
      | some limit => .halted (.error (.stepLimit limit)) state
      | none => evalNode env code id stack state

def run : Nat → Focus → List Frame → MachineState World →
    Option (Except EvalError Evaluated × MachineState World)
  | 0, _, _, _ => none
  | fuel + 1, focus, stack, state =>
      match machine.step focus stack state with
      | .moved focus stack state => run fuel focus stack state
      | .halted outcome state => some (outcome, state)

def evaluate (fuel : Nat) (env : Env) (code : Code) (id : NodeId) (state : MachineState World) :
    Option (Except EvalError Value × MachineState World) :=
  (machine.run fuel (.node env code id) [] state).map fun (outcome, state) =>
    (outcome.map (·.value), state)

def evaluateProgram (fuel : Nat) (env : Env) (program : Program) (state : MachineState World) :
    Option (Except EvalError Value × MachineState World) :=
  let (ident, mint) := state.mint.issue
  machine.evaluate fuel env ⟨ident, program.arena⟩ program.root { state with mint }

end Machine

end LambdaMachine
