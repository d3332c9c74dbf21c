import LambdaMachine.Machine.Basic
import LambdaMachine.Prelude.Environment
import LambdaMachine.Program.Parser
import LambdaMachine.Session.Recipe

/-!
Sessions: evaluations one after the other that share names, closures and memo tables. Values can be
bound between evaluations, and memo tables can be looked at and written to.
-/

namespace LambdaMachine

variable {World : Type}

structure Host.Session (host : Host World) where
  state : MachineState World
  env : Env
  /-- The step limit, over all evaluations since the counters were reset. -/
  limit : Option Nat
  /-- Environments put aside, the latest first. -/
  slots : List (String × Env)
  /-- Closures held so that they stay alive. -/
  kept : List Value

inductive SessionError where
  | missing (name : String)
  | notClosure (kind : String)
  | notBuiltin
  deriving DecidableEq

inductive Evaluation where
  | rejected (error : ParseError)
  | failed (error : EvalError)
  | finished (value : Value)
  /-- The fuel was used up first. -/
  | unfinished

/-- An action on a session. What it changed before it failed stays changed. -/
abbrev Host.SessionM (host : Host World) (α : Type) := EStateM SessionError host.Session α

namespace Host.Session

variable {host : Host World}

def fresh (world : World) (limit : Option Nat) : host.Session :=
  { state := ⟨.new, .empty, {}, world⟩, env := .empty, limit, slots := [], kept := [] }

def roots (session : host.Session) : Roots :=
  ⟨session.env :: session.slots.map (·.2), session.kept⟩

def machine (session : host.Session) : Machine World :=
  ⟨host, session.limit, session.roots⟩

def names (session : host.Session) : NameTable :=
  session.state.mint.names

def withMint {α : Type} (action : Mint → α × Mint) : host.SessionM α :=
  modifyGet fun session =>
    let (value, mint) := action session.state.mint
    (value, { session with state := { session.state with mint } })

def resolve (name : String) : host.SessionM Value := do
  let number ← withMint (·.intern name)
  match (← get).env.lookup number with
  | some value => return value
  | none => throw (.missing name)

def resolveClosure (name : String) : host.SessionM Closure := do
  match ← resolve name with
  | .closure closure => return closure
  | other => throw (.notClosure other.kind)

def build : Recipe → host.SessionM Value
  | .datum datum => withMint (·.datum datum)
  | .numeral count => withMint (Church.numeral count)
  | .truth value => withMint (Church.truth value)
  | .pair first second => do
      let first ← build first
      let second ← build second
      withMint (Church.pair first second)
  | .function name operation => withMint (·.builtin name operation .empty)
  | .constant name cacheable value => do
      let value ← build value
      let kept ← withMint (·.extend .empty 0 value)
      withMint (·.builtin name (.constant cacheable) kept)
  | .identity => do
      let closure ← withMint Church.identity
      return .closure closure
  | .reference name => resolve name

def withBinding (session : host.Session) (name : String) (value : Value) : host.Session :=
  let (number, mint) := session.state.mint.intern name
  let (env, mint) := mint.extend session.env number value
  { session with env, state := { session.state with mint } }

def bind (name : String) (recipe : Recipe) : host.SessionM Unit := do
  let value ← build recipe
  modify fun session => session.withBinding name value

def enterPrelude (extra : List (String × Recipe)) : host.SessionM Unit := do
  let values ← extra.mapM fun (name, recipe) => do
    let value ← build recipe
    return (name, value)
  let env ← withMint (Prelude.environment values)
  modify fun session => { session with env }

def evaluate (fuel : Nat) (source : Feed) (bindAs : Option String) (session : host.Session) :
    Evaluation × host.Session :=
  let (parsed, names) := Program.parse source session.names
  let state := { session.state with mint := { session.state.mint with names } }
  let session := { session with state }
  match parsed with
  | .error error => (.rejected error, session)
  | .ok program =>
      match session.machine.evaluateProgram fuel session.env program state with
      | none => (.unfinished, session)
      | some (.error error, state) => (.failed error, { session with state })
      | some (.ok value, state) =>
          let session := { session with state }
          (.finished value, bindAs.elim session fun name => session.withBinding name value)

def resetCounters (limit : Option Nat) (session : host.Session) : host.Session :=
  { session with limit, state := { session.state with counters := {} } }

def recorded (func : String) (arg : Option String) : host.SessionM (Nat × Option Value) := do
  let func ← resolveClosure func
  match arg with
  | none => return ((← get).state.memo.size func, none)
  | some arg =>
      let arg ← resolveClosure arg
      let memo := (← get).state.memo
      return (memo.size func, memo.lookup func arg)

/-- Records a result; besides what the session holds and the host keeps, `func`, `arg` and `value` are
held meanwhile. -/
def recordResult (func arg : Closure) (value : Value) (session : host.Session) : host.Session :=
  let machine := session.machine
  -- taken apart, so that the tables have no second holder while they are changed
  let ⟨⟨mint, memo, counters, world⟩, env, limit, slots, kept⟩ := session
  let reachRoots (owners : IdentSet) (reached : Reached) : Reached :=
    let reached := machine.reachHeld world owners reached
    value.reach owners (arg.reach owners (func.reach owners reached))
  let memo := memo.record func arg value fun memo => memo.alive reachRoots mint.nextIdent
  ⟨⟨mint, memo, counters, world⟩, env, limit, slots, kept⟩

def memoize (func arg : String) (recipe : Recipe) : host.SessionM Nat := do
  let func ← resolveClosure func
  let value ← build recipe
  let arg ← resolveClosure arg
  modify (recordResult func arg value)
  return (← get).state.memo.size func

def fillWith (func : Closure) (live : Bool) : Nat → host.SessionM Unit
  | 0 => return ()
  | count + 1 => do
      let arg ← withMint Church.identity
      let value ← withMint (·.datum (.count 0))
      modify (recordResult func arg value)
      if live then
        modify fun session => { session with kept := .closure arg :: session.kept }
      fillWith func live count

def fill (func : String) (count : Nat) (live : Bool) : host.SessionM Nat := do
  let func ← resolveClosure func
  fillWith func live count
  return (← get).state.memo.size func

def release (session : host.Session) : Nat × host.Session :=
  (session.kept.length, { session with kept := [] })

def compare (left right : String) : host.SessionM (Bool × Option Bool) := do
  let left ← resolve left
  let right ← resolve right
  let sameCode := match left, right with
    | .closure left, .closure right => some (left.code.ident == right.code.ident)
    | _, _ => none
  return (left.same right, sameCode)

def call (func : String) (recipe : Recipe) : host.SessionM (Except BuiltinError Evaluated) := do
  match ← resolve func with
  | .builtin function =>
      let arg ← build recipe
      modifyGet fun session =>
        let reply := host.apply function arg session.state.mint session.state.world
        (reply.result, { session with
          state := { session.state with mint := reply.mint, world := reply.world } })
  | _ => throw .notBuiltin

def save (slot : String) (session : host.Session) : host.Session :=
  { session with slots := (slot, session.env) :: session.slots.filter fun entry => entry.1 != slot }

def load (slot : String) (session : host.Session) : host.Session :=
  { session with env := (session.slots.lookup slot).getD .empty }

def withWorld (session : host.Session) (world : World) : host.Session :=
  { session with state := { session.state with world } }

def takeNotes (session : Surroundings.host.Session) : List String × Surroundings.host.Session :=
  let world := session.state.world
  (world.notes.toList, session.withWorld { world with notes := #[] })

def printed (session : Surroundings.host.Session) : List UInt8 :=
  session.state.world.io.output.bytes

end Host.Session

abbrev Surroundings.Session := host.Session

/-- A session without functions but those of the prelude and those that note their calls. -/
abbrev Session := Surroundings.Session

abbrev SessionM (α : Type) := EStateM SessionError Session α

namespace Session

abbrev new (io : ByteIo) (limit : Option Nat) : Session :=
  Host.Session.fresh ⟨io, #[]⟩ limit

abbrev resolve (name : String) : SessionM Value :=
  Host.Session.resolve name

abbrev resolveClosure (name : String) : SessionM Closure :=
  Host.Session.resolveClosure name

abbrev bind (name : String) (recipe : Recipe) : SessionM Unit :=
  Host.Session.bind name recipe

abbrev enterPrelude (extra : List (String × Recipe)) : SessionM Unit :=
  Host.Session.enterPrelude extra

abbrev recorded (func : String) (arg : Option String) : SessionM (Nat × Option Value) :=
  Host.Session.recorded func arg

abbrev memoize (func arg : String) (recipe : Recipe) : SessionM Nat :=
  Host.Session.memoize func arg recipe

abbrev fill (func : String) (count : Nat) (live : Bool) : SessionM Nat :=
  Host.Session.fill func count live

abbrev compare (left right : String) : SessionM (Bool × Option Bool) :=
  Host.Session.compare left right

abbrev call (func : String) (recipe : Recipe) : SessionM (Except BuiltinError Evaluated) :=
  Host.Session.call func recipe

end Session

end LambdaMachine
