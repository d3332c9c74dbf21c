import LambdaMachine.Proofs.Prelude.Input
import LambdaMachine.Proofs.Session.Consistent

/-!
Reading in a session. Whatever a driver does and whatever is evaluated, names only get numbers and
the input is only read. So once a function of the host has found the end of the input, every later
call finds it, makes the same pair, and leaves the input alone.
-/

namespace LambdaMachine

structure Scene.ReadsOn (earlier later : Scene Surroundings) : Prop where
  names : earlier.names.Interns later.names
  input : ∃ attempts, later.world.io.input = earlier.world.io.input.afterReads attempts

namespace Scene.ReadsOn

variable {first second third : Scene Surroundings}

theorem refl (scene : Scene Surroundings) : scene.ReadsOn scene :=
  ⟨.refl, 0, rfl⟩

theorem trans (before : first.ReadsOn second) (after : second.ReadsOn third) :
    first.ReadsOn third := by
  obtain ⟨attempts, toSecond⟩ := before.input
  obtain ⟨more, toThird⟩ := after.input
  refine ⟨before.names.trans after.names, attempts + more, ?_⟩
  rw [toThird, toSecond, Input.afterReads_add]

theorem of_world {scene later : Scene Surroundings} (names : scene.names.Interns later.names)
    (world : later.world = scene.world) : scene.ReadsOn later :=
  ⟨names, 0, by rw [world, Input.afterReads]⟩

end Scene.ReadsOn

namespace Surroundings

theorem apply_read {function : Builtin} (operation : function.operation = .read) (arg : Value)
    (mint : Mint) (world : Surroundings) :
    host.apply function arg mint world = read mint world := by
  simp only [host, operation]

theorem input_read (mint : Mint) (world : Surroundings) :
    (read mint world).world.io.input = world.io.input.read.2 := by
  simp only [read, ByteIo.read]
  split <;> rfl

/-- A function of the host touches the input only by an attempt to read. -/
theorem readsOn_apply (function : Builtin) (arg : Value) (mint : Mint) (world : Surroundings) :
    Scene.ReadsOn ⟨mint.names, world⟩ (host.apply function arg mint world).scene := by
  refine ⟨interns_apply function arg mint world, ?_⟩
  rw [Reply.scene]
  rcases world_apply function arg mint world with same | ⟨octet, wrote⟩ | read | noted
  · exact ⟨0, by rw [same, Input.afterReads]⟩
  · exact ⟨0, by rw [wrote, ByteIo.write, Input.afterReads]⟩
  · exact ⟨1, by rw [read]; rfl⟩
  · exact ⟨0, by rw [noted, note, Input.afterReads]⟩

/-- A pair is cacheable exactly if no byte was found. -/
theorem cacheable_of_read {mint : Mint} {world : Surroundings} {result : Evaluated}
    (answered : (read mint world).result = .ok result) :
    result.cacheable = true ↔ world.io.input.read.1 = .ok none := by
  simp only [read, ByteIo.read] at answered
  cases found : world.io.input.read.1 with
  | error text =>
      rw [found] at answered
      cases answered
  | ok byte =>
      rw [found] at answered
      cases answered
      rw [Except.ok.injEq]
      exact Option.isNone_iff_eq_none

theorem read_of_found {mint : Mint} {world : Surroundings} {after : Input}
    (found : world.io.input.read = (.ok none, after)) :
    read mint world = ⟨.ok ⟨(readPair none mint).1, true⟩, (readPair none mint).2,
      { world with io := { world.io with input := after } }⟩ := by
  simp only [read, ByteIo.read, found]
  rfl

/-- A cacheable pair is made again, apart from identities, when names have only got numbers since,
and the input has only been read. -/
theorem read_again {mint other : Mint} {world later : Surroundings} {pair : Value}
    (answered : (read mint world).result = .ok ⟨pair, true⟩)
    (readsOn : (read mint world).scene.ReadsOn ⟨other.names, later⟩) :
    (∃ again, (read other later).result = .ok ⟨again, true⟩ ∧ again.erase = pair.erase) ∧
      (read other later).world = later := by
  have nothing := (cacheable_of_read answered).mp rfl
  cases found : world.io.input.read with
  | mk answer after =>
      obtain rfl : answer = .ok none := by rw [← nothing, found]
      rw [read_of_found found] at answered readsOn
      cases answered
      obtain ⟨interns, attempts, reached⟩ := readsOn
      -- the end is permanent, however often it was read since
      have ended : after.Ended := Input.ended_of_read found
      have stays : later.io.input.read = (.ok none, later.io.input) := by
        rw [reached]
        exact (ended.afterReads attempts).symm ▸ ended
      obtain ⟨samePair, _⟩ := readPair_again none interns.extends
      rw [read_of_found stays]
      exact ⟨⟨_, rfl, samePair⟩, rfl⟩

end Surroundings

namespace Host.Session

structure Numbers (session after : Surroundings.Session) : Prop where
  names : session.names.Interns after.names
  world : after.state.world = session.state.world

def OnlyNumbers {α : Type} (action : Surroundings.host.SessionM α) : Prop :=
  ∀ session : Surroundings.Session, session.Numbers (session.after action)

section OnlyNumbers

variable {α β : Type} {session middle later : Surroundings.Session}

theorem Numbers.refl (session : Surroundings.Session) : session.Numbers session :=
  ⟨.refl, rfl⟩

theorem Numbers.trans (before : session.Numbers middle) (after : middle.Numbers later) :
    session.Numbers later :=
  ⟨before.names.trans after.names, after.world.trans before.world⟩

theorem Numbers.readsOn (numbers : session.Numbers later) :
    session.state.scene.ReadsOn later.state.scene :=
  .of_world numbers.names numbers.world

theorem OnlyNumbers.bind {action : Surroundings.host.SessionM α}
    {next : α → Surroundings.host.SessionM β}
    (first : OnlyNumbers action) (rest : ∀ value, OnlyNumbers (next value)) :
    OnlyNumbers (action >>= next) := by
  intro session
  have toMiddle := first session
  unfold Host.Session.after at toMiddle ⊢
  rw [bind_eq]
  cases ran : action session with
  | error error middle =>
      rw [ran] at toMiddle
      exact toMiddle
  | ok value middle =>
      rw [ran] at toMiddle
      exact toMiddle.trans (rest value middle)

theorem OnlyNumbers.pure (value : α) : OnlyNumbers (Pure.pure value) :=
  Numbers.refl

theorem OnlyNumbers.throw (error : SessionError) : OnlyNumbers
    (throw error : Surroundings.host.SessionM α) :=
  Numbers.refl

theorem onlyNumbers_get : OnlyNumbers get :=
  Numbers.refl

theorem onlyNumbers_withMint {action : Mint → α × Mint}
    (interns : ∀ mint : Mint, mint.names.Interns (action mint).2.names) :
    OnlyNumbers (withMint action) :=
  fun session => ⟨interns session.state.mint, rfl⟩

theorem onlyNumbers_resolve (name : String) : OnlyNumbers (resolve name) := by
  unfold resolve
  refine (onlyNumbers_withMint fun _ => .intern .refl name).bind fun number => ?_
  refine onlyNumbers_get.bind fun session => ?_
  split
  · exact .pure _
  · exact .throw _

theorem onlyNumbers_resolveClosure (name : String) : OnlyNumbers (resolveClosure name) := by
  unfold resolveClosure
  refine (onlyNumbers_resolve name).bind fun value => ?_
  split
  · exact .pure _
  · exact .throw _

theorem onlyNumbers_identity : OnlyNumbers (withMint Church.identity) :=
  onlyNumbers_withMint fun _ => Church.identity_interns _

theorem onlyNumbers_build (recipe : Recipe) : OnlyNumbers (build recipe) := by
  induction recipe with
  | datum data => exact onlyNumbers_withMint fun _ => .refl
  | numeral count => exact onlyNumbers_withMint (Church.numeral_interns count)
  | truth value => exact onlyNumbers_withMint (Church.truth_interns value)
  | pair first second firstIh secondIh =>
      rw [build]
      refine firstIh.bind fun first => secondIh.bind fun second => ?_
      exact onlyNumbers_withMint (Church.pair_interns first second)
  | function name operation => exact onlyNumbers_withMint fun _ => .refl
  | constant name cacheable value valueIh =>
      rw [build]
      refine valueIh.bind fun value => ?_
      have kept : OnlyNumbers (withMint (·.extend .empty 0 value)) :=
        onlyNumbers_withMint fun _ => .refl
      exact kept.bind fun env => onlyNumbers_withMint fun _ => .refl
  | identity =>
      rw [build]
      exact onlyNumbers_identity.bind fun closure => .pure _
  | reference name => exact onlyNumbers_resolve name

theorem onlyNumbers_builds (extra : List (String × Recipe)) :
    OnlyNumbers (extra.mapM fun (name, recipe) => do
      let value ← build recipe
      return (name, value)) := by
  induction extra with
  | nil =>
      rw [List.mapM_nil]
      exact .pure _
  | cons binding rest ih =>
      rw [List.mapM_cons]
      have first : OnlyNumbers (do
          let value ← build binding.2
          return (binding.1, value)) :=
        (onlyNumbers_build binding.2).bind fun value => .pure _
      exact first.bind fun built => ih.bind fun values => .pure _

theorem onlyNumbers_enterPrelude (extra : List (String × Recipe)) :
    OnlyNumbers (enterPrelude extra) := by
  unfold enterPrelude
  refine (onlyNumbers_builds extra).bind fun values => ?_
  have entered : OnlyNumbers (withMint (Prelude.environment values)) := by
    refine onlyNumbers_withMint fun mint => ?_
    obtain ⟨names, ident, _, _, _, _, interns, _, same, _⟩ := Prelude.exists_base mint
    rw [same]
    exact interns.trans (Prelude.interns_extendAll _ values ⟨names, ident + 2⟩)
  exact entered.bind fun env session => ⟨.refl, rfl⟩

theorem onlyNumbers_bind (name : String) (recipe : Recipe) :
    OnlyNumbers (bind name recipe) := by
  unfold Host.Session.bind
  refine (onlyNumbers_build recipe).bind fun value session => ?_
  exact ⟨.intern .refl name, rfl⟩

theorem onlyNumbers_recordResult (func arg : Closure) (value : Value) :
    OnlyNumbers (modify (recordResult func arg value)) :=
  fun _ => ⟨.refl, rfl⟩

theorem onlyNumbers_memoize (func arg : String) (recipe : Recipe) :
    OnlyNumbers (memoize func arg recipe) := by
  unfold Host.Session.memoize
  refine (onlyNumbers_resolveClosure func).bind fun func => ?_
  refine (onlyNumbers_build recipe).bind fun value => ?_
  refine (onlyNumbers_resolveClosure arg).bind fun arg => ?_
  exact (onlyNumbers_recordResult func arg value).bind fun _ =>
    onlyNumbers_get.bind fun _ => .pure _

theorem onlyNumbers_fillWith (func : Closure) (live : Bool) (count : Nat) :
    OnlyNumbers (fillWith func live count) := by
  induction count with
  | zero => exact .pure _
  | succ count ih =>
      rw [Host.Session.fillWith]
      refine onlyNumbers_identity.bind fun arg => ?_
      have counted : OnlyNumbers (withMint (·.datum (.count 0))) :=
        onlyNumbers_withMint fun _ => .refl
      refine counted.bind fun value => ?_
      refine (onlyNumbers_recordResult func arg value).bind fun _ => ?_
      have kept : OnlyNumbers (modify fun session : Surroundings.Session =>
          { session with kept := .closure arg :: session.kept }) :=
        fun _ => ⟨.refl, rfl⟩
      cases live with
      | false => exact ih
      | true => exact kept.bind fun _ => ih

theorem onlyNumbers_fill (func : String) (count : Nat) (live : Bool) :
    OnlyNumbers (fill func count live) := by
  unfold Host.Session.fill
  refine (onlyNumbers_resolveClosure func).bind fun func => ?_
  exact (onlyNumbers_fillWith func live count).bind fun _ => onlyNumbers_get.bind fun _ => .pure _

theorem onlyNumbers_recorded (func : String) (arg : Option String) :
    OnlyNumbers (recorded func arg) := by
  unfold Host.Session.recorded
  refine (onlyNumbers_resolveClosure func).bind fun func => ?_
  cases arg with
  | none => exact onlyNumbers_get.bind fun _ => .pure _
  | some arg =>
      exact (onlyNumbers_resolveClosure arg).bind fun _ => onlyNumbers_get.bind fun _ => .pure _

theorem onlyNumbers_compare (left right : String) :
    OnlyNumbers (compare left right) := by
  unfold Host.Session.compare
  refine (onlyNumbers_resolve left).bind fun _ => ?_
  exact (onlyNumbers_resolve right).bind fun _ => .pure _

/-- A driver calls a function that a name is bound to. The argument is built first, which numbers
names; if that fails, nothing else has happened. -/
theorem call_cases (session : Surroundings.Session) (name : String) (recipe : Recipe) :
    match call name recipe session with
    | .error _ after => session.Numbers after
    | .ok answer after => ∃ function arg middle,
        session.env.lookup (session.state.mint.intern name).1 = some (.builtin function) ∧
        session.Numbers middle ∧
        let reply := Surroundings.host.apply function arg middle.state.mint middle.state.world
        answer = reply.result ∧ after.state.scene = reply.scene := by
  have resolved := onlyNumbers_resolve name session
  unfold Host.Session.after at resolved
  rw [call, bind_eq]
  rw [resolve_eq] at resolved ⊢
  cases found : session.env.lookup (session.state.mint.intern name).1 with
  | none =>
      rw [found] at resolved
      exact resolved
  | some value =>
      rw [found] at resolved
      cases value with
      | closure closure => exact resolved
      | datum ident data => exact resolved
      | builtin function =>
          dsimp only at resolved ⊢
          generalize { session with state := _ } = numbered at resolved ⊢
          have built := onlyNumbers_build recipe numbered
          unfold Host.Session.after at built
          rw [bind_eq]
          cases ran : build recipe numbered with
          | error error middle =>
              rw [ran] at built
              exact resolved.trans built
          | ok arg middle =>
              rw [ran] at built
              exact ⟨function, arg, middle, rfl, resolved.trans built, rfl, rfl⟩

theorem readsOn_call (session : Surroundings.Session) (name : String) (recipe : Recipe) :
    session.state.scene.ReadsOn (session.after (call name recipe)).state.scene := by
  have called := session.call_cases name recipe
  unfold Host.Session.after
  cases ran : call name recipe session with
  | error error after =>
      rw [ran] at called
      exact called.readsOn
  | ok answer after =>
      rw [ran] at called
      obtain ⟨function, arg, middle, _, numbers, _, same⟩ := called
      rw [same]
      exact numbers.readsOn.trans (Surroundings.readsOn_apply function arg _ _)

theorem Acts.readsOn (acts : session.Acts Surroundings.TakesNotes later) :
    session.state.scene.ReadsOn later.state.scene := by
  cases acts with
  | enters extra => exact (onlyNumbers_enterPrelude extra session).readsOn
  | binds name recipe => exact (onlyNumbers_bind name recipe session).readsOn
  | records func arg recipe => exact (onlyNumbers_memoize func arg recipe session).readsOn
  | fills func count live => exact (onlyNumbers_fill func count live session).readsOn
  | asks func arg => exact (onlyNumbers_recorded func arg session).readsOn
  | compares left right => exact (onlyNumbers_compare left right session).readsOn
  | calls func recipe => exact readsOn_call session func recipe
  | releases => exact .refl _
  | saves slot => exact .refl _
  | loads slot => exact .refl _
  | changes world taken =>
      obtain rfl := taken
      exact ⟨.refl, 0, rfl⟩

end OnlyNumbers

end Host.Session

theorem Machine.readsOn_step (machine : Machine Surroundings)
    (host : machine.host = Surroundings.host) (focus : Focus) (stack : List Frame)
    (state : MachineState Surroundings) :
    state.scene.ReadsOn (machine.step focus stack state).state.scene := by
  rcases machine.scene_step stack state focus with same | ⟨function, arg, called⟩
  · rw [same]
    exact .refl _
  · rw [called, host]
    exact Surroundings.readsOn_apply function arg state.mint state.world

namespace Host.Stage

variable {stage middle later : Surroundings.Stage}

def scene (stage : Surroundings.Stage) : Scene Surroundings :=
  stage.state.scene

theorem Next.readsOn (next : stage.Next later) : stage.scene.ReadsOn later.scene := by
  cases next with
  | limited limit => exact .refl _
  | @entered session =>
      have entered := (Session.onlyNumbers_enterPrelude [] session).readsOn
      rw [Session.after, Session.enterPrelude_nil] at entered
      exact entered
  | @rejected session source error names parsed =>
      have interns := Program.interns_parse source session.names
      rw [parsed] at interns
      exact .of_world interns rfl
  | @started session source program names parsed bindAs =>
      have interns := Program.interns_parse source session.names
      rw [parsed] at interns
      exact .of_world interns rfl
  | @moved session bindAs focus focus' stack stack' state state' step =>
      have stepped := session.machine.readsOn_step rfl focus stack state
      rw [step] at stepped
      exact stepped
  | @halted session bindAs focus stack state state' outcome step =>
      have stepped := session.machine.readsOn_step rfl focus stack state
      rw [step] at stepped
      refine stepped.trans ?_
      cases outcome with
      | error error => exact .refl _
      | ok result =>
          cases bindAs with
          | none => exact .refl _
          | some name => exact .of_world (.intern .refl name) rfl

theorem Drives.readsOn (drives : stage.Drives Surroundings.TakesNotes later) :
    stage.scene.ReadsOn later.scene := by
  cases drives with
  | acts acts => exact acts.readsOn
  | evaluates next => exact next.readsOn

theorem readsOn_of_drives
    (drives : Relation.ReflTransGen (Drives Surroundings.TakesNotes) stage later) :
    stage.scene.ReadsOn later.scene := by
  induction drives with
  | refl => exact .refl _
  | tail _ step ih => exact ih.trans step.readsOn

/-- The host function that reads is called, by the evaluation that is underway or by the driver
between two of them. It answers, and the later stage is the next one. -/
inductive Reads : Surroundings.Stage → Except BuiltinError Evaluated → Surroundings.Stage → Prop
  | evaluating {session : Surroundings.Session} {bindAs : Option String} {origin outer : Env}
      {func arg : Evaluated} {rest : List Frame} {state : MachineState Surroundings}
      {function : Builtin} (callee : func.value = .builtin function)
      (operation : function.operation = .read) :
      Reads (.running session bindAs (.value origin arg) (.call outer func :: rest) state)
        (Surroundings.host.apply function arg.value state.mint state.world).result
        (advance (.running session bindAs (.value origin arg) (.call outer func :: rest) state))
  | driving {session after : Surroundings.Session} {name : String} {recipe : Recipe} {function : Builtin}
      {answer : Except BuiltinError Evaluated}
      (callee : session.env.lookup (session.state.mint.intern name).1 = some (.builtin function))
      (operation : function.operation = .read)
      (called : Session.call name recipe session = .ok answer after) :
      Reads (.idle session) answer (.idle after)

/-- The answer is that of one attempt to read, which is all that happens outside. -/
theorem Reads.answered {answer : Except BuiltinError Evaluated} (reads : stage.Reads answer later) :
    ∃ mint : Mint, stage.scene.names.Interns mint.names ∧
      answer = (Surroundings.read mint stage.state.world).result ∧
      later.scene = (Surroundings.read mint stage.state.world).scene := by
  cases reads with
  | @evaluating session bindAs origin outer func arg rest state function callee operation =>
      have called := Surroundings.apply_read operation arg.value state.mint state.world
      refine ⟨state.mint, .refl, congrArg Reply.result called, ?_⟩
      have step : session.machine.step (.value origin arg) (.call outer func :: rest) state =
          session.machine.callBuiltin outer function arg.value (func.cacheable && arg.cacheable)
            rest state := by
        simp only [Machine.step, Machine.deliver, Machine.apply, callee]
      change _ = (Surroundings.read state.mint state.world).scene
      rw [← called, advance, step]
      refine Eq.trans ?_ (session.machine.scene_callBuiltin rest state outer function arg.value
        (func.cacheable && arg.cacheable))
      cases ended : session.machine.callBuiltin outer function arg.value
        (func.cacheable && arg.cacheable) rest state with
      | moved focus stack after => rfl
      | halted outcome after =>
          -- only a failure ends the evaluation here, so nothing is bound
          rw [Machine.callBuiltin] at ended
          split at ended <;> cases ended
          rfl
  | @driving session after name recipe function answer callee operation called =>
      have cases := session.call_cases name recipe
      rw [called] at cases
      obtain ⟨found, arg, middle, same, numbers, answered, scene⟩ := cases
      obtain rfl : function = found := by
        rw [callee] at same
        cases same
        rfl
      rw [Surroundings.apply_read operation, numbers.world] at answered scene
      exact ⟨middle.state.mint, numbers.names, answered, scene⟩

theorem Reads.input_eq {answer : Except BuiltinError Evaluated}
    (reads : stage.Reads answer later) :
    later.state.world.io.input = stage.state.world.io.input.read.2 := by
  obtain ⟨mint, _, _, left⟩ := reads.answered
  exact (congrArg (·.world.io.input) left).trans (Surroundings.input_read mint _)

theorem Reads.cacheable_iff {result : Evaluated} (reads : stage.Reads (.ok result) later) :
    result.cacheable = true ↔ stage.state.world.io.input.read.1 = .ok none := by
  obtain ⟨mint, _, answered, _⟩ := reads.answered
  exact Surroundings.cacheable_of_read answered.symm

/-- A cacheable answer is given again, whatever happens in between. -/
theorem Reads.again {next last : Surroundings.Stage} {pair : Value}
    {answer : Except BuiltinError Evaluated}
    (reads : stage.Reads (.ok ⟨pair, true⟩) next)
    (drives : Relation.ReflTransGen (Drives Surroundings.TakesNotes) next later)
    (readsThen : later.Reads answer last) :
    (∃ other, answer = .ok ⟨other, true⟩ ∧ other.erase = pair.erase) ∧
      last.state.world = later.state.world := by
  obtain ⟨mint, _, answered, left⟩ := reads.answered
  obtain ⟨mintThen, numbers, rfl, leftThen⟩ := readsThen.answered
  have toCall : later.scene.ReadsOn ⟨mintThen.names, later.state.world⟩ := .of_world numbers rfl
  have readsOn := (readsOn_of_drives drives).trans toCall
  rw [left] at readsOn
  obtain ⟨again, stays⟩ := Surroundings.read_again answered.symm readsOn
  exact ⟨again, (congrArg Scene.world leftThen).trans stays⟩

end Host.Stage

def Value.isReader : Value → Bool
  | .builtin function => function.operation == .read
  | .closure _ => false
  | .datum _ _ => false

theorem Value.eq_builtin_of_isReader {value : Value} (isReader : value.isReader = true) :
    ∃ function, value = .builtin function ∧ function.operation = .read := by
  cases value with
  | builtin function => exact ⟨function, rfl, eq_of_beq isReader⟩
  | closure closure => cases isReader
  | datum ident data => cases isReader

def Host.Stage.aboutToRead : Surroundings.Stage → Bool
  | .running _ _ (.value _ _) (.call _ func :: _) _ => func.value.isReader
  | _ => false

theorem Host.Stage.exists_reads {stage : Surroundings.Stage} (about : stage.aboutToRead = true) :
    ∃ answer, stage.Reads answer stage.advance := by
  unfold aboutToRead at about
  split at about
  · obtain ⟨function, callee, operation⟩ := Value.eq_builtin_of_isReader about
    exact ⟨_, .evaluating callee operation⟩
  · cases about

def Host.Session.callFindsEnd (session : Surroundings.Session) (name : String) (recipe : Recipe) :
    Bool :=
  match call name recipe session with
  | .ok (.ok result) _ => result.cacheable
  | _ => false

theorem Host.Session.call_of_callFindsEnd {session : Surroundings.Session} {name : String}
    {recipe : Recipe}
    (finds : session.callFindsEnd name recipe = true) :
    ∃ pair, call name recipe session =
      .ok (.ok ⟨pair, true⟩) (session.after (call name recipe)) := by
  unfold callFindsEnd at finds
  unfold after
  split at finds
  · next result later called =>
      obtain ⟨pair, cacheable⟩ := result
      obtain rfl : cacheable = true := finds
      exact ⟨pair, by rw [called]⟩
  · cases finds

/-- The answers to attempts to read are the bytes and failures of the source up to its first end
mark, in order, and then the end for ever. A reader is polled for the events up to that mark and
no more, and just what it is polled for is taken from it. So a function of the host that has found
the end, which is when its answer is cacheable, gives the same pair at every later call in a
session, apart from identities, and nothing is read. -/
theorem input_is_delivered_once :
    (∀ (input : Input) (attempts : Nat),
      input.answers attempts =
        (input.contents.map (Except.map some)).take attempts ++
          List.replicate (attempts - input.contents.length) (.ok none) ∧
      input.polls attempts <+: input.throughEnd ∧
      (input.contents.length < attempts →
        input.polls attempts = input.throughEnd ∧
          input.afterReads attempts = input.exhausted)) ∧
    (∀ (feed : Feed) (ended : Bool) (attempts : Nat), ∃ endedAfter,
      (Input.reader feed ended).afterReads attempts =
        .reader (feed.drop ((Input.reader feed ended).polls attempts).length) endedAfter) ∧
    ∀ (stage next : Stage) (answer : Except BuiltinError Evaluated), stage.Reads answer next →
      next.state.world.io.input = stage.state.world.io.input.read.2 ∧
      ∀ result, answer = .ok result →
        (result.cacheable = true ↔ stage.state.world.io.input.read.1 = .ok none) ∧
        (result.cacheable = true → ∀ later last answerThen,
          Relation.ReflTransGen (Host.Stage.Drives Surroundings.TakesNotes) next later →
            later.Reads answerThen last →
          (∃ again, answerThen = .ok ⟨again, true⟩ ∧ again.erase = result.value.erase) ∧
            last.state.world = later.state.world) := by
  refine ⟨fun input attempts => ⟨input.answers_eq attempts, input.polls_prefix attempts,
    Input.polls_eq_throughEnd⟩, fun feed ended attempts =>
      Input.exists_afterReads_reader attempts feed ended, ?_⟩
  intro stage next answer reads
  refine ⟨reads.input_eq, ?_⟩
  rintro ⟨pair, cacheable⟩ rfl
  refine ⟨reads.cacheable_iff, ?_⟩
  rintro rfl later last answerThen drives readsThen
  exact reads.again drives readsThen

/-- A reader that would go on after its end, asked five times. And a session whose input ends: the
driver finds the end, and so does the program that is evaluated after that. -/
theorem end_is_found_by_driver_and_program :
    let feed := Feed.ofDeliveries
      [.bytes [7], .interruption, .failure "broken", .bytes [], .bytes [9]]
    let session := (Session.new ⟨.silent, .reader [.finish, .byte 9] false⟩ none).after
      (Session.enterPrelude [("r", .function "read" .read)])
    (Input.reader feed false).answers 5 =
        [.ok (some 7), .error "broken", .ok none, .ok none, .ok none] ∧
      (Input.reader feed false).polls 5 =
        [.byte 7, .interruption, .failure "broken", .finish] ∧
      (Input.reader feed false).afterReads 5 = .reader [.byte 9] true ∧
      ∃ pair next again last,
        Session.call "r" .identity session = .ok (.ok ⟨pair, true⟩) next ∧
        (Host.Stage.advance^[9] (Host.Stage.start next (.ofString "(READ_BYTE r)") none)).Reads
          (.ok ⟨again, true⟩) last ∧
        again.erase = pair.erase := by
  intro feed session
  obtain ⟨delivers, _, finds⟩ := input_is_delivered_once
  obtain ⟨answers, _, past⟩ := delivers (.reader feed false) 5
  obtain ⟨polls, left⟩ := past (by decide)
  refine ⟨answers, polls, left, ?_⟩
  let next := session.after (Session.call "r" .identity)
  let later := Host.Stage.advance^[9] (Host.Stage.start next (.ofString "(READ_BYTE r)") none)
  have bound : (session.env.lookup (session.state.mint.intern "r").1).any Value.isReader = true := by
    decide +kernel
  obtain ⟨value, callee, isReader⟩ := (Option.any_eq_true _ _).mp bound
  obtain ⟨function, rfl, operation⟩ := Value.eq_builtin_of_isReader isReader
  have atEnd : session.callFindsEnd "r" .identity = true := by decide +kernel
  obtain ⟨pair, called⟩ := Host.Session.call_of_callFindsEnd atEnd
  have about : later.aboutToRead = true := by decide +kernel
  obtain ⟨answer, readsThen⟩ := Host.Stage.exists_reads about
  have drives : Relation.ReflTransGen (Host.Stage.Drives Surroundings.TakesNotes) (.idle next) later :=
    .head (.evaluates (Host.Stage.next_start next (.ofString "(READ_BYTE r)") none))
      ((Host.Stage.leads_advance _ 9).lift id fun _ _ => .evaluates)
  obtain ⟨_, found⟩ := finds _ _ _ (.driving callee operation called)
  obtain ⟨_, again⟩ := found _ rfl
  obtain ⟨⟨other, rfl, same⟩, _⟩ := again rfl later _ answer drives readsThen
  exact ⟨pair, next, other, _, called, readsThen, same⟩

end LambdaMachine
