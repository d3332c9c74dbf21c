import LambdaMachine.Proofs.Machine.Limit
import LambdaMachine.Proofs.Session.Stages

/-!
Entries of tables are written once. Between the moment an application misses its table and the
moment its result is stored any amount of evaluation may lie, which may come to the same application
again; but it cannot end that one with a cacheable result, since a pure run is no part of itself. So
every store adds one entry, and an entry stays what it is until a sweep finds its closures dead.
-/

namespace LambdaMachine

/-- A result that is recorded, with what is alive at that moment. -/
structure Store where
  func : Closure
  arg : Closure
  value : Value
  alive : Memo → IdentSet

namespace Store

def inserted (store : Store) (memo : Memo) : Memo :=
  memo.insert store.func store.arg store.value

/-- The store adds one entry, to one table, for an argument that had none. -/
structure Adds (store : Store) (before after : MachineState Surroundings) : Prop where
  absent : before.memo.lookup store.func store.arg = none
  counted : after.counters.stores = Counters.bump before.counters.stores
  entry : ∀ owner key, (store.inserted before.memo).entry owner key =
    if store.func.ident = owner ∧ store.arg.ident = key then some store.value
    else before.memo.entry owner key
  size : ∀ func, (store.inserted before.memo).size func =
    if store.func.ident = func.ident then before.memo.size func + 1 else before.memo.size func
  swept : after.memo =
    if (store.inserted before.memo).sweepDue store.func then
      (store.inserted before.memo).sweep store.func (store.alive (store.inserted before.memo))
    else store.inserted before.memo

def Spares (store : Store) (memo : Memo) (func arg : Closure) : Prop :=
  (store.inserted memo).sweepDue store.func = true →
    (func.ident = store.func.ident ∨
      (store.alive (store.inserted memo)).contains func.ident = true) ∧
    (store.alive (store.inserted memo)).contains arg.ident = true

section Adds

variable {store : Store} {before after : MachineState Surroundings} {func arg : Closure}

theorem Adds.lookup_swept (adds : store.Adds before after)
    (spares : store.Spares before.memo func arg) :
    after.memo.lookup func arg = (store.inserted before.memo).lookup func arg := by
  rw [adds.swept]
  split
  · rename_i due
    obtain ⟨owner, key⟩ := spares due
    exact Memo.entry_sweep owner key
  · rfl

/-- An entry that was there stays as it is. -/
theorem Adds.lookup_eq {value : Value} (adds : store.Adds before after)
    (spares : store.Spares before.memo func arg)
    (found : before.memo.lookup func arg = some value) :
    after.memo.lookup func arg = some value := by
  rw [adds.lookup_swept spares, Memo.lookup_eq_entry, adds.entry]
  split
  · rename_i same
    have absent := adds.absent
    rw [Memo.lookup_eq_entry, same.1, same.2, ← Memo.lookup_eq_entry, found] at absent
    cases absent
  · exact found

theorem Adds.lookup_stored (adds : store.Adds before after)
    (spares : store.Spares before.memo store.func store.arg) :
    after.memo.lookup store.func store.arg = some store.value := by
  rw [adds.lookup_swept spares, Memo.lookup_eq_entry, adds.entry, if_pos ⟨rfl, rfl⟩]

end Adds

end Store

/-- No result has been recorded from one state to the other, though counting may have begun anew. -/
structure MachineState.Rests {World : Type} (before after : MachineState World) : Prop where
  memo : after.memo = before.memo
  stores : after.counters.stores = before.counters.stores ∨ after.counters = {}

namespace Machine

/-- When a cacheable result is about to be stored, the table has no entry for the argument. -/
theorem Underway.absent {machine : Machine Surroundings} {waiting rest stack : List Frame}
    {task : Task} {focus : Focus} {state now : MachineState Surroundings} {env : Env}
    {result : Evaluated} {func arg : Closure} (prelude : machine.host = Surroundings.host)
    (underway : machine.Underway waiting task state focus stack now)
    (delivered : focus = .value env result) (top : stack = .memoize func arg :: rest)
    (cacheable : result.cacheable = true) {catalog : Catalog} (backed : Backed catalog state)
    (known : task.Known catalog) :
    now.memo.lookup func arg = none ∨ machine.Arrives waiting task state focus stack now := by
  induction underway generalizing catalog with
  | begun => cases delivered
  | ended evaluated => exact .inr ⟨_, rfl, rfl, evaluated⟩
  | operator _ _ _ innerIh =>
      rcases innerIh delivered top backed.countStep known with absent | ⟨_, _, below, _⟩
      · exact .inl absent
      · cases below.symm.trans top
  | operand _ _ operator _ innerIh =>
      obtain ⟨middle, grounded⟩ := operator.grounded prelude backed.countStep known
      rcases innerIh delivered top grounded.backed (known.mono grounded.grows) with
        absent | ⟨_, _, below, _⟩
      · exact .inl absent
      · cases below.symm.trans top
  | @application _ _ _ _ _ _ _ called _ passed _ _ _ _ within node operator operand _ innerIh =>
      obtain ⟨middle, ofOperator⟩ := operator.grounded prelude backed.countStep known
      obtain ⟨ready, ofOperand⟩ :=
        operand.grounded prelude ofOperator.backed (known.mono ofOperator.grows)
      have calledKnown := (ofOperator.known called rfl).mono ofOperand.grows
      rcases innerIh delivered top ofOperand.backed ⟨calledKnown, ofOperand.known passed rfl⟩ with
        absent | arrives
      · exact .inl absent
      · exact .inr (arrives.map (.applied within node operator operand))
  | @missed _ _ _ _ state _ _ _ _ _ closure _ argument absent _ innerIh =>
      have bodyKnown := Task.known_body (closure ▸ known.1) known.2 state
      rcases innerIh delivered top (backed.entering _ _) bodyKnown with
        absent | ⟨found, arrived, below, evaluated⟩
      · exact .inl absent
      · -- this is the application that missed, and its body has just come to the result
        cases arrived.symm.trans delivered
        cases below.symm.trans top
        obtain ⟨later, grounded⟩ := evaluated.grounded prelude (backed.entering _ _) bodyKnown
        exact .inl (grounded.absent argument (closure ▸ known.1) known.2 cacheable absent)
  | @entered _ _ _ _ state _ _ _ _ closure both argument _ innerIh =>
      have bodyKnown := Task.known_body (closure ▸ known.1) known.2 state
      rcases innerIh delivered top (backed.entering _ _) bodyKnown with absent | arrives
      · exact .inl absent
      · exact .inr (arrives.map (.entered closure both argument))
  | @tainted _ _ _ _ state _ _ _ _ closure _ _ innerIh =>
      have bodyKnown := Task.known_body (closure ▸ known.1) known.2 state
      rcases innerIh delivered top (backed.entering _ _) bodyKnown with absent | ⟨_, _, below, _⟩
      · exact .inl absent
      · cases below.symm.trans top

section Steps

variable {World : Type} {machine : Machine World} {state : MachineState World} {focus : Focus}
  {stack : List Frame}

def store? (machine : Machine World) (state : MachineState World) :
    Focus → List Frame → Option Store
  | .value env result, .memoize func arg :: rest =>
      if result.cacheable then
        some ⟨func, arg, result.value, machine.aliveAt rest func arg ⟨env, result⟩ state⟩
      else none
  | _, _ => none

theorem exists_of_store? {store : Store} (records : machine.store? state focus stack = some store) :
    ∃ env result rest, focus = .value env result ∧ stack = .memoize store.func store.arg :: rest ∧
      result.cacheable = true ∧ store =
        ⟨store.func, store.arg, result.value,
          machine.aliveAt rest store.func store.arg ⟨env, result⟩ state⟩ := by
  unfold store? at records
  split at records
  · rename_i env result func arg rest
    split at records
    · rename_i cacheable
      cases records
      exact ⟨env, result, rest, rfl, rfl, cacheable, rfl⟩
    · cases records
  · cases records

theorem rests_evalNode (env : Env) (code : Code) (id : NodeId) (stack : List Frame)
    (state : MachineState World) : state.Rests (evalNode env code id stack state).state := by
  rw [evalNode]
  split
  · exact ⟨rfl, .inl rfl⟩
  · split <;> exact ⟨rfl, .inl rfl⟩
  · exact ⟨rfl, .inl rfl⟩
  · exact ⟨rfl, .inl rfl⟩

theorem rests_callBuiltin (machine : Machine World) (env : Env) (function : Builtin) (arg : Value)
    (cacheable : Bool) (stack : List Frame) (state : MachineState World) :
    state.Rests (machine.callBuiltin env function arg cacheable stack state).state := by
  simp only [callBuiltin]
  split <;> exact ⟨rfl, .inl rfl⟩

theorem rests_apply (machine : Machine World) (env : Env) (func arg : Evaluated)
    (stack : List Frame) (state : MachineState World) :
    state.Rests (machine.apply env func arg stack state).state := by
  simp only [apply]
  split
  · exact ⟨rfl, .inl rfl⟩
  · exact machine.rests_callBuiltin _ _ _ _ _ _
  · split
    · split
      · split <;> exact ⟨rfl, .inl rfl⟩
      · exact ⟨rfl, .inl rfl⟩
    · exact ⟨rfl, .inl rfl⟩

theorem rests_step (nothing : machine.store? state focus stack = none) :
    state.Rests (machine.step focus stack state).state := by
  cases focus with
  | node env code id =>
      simp only [step]
      split
      · exact ⟨rfl, .inl rfl⟩
      · obtain ⟨memo, stores⟩ := rests_evalNode env code id stack state.countStep
        exact ⟨memo, stores⟩
  | value env result =>
      rw [step]
      cases stack with
      | nil => exact ⟨rfl, .inl rfl⟩
      | cons frame rest =>
          cases frame with
          | argument outer code arg => exact ⟨rfl, .inl rfl⟩
          | call outer func => exact machine.rests_apply _ _ _ _ _
          | taint => exact ⟨rfl, .inl rfl⟩
          | memoize func arg =>
              have uncacheable : ¬ result.cacheable = true := by
                intro cacheable
                rw [store?, if_pos cacheable] at nothing
                cases nothing
              rw [deliver, if_neg uncacheable]
              exact ⟨rfl, .inl rfl⟩

theorem adds_step {machine : Machine Surroundings} {state : MachineState Surroundings}
    {store : Store}
    (records : machine.store? state focus stack = some store)
    (absent : state.memo.lookup store.func store.arg = none) :
    store.Adds state (machine.step focus stack state).state := by
  obtain ⟨env, result, rest, rfl, rfl, cacheable, made⟩ := exists_of_store? records
  rw [machine.step_memoize ⟨env, result⟩, Transition.state, remember, Bool.true_and,
    if_pos cacheable]
  refine ⟨absent, rfl, ?_, ?_, ?_⟩
  · exact state.memo.entry_insert store.func store.arg store.value
  · exact Memo.size_insert absent store.value
  · rw [made]
    rfl

end Steps

end Machine

theorem Host.Session.rests_inPrelude (session : Surroundings.Session) :
    session.state.Rests session.inPrelude.state := by
  unfold inPrelude
  generalize Prelude.environment [] session.state.mint = made
  exact ⟨rfl, .inl rfl⟩

namespace Host.Stage

def store? : Surroundings.Stage → Option Store
  | .idle _ => none
  | .running session _ focus stack state => session.machine.store? state focus stack

/-- In tables whose entries come of pure runs, no entry is there before it is recorded. -/
theorem Sound.absent {stage : Surroundings.Stage} {store : Store} (sound : stage.Sound)
    (records : stage.store? = some store) :
    stage.state.memo.lookup store.func store.arg = none := by
  cases stage with
  | idle session => cases records
  | running session bindAs focus stack state =>
      obtain ⟨env, result, rest, delivered, top, cacheable, _⟩ := Machine.exists_of_store? records
      obtain ⟨catalog, code, id, start, backed, known, underway⟩ := sound
      rcases underway.absent rfl delivered top cacheable backed known with absent | ⟨_, _, below, _⟩
      · exact absent
      · cases below.symm.trans top

theorem Next.adds {stage next : Surroundings.Stage} {store : Store} (step : stage.Next next)
    (sound : stage.Sound) (records : stage.store? = some store) :
    store.Adds stage.state next.state := by
  have absent := sound.absent records
  cases step with
  | limited _ => cases records
  | entered => cases records
  | rejected _ => cases records
  | started _ _ => cases records
  | moved step =>
      have adds := Machine.adds_step records absent
      rw [step] at adds
      exact adds
  | halted step =>
      -- a store hands its result on, and never ends an evaluation
      obtain ⟨env, result, rest, rfl, rfl, _, _⟩ := Machine.exists_of_store? records
      rw [Machine.step_memoize _ ⟨env, result⟩] at step
      cases step

theorem Next.rests {stage next : Surroundings.Stage} (step : stage.Next next)
    (nothing : stage.store? = none) :
    stage.state.Rests next.state := by
  cases step with
  | limited _ => exact ⟨rfl, .inr rfl⟩
  | @entered session => exact session.rests_inPrelude
  | rejected _ => exact ⟨rfl, .inl rfl⟩
  | started _ _ => exact ⟨rfl, .inl rfl⟩
  | moved step =>
      have rests := Machine.rests_step nothing
      rw [step] at rests
      exact rests
  | @halted session bindAs _ _ _ _ outcome step =>
      have rests := Machine.rests_step nothing
      rw [step] at rests
      cases outcome with
      | error _ => exact rests
      | ok _ => cases bindAs <;> exact ⟨rests.memo, rests.stores⟩

def Spares (func arg : Closure) (stage : Surroundings.Stage) : Prop :=
  ∀ store, stage.store? = some store → store.Spares stage.state.memo func arg

def NextSparing (func arg : Closure) (stage next : Surroundings.Stage) : Prop :=
  stage.Next next ∧ stage.Spares func arg

abbrev LeadsSparing (func arg : Closure) : Surroundings.Stage → Surroundings.Stage → Prop :=
  Relation.ReflTransGen (NextSparing func arg)

theorem NextSparing.lookup_eq {stage next : Surroundings.Stage} {func arg : Closure} {value : Value}
    (step : NextSparing func arg stage next) (sound : stage.Sound)
    (found : stage.state.memo.lookup func arg = some value) :
    next.state.memo.lookup func arg = some value := by
  obtain ⟨step, spares⟩ := step
  cases records : stage.store? with
  | none =>
      rw [(step.rests records).memo]
      exact found
  | some store => exact (step.adds sound records).lookup_eq (spares store records) found

theorem LeadsSparing.lookup_eq {stage later : Surroundings.Stage} {func arg : Closure}
    {value : Value}
    (leads : LeadsSparing func arg stage later) (sound : stage.Sound)
    (found : stage.state.memo.lookup func arg = some value) :
    later.Sound ∧ later.state.memo.lookup func arg = some value := by
  induction leads with
  | refl => exact ⟨sound, found⟩
  | tail _ step ih => exact ⟨step.1.sound ih.1, step.lookup_eq ih.1 ih.2⟩

/-- An application is not recorded twice. -/
theorem LeadsSparing.not_again {stage next later : Surroundings.Stage} {store again : Store}
    (records : stage.store? = some store) (sound : stage.Sound)
    (step : NextSparing store.func store.arg stage next)
    (leads : LeadsSparing store.func store.arg next later)
    (recordsAgain : later.store? = some again)
    (func : again.func = store.func) : again.arg ≠ store.arg := by
  intro arg
  have stored := (step.1.adds sound records).lookup_stored (step.2 store records)
  obtain ⟨laterSound, found⟩ := LeadsSparing.lookup_eq leads (step.1.sound sound) stored
  have absent := laterSound.absent recordsAgain
  rw [func, arg, found] at absent
  cases absent

end Host.Stage

namespace Stage

open Host.Stage

/-- However far a session has got: what its next step records is an entry that was not there, in one
table; every other step leaves the tables as they are. Unless a sweep finds its closure or its
argument dead, an entry stays as it is from then on, and its application is not recorded again. -/
theorem entries_are_written_once {io : ByteIo} {limit : Option Nat} {stage : Stage}
    (reached : Leads (.idle (Session.new io limit)) stage) :
    (∀ next, stage.Next next →
      match stage.store? with
      | some store => store.Adds stage.state next.state
      | none => stage.state.Rests next.state) ∧
    (∀ later func arg value, LeadsSparing func arg stage later →
      stage.state.memo.lookup func arg = some value →
      later.state.memo.lookup func arg = some value) ∧
    ∀ store next later again, stage.store? = some store →
      NextSparing store.func store.arg stage next → LeadsSparing store.func store.arg next later →
      later.store? = some again → again.func = store.func → again.arg ≠ store.arg := by
  have sound := reached.sound (sound_new io limit)
  refine ⟨?_, ?_, ?_⟩
  · intro next step
    cases records : stage.store? with
    | none => exact step.rests records
    | some store => exact step.adds sound records
  · intro later func arg value leads found
    exact (LeadsSparing.lookup_eq leads sound found).2
  · intro store next later again records step leads recordsAgain
    exact LeadsSparing.not_again records sound step leads recordsAgain

/-- An identity that is applied to another one is recorded. -/
theorem identity_is_written_once :
    ∃ stage store, Leads (.idle (Session.new ⟨.captured #[], .empty⟩ (some 9))) stage ∧
      stage.store? = some store ∧ ∀ next, stage.Next next → store.Adds stage.state next.state := by
  let session := (Session.new ⟨.captured #[], .empty⟩ (some 9)).inPrelude
  let stage := advance^[6] (start session (.ofString "(\\x.x \\y.y)") none)
  have reached : Leads (.idle (Session.new ⟨.captured #[], .empty⟩ (some 9))) stage :=
    .head .entered (.head (next_start session _ none) (leads_advance _ 6))
  have stores : stage.store?.isSome = true := by decide +kernel
  obtain ⟨store, records⟩ := Option.isSome_iff_exists.mp stores
  refine ⟨stage, store, reached, records, fun next step => ?_⟩
  have written := (entries_are_written_once reached).1 next step
  rw [records] at written
  exact written

end Stage

end LambdaMachine
