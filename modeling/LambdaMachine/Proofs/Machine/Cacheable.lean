import LambdaMachine.Proofs.Machine.Projection
import LambdaMachine.Proofs.Machine.Underway

/-!
The flag of a value is exact. An evaluation that ends with a value is cacheable if and only if no
call was answered with something that is not, however deep in its parts or in the bodies entered on
the way. So a result is recorded if and only if nothing of the kind happened while the two parts of
its application were evaluated, and none from there on.
-/

namespace LambdaMachine

abbrev CallResult := Except BuiltinError Evaluated

/-- None of the answers is a value that is not cacheable. -/
def Unnoticed (answers : List CallResult) : Prop :=
  ∀ value, .ok ⟨value, false⟩ ∉ answers

theorem unnoticed_nil : Unnoticed [] := by
  intro value among
  cases among

theorem unnoticed_append {first second : List CallResult} :
    Unnoticed (first ++ second) ↔ Unnoticed first ∧ Unnoticed second := by
  simp only [Unnoticed, List.mem_append, not_or, forall_and]

theorem unnoticed_singleton {result : Evaluated} :
    Unnoticed [.ok result] ↔ result.cacheable = true := by
  obtain ⟨value, cacheable⟩ := result
  cases cacheable <;> simp [Unnoticed]

namespace Machine

variable {World : Type}

/-- The same machine, which also notes the answer to every call, the latest last. -/
def noting (machine : Machine World) : Machine (World × List CallResult) where
  host.apply function arg mint world :=
    let reply := machine.host.apply function arg mint world.1
    ⟨reply.result, reply.mint, reply.world, world.2 ++ [reply.result]⟩
  host.kept world := machine.host.kept world.1
  limit := machine.limit
  held := machine.held

theorem projects_noting (machine : Machine World) : machine.noting.Projects machine Prod.fst :=
  ⟨fun _ _ _ _ => rfl, fun _ => rfl, rfl, rfl⟩

def Task.cacheable : Task → Bool
  | .node _ _ _ => true
  | .application _ func arg => func.cacheable && arg.cacheable

/-- These calls were made from one state to the other, and a value is cacheable if and only if the
task was and none of them can be noticed. -/
def Flagged (task : Task) (state : MachineState (World × List CallResult)) (outcome : Outcome)
    (after : MachineState (World × List CallResult)) (made : List CallResult) : Prop :=
  after.world.2 = state.world.2 ++ made ∧ ∀ found, outcome = .ok found →
    (found.result.cacheable = true ↔ task.cacheable = true ∧ Unnoticed made)

section Flagged

variable {machine : Machine World} {env : Env} {code : Code} {id : NodeId} {func arg : Evaluated}
  {task : Task} {state middle ready after : MachineState (World × List CallResult)}
  {outcome : Outcome}

theorem flagged_silent (silent : after.world = state.world)
    (flag : ∀ found, outcome = .ok found →
      (found.result.cacheable = true ↔ task.cacheable = true)) :
    Flagged task state outcome after [] := by
  refine ⟨by rw [silent, List.append_nil], fun found ended => ?_⟩
  rw [flag found ended]
  exact (and_iff_left unnoticed_nil).symm

theorem flagged_call {function : Builtin} {made : List CallResult}
    (reply : machine.noting.callDirect env function arg.value (func.cacheable && arg.cacheable)
      state = some (outcome, after))
    (answer : made = [(machine.host.apply function arg.value state.mint state.world.1).result]) :
    Flagged (.application env func arg) state outcome after made := by
  simp only [callDirect, noting, MachineState.countCall, Option.some.injEq, Prod.mk.injEq] at reply
  obtain ⟨rfl, rfl⟩ := reply
  subst answer
  refine ⟨rfl, fun found ended => ?_⟩
  cases replied : (machine.host.apply function arg.value state.mint state.world.1).result with
  | error error => rw [replied] at ended; cases ended
  | ok result =>
      rw [replied] at ended
      cases ended
      rw [unnoticed_singleton, Task.cacheable, Bool.and_eq_true]
      exact and_comm

theorem Flagged.applied {called passed : Found} {ofOperator ofOperand made : List CallResult}
    {operator operand : NodeId}
    (first : Flagged (.node env code operator) state.countStep (.ok called) middle ofOperator)
    (second : Flagged (.node env code operand) middle (.ok passed) ready ofOperand)
    (third : Flagged (.application env called.result passed.result) ready outcome after made) :
    Flagged (.node env code id) state outcome after (ofOperator ++ ofOperand ++ made) := by
  constructor
  · rw [third.1, second.1, first.1, List.append_assoc, List.append_assoc, List.append_assoc]
    rfl
  · intro found ended
    have calledFlag := first.2 called rfl
    have passedFlag := second.2 passed rfl
    simp only [Task.cacheable, true_and] at calledFlag passedFlag
    rw [third.2 found ended, unnoticed_append, unnoticed_append, ← calledFlag, ← passedFlag,
      ← Bool.and_eq_true]
    exact (and_iff_right rfl).symm

end Flagged

/-- The flag is assembled from the operands and from the body that is entered, and in each of them
in the same way. -/
theorem Evaluates.exists_flagged {machine : Machine World} {memoizing : Bool}
    {waiting : List Frame} {task : Task} {state after : MachineState (World × List CallResult)}
    {outcome : Outcome}
    (ended : machine.noting.Evaluates memoizing waiting task state outcome after) :
    ∃ made, Flagged task state outcome after made := by
  induction ended with
  | limited _ => exact ⟨[], flagged_silent rfl (by rintro _ ⟨⟩)⟩
  | dangling _ _ => exact ⟨[], flagged_silent rfl (by rintro _ ⟨⟩)⟩
  | unbound _ _ _ => exact ⟨[], flagged_silent rfl (by rintro _ ⟨⟩)⟩
  | «variable» _ _ _ => exact ⟨[], flagged_silent rfl (by rintro _ ⟨⟩; exact Iff.rfl)⟩
  | abstraction _ _ => exact ⟨[], flagged_silent rfl (by rintro _ ⟨⟩; exact Iff.rfl)⟩
  | operatorFails _ _ _ operatorIh =>
      obtain ⟨made, flagged⟩ := operatorIh
      exact ⟨made, flagged.1, by rintro _ ⟨⟩⟩
  | operandFails _ _ _ _ operatorIh operandIh =>
      obtain ⟨ofOperator, first⟩ := operatorIh
      obtain ⟨ofOperand, second⟩ := operandIh
      refine ⟨ofOperator ++ ofOperand, ?_, by rintro _ ⟨⟩⟩
      rw [second.1, first.1, List.append_assoc]
      rfl
  | applied _ _ _ _ _ operatorIh operandIh applicationIh =>
      obtain ⟨ofOperator, first⟩ := operatorIh
      obtain ⟨ofOperand, second⟩ := operandIh
      obtain ⟨made, third⟩ := applicationIh
      exact ⟨_, first.applied second third⟩
  | notCallable _ => exact ⟨[], flagged_silent rfl (by rintro _ ⟨⟩)⟩
  | called _ reply => exact ⟨_, flagged_call reply rfl⟩
  | recalled _ cacheable _ _ =>
      refine ⟨[], flagged_silent rfl ?_⟩
      rintro _ ⟨⟩
      exact (iff_true_right cacheable).mpr rfl
  | @missed waiting env func arg state callee key outcome after _ cacheable _ _ _ bodyIh =>
      obtain ⟨made, flagged⟩ := bodyIh
      have same : (machine.noting.rememberOutcome memoizing waiting callee key outcome after).world =
          after.world := by
        cases outcome with
        | error error => rfl
        | ok found => exact machine.noting.world_remember memoizing waiting callee key found after
      refine ⟨made, same ▸ flagged.1, fun found ended => ?_⟩
      exact (flagged.2 found ended).trans (and_congr_left fun _ => (iff_true_left rfl).mpr cacheable)
  | @entered waiting env func arg state callee outcome after _ cacheable _ _ bodyIh =>
      obtain ⟨made, flagged⟩ := bodyIh
      refine ⟨made, flagged.1, fun found ended => ?_⟩
      exact (flagged.2 found ended).trans (and_congr_left fun _ => (iff_true_left rfl).mpr cacheable)
  | @tainted waiting env func arg state callee outcome after _ uncacheable _ bodyIh =>
      obtain ⟨made, flagged⟩ := bodyIh
      refine ⟨made, flagged.1, fun found ended => ?_⟩
      cases outcome with
      | error error => cases ended
      | ok inner =>
          cases ended
          simp [Task.cacheable, uncacheable]

/-- An application on the way: where it stands, what its two parts came to, and the states before
the function, before the argument, and before the body. -/
structure Entry (World : Type) where
  env : Env
  code : Code
  id : NodeId
  operator : NodeId
  operand : NodeId
  called : Found
  passed : Found
  begun : MachineState World
  middle : MachineState World
  ready : MachineState World

/-- Both parts of the application were evaluated to cacheable closures, the body of the first was
entered, and it has come to a value. -/
structure Entry.Completes (entry : Entry World) (machine : Machine World) (waiting : List Frame)
    (callee key : Closure) (found : Found) (now : MachineState World) : Prop where
  node : entry.code.arena.node? entry.id = some (.apply entry.operator entry.operand)
  operator : machine.Evaluates true (.argument entry.env entry.code entry.operand :: waiting)
    (.node entry.env entry.code entry.operator) entry.begun.countStep (.ok entry.called) entry.middle
  operand : machine.Evaluates true (.call entry.env entry.called.result :: waiting)
    (.node entry.env entry.code entry.operand) entry.middle (.ok entry.passed) entry.ready
  closure : entry.called.result.value = .closure callee
  argument : entry.passed.result.value = .closure key
  cacheable : (entry.called.result.cacheable && entry.passed.result.cacheable) = true
  body : machine.Evaluates true (.memoize callee key :: waiting)
    (.body callee entry.passed.result.value entry.ready)
    (entry.ready.entering callee entry.passed.result.value).2 (.ok found) now

inductive Records (machine : Machine World) (callee key : Closure) (rest : List Frame)
    (found : Found) (now : MachineState World) : List Frame → Task → MachineState World → Prop
  | entry {waiting task state} (entry : Entry World)
      (follows : machine.Follows (machine.begin waiting task state)
        (.moved (.node entry.env entry.code entry.id) rest entry.begun))
      (completes : entry.Completes machine rest callee key found now) :
      Records machine callee key rest found now waiting task state
  | itself {env func arg state} (closure : func.value = .closure callee)
      (argument : arg.value = .closure key) (cacheable : (func.cacheable && arg.cacheable) = true)
      (body : machine.Evaluates true (.memoize callee key :: rest) (.body callee arg.value state)
        (state.entering callee arg.value).2 (.ok found) now) :
      Records machine callee key rest found now rest (.application env func arg) state

theorem Records.within {machine : Machine World} {callee key : Closure}
    {rest waiting outer : List Frame} {found : Found} {now state start : MachineState World}
    {env : Env} {code : Code} {id : NodeId} {task : Task}
    (records : machine.Records callee key rest found now waiting (.node env code id) state)
    (before : machine.Follows (machine.begin outer task start)
      (.moved (.node env code id) waiting state)) :
    machine.Records callee key rest found now outer task start := by
  cases records with
  | entry entry follows completes => exact .entry entry (before.trans follows) completes

/-- When a result is about to be recorded, an application on the way has come to it, unless that
frame was waiting from the start. -/
theorem Underway.records {machine : Machine World} {waiting rest stack : List Frame} {task : Task}
    {focus : Focus} {state now : MachineState World} {found : Found} {callee key : Closure}
    (underway : machine.Underway waiting task state focus stack now)
    (delivered : focus = .value found.env found.result)
    (top : stack = .memoize callee key :: rest) :
    machine.Arrives waiting task state focus stack now ∨
      machine.Records callee key rest found now waiting task state := by
  induction underway with
  | begun => cases delivered
  | ended evaluated => exact .inl ⟨_, rfl, rfl, evaluated⟩
  | operator within node _ innerIh =>
      rcases innerIh delivered top with ⟨_, _, below, _⟩ | records
      · cases below.symm.trans top
      · exact .inr (records.within (follows_operator within node .refl))
  | operand within node operator _ innerIh =>
      rcases innerIh delivered top with ⟨_, _, below, _⟩ | records
      · cases below.symm.trans top
      · exact .inr (records.within (follows_operand within node operator))
  | @application waiting env code id state _ _ called middle passed ready _ _ _ within node operator
      operand _ innerIh =>
      rcases innerIh delivered top with arrives | records
      · exact .inl (arrives.map (.applied within node operator operand))
      · right
        cases records with
        | entry entry follows completes =>
            have before := follows_application within node operator operand
            exact .entry entry (before.trans follows) completes
        | itself closure argument cacheable body =>
            exact .entry ⟨env, code, id, _, _, called, passed, state, middle, ready⟩ .refl
              ⟨node, operator, operand, closure, argument, cacheable, body⟩
  | @missed waiting env func arg state _ _ _ _ _ closure cacheable argument absent _ innerIh =>
      rcases innerIh delivered top with ⟨ended, arrived, below, evaluated⟩ | records
      · -- this is the application that missed, and its body has just come to the result
        obtain ⟨⟩ := below.symm.trans top
        cases ended
        cases arrived.symm.trans delivered
        exact .inr (.itself closure argument cacheable evaluated)
      · refine .inr (records.within ?_)
        rw [begin, apply_missed closure cacheable argument absent]
        exact .refl
  | @entered waiting env func arg state _ _ _ _ closure cacheable argument _ innerIh =>
      rcases innerIh delivered top with arrives | records
      · exact .inl (arrives.map (.entered closure cacheable argument))
      · refine .inr (records.within ?_)
        rw [begin, apply_entered closure cacheable argument]
        exact .refl
  | @tainted waiting env func arg state _ _ _ _ closure uncacheable _ innerIh =>
      rcases innerIh delivered top with ⟨_, _, below, _⟩ | records
      · cases below.symm.trans top
      · refine .inr (records.within ?_)
        rw [begin, apply_tainted closure uncacheable]
        exact .refl

theorem Underway.of_follows {machine : Machine World} {task : Task} {first last : Transition World}
    {focus : Focus} {stack : List Frame} {state now : MachineState World}
    (follows : machine.Follows first last) (goesOn : last = .moved focus stack now)
    (advances : machine.Advances [] task state first) :
    machine.Underway [] task state focus stack now := by
  induction follows with
  | refl =>
      subst goesOn
      exact advances
  | step rest ih =>
      rcases Underway.advances advances with ⟨found, rfl, rfl, _⟩ | advances
      · -- the task has come to its value, and nothing waits for it
        cases rest
        cases goesOn
      · exact ih goesOn advances

/-- Noting the answers changes nothing. A value is cacheable if and only if none of the answers to
the calls of its evaluation can be noticed. A result that is about to be recorded belongs to an
application on the way, and it is recorded if and only if none of the answers can be noticed that
were given while the two parts of the application and the body were evaluated. -/
theorem flag_is_exact (machine : Machine World) (env : Env) (code : Code) (id : NodeId)
    (state : MachineState World) (earlier : List CallResult) :
    let start : MachineState (World × List CallResult) :=
      ⟨state.mint, state.memo, state.counters, (state.world, earlier)⟩
    (∀ fuel, machine.run fuel (.node env code id) [] state =
      (machine.noting.run fuel (.node env code id) [] start).map
        fun ending => (ending.1, ending.2.mapWorld Prod.fst)) ∧
    (∀ fuel result after,
      machine.noting.run fuel (.node env code id) [] start = some (.ok result, after) →
      ∃ made, after.world.2 = earlier ++ made ∧ (result.cacheable = true ↔ Unnoticed made)) ∧
    ∀ found callee key rest now,
      machine.noting.Follows (.moved (.node env code id) [] start)
        (.moved (.value found.env found.result) (.memoize callee key :: rest) now) →
      ∃ (entry : Entry (World × List CallResult)) (ofOperator ofOperand ofBody : List CallResult),
        machine.noting.Follows (.moved (.node env code id) [] start)
          (.moved (.node entry.env entry.code entry.id) rest entry.begun) ∧
        entry.Completes machine.noting rest callee key found now ∧
        entry.middle.world.2 = entry.begun.world.2 ++ ofOperator ∧
        entry.ready.world.2 = entry.middle.world.2 ++ ofOperand ∧
        now.world.2 = entry.ready.world.2 ++ ofBody ∧
        ∃ after,
          machine.noting.step (.value found.env found.result) (.memoize callee key :: rest) now =
            .moved (.value found.env found.result) rest after ∧
          (Unnoticed (ofOperator ++ ofOperand ++ ofBody) →
            after = MachineState.countStore { now with
              memo := now.memo.record callee key found.result.value
                (machine.noting.aliveAt rest callee key found now) }) ∧
          (¬Unnoticed (ofOperator ++ ofOperand ++ ofBody) → after = now) := by
  intro start
  refine ⟨fun fuel => machine.projects_noting.run fuel _ _ start, ?_, ?_⟩
  · intro fuel result after ended
    obtain ⟨outcome, evaluated, same⟩ := run_iff_evaluates.mp ⟨fuel, ended⟩
    obtain ⟨made, answers, flag⟩ := evaluated.exists_flagged
    cases outcome with
    | error error => cases same
    | ok found =>
        cases same
        exact ⟨made, answers, (flag found rfl).trans (and_iff_right rfl)⟩
  · intro found callee key rest now follows
    have underway := Underway.of_follows follows rfl .begun
    rcases underway.records rfl rfl with ⟨_, _, below, _⟩ | records
    · cases below
    · cases records with
      | entry entry before completes =>
          obtain ⟨ofOperator, first, calledFlag⟩ := completes.operator.exists_flagged
          obtain ⟨ofOperand, second, passedFlag⟩ := completes.operand.exists_flagged
          obtain ⟨ofBody, third, flag⟩ := completes.body.exists_flagged
          have clean : Unnoticed (ofOperator ++ ofOperand ++ ofBody) ↔
              found.result.cacheable = true := by
            have both := Bool.and_eq_true_iff.mp completes.cacheable
            rw [unnoticed_append, unnoticed_append, flag found rfl]
            exact and_congr_left' (iff_of_true
              ⟨((calledFlag _ rfl).mp both.1).2, ((passedFlag _ rfl).mp both.2).2⟩ rfl)
          refine ⟨entry, ofOperator, ofOperand, ofBody, before, completes, first, second, third, _,
            machine.noting.step_memoize found callee key rest now, fun unnoticed => ?_,
            fun noticed => ?_⟩
          · rw [remember, clean.mp unnoticed]
            rfl
          · rw [remember, if_neg]
            intro both
            exact noticed (clean.mpr (Bool.and_eq_true_iff.mp both).2)

/-- Applying the identity to itself makes no call; on the way its body comes to a result that is
recorded. -/
theorem identity_applied_is_recorded :
    let machine : Machine Unit :=
      ⟨⟨fun _ _ mint world => ⟨.error (.host ""), mint, world⟩, fun _ => []⟩, none, ⟨[], []⟩⟩
    let code : Code := ⟨0, ⟨#[.var 0, .lambda 0 0, .lambda 0 0, .apply 1 2]⟩⟩
    let start : MachineState (Unit × List CallResult) := ⟨⟨.empty, 1⟩, .empty, {}, ((), [])⟩
    let callee : Closure := ⟨1, .empty, 0, 0, code⟩
    let key : Closure := ⟨2, .empty, 0, 0, code⟩
    let found : Found := ⟨.bind 3 0 (.closure key) .empty, .closure key, true⟩
    let now : MachineState (Unit × List CallResult) := ⟨⟨.empty, 4⟩, .empty, ⟨4, 0, 0, 0⟩, ((), [])⟩
    (∃ result after made,
      machine.noting.run 8 (.node .empty code 3) [] start = some (.ok result, after) ∧
      after.world.2 = [] ++ made ∧ (result.cacheable = true ↔ Unnoticed made)) ∧
    machine.noting.Follows (.moved (.node .empty code 3) [] start)
      (.moved (.value found.env found.result) [.memoize callee key] now) ∧
    ∃ entry : Entry (Unit × List CallResult),
      entry.Completes machine.noting [] callee key found now := by
  intro machine code start callee key found now
  obtain ⟨_, flag, records⟩ := machine.flag_is_exact .empty code 3 ⟨⟨.empty, 1⟩, .empty, {}, ()⟩ []
  have follows : machine.noting.Follows (.moved (.node .empty code 3) [] start)
      (.moved (.value found.env found.result) [.memoize callee key] now) :=
    .step (.step (.step (.step (.step (.step .refl)))))
  refine ⟨?_, follows, ?_⟩
  · have ends : (machine.noting.run 8 (.node .empty code 3) [] start).any
        (fun ending => ending.1.isOk) = true := by decide +kernel
    obtain ⟨⟨outcome, after⟩, ended, isOk⟩ := (Option.any_eq_true _ _).mp ends
    cases outcome with
    | error error => cases isOk
    | ok result =>
        obtain ⟨made, answers, exact⟩ := flag 8 result after ended
        exact ⟨result, after, made, ended, answers, exact⟩
  · obtain ⟨entry, _, _, _, _, completes, _⟩ := records found callee key [] now follows
    exact ⟨entry, completes⟩

end Machine

end LambdaMachine
