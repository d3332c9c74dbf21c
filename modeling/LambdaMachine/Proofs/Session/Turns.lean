import LambdaMachine.Proofs.Machine.Trampoline
import LambdaMachine.Session.Basic

/-!
Sessions turn by turn. Each turn parses a program and evaluates it, by the machine or in direct
style without tables; what it leaves, the next turn starts with.
-/

namespace LambdaMachine

variable {World : Type}

/-- How a program is brought to its value, given how much may be spent on it. -/
abbrev Evaluator (World : Type) :=
  Nat → Machine World → Env → Program → MachineState World →
    Option (Except EvalError Value × MachineState World)

namespace Evaluator

def memoized : Evaluator World := fun fuel machine => machine.evaluateProgram fuel

def memoFree : Evaluator World := fun depth machine env program state =>
  let (ident, mint) := state.mint.issue
  let code : Code := ⟨ident, program.arena⟩
  (machine.evalDirect false depth [] env code program.root { state with mint }).map
    fun (outcome, state) => (outcome.map (·.result.value), state)

def Computes (evaluator : Evaluator World) (memoizing : Bool) : Prop :=
  ∀ machine env program state ending after,
    (∃ fuel, evaluator fuel machine env program state = some (ending, after)) ↔
      ∃ outcome, machine.Evaluates memoizing []
        (.node env ⟨state.mint.nextIdent, program.arena⟩ program.root)
        { state with mint := state.mint.issue.2 } outcome after ∧
        ending = outcome.map (·.result.value)

theorem memoized_computes : (@memoized World).Computes true :=
  fun _ _ _ _ _ _ => Machine.evaluate_iff_evaluates

theorem memoFree_computes : (@memoFree World).Computes false := by
  intro machine env program state ending after
  constructor
  · rintro ⟨depth, ended⟩
    obtain ⟨⟨outcome, last⟩, direct, same⟩ := Option.map_eq_some_iff.mp ended
    cases same
    exact ⟨outcome, Machine.evaluates_of_evalDirect direct, rfl⟩
  · rintro ⟨outcome, ended, rfl⟩
    obtain ⟨depth, direct⟩ := Machine.evaluates_iff_evalDirect.mp ended
    exact ⟨depth, Option.map_eq_some_iff.mpr ⟨(outcome, after), direct, rfl⟩⟩

end Evaluator

structure Turn where
  source : Feed
  bindAs : Option String

def Host.KeepsNothing (host : Host World) (world : World) : Prop :=
  host.kept world = []

/-- The world has changed, and the host keeps nothing new in it. -/
def Host.Sheds (host : Host World) (world later : World) : Prop :=
  host.kept later ⊆ host.kept world

def Surroundings.TakesNotes (world later : Surroundings) : Prop :=
  later = { world with notes := #[] }

namespace Host.Session

variable {host : Host World}

def evaluateBy (evaluator : Evaluator World) (fuel : Nat) (source : Feed) (bindAs : Option String)
    (session : host.Session) : Evaluation × host.Session :=
  let (parsed, names) := Program.parse source session.names
  let state := { session.state with mint := { session.state.mint with names } }
  let session := { session with state }
  match parsed with
  | .error error => (.rejected error, session)
  | .ok program =>
      match evaluator fuel session.machine session.env program state with
      | none => (.unfinished, session)
      | some (.error error, state) => (.failed error, { session with state })
      | some (.ok value, state) =>
          let session := { session with state }
          (.finished value, bindAs.elim session fun name => session.withBinding name value)

theorem evaluate_eq_evaluateBy : @evaluate World host = evaluateBy .memoized :=
  rfl

def Ends (evaluate : Nat → Feed → Option String → host.Session → Evaluation × host.Session)
    (session : host.Session) (turn : Turn) (answer : Evaluation) (after : host.Session) : Prop :=
  answer ≠ .unfinished ∧ ∃ fuel, evaluate fuel turn.source turn.bindAs session = (answer, after)

def withNames (session : host.Session) (names : NameTable) : host.Session :=
  { session with state := { session.state with mint := { session.state.mint with names } } }

def loaded (session : host.Session) : MachineState World :=
  { session.state with mint := session.state.mint.issue.2 }

def task (session : host.Session) (program : Program) : Machine.Task :=
  .node session.env ⟨session.state.mint.nextIdent, program.arena⟩ program.root

def withResult (session : host.Session) (bindAs : Option String) (value : Value) : host.Session :=
  bindAs.elim session fun name => session.withBinding name value

inductive Takes (memoizing : Bool) (session : host.Session) (turn : Turn) :
    Evaluation → host.Session → Prop
  | rejected {error names}
      (parsed : Program.parse turn.source session.names = (.error error, names)) :
      Takes memoizing session turn (.rejected error) (session.withNames names)
  | failed {program names error state}
      (parsed : Program.parse turn.source session.names = (.ok program, names))
      (ended : session.machine.Evaluates memoizing [] ((session.withNames names).task program)
        (session.withNames names).loaded (.error error) state) :
      Takes memoizing session turn (.failed error) { session with state }
  | finished {program names found state}
      (parsed : Program.parse turn.source session.names = (.ok program, names))
      (ended : session.machine.Evaluates memoizing [] ((session.withNames names).task program)
        (session.withNames names).loaded (.ok found) state) :
      Takes memoizing session turn (.finished found.result.value)
        ({ session with state }.withResult turn.bindAs found.result.value)

theorem evaluateBy_parsed {session : host.Session} {source : Feed} {program : Program}
    {names : NameTable} (parsed : Program.parse source session.names = (.ok program, names))
    (evaluator : Evaluator World) (fuel : Nat) (bindAs : Option String) :
    session.evaluateBy evaluator fuel source bindAs =
      match evaluator fuel session.machine session.env program (session.withNames names).state with
      | none => (.unfinished, session.withNames names)
      | some (.error error, state) => (.failed error, { session with state })
      | some (.ok value, state) =>
          (.finished value, { session with state }.withResult bindAs value) := by
  simp only [evaluateBy, parsed]
  rfl

theorem ends_iff_takes {evaluator : Evaluator World} {memoizing : Bool}
    (computes : evaluator.Computes memoizing) {session after : host.Session} {turn : Turn}
    {answer : Evaluation} :
    Ends (evaluateBy evaluator) session turn answer after ↔
      Takes memoizing session turn answer after := by
  constructor
  · rintro ⟨finished, fuel, ran⟩
    cases parsed : Program.parse turn.source session.names with
    | mk result names =>
        cases result with
        | error error =>
            simp only [evaluateBy, parsed] at ran
            cases ran
            exact .rejected parsed
        | ok program =>
            rw [evaluateBy_parsed parsed] at ran
            split at ran
            · cases ran
              exact (finished rfl).elim
            · rename_i error state ended
              obtain ⟨outcome, derived, same⟩ := (computes _ _ _ _ _ _).mp ⟨fuel, ended⟩
              cases ran
              cases outcome with
              | ok found => cases same
              | error other => cases same; exact .failed parsed derived
            · rename_i value state ended
              obtain ⟨outcome, derived, same⟩ := (computes _ _ _ _ _ _).mp ⟨fuel, ended⟩
              cases ran
              cases outcome with
              | error other => cases same
              | ok found => cases same; exact .finished parsed derived
  · intro takes
    cases takes with
    | rejected parsed =>
        refine ⟨by rintro ⟨⟩, 0, ?_⟩
        simp only [evaluateBy, parsed]
        rfl
    | @failed program names error state parsed derived =>
        obtain ⟨fuel, ended⟩ := (computes session.machine session.env program
          (session.withNames names).state (.error error) state).mpr ⟨_, derived, rfl⟩
        exact ⟨by rintro ⟨⟩, fuel, by rw [evaluateBy_parsed parsed, ended]⟩
    | @finished program names found state parsed derived =>
        obtain ⟨fuel, ended⟩ := (computes session.machine session.env program
          (session.withNames names).state (.ok found.result.value) state).mpr ⟨_, derived, rfl⟩
        exact ⟨by rintro ⟨⟩, fuel, by rw [evaluateBy_parsed parsed, ended]⟩

/-- An evaluation takes a turn, unless it runs out of fuel, which leaves only the names that were
numbered. -/
theorem evaluate_cases {fuel : Nat} {source : Feed} {bindAs : Option String}
    {session after : host.Session} {answer : Evaluation}
    (ran : session.evaluate fuel source bindAs = (answer, after)) :
    Takes true session ⟨source, bindAs⟩ answer after ∨
      answer = .unfinished ∧ after = session.withNames (Program.parse source session.names).2 := by
  by_cases finished : answer = .unfinished
  · subst finished
    refine Or.inr ⟨rfl, ?_⟩
    rw [evaluate_eq_evaluateBy] at ran
    cases parsed : Program.parse source session.names with
    | mk result names =>
        cases result with
        | error error =>
            simp only [evaluateBy, parsed] at ran
            cases ran
        | ok program =>
            rw [evaluateBy_parsed parsed] at ran
            split at ran <;> cases ran
            rfl
  · have ends : Ends (evaluateBy .memoized) session ⟨source, bindAs⟩ answer after :=
      ⟨finished, fuel, ran⟩
    exact Or.inl ((ends_iff_takes Evaluator.memoized_computes).mp ends)

theorem Takes.memo_eq {session after : host.Session} {turn : Turn} {answer : Evaluation}
    (takes : Takes false session turn answer after) : after.state.memo = session.state.memo := by
  cases takes with
  | rejected _ => rfl
  | failed _ ended => exact ended.memo_eq
  | finished _ ended => cases bindAs : turn.bindAs <;> exact ended.memo_eq

/-- All turns come to an end, one after the other. With each answer goes what has been printed by
then and what is left to read. -/
inductive Plays
    (evaluate : Nat → Feed → Option String → Surroundings.Session →
      Evaluation × Surroundings.Session) :
    Surroundings.Session → List Turn → List (Evaluation × ByteIo) → Surroundings.Session → Prop
  | done {session} : Plays evaluate session [] [] session
  | turn {session turn answer middle turns answers last}
      (ends : Ends evaluate session turn answer middle)
      (rest : Plays evaluate middle turns answers last) :
      Plays evaluate session (turn :: turns) ((answer, middle.state.world.io) :: answers) last

theorem Plays.memo_eq {session last : Surroundings.Session} {turns : List Turn}
    {answers : List (Evaluation × ByteIo)}
    (plays : Plays (evaluateBy .memoFree) session turns answers last) :
    last.state.memo = session.state.memo := by
  induction plays with
  | done => rfl
  | turn ends _ ih => exact ih.trans ((ends_iff_takes Evaluator.memoFree_computes).mp ends).memo_eq

end Host.Session

end LambdaMachine
