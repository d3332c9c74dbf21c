import LambdaMachine.Proofs.Machine.Underway
import LambdaMachine.Proofs.Prelude.Pure
import LambdaMachine.Proofs.Session.Transparency
import Mathlib.Logic.Function.Iterate
import Mathlib.Logic.Relation

/-!
Sessions step by step. Between its evaluations a session is idle, and an evaluation is a run of
machine steps. However far a session has got, with whatever limits and whatever outcomes, its tables
hold results of pure runs, and the evaluation that is underway began with such tables.
-/

namespace LambdaMachine

variable {World : Type}

inductive Host.Stage (host : Host World) where
  | idle (session : host.Session)
  | running (session : host.Session) (bindAs : Option String) (focus : Focus) (stack : List Frame)
      (state : MachineState World)

def Host.Session.afterEvaluation {host : Host World} (session : host.Session)
    (bindAs : Option String)
    (outcome : Except EvalError Evaluated) (state : MachineState World) : host.Session :=
  match outcome with
  | .error _ => { session with state }
  | .ok result => ({ session with state } : host.Session).withResult bindAs result.value

namespace Host.Stage

variable {host : Host World}

def state : host.Stage → MachineState World
  | .idle session => session.state
  | .running _ _ _ _ state => state

/-- What can happen next in a session: a new limit, a prelude to begin with or to begin again, a
source that is rejected or evaluated, and the steps of its evaluation. -/
inductive Next : host.Stage → host.Stage → Prop
  | limited {session : host.Session} (limit : Option Nat) :
      Next (.idle session) (.idle (session.resetCounters limit))
  | entered {session : host.Session} : Next (.idle session) (.idle session.inPrelude)
  | rejected {session : host.Session} {source : Feed} {error : ParseError} {names : NameTable}
      (parsed : Program.parse source session.names = (.error error, names)) :
      Next (.idle session) (.idle (session.withNames names))
  | started {session : host.Session} {source : Feed} {program : Program} {names : NameTable}
      (parsed : Program.parse source session.names = (.ok program, names))
      (bindAs : Option String) :
      Next (.idle session)
        (.running (session.withNames names) bindAs
          (.node session.env ⟨(session.withNames names).state.mint.nextIdent, program.arena⟩
            program.root) [] (session.withNames names).loaded)
  | moved {session : host.Session} {bindAs : Option String} {focus focus' : Focus}
      {stack stack' : List Frame} {state state' : MachineState World}
      (step : session.machine.step focus stack state = .moved focus' stack' state') :
      Next (.running session bindAs focus stack state)
        (.running session bindAs focus' stack' state')
  | halted {session : host.Session} {bindAs : Option String} {focus : Focus} {stack : List Frame}
      {state state' : MachineState World} {outcome : Except EvalError Evaluated}
      (step : session.machine.step focus stack state = .halted outcome state') :
      Next (.running session bindAs focus stack state)
        (.idle (session.afterEvaluation bindAs outcome state'))

abbrev Leads : host.Stage → host.Stage → Prop :=
  Relation.ReflTransGen Next

def start (session : host.Session) (source : Feed) (bindAs : Option String) : host.Stage :=
  match Program.parse source session.names with
  | (.error _, names) => .idle (session.withNames names)
  | (.ok program, names) =>
      .running (session.withNames names) bindAs
        (.node session.env ⟨(session.withNames names).state.mint.nextIdent, program.arena⟩
          program.root) [] (session.withNames names).loaded

def advance : host.Stage → host.Stage
  | .idle session => .idle session
  | .running session bindAs focus stack state =>
      match session.machine.step focus stack state with
      | .moved focus stack state => .running session bindAs focus stack state
      | .halted outcome state => .idle (session.afterEvaluation bindAs outcome state)

theorem next_start (session : host.Session) (source : Feed) (bindAs : Option String) :
    Next (.idle session) (start session source bindAs) := by
  unfold start
  split
  · rename_i parsed
    exact .rejected parsed
  · rename_i parsed
    exact .started parsed bindAs

theorem leads_advance (stage : host.Stage) (count : Nat) : stage.Leads (advance^[count] stage) := by
  induction count generalizing stage with
  | zero => exact .refl
  | succ count ih =>
      refine Relation.ReflTransGen.trans ?_ (ih stage.advance)
      cases stage with
      | idle session => exact .refl
      | running session bindAs focus stack state =>
          rw [advance]
          cases step : session.machine.step focus stack state with
          | moved focus' stack' state' => exact .single (.moved step)
          | halted outcome last => exact .single (.halted step)

theorem leads_of_run {session : host.Session} {fuel : Nat} {focus : Focus} {stack : List Frame}
    {state last : MachineState World} {outcome : Except EvalError Evaluated}
    (ended : session.machine.run fuel focus stack state = some (outcome, last))
    (bindAs : Option String) :
    Leads (.running session bindAs focus stack state)
      (.idle (session.afterEvaluation bindAs outcome last)) := by
  induction fuel generalizing focus stack state with
  | zero => cases ended
  | succ fuel ih =>
      rw [Machine.run] at ended
      cases step : session.machine.step focus stack state with
      | moved focus' stack' state' =>
          rw [step] at ended
          exact Relation.ReflTransGen.head (.moved step) (ih ended)
      | halted outcome last =>
          rw [step] at ended
          cases ended
          exact Relation.ReflTransGen.single (.halted step)

/-- An evaluation that ends is such a run. -/
theorem leads_of_evaluate {fuel : Nat} {source : Feed} {bindAs : Option String}
    {session after : host.Session} {answer : Evaluation}
    (ran : session.evaluate fuel source bindAs = (answer, after))
    (finished : answer ≠ .unfinished) :
    Leads (.idle session) (.idle after) := by
  rcases Session.evaluate_cases ran with takes | ⟨unfinished, _⟩
  · cases takes with
    | rejected parsed => exact Relation.ReflTransGen.single (.rejected parsed)
    | @failed program names error state parsed ended =>
        obtain ⟨fuel, ran⟩ := Machine.run_iff_evaluates.mpr ⟨_, ended, rfl⟩
        have leads := @leads_of_run _ _ (session.withNames names) _ _ _ _ _ _ ran bindAs
        exact Relation.ReflTransGen.head (.started parsed bindAs) leads
    | @finished program names found state parsed ended =>
        obtain ⟨fuel, ran⟩ := Machine.run_iff_evaluates.mpr ⟨_, ended, rfl⟩
        have leads := @leads_of_run _ _ (session.withNames names) _ _ _ _ _ _ ran bindAs
        exact Relation.ReflTransGen.head (.started parsed bindAs) leads
  · exact (finished unfinished).elim

end Host.Stage

abbrev Surroundings.Stage := host.Stage

abbrev Stage := Surroundings.Stage

section Backed

open Machine

variable {session : Surroundings.Session} {catalog : Catalog}

theorem Host.Session.withNames_backed {names : NameTable} (backed : Backed catalog session.state)
    (interns : session.names.Interns names) :
    Backed catalog (session.withNames names).state :=
  backed.grow rfl ⟨interns.extends, rfl, id⟩ (.refl backed.bounded)

theorem Host.Session.exists_backed_inPrelude (backed : Backed catalog session.state) :
    ∃ later, Backed later session.inPrelude.state ∧ session.inPrelude.env.Known later := by
  have made := @Prelude.forms_environment (fun function => function.operation.Native) _
    session.state.mint backed.bounded (fun _ native => native) [] (List.forall_mem_nil _)
  have interns : session.state.mint.names.Interns
      (Prelude.environment [] session.state.mint).2.names := by
    obtain ⟨_, _, _, _, _, _, interns, _, same, _⟩ := Prelude.exists_base session.state.mint
    rw [same]
    exact interns
  unfold Host.Session.inPrelude
  generalize Prelude.environment [] session.state.mint = environment at made interns ⊢
  obtain ⟨env, mint⟩ := environment
  obtain ⟨later, grows, known⟩ := made
  exact ⟨later, backed.grow rfl ⟨interns.extends, rfl, id⟩ grows, known⟩

theorem Host.Session.exists_backed_afterEvaluation {task : Task}
    {start state : MachineState Surroundings} {outcome : Outcome} {later : Catalog}
    (grounded : Grounded catalog task start outcome state later)
    (known : session.env.Known catalog) (bindAs : Option String) :
    let after := session.afterEvaluation bindAs (outcome.map (·.result)) state
    Backed later after.state ∧ after.env.Known later := by
  have envKnown := known.mono grounded.grows
  cases outcome with
  | error error => exact ⟨grounded.backed, envKnown⟩
  | ok found =>
      have resultKnown := grounded.known found rfl
      cases bindAs with
      | none => exact ⟨grounded.backed, envKnown⟩
      | some name =>
          refine ⟨grounded.backed.grow rfl ⟨NameTable.extends_intern _ _, rfl, id⟩ ?_,
            envKnown.extend resultKnown _ _⟩
          exact .skip grounded.backed.bounded (Nat.le_succ _)

def Host.Stage.Sound : Surroundings.Stage → Prop
  | .idle session => ∃ catalog, Backed catalog session.state ∧ session.env.Known catalog
  | .running session _ focus stack state => ∃ catalog code id start, Backed catalog start ∧
      session.env.Known catalog ∧
      session.machine.Underway [] (.node session.env code id) start focus stack state

theorem Host.Stage.sound_new (io : ByteIo) (limit : Option Nat) :
    (Stage.idle (Session.new io limit)).Sound := by
  refine ⟨fun _ => none, ⟨?_, Memo.lawful_empty _ _ _⟩, Env.known_empty _⟩
  intro ident closure listed
  cases listed

theorem Host.Stage.Next.sound {stage next : Surroundings.Stage} (step : stage.Next next)
    (sound : stage.Sound) :
    next.Sound := by
  cases step with
  | limited limit =>
      obtain ⟨catalog, backed, known⟩ := sound
      exact ⟨catalog, ⟨backed.bounded, backed.lawful⟩, known⟩
  | entered =>
      obtain ⟨catalog, backed, _⟩ := sound
      exact Host.Session.exists_backed_inPrelude backed
  | @rejected session source error names parsed =>
      obtain ⟨catalog, backed, known⟩ := sound
      have interns := Program.interns_parse source session.names
      rw [parsed] at interns
      exact ⟨catalog, Host.Session.withNames_backed backed interns, known⟩
  | @started session source program names parsed bindAs =>
      obtain ⟨catalog, backed, known⟩ := sound
      have interns := Program.interns_parse source session.names
      rw [parsed] at interns
      have named : Backed catalog (session.withNames names).state :=
        Host.Session.withNames_backed backed interns
      have loaded : Backed catalog (session.withNames names).loaded :=
        named.grow rfl (.refl _) (.skip named.bounded (Nat.le_succ _))
      exact ⟨catalog, _, _, _, loaded, known, .begun⟩
  | moved step =>
      obtain ⟨catalog, code, id, start, backed, known, underway⟩ := sound
      exact ⟨catalog, code, id, start, backed, known, underway.moved step⟩
  | @halted session bindAs focus stack state state' outcome step =>
      obtain ⟨catalog, code, id, start, backed, known, underway⟩ := sound
      obtain ⟨ending, rfl, evaluated⟩ := underway.halted step
      obtain ⟨later, grounded⟩ := evaluated.grounded rfl backed known
      exact ⟨later, Host.Session.exists_backed_afterEvaluation grounded known bindAs⟩

theorem Host.Stage.Leads.sound {stage later : Surroundings.Stage} (leads : stage.Leads later)
    (sound : stage.Sound) :
    later.Sound := by
  induction leads with
  | refl => exact sound
  | tail _ step ih => exact step.sound ih

end Backed

end LambdaMachine
