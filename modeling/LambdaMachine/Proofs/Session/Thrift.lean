import LambdaMachine.Proofs.Prelude.Thrift
import LambdaMachine.Proofs.Session.Stages

/-!
What the tables that a session has filled are good for. Whatever is evaluated next, with them it
takes no more steps and no more calls of host functions than without, so no evaluation fails for
its limit because of them.
-/

namespace LambdaMachine

theorem Counters.bump_le_largest {count : Nat} (bounded : count ≤ Counters.largest) :
    Counters.bump count ≤ Counters.largest := by
  rw [bump_eq_min bounded]
  exact Nat.min_le_right _ _

theorem Counters.iterate_bump_eq_min {count : Nat} (ahead : Nat)
    (bounded : count ≤ Counters.largest) :
    Counters.bump^[ahead] count = min (count + ahead) Counters.largest := by
  induction ahead generalizing count with
  | zero => exact (Nat.min_eq_left bounded).symm
  | succ ahead ih =>
      rw [Function.iterate_succ_apply, ih (bump_le_largest bounded), bump_eq_min bounded]
      omega

section Bounded

variable {World : Type} {machine : Machine World}

theorem Machine.steps_step_le (focus : Focus) (stack : List Frame) {state : MachineState World}
    (bounded : state.counters.steps ≤ Counters.largest) :
    (machine.step focus stack state).state.counters.steps ≤ Counters.largest := by
  cases focus with
  | value env result => exact Nat.le_trans (Nat.le_of_eq (deliver_descends env result).steps) bounded
  | node env code id =>
      have visited := Counters.bump_le_largest bounded
      rw [step]
      split
      · exact visited
      · exact Nat.le_trans (Nat.le_of_eq (evalNode_keeps env code id).1) visited

end Bounded

theorem Host.Session.counters_inPrelude (session : Surroundings.Session) :
    session.inPrelude.state.counters = session.state.counters := by
  unfold inPrelude
  generalize Prelude.environment [] session.state.mint = made
  rfl

namespace Host.Stage

def Bounded (stage : Surroundings.Stage) : Prop :=
  stage.state.counters.steps ≤ Counters.largest

theorem Next.bounded {stage next : Surroundings.Stage} (step : stage.Next next)
    (bounded : stage.Bounded) :
    next.Bounded := by
  cases step with
  | limited limit => exact Nat.zero_le _
  | @entered session =>
      rw [Bounded, state, Session.counters_inPrelude]
      exact bounded
  | rejected _ => exact bounded
  | started _ _ => exact bounded
  | @moved session _ focus _ stack _ state _ step =>
      have stepped := @Machine.steps_step_le _ session.machine focus stack state bounded
      rw [step] at stepped
      exact stepped
  | @halted session bindAs focus stack state _ outcome step =>
      have stepped := @Machine.steps_step_le _ session.machine focus stack state bounded
      rw [step] at stepped
      cases outcome with
      | error error => exact stepped
      | ok result => cases bindAs <;> exact stepped

theorem Leads.bounded {stage later : Surroundings.Stage} (leads : stage.Leads later)
    (bounded : stage.Bounded) :
    later.Bounded := by
  induction leads with
  | refl => exact bounded
  | tail _ step ih => exact step.bounded ih

end Host.Stage

namespace Host.Session

open Machine

variable {session : Surroundings.Session} {names : NameTable}

theorem exists_sound_loaded {io : ByteIo} {limit : Option Nat}
    (reached : (Stage.idle (Session.new io limit)).Leads (.idle session))
    (interns : session.names.Interns names) (program : Program) :
    ∃ catalog, Sound catalog (session.withNames names).loaded ∧
      ((session.withNames names).task program).Known catalog := by
  obtain ⟨catalog, backed, known⟩ := reached.sound (Stage.sound_new io limit)
  have named := withNames_backed backed interns
  have loaded : Backed catalog (session.withNames names).loaded :=
    named.grow rfl (.refl _) (.skip named.bounded (Nat.le_succ _))
  exact ⟨catalog, loaded.sound, known⟩

end Host.Session

namespace Session

open Host.Session Machine

variable {session : Session} {names : NameTable}

/-- In every session that can be reached, with whatever limits and failures on the way: what the
evaluator without tables finishes, the machine finishes with the same outcome apart from
identities, by at most as many visits of nodes and at most as many calls of host functions. And
what the evaluator without tables finishes under a limit, the machine finishes under that limit. -/
theorem tables_never_cost_steps {io : ByteIo} {limit : Option Nat}
    (reached : (Host.Stage.idle (Session.new io limit)).Leads (.idle session))
    (interns : session.names.Interns names) (program : Program) :
    let next := session.withNames names
    let code : Code := ⟨next.state.mint.nextIdent, program.arena⟩
    let start : Focus := .node next.env code program.root
    (∀ outcome after effort,
      (next.machine.withLimit none).Costs false [] (next.task program) next.loaded outcome after
        effort →
      ∃ fuel ending last,
        (next.machine.withLimit none).run fuel start [] next.loaded = some (ending, last) ∧
        ending.map Evaluated.erase = eraseOutcome outcome ∧ last.scene = after.scene ∧
        (next.machine.withLimit none).effort fuel start [] next.loaded ≤ effort) ∧
    ∀ bound outcome after,
      (next.machine.withLimit (some bound)).Evaluates false [] (next.task program) next.loaded
        outcome after →
      (∀ limit, outcome ≠ .error (.stepLimit limit)) →
      ∃ fuel ending last,
        (next.machine.withLimit (some bound)).run fuel start [] next.loaded = some (ending, last) ∧
        ending.map Evaluated.erase = eraseOutcome outcome ∧ last.scene = after.scene ∧
        ∀ limit, ending ≠ .error (.stepLimit limit) := by
  intro next code start
  obtain ⟨catalog, sound, known⟩ := exists_sound_loaded reached interns program
  have thrifty (outcome : Outcome) (after : MachineState Surroundings) (effort : Effort)
      (free : (next.machine.withLimit none).Costs false [] (next.task program) next.loaded outcome
        after effort) : ∃ fuel ending last,
      (next.machine.withLimit none).run fuel start [] next.loaded = some (ending, last) ∧
        ending.map Evaluated.erase = eraseOutcome outcome ∧ last.scene = after.scene ∧
        (next.machine.withLimit none).effort fuel start [] next.loaded ≤ effort := by
    obtain ⟨ending, last, spent, costs, sameOutcome, sameScene, less⟩ :=
      free.exists_memoizing rfl rfl sound known
    obtain ⟨fuel, ran, spends⟩ := costs.run
    refine ⟨fuel, _, last, ran, ?_, sameScene, Effort.le_trans (spends ▸ Effort.le_refl _) less⟩
    rw [← sameOutcome]
    cases ending <;> rfl
  refine ⟨thrifty, fun bound outcome after ended within => ?_⟩
  obtain ⟨effort, free⟩ := (ended.withoutLimit within).exists_costs
  obtain ⟨fuel, ending, last, ran, sameOutcome, sameScene, less⟩ := thrifty outcome after effort free
  have bounded : next.loaded.counters.steps ≤ Counters.largest :=
    reached.bounded (Nat.zero_le _)
  have fits : min (next.loaded.counters.steps + effort.visits) Counters.largest ≤ bound := by
    rw [← Counters.iterate_bump_eq_min _ bounded, ← free.shows.steps]
    exact ended.steps_le rfl within
  have visits := less.1
  rw [visits_effort] at visits
  have same := @run_withLimit _ next.machine bound start [] next.loaded fuel bounded (by omega)
  refine ⟨fuel, ending, last, same.trans ran, sameOutcome, sameScene, fun limit cut => ?_⟩
  subst cut
  exact within limit (eraseOutcome_eq_error sameOutcome.symm)

/-- The identity applied to itself, in the prelude of a new session: four visits are enough, and so
is a limit of four. -/
theorem identity_of_itself_costs_four :
    let session := opened ⟨.silent, .buffer [7]⟩
    let machine := session.machine
    let start : Focus := .node session.env
      ⟨session.state.mint.nextIdent, ⟨#[.var 0, .lambda 0 0, .apply 1 1]⟩⟩ 2
    (∃ fuel ending last,
      (machine.withLimit none).run fuel start [] session.loaded = some (ending, last) ∧
      (machine.withLimit none).effort fuel start [] session.loaded ≤ ⟨4, 0⟩) ∧
    ∃ fuel ending last,
      (machine.withLimit (some 4)).run fuel start [] session.loaded = some (ending, last) ∧
      ∀ limit, ending ≠ .error (.stepLimit limit) := by
  intro session machine start
  have reached : (Host.Stage.idle (Session.new ⟨.silent, .buffer [7]⟩ none)).Leads (.idle session) :=
    .single .entered
  have thrifty := tables_never_cost_steps reached .refl ⟨⟨#[.var 0, .lambda 0 0, .apply 1 1]⟩, 2, 0⟩
  constructor
  · obtain ⟨fuel, ending, last, ran, _, _, less⟩ := thrifty.1 _ _ _
      (.applied rfl rfl (.abstraction rfl rfl) (.abstraction rfl rfl)
        (.missed rfl rfl rfl rfl (.variable rfl rfl rfl)))
    exact ⟨fuel, ending, last, ran, less⟩
  · obtain ⟨fuel, ending, last, ran, _, _, within⟩ := thrifty.2 4 _ _
      (.applied rfl rfl (.abstraction rfl rfl) (.abstraction rfl rfl)
        (.missed rfl rfl rfl rfl (.variable rfl rfl rfl))) (by rintro _ ⟨⟩)
    exact ⟨fuel, ending, last, ran, within⟩

end Session

end LambdaMachine
