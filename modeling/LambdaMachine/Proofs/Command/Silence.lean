import LambdaMachine.Command.Basic
import LambdaMachine.Proofs.Machine.Trampoline
import LambdaMachine.Proofs.Prelude.Muting
import LambdaMachine.Proofs.Prelude.Yields

/-!
What a program comes to does not depend on whether its output is heard. Tables are another matter:
printing into nothing is no effect, so a silent run records results that a run with output does not,
and the two take different steps. They still end alike, since each agrees with the reduction rules.
-/

namespace LambdaMachine

theorem Value.text_erase (value : Value) (names : NameTable) :
    value.erase.text names = value.text names := by
  cases value with
  | closure closure =>
      rw [Value.erase, Value.text, Value.text, closure.erase_eq]
      rfl
  | builtin function =>
      rw [Value.erase, Value.text, Value.text, function.erase_eq]
  | datum ident data => rw [Value.erase, Value.text, Value.text]

namespace Machine

def shown (ending : Except EvalError Evaluated × MachineState Surroundings) :
    Except EvalError String × Input :=
  (ending.1.map fun result => result.value.text ending.2.mint.names, ending.2.world.io.input)

theorem shown_eq (outcome : Outcome) (after : MachineState Surroundings) :
    shown (outcome.map (·.result), after) =
      ((bareOutcome (eraseOutcome outcome)).map fun value => value.text after.scene.mute.names,
        after.scene.mute.world.io.input) := by
  cases outcome with
  | error error => rfl
  | ok found =>
      have sameText := found.result.value.text_erase after.scene.names
      exact congrArg (fun text => (Except.ok text, after.world.io.input)) sameText.symm

structure Trusted (machine : Machine Surroundings) (env : Env) (state : MachineState Surroundings) :
    Prop where
  prelude : machine.host = Surroundings.host
  unlimited : machine.limit = none
  tables : ∃ catalog, Sound catalog state ∧ env.Known catalog

section Alike

variable {machine other : Machine Surroundings} {env : Env} {code : Code} {id : NodeId}
  {state start : MachineState Surroundings}

theorem Evaluates.exists_of_sameUnheard {outcome : Outcome} {after : MachineState Surroundings}
    (ended : machine.Evaluates true [] (.node env code id) state outcome after)
    (trusted : machine.Trusted env state) (otherTrusted : other.Trusted env start)
    (same : start.scene.SameUnheard state.scene) :
    ∃ ending last, other.Evaluates true [] (.node env code id) start ending last ∧
      shown (ending.map (·.result), last) = shown (outcome.map (·.result), after) := by
  obtain ⟨catalog, sound, known⟩ := trusted.tables
  obtain ⟨otherCatalog, otherSound, otherKnown⟩ := otherTrusted.tables
  have plain := (ended.faithful trusted.prelude trusted.unlimited sound known).steady.plain
  obtain ⟨bare, scene, again, sameBare, sameScene⟩ := plain.exists_of_sameUnheard (.refl _) same
  have realized := @Plain.realized other _ _ _ true otherTrusted.prelude otherTrusted.unlimited
    _ again
  obtain ⟨ending, last, derived⟩ := @realized (.node env code id) _ _ [] rfl rfl otherSound
    otherKnown
  obtain ⟨sameEnding, sameLast, _⟩ := derived.outcome_eq otherTrusted.prelude
    otherTrusted.unlimited otherSound otherKnown again
  refine ⟨ending, last, derived, ?_⟩
  rw [shown_eq, shown_eq, sameEnding, sameBare, sameLast, sameScene.mute]

/-- Two runs that go on for ever, or end with the same text or error and with the same input
left. -/
def EndsAlike (left right : Nat → Option (Except EvalError Evaluated × MachineState Surroundings)) :
    Prop :=
  (Diverges left ∧ Diverges right) ∨
    ∃ ending other, Settles left ending ∧ Settles right other ∧ shown ending = shown other

theorem Trusted.endsAlike (trusted : machine.Trusted env state)
    (otherTrusted : other.Trusted env start) (same : start.scene.SameUnheard state.scene) :
    EndsAlike (fun fuel => machine.run fuel (.node env code id) [] state)
      (fun fuel => other.run fuel (.node env code id) [] start) := by
  -- each of the two ends if the other does, so neither can go on for ever alone
  by_cases ends : ∃ outcome after, machine.Evaluates true [] (.node env code id) state outcome after
  · obtain ⟨outcome, after, ended⟩ := ends
    obtain ⟨ending, last, again, sameShown⟩ := ended.exists_of_sameUnheard trusted otherTrusted same
    exact Or.inr ⟨_, _, ended.settles_run, again.settles_run, sameShown.symm⟩
  · refine Or.inl ⟨diverges_run ends, diverges_run ?_⟩
    rintro ⟨outcome, after, ended⟩
    obtain ⟨ending, last, again, _⟩ := ended.exists_of_sameUnheard otherTrusted trusted same.symm
    exact ends ⟨ending, last, again⟩

theorem Trusted.silent_of_settles {ending : Except EvalError Evaluated × MachineState Surroundings}
    (trusted : machine.Trusted env state) (silent : state.world.io.output.isSilent = true)
    (settles : Settles (fun fuel => machine.run fuel (.node env code id) [] state) ending) :
    ending.2.world.io.output = .silent := by
  obtain ⟨catalog, sound, known⟩ := trusted.tables
  obtain ⟨bound, settled⟩ := settles
  obtain ⟨outcome, ended, _⟩ := run_iff_evaluates.mp ⟨bound, settled bound (Nat.le_refl bound)⟩
  have faithful := ended.faithful trusted.prelude trusted.unlimited sound known
  have still := faithful.steady.before.silent.trans silent
  change ending.2.world.io.output.isSilent = true at still
  cases output : ending.2.world.io.output with
  | silent => rfl
  | stdout stream => rw [output] at still; cases still
  | captured bytes => rw [output] at still; cases still

end Alike

end Machine

namespace Command

/-- What all launches of a program have in common: they set out with empty tables, from a clean
environment where the closures of the prelude can be had. -/
theorem exists_launch (program : Program) (names : NameTable) :
    ∃ env ident mint catalog,
      (∀ options io, launch options program names io =
        { machine := ⟨Surroundings.host, options.maxSteps, ⟨[env], []⟩⟩
          focus := .node env ⟨ident, program.arena⟩ program.root
          state := ⟨mint, .empty, {}, ⟨io, #[]⟩⟩ }) ∧
      catalog.Bounded mint.nextIdent ∧ env.Known catalog ∧ names.Interns mint.names ∧
      env.Clean mint.names ∧ (names.Coherent → Prelude.Offers env mint.names) := by
  have made := Prelude.exists_catalog_environment { Mint.new with names }
  have clean := Prelude.clean_environment { Mint.new with names }
  have offers := @Prelude.environment_offers { Mint.new with names }
  unfold launch
  generalize Prelude.environment [] { Mint.new with names } = environment at made clean offers ⊢
  obtain ⟨env, mint⟩ := environment
  obtain ⟨catalog, bounded, known⟩ := made
  exact ⟨env, mint.nextIdent, mint.issue.2, catalog, fun _ _ => rfl, bounded.mono (Nat.le_succ _),
    known, clean.1, clean.2, fun coherent => (offers coherent).2⟩

end Command

def Launch.answers (start : Launch) (fuel : Nat) :
    Option (Except EvalError Evaluated × MachineState Surroundings) :=
  start.machine.run fuel start.focus [] start.state

namespace Command

def reportOf (io : ByteIo) (sink : Sink) : Except EvalError String → Report
  | .error error => ⟨.error (.eval error), io, sink⟩
  | .ok text => .ofLine io sink text

theorem conclude_result (sink : Sink)
    {ending : Except EvalError Evaluated × MachineState Surroundings}
    (silent : ending.2.world.io.output = .silent) :
    conclude { mode := .result } sink ending.1 ending.2 =
      reportOf ending.2.world.io sink (Machine.shown ending).1 := by
  obtain ⟨outcome, mint, memo, counters, ⟨⟨output, input⟩, notes⟩⟩ := ending
  cases silent
  cases outcome with
  | error error => rfl
  | ok result => rfl

theorem exists_launch_of_prepare {source : Feed} {options : Options} {io : ByteIo} {sink : Sink}
    {start : Launch} (prepared : prepare source options io sink = .inr start) :
    ∃ program names, Program.parse source .empty = (.ok program, names) ∧
      start = launch options program names io := by
  rw [prepare] at prepared
  split at prepared
  · cases prepared
  · rename_i program names parsed
    split at prepared
    · cases prepared
    · cases prepared
      exact ⟨program, names, parsed, rfl⟩

theorem prepare_of_parsed {source : Feed} {program : Program} {names : NameTable}
    (parsed : Program.parse source .empty = (.ok program, names)) {options : Options}
    (evaluates : options.mode ≠ .parsed) (io : ByteIo) (sink : Sink) :
    prepare source options io sink = .inr (launch options program names io) := by
  rw [prepare, parsed]
  dsimp only
  split
  · rename_i mode
    exact (evaluates mode).elim
  · rfl

theorem launches_endAlike (program : Program) (names : NameTable) (input : Input)
    (bytes : Array UInt8) (sink : Sink) :
    let silent := launch { mode := .result } program names ⟨.silent, input⟩
    let heard := launch { mode := .output } program names ⟨.captured bytes, input⟩
    Machine.EndsAlike silent.answers heard.answers ∧
      ∀ ending, Machine.Settles heard.answers ending →
        Machine.Settles (fun fuel => (silent.answers fuel).map fun ending =>
            conclude { mode := .result } sink ending.1 ending.2)
          (reportOf ⟨.silent, (Machine.shown ending).2⟩ sink (Machine.shown ending).1) := by
  obtain ⟨env, ident, mint, catalog, launched, bounded, known, _⟩ := exists_launch program names
  have trusted (io : ByteIo) : Machine.Trusted ⟨Surroundings.host, none, ⟨[env], []⟩⟩ env
      ⟨mint, .empty, {}, ⟨io, #[]⟩⟩ :=
    ⟨rfl, rfl, catalog, ⟨bounded, Memo.lawful_empty _ _ _⟩, known⟩
  rw [launched, launched]
  intro silent heard
  have alike : Machine.EndsAlike silent.answers heard.answers :=
    (trusted ⟨.silent, input⟩).endsAlike (trusted ⟨.captured bytes, input⟩) ⟨rfl, trivial, trivial⟩
  refine ⟨alike, fun ending settles => ?_⟩
  rcases alike with ⟨_, diverges⟩ | ⟨left, right, leftSettles, rightSettles, same⟩
  · exact (diverges.not_settles settles).elim
  · obtain rfl := rightSettles.unique settles
    have output := (trusted ⟨.silent, input⟩).silent_of_settles rfl leftSettles
    have io : left.2.world.io = ⟨.silent, (Machine.shown left).2⟩ := by
      rw [← output]
      rfl
    have reported := leftSettles.map fun ending =>
      conclude { mode := .result } sink ending.1 ending.2
    rw [conclude_result sink output, io, same] at reported
    exact reported

/-- A program that is run silently for its value and one that is run for its output are rejected
alike, or go on for ever both, or end alike; and what is reported as the value of the first is what
the second ends with. -/
theorem silence_keeps_results (source : Feed) (input : Input) (bytes : Array UInt8) (sink : Sink) :
    (∃ error,
      prepare source { mode := .result } ⟨.silent, input⟩ sink =
        .inl ⟨.error (.parse error), ⟨.silent, input⟩, sink⟩ ∧
      prepare source { mode := .output } ⟨.captured bytes, input⟩ sink =
        .inl ⟨.error (.parse error), ⟨.captured bytes, input⟩, sink⟩) ∨
    ∃ silent heard,
      prepare source { mode := .result } ⟨.silent, input⟩ sink = .inr silent ∧
      prepare source { mode := .output } ⟨.captured bytes, input⟩ sink = .inr heard ∧
      Machine.EndsAlike silent.answers heard.answers ∧
      ∀ ending, Machine.Settles heard.answers ending →
        Machine.Settles (fun fuel => run fuel source { mode := .result } ⟨.silent, input⟩ sink)
          (reportOf ⟨.silent, (Machine.shown ending).2⟩ sink (Machine.shown ending).1) := by
  cases parsed : Program.parse source .empty with
  | mk result names =>
      cases result with
      | error error =>
          refine Or.inl ⟨error, ?_, ?_⟩
          · rw [prepare, parsed]
          · rw [prepare, parsed]
      | ok program =>
          have muted := @prepare_of_parsed source program names parsed { mode := .result } (by simp)
            ⟨.silent, input⟩ sink
          have audible := @prepare_of_parsed source program names parsed { mode := .output }
            (by simp) ⟨.captured bytes, input⟩ sink
          obtain ⟨alike, reports⟩ := launches_endAlike program names input bytes sink
          refine Or.inr ⟨_, _, muted, audible, alike, fun ending settles => ?_⟩
          simp only [run, muted]
          exact reports ending settles

end Command

end LambdaMachine
