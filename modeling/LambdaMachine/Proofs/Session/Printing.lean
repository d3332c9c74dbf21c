import LambdaMachine.Proofs.Prelude.Printer
import LambdaMachine.Proofs.Session.Orderly

/-!
Printing in a session. However far a session has got, and whatever its tables hold by then, the
closure of the prelude that is applied to a numeral prints the byte of its number and hands it back.
-/

namespace LambdaMachine

namespace Machine

/-- From here the machine gets to the numeral, which it delivers to `rest`. On the way output that
is heard has got the byte of its number, and one host function more has been called than it counts;
where output is silent, nothing has happened outside. -/
def PrintsNumeral (machine : Machine Surroundings) (focus : Focus) (stack rest : List Frame)
    (state : MachineState Surroundings) (number : Closure) (count : Nat) : Prop :=
  ∃ steps env cacheable after,
    (∀ fuel, machine.run (fuel + steps) focus stack state =
      machine.run fuel (.value env ⟨.closure number, cacheable⟩) rest after) ∧
    (state.world.io.output.isSilent = false →
      ∃ octet : UInt8, octet.toNat = count % 256 ∧
        after.world = { state.world with io := state.world.io.write octet } ∧
        (machine.effort steps focus stack state).calls = count + 1 ∧
        after.counters.calls = Counters.bump^[count + 1] state.counters.calls) ∧
    (state.world.io.output = .silent → after.world = state.world)

section Runs

variable {machine : Machine Surroundings} {waiting : List Frame} {task : Task}
  {state : MachineState Surroundings} {silent : Bool} {number : Closure} {count : Nat}

theorem Achieves.printsNumeral
    (achieves : machine.Achieves waiting task state fun result after calls =>
      result.value = .closure number ∧
        after.world = state.world.afterPrinting (UInt8.ofNat count) ∧
        (silent = false → calls = count + 1))
    (output : state.world.io.output.isSilent = silent) (origin : Env) {focus : Focus}
    {stack : List Frame} (launch : task.launch origin waiting state = .moved focus stack state) :
    machine.PrintsNumeral focus stack waiting state number count := by
  obtain ⟨env, ⟨_, cacheable⟩, after, effort, costs, rfl, world, total⟩ := achieves
  obtain ⟨steps, runs⟩ := (costs.passes origin).runFrom
  rw [launch] at runs
  refine ⟨steps, env, cacheable, after, fun fuel => (runs fuel).1, ?_, ?_⟩
  · intro heard
    have calls := total (output.symm.trans heard)
    have spent := (runs 0).2
    rw [Nat.zero_add] at spent
    refine ⟨UInt8.ofNat count, UInt8.toNat_ofNat', world, ?_, ?_⟩
    · exact (congrArg Effort.calls spent).trans calls
    · rw [costs.shows.calls, calls]
  · intro isSilent
    rw [world, Surroundings.afterPrinting_silent (by rw [isSilent]; rfl)]

end Runs

end Machine

namespace Prelude

theorem finds_extendAll {text : String} {value : Value} {env : Env} {mint : Mint}
    (finds : env.Finds mint.names text value) (coherent : mint.names.Coherent)
    {extra : List (String × Value)} (others : ∀ binding ∈ extra, text ≠ binding.1) :
    (extendAll env extra mint).1.Finds (extendAll env extra mint).2.names text value := by
  induction extra generalizing env mint with
  | nil => exact finds
  | cons binding rest ih =>
      obtain ⟨different, others⟩ := List.forall_mem_cons.mp others
      have interned := coherent.intern binding.1
      refine ih ?_ interned others
      exact (finds.mono (NameTable.extends_intern _ _)).extend interned different
        (mint.names.numbers_intern binding.1) _ _

/-- The printer of the prelude can be had under its name, if nothing else is bound to that. -/
theorem exists_printer {mint : Mint} (coherent : mint.names.Coherent) :
    ∃ printByte : Closure, printByte.IsPrinter ∧ ∀ extra : List (String × Value),
      (∀ binding ∈ extra, "PRINT_BYTE" ≠ binding.1) →
        (environment extra mint).1.Finds (environment extra mint).2.names "PRINT_BYTE"
          (.closure printByte) := by
  obtain ⟨names, ident, printName, readName, printByte, readByte, interns, base, same, print,
    read⟩ := exists_base mint
  have finds := finds_printByte (interns.coherent coherent) print read ident printByte readByte
  refine ⟨printByte, ⟨names, interns.coherent coherent,
    base.printsBytes (interns.coherent coherent)⟩, fun extra others => ?_⟩
  rw [same]
  exact @finds_extendAll _ _ _ ⟨names, ident + 2⟩ finds (interns.coherent coherent) extra others

end Prelude

/-- Between two calls at most the notes are taken. -/
theorem Surroundings.steadies_silenced (silent : Bool) :
    host.Steadies TakesNotes (Silenced silent) where
  lists := lists_host
  stays := stays_silenced silent
  attended := by
    rintro world _ rfl silenced
    exact silenced
  sheds _ := List.Subset.refl _

namespace Session

open Host.Session

/-- The prelude binds a printer, and the host makes numerals, as programs do. In every session that
a host brings about without writing into its tables, with whatever limits and outcomes on the way, a
printer that gets a numeral while there is no limit prints its byte and hands that closure back, and
so does the application of a name that is bound to the one to a name that is bound to the other.
What is heard is never taken from a table. -/
theorem printing_is_modulo_256 :
    (∀ mint : Mint, mint.names.Coherent → ∃ printByte : Closure, printByte.IsPrinter ∧
      ∀ extra : List (String × Value), (∀ binding ∈ extra, "PRINT_BYTE" ≠ binding.1) →
        (Prelude.environment extra mint).1.Finds (Prelude.environment extra mint).2.names
          "PRINT_BYTE" (.closure printByte)) ∧
    (∀ (count : Nat) (mint : Mint), mint.names.Coherent →
      ∃ number, (Church.numeral count mint).1 = .closure number ∧ number.IsNumeral count) ∧
    (∀ (number : Closure) (start : NameId) (count : Nat), number.param ≠ start →
      number.code.arena.tree? number.body =
        some (.lambda start (Tree.applied number.param count (.var start))) →
      number.IsNumeral count) ∧
    ∀ silent (session : Session) bindAs focus stack state,
      Host.Stage.Used (Surroundings.Silenced silent) Surroundings.TakesNotes
        (.running session bindAs focus stack state) → session.limit = none →
      state.world.io.output.failure = none →
      ∀ printByte number count, printByte.IsPrinter → number.IsNumeral count →
      (∀ origin outer called passed rest, focus = .value origin ⟨.closure number, passed⟩ →
        stack = .call outer ⟨.closure printByte, called⟩ :: rest →
        session.machine.PrintsNumeral focus stack rest state number count ∧
          (silent = false → state.memo.lookup printByte number = none)) ∧
      ∀ env code id operator operand printName numberName, focus = .node env code id →
        code.arena.node? id = some (.apply operator operand) →
        code.arena.node? operator = some (.var printName) →
        code.arena.node? operand = some (.var numberName) →
        env.lookup printName = some (.closure printByte) →
        env.lookup numberName = some (.closure number) →
        session.machine.PrintsNumeral focus stack stack state number count := by
  refine ⟨fun mint => Prelude.exists_printer, fun count mint => Church.exists_isNumeral count,
    fun number start count => Closure.isNumeral_of_tree?, ?_⟩
  intro silent session bindAs focus stack state used unlimited succeeds printByte number count
    isPrinter isNumeral
  obtain ⟨catalog, orderly, focusListed, stackListed⟩ :=
    used.orderly (fun _ prelude => Machine.obeys_printerLaw prelude silent)
      (Surroundings.steadies_silenced silent) fun _ silenced => ⟨rfl, silenced⟩
  constructor
  · rintro origin outer called passed rest rfl rfl
    have printListed := (stackListed _ List.mem_cons_self).2
    refine ⟨(orderly.prints unlimited rfl printListed focusListed isPrinter isNumeral succeeds
      called passed).printsNumeral orderly.steady origin rfl, ?_⟩
    rintro rfl
    exact orderly.lookup_printer printListed focusListed isPrinter isNumeral
  · rintro env code id operator operand printName numberName rfl node isPrint isNumber printBound
      numberBound
    have printListed := Env.Throughout.of_lookup focusListed printBound
    have numberListed := Env.Throughout.of_lookup focusListed numberBound
    have achieves : session.machine.Achieves stack (.node env code id) state
        fun result after calls => result.value = .closure number ∧
          after.world = state.world.afterPrinting (UInt8.ofNat count) ∧
          (silent = false → calls = count + 1) := by
      refine .apply unlimited node (.var unlimited isPrint printBound
        (.var unlimited isNumber numberBound ?_))
      have visited := orderly.recount state.countStep.countStep.countStep.counters
      refine (visited.prints unlimited rfl printListed numberListed isPrinter isNumeral succeeds
        true true).mono ?_
      rintro result after calls ⟨value, world, total⟩
      exact ⟨value, world, fun heard => by rw [total heard]; omega⟩
    exact achieves.printsNumeral orderly.steady .empty rfl

/-- A numeral of the host, bound to the name that the printer has for its own argument. -/
theorem numeral_named_n_is_printed :
    let entered := (Session.new ⟨.captured #[], .empty⟩ none).inPrelude
    let session := entered.after (Session.bind "n" (.numeral 259))
    ∃ next code id number fuel cacheable after,
      Host.Stage.start session (.ofString "(PRINT_BYTE n)") none =
        .running next none (.node session.env code id) [] next.loaded ∧
      session.env.Finds session.names "n" (.closure number) ∧
      next.machine.run fuel (.node session.env code id) [] next.loaded =
        some (.ok ⟨.closure number, cacheable⟩, after) ∧
      after.world.io.output.bytes = [3] := by
  intro entered session
  obtain ⟨printers, numerals, _, prints⟩ := printing_is_modulo_256
  obtain ⟨printByte, isPrinter, finds⟩ := printers .new NameTable.coherent_empty
  have enteredFinds : entered.env.Finds entered.names "PRINT_BYTE" (.closure printByte) :=
    finds [] (List.forall_mem_nil _)
  have coherent : entered.names.Coherent :=
    (Prelude.environment_offers NameTable.coherent_empty).1.coherent NameTable.coherent_empty
  obtain ⟨number, made, isNumeral⟩ := numerals 259 entered.state.mint coherent
  let later := (Church.numeral 259 entered.state.mint).2
  have toLater : entered.names.Interns later.names := Church.numeral_interns 259 entered.state.mint
  let built : Session := { entered with state := { entered.state with mint := later } }
  have same : session = built.withBinding "n" (.closure number) := by
    rw [← made]
    rfl
  have findsNumber : session.env.Finds session.names "n" (.closure number) := by
    rw [same]
    exact Env.finds_extend (later.names.numbers_intern "n") _ _ _
  have findsPrinter : session.env.Finds session.names "PRINT_BYTE" (.closure printByte) := by
    rw [same]
    exact (enteredFinds.mono (toLater.trans (.intern .refl "n")).extends).extend
      ((toLater.coherent coherent).intern "n") (show "PRINT_BYTE" ≠ "n" by decide)
      (later.names.numbers_intern "n") _ _
  have used : Host.Stage.Used (Surroundings.Silenced false) Surroundings.TakesNotes
      (.idle session) :=
    ⟨⟨⟨.captured #[], .empty⟩, #[]⟩, none, rfl,
      .tail (.single (.evaluates .entered)) (.uses (.binds "n" (.numeral 259)))⟩
  have program : (Program.parse (.ofString "(PRINT_BYTE n)") session.names).1 =
      .ok ⟨⟨#[.var 5, .var 6, .apply 0 1]⟩, 2, 0⟩ := by decide +kernel
  have numbered : session.names.numbers["PRINT_BYTE"]? = some 5 ∧
      session.names.numbers["n"]? = some 6 := by decide +kernel
  obtain ⟨_, known, printBound⟩ := findsPrinter
  cases known.symm.trans numbered.1
  have numberBound : session.env.lookup 6 = some (.closure number) := by
    obtain ⟨_, known, bound⟩ := findsNumber
    cases known.symm.trans numbered.2
    exact bound
  have parsed : Program.parse (.ofString "(PRINT_BYTE n)") session.names = (.ok _, _) :=
    Prod.ext program rfl
  have running := used.tail (.evaluates (.started parsed none))
  have applied := (prints false _ _ _ _ _ running rfl rfl printByte number 259 isPrinter isNumeral).2
  obtain ⟨steps, env, cacheable, after, runs, heard, _⟩ :=
    applied _ _ _ _ _ _ _ rfl rfl rfl rfl printBound numberBound
  obtain ⟨octet, modulo, world, _⟩ := heard rfl
  have isThree : octet = 3 := UInt8.toNat_inj.mp modulo
  refine ⟨_, _, _, number, 1 + steps, cacheable, after, ?_, findsNumber, runs 1, ?_⟩
  · rw [Host.Stage.start, parsed]
  · rw [world, isThree]
    rfl

end Session

end LambdaMachine
