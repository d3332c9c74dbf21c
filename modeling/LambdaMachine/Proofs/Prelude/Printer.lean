import LambdaMachine.Proofs.Machine.Achieves
import LambdaMachine.Proofs.Machine.Orderly
import LambdaMachine.Proofs.Prelude.Yields
import LambdaMachine.Proofs.Value.Numeral

/-!
Printing a numeral, node by node. The closure of the prelude counts up from the first byte, prints,
and hands its argument back. What is printed is not cacheable unless output is silent, and neither
is what is handed back: so a result is only ever recorded for a silent printer, and it is the
numeral itself.
-/

namespace LambdaMachine

def Closure.IsPrinter (closure : Closure) : Prop :=
  ∃ names : NameTable, names.Coherent ∧ Prelude.PrintsBytes closure names

def Surroundings.afterPrinting (world : Surroundings) (octet : UInt8) : Surroundings :=
  { world with io := world.io.write octet }

def Surroundings.Silenced (silent : Bool) (world : Surroundings) : Prop :=
  world.io.output.isSilent = silent

namespace Surroundings

theorem stays_silenced (silent : Bool) : host.Stays (Silenced silent) :=
  fun function arg mint world silenced => (isSilent_apply function arg mint world).trans silenced

theorem afterPrinting_silent {world : Surroundings} (silent : world.io.output.isSilent = true)
    (octet : UInt8) : world.afterPrinting octet = world := by
  obtain ⟨⟨output, input⟩, notes⟩ := world
  cases output with
  | stdout stream => cases silent
  | captured bytes => cases silent
  | silent => rfl

theorem apply_print {function : Builtin} (operation : function.operation = .print) {arg : Value}
    {octet : UInt8} (isByte : arg.byte? = some octet) (mint : Mint) {world : Surroundings}
    (succeeds : world.io.output.failure = none) :
    host.apply function arg mint world =
      ⟨.ok ⟨arg, world.io.output.isSilent⟩, mint, world.afterPrinting octet⟩ := by
  simp only [host, operation, print, isByte]
  split
  · rename_i silent
    rw [silent, afterPrinting_silent silent]
  · rename_i heard
    rw [Bool.not_eq_true] at heard
    rw [heard, succeeds]
    rfl

theorem result_print_of_failure {function : Builtin} (operation : function.operation = .print)
    {arg : Value} {octet : UInt8} (isByte : arg.byte? = some octet) (mint : Mint)
    {world : Surroundings} {text : String} (failure : world.io.output.failure = some text) :
    (host.apply function arg mint world).result = .error (.host text) := by
  have heard : world.io.output.isSilent = false := by
    cases output : world.io.output with
    | stdout stream => rfl
    | captured bytes => rfl
    | silent => rw [output] at failure; cases failure
  simp only [host, operation, print, isByte, heard, Bool.false_eq_true, if_false, failure]

theorem apply_next {function : Builtin} (operation : function.operation = .next) {arg : Value}
    {octet : UInt8} (isByte : arg.byte? = some octet) (mint : Mint) (world : Surroundings) :
    host.apply function arg mint world =
      ⟨.ok ⟨.datum mint.nextIdent (.byte (octet + 1)), true⟩, (mint.datum (.byte (octet + 1))).2,
        world⟩ := by
  simp only [host, operation, next, isByte]
  rfl

end Surroundings

namespace Machine

section Parts

variable {machine : Machine Surroundings} {waiting : List Frame} {env : Env} {code : Code}
  {id : NodeId} {names : NameTable} {state : MachineState Surroundings}
  {kind : Evaluated → MachineState Surroundings → Nat → Prop}

theorem Achieves.text (unlimited : machine.limit = none) {text : String} {value : Value}
    (spells : code.arena.Spells names id (.var text)) (finds : env.Finds names text value)
    (holds : kind ⟨value, true⟩ state.countStep 0) :
    machine.Achieves waiting (.node env code id) state kind := by
  obtain ⟨name, node, known⟩ := spells
  obtain ⟨number, numbered, bound⟩ := finds
  cases numbered.symm.trans known
  exact .var unlimited node bound holds

def CountsTo (state : MachineState Surroundings) (octet : UInt8) (count : Nat) (result : Evaluated)
    (after : MachineState Surroundings) (calls : Nat) : Prop :=
  result.value.byte? = some octet ∧ result.cacheable = true ∧ state.Quiet after ∧ calls = count

theorem Achieves.counted (unlimited : machine.limit = none)
    (prelude : machine.host = Surroundings.host) {counter : Builtin}
    (counts : counter.operation = .next) {func start : NameId} {first : Value}
    (isByte : first.byte? = some 0) (isFunc : env.lookup func = some (.builtin counter))
    (isStart : env.lookup start = some first) {count : Nat}
    (iterates : code.arena.Iterates func start count id) :
    machine.Achieves waiting (.node env code id) state
      (CountsTo state (UInt8.ofNat count) count) := by
  induction count generalizing id waiting state with
  | zero => exact .var unlimited iterates isStart ⟨isByte, rfl, ⟨rfl, rfl, Nat.le_refl _⟩, rfl⟩
  | succ count ih =>
      obtain ⟨head, rest, node, isHead, inner⟩ := iterates
      refine .apply unlimited node (.var unlimited isHead isFunc (Achieves.mono (ih inner) ?_))
      rintro passed ready _ ⟨passedByte, cacheable, quiet, rfl⟩
      have reply := Surroundings.apply_next counts passedByte ready.mint ready.world
      rw [← prelude] at reply
      refine .called rfl reply ⟨?_, ?_, ⟨quiet.memo, quiet.world, ?_⟩, ?_⟩
      · rw [UInt8.ofNat_add, UInt8.ofNat_one]
        rfl
      · simp only [cacheable, Bool.and_self]
      · exact Nat.le_succ_of_le quiet.idents
      · omega

/-- A numeral that is called with the counter and then with the first byte counts up to its
number. -/
theorem Achieves.numeral (unlimited : machine.limit = none)
    (prelude : machine.host = Surroundings.host) {counter : Builtin}
    (counts : counter.operation = .next) {number : Closure} {count : Nat}
    (isNumeral : number.IsNumeral count) {first : Value} (isByte : first.byte? = some 0) :
    machine.Achieves waiting
      (.application env ⟨.closure number, true⟩ ⟨.builtin counter, true⟩) state
      fun half middle calls => half.cacheable = true ∧ state.Quiet middle ∧ calls = 0 ∧
        ∀ frames outer ready, machine.Achieves frames (.application outer half ⟨first, true⟩) ready
          (CountsTo ready (UInt8.ofNat count) count) := by
  obtain ⟨start, inner, node, different, iterates⟩ := isNumeral
  refine .entered rfl (by rintro _ ⟨⟩) fun frames => .lambda unlimited node ⟨rfl, ?_, rfl, ?_⟩
  · exact ⟨rfl, rfl, Nat.le_succ_of_le (Nat.le_succ _)⟩
  · intro frames outer ready
    have notClosure : ∀ key, first ≠ .closure key := by
      rintro key rfl
      cases isByte
    refine .entered rfl notClosure fun frames => ?_
    have isFunc : ((number.env.extend state.mint.nextIdent number.param (.builtin counter)).extend
        ready.mint.nextIdent start first).lookup number.param = some (.builtin counter) := by
      rw [Env.lookup_extend, if_neg (Ne.symm different), Env.lookup_extend, if_pos rfl]
    refine (Achieves.counted unlimited prelude counts isByte isFunc (if_pos rfl) iterates).mono ?_
    rintro result after calls ⟨isOctet, cacheable, quiet, rfl⟩
    refine ⟨isOctet, ?_, ?_, rfl⟩
    · simp only [cacheable, Bool.and_self]
    · exact ⟨quiet.memo, quiet.world, Nat.le_of_succ_le quiet.idents⟩

section Printed

variable {printer counter : Builtin} {number : Closure} {count : Nat} {first : Value}

/-- The byte of the numeral is counted up to, and then the printer gets it. -/
theorem Achieves.counting (unlimited : machine.limit = none)
    (prelude : machine.host = Surroundings.host) (counts : counter.operation = .next)
    (isNumeral : number.IsNumeral count) (isByte : first.byte? = some 0)
    (findsNumber : env.Finds names "n" (.closure number))
    (findsCounter : env.Finds names "next" (.builtin counter))
    (findsFirst : env.Finds names "null" first)
    (spells : code.arena.Spells names id (.apply (.apply (.var "n") (.var "next")) (.var "null")))
    {origin : MachineState Surroundings} (since : origin.Quiet state) :
    machine.Achieves waiting (.node env code id) state
      (CountsTo origin (UInt8.ofNat count) count) := by
  obtain ⟨_, _, counting, ⟨_, _, half, isNumber, isNext⟩, isNull⟩ := spells
  refine .apply unlimited counting (.apply unlimited half
    (.text unlimited isNumber findsNumber (.text unlimited isNext findsCounter ?_)))
  refine (Achieves.numeral unlimited prelude counts isNumeral isByte).mono ?_
  rintro ⟨called, _⟩ middle _ ⟨rfl, quiet, rfl, applied⟩
  refine .text unlimited isNull findsFirst ((applied _ _ _).mono ?_)
  rintro passed ready calls ⟨passedByte, cacheable, counted, total⟩
  have unread := since.countStep.countStep.countStep.countStep.trans quiet
  exact ⟨passedByte, cacheable, unread.countStep.trans counted, by omega⟩

variable (unlimited : machine.limit = none) (prelude : machine.host = Surroundings.host)
  (prints : printer.operation = .print) (counts : counter.operation = .next)
  (isNumeral : number.IsNumeral count) (isByte : first.byte? = some 0)
  (findsPrinter : env.Finds names "print" (.builtin printer))
  (findsNumber : env.Finds names "n" (.closure number))
  (findsCounter : env.Finds names "next" (.builtin counter))
  (findsFirst : env.Finds names "null" first)
  (spells : code.arena.Spells names id
    (.apply (.var "print") (.apply (.apply (.var "n") (.var "next")) (.var "null"))))
  {origin : MachineState Surroundings} (since : origin.Quiet state)

include unlimited prelude prints counts isNumeral isByte findsPrinter findsNumber findsCounter
  findsFirst spells since

/-- What is printed is the byte of the numeral; only a silent printer can be asked again. -/
theorem Achieves.printed (succeeds : origin.world.io.output.failure = none) :
    machine.Achieves waiting (.node env code id) state fun result after calls =>
      result.value.byte? = some (UInt8.ofNat count) ∧
        result.cacheable = origin.world.io.output.isSilent ∧ after.memo = origin.memo ∧
        origin.mint.nextIdent ≤ after.mint.nextIdent ∧
        after.world = origin.world.afterPrinting (UInt8.ofNat count) ∧ calls = count + 1 := by
  obtain ⟨_, _, node, isPrint, counting⟩ := spells
  refine .apply unlimited node (.text unlimited isPrint findsPrinter
    ((Achieves.counting unlimited prelude counts isNumeral isByte findsNumber findsCounter
      findsFirst counting since.countStep.countStep).mono ?_))
  rintro passed ready calls ⟨passedByte, cacheable, all, total⟩
  have reply := Surroundings.apply_print prints passedByte ready.mint (all.world ▸ succeeds)
  rw [← prelude] at reply
  refine .called rfl reply ⟨passedByte, ?_, all.memo, all.idents, ?_, ?_⟩
  · simp only [cacheable, Bool.and_true, all.world]
  · exact congrArg (·.afterPrinting (UInt8.ofNat count)) all.world
  · omega

theorem Fails.printed {text : String} (failure : origin.world.io.output.failure = some text) :
    machine.Fails waiting (.node env code id) state := by
  obtain ⟨_, _, node, isPrint, counting⟩ := spells
  refine .application unlimited node (.text unlimited isPrint findsPrinter
    ((Achieves.counting unlimited prelude counts isNumeral isByte findsNumber findsCounter
      findsFirst counting since.countStep.countStep).mono ?_))
  rintro passed ready calls ⟨passedByte, _, all, _⟩
  have refused := Surroundings.result_print_of_failure prints passedByte ready.mint
    (all.world ▸ failure)
  rw [← prelude] at refused
  exact .called rfl refused

end Printed

section Body

variable {printByte number : Closure} {count : Nat}

/-- What a printer finds when its body is entered. -/
theorem exists_inside_printer (isPrinter : printByte.IsPrinter) (number : Closure) (ident : Ident) :
    ∃ (names : NameTable) (printer counter : Builtin) (first : Value),
      printer.operation = .print ∧ counter.operation = .next ∧ first.byte? = some 0 ∧
      (let inside := printByte.env.extend ident printByte.param (.closure number)
      inside.Finds names "print" (.builtin printer) ∧ inside.Finds names "n" (.closure number) ∧
        inside.Finds names "next" (.builtin counter) ∧ inside.Finds names "null" first) ∧
      printByte.code.arena.Spells names printByte.body Prelude.printBody := by
  obtain ⟨names, coherent, ⟨_, nKnown, spells⟩, ⟨_, null⟩, ⟨printer, print, prints⟩,
    ⟨counter, next, counts⟩⟩ := isPrinter
  exact ⟨names, printer, counter, _, prints, counts, rfl,
    ⟨print.extend coherent (show "print" ≠ "n" by decide) nKnown _ _,
      Env.finds_extend nKnown _ _ _,
      next.extend coherent (show "next" ≠ "n" by decide) nKnown _ _,
      null.extend coherent (show "null" ≠ "n" by decide) nKnown _ _⟩, spells⟩

variable (unlimited : machine.limit = none) (prelude : machine.host = Surroundings.host)
  (isPrinter : printByte.IsPrinter) (isNumeral : number.IsNumeral count)

include unlimited prelude isPrinter isNumeral

/-- The printer prints the byte of the numeral, calls one host function more than the numeral
counts, and hands the numeral back. -/
theorem Achieves.printerBody (issued : state.memo.Issued state.mint.nextIdent)
    (succeeds : state.world.io.output.failure = none) :
    machine.Achieves waiting (.body printByte (.closure number) state)
      (state.entering printByte (.closure number)).2 fun result after calls =>
        result = ⟨.closure number, state.world.io.output.isSilent⟩ ∧
          after.world = state.world.afterPrinting (UInt8.ofNat count) ∧ calls = count + 1 := by
  obtain ⟨names, printer, counter, first, prints, counts, isByte, ⟨print, isNumber, next, null⟩,
    spells⟩ := exists_inside_printer isPrinter number state.mint.nextIdent
  obtain ⟨_, _, whole, ⟨_, _, half, ⟨_, _, ignoring, _, kept, _, keeping, keptKnown, _, last,
    lastKnown⟩, printing⟩, back⟩ := spells
  cases lastKnown.symm.trans keptKnown
  have called := ((MachineState.Quiet.refl state).entering printByte
    (.closure number)).countStep.countStep.countStep
  -- the application of λ_.λv.v to what is printed, and then to the numeral
  refine .apply unlimited whole (.apply unlimited half (.lambda unlimited ignoring ?_))
  refine (Achieves.printed unlimited prelude prints counts isNumeral isByte print isNumber next null
    printing (called.closure _ _ _ _) succeeds).mono ?_
  rintro ⟨printed, cacheable⟩ ready _ ⟨printedByte, silent, memo, idents, world, rfl⟩
  dsimp only at printedByte silent
  have notClosure : ∀ key, printed ≠ .closure key := by
    rintro key rfl
    cases printedByte
  refine .entered rfl notClosure fun frames => .lambda unlimited keeping ?_
  refine .text unlimited back isNumber ?_
  refine .missed rfl rfl (fun _ => ?_) fun frames => .var unlimited last (if_pos rfl) ?_
  · have stillIssued : ready.memo.Issued state.mint.nextIdent := memo ▸ issued
    exact stillIssued.lookup_eq_none (Nat.le_succ_of_le idents) _
  · intro later mint sameWorld
    refine ⟨?_, sameWorld.trans world, ?_⟩
    · simp only [Bool.true_and, Bool.and_true, silent]
    · omega

theorem Fails.printerBody {text : String} (failure : state.world.io.output.failure = some text) :
    machine.Fails waiting (.body printByte (.closure number) state)
      (state.entering printByte (.closure number)).2 := by
  obtain ⟨names, printer, counter, first, prints, counts, isByte, ⟨print, isNumber, next, null⟩,
    spells⟩ := exists_inside_printer isPrinter number state.mint.nextIdent
  obtain ⟨_, _, whole, ⟨_, _, half, ⟨_, _, ignoring, _⟩, printing⟩, _⟩ := spells
  have called := ((MachineState.Quiet.refl state).entering printByte
    (.closure number)).countStep.countStep.countStep
  refine .operator unlimited whole (.operand unlimited half (.lambda unlimited ignoring ?_))
  exact Fails.printed unlimited prelude prints counts isNumeral isByte print isNumber next null
    printing (called.closure _ _ _ _) failure

end Body

end Parts

def printerLaw (silent : Bool) (func key : Closure) (value : Value) : Prop :=
  func.IsPrinter → ∀ count, key.IsNumeral count → silent = true ∧ value = .closure key

section Law

variable {machine : Machine Surroundings} {silent : Bool} {waiting : List Frame} {env : Env}
  {printByte number : Closure} {count : Nat} {catalog : Catalog}
  {state : MachineState Surroundings}

theorem obeys_printerLaw (prelude : machine.host = Surroundings.host) (silent : Bool) :
    machine.Obeys (printerLaw silent) (Surroundings.Silenced silent) := by
  intro waiting callee key state after found catalog orderly _ _ ended cacheable isPrinter count
    isNumeral
  have unlimited : (machine.withLimit none).limit = none := rfl
  cases failure : state.world.io.output.failure with
  | some text =>
      exact (Fails.printerBody unlimited prelude isPrinter isNumeral failure).not_ok ended |>.elim
  | none =>
      have achieves := @Achieves.printerBody _ waiting state callee key count unlimited prelude
        isPrinter isNumeral orderly.lawful.issued failure
      obtain ⟨_, same, _⟩ := achieves.of_evaluates ended
      rw [same] at cacheable ⊢
      exact ⟨orderly.steady.symm.trans cacheable, rfl⟩

/-- Nothing is recorded for a printer that can be heard. -/
theorem Orderly.lookup_printer
    (orderly : Orderly Surroundings.host (printerLaw false) (Surroundings.Silenced false) catalog
      state)
    (printListed : (Value.closure printByte).Listed catalog)
    (numberListed : (Value.closure number).Listed catalog) (isPrinter : printByte.IsPrinter)
    (isNumeral : number.IsNumeral count) : state.memo.lookup printByte number = none := by
  cases found : state.memo.lookup printByte number with
  | none => rfl
  | some hit =>
      have lawful := orderly.lawful.lawful _ _ _ (Value.listed_closure.mp printListed).1
        (Value.listed_closure.mp numberListed).1 found
      cases (lawful.2 isPrinter count isNumeral).1

/-- In order, a printer that is applied to a numeral prints its byte and hands it back, whether or
not a table is asked. -/
theorem Orderly.prints (unlimited : machine.limit = none)
    (prelude : machine.host = Surroundings.host)
    (orderly : Orderly Surroundings.host (printerLaw silent) (Surroundings.Silenced silent) catalog
      state)
    (printListed : (Value.closure printByte).Listed catalog)
    (numberListed : (Value.closure number).Listed catalog) (isPrinter : printByte.IsPrinter)
    (isNumeral : number.IsNumeral count) (succeeds : state.world.io.output.failure = none)
    (called passed : Bool) :
    machine.Achieves waiting
      (.application env ⟨.closure printByte, called⟩ ⟨.closure number, passed⟩) state
      fun result after calls => result.value = .closure number ∧
        after.world = state.world.afterPrinting (UInt8.ofNat count) ∧
        (silent = false → calls = count + 1) := by
  have missed (absent : (called && passed) = true → state.memo.lookup printByte number = none) :
      machine.Achieves waiting
        (.application env ⟨.closure printByte, called⟩ ⟨.closure number, passed⟩) state
        fun result after calls => result.value = .closure number ∧
          after.world = state.world.afterPrinting (UInt8.ofNat count) ∧
          (silent = false → calls = count + 1) := by
    refine .missed rfl rfl absent fun frames => ?_
    refine (Achieves.printerBody unlimited prelude isPrinter isNumeral orderly.lawful.issued
      succeeds).mono ?_
    rintro _ after calls ⟨rfl, world, total⟩ last _ sameWorld
    exact ⟨rfl, sameWorld.trans world, fun _ => total⟩
  cases cacheable : called && passed with
  | false => exact missed fun both => absurd (cacheable.symm.trans both) Bool.false_ne_true
  | true =>
      cases found : state.memo.lookup printByte number with
      | none => exact missed fun _ => found
      | some hit =>
          have lawful := orderly.lawful.lawful _ _ _ (Value.listed_closure.mp printListed).1
            (Value.listed_closure.mp numberListed).1 found
          obtain ⟨rfl, rfl⟩ := lawful.2 isPrinter count isNumeral
          refine ⟨_, _, _, _, .recalled rfl cacheable rfl found, rfl, ?_, by rintro ⟨⟩⟩
          exact (Surroundings.afterPrinting_silent orderly.steady _).symm

end Law

end Machine

end LambdaMachine
