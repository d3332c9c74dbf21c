import LambdaMachine.Proofs.Prelude.Containment

/-!
What an expression yields. The rules of evaluation are stated on trees of texts: a name yields what
is bound to its text, an abstraction a closure that spells it, and an application what the one value
yields when it is called with the other. What holds of the value and of the scene is carried along,
so that a rule for a whole follows from the rules for its parts.
-/

namespace LambdaMachine

section Erasure

variable {env : Env} {names : NameTable}

theorem Env.Finds.erase {text : String} {value : Value}
    (finds : env.Finds names text value) :
    env.erase.Finds names text value.erase := by
  obtain ⟨name, known, bound⟩ := finds
  refine ⟨name, known, ?_⟩
  rw [Env.lookup_erase, bound, Option.map_some]

theorem Closure.Displays.spells_erase {closure : Closure} {param : String} {body : Tree String}
    (displays : closure.Displays names param body) :
    closure.erase.Spells names closure.env.erase param body := by
  rw [closure.erase_eq]
  exact ⟨rfl, displays.param, displays.spells⟩

end Erasure

namespace Surroundings

/-- What an attempt to read hands over: the second part of the pair is the numeral of the byte. -/
theorem readPair_spells (byte : Option UInt8) {mint : Mint}
    (coherent : (readPair byte mint).2.names.Coherent) :
    ∃ pair env first number, (readPair byte mint).1.erase = .closure pair ∧
      pair.Spells (readPair byte mint).2.names env "p" Church.pairBody ∧
      env.Finds (readPair byte mint).2.names "first" first ∧
      env.Finds (readPair byte mint).2.names "second" (.closure number) ∧
      number.Spells (readPair byte mint).2.names .empty "f"
        (Church.numeralBody (byte.getD 0).toNat) := by
  rw [readPair_eq] at coherent ⊢
  generalize Church.truth byte.isSome mint = made at coherent ⊢
  obtain ⟨truth, afterTruth⟩ := made
  dsimp only at coherent ⊢
  have numeral := Church.numeral_displays (byte.getD 0).toNat afterTruth
  generalize Church.numeral (byte.getD 0).toNat afterTruth = made at numeral coherent ⊢
  obtain ⟨number, afterNumeral⟩ := made
  obtain ⟨numeralClosure, rfl, numeralEnv, numeralDisplays⟩ := numeral
  dsimp only at numeralDisplays coherent ⊢
  have toPair := Church.pair_interns truth (.closure numeralClosure) afterNumeral
  obtain ⟨pair, firstName, secondName, pairEq, firstKnown, secondKnown, pairEnv, pairDisplays⟩ :=
    Church.pair_displays truth (.closure numeralClosure) afterNumeral
  have first := (Env.finds_extend firstKnown .empty afterNumeral.nextIdent truth).extend coherent
    (show "first" ≠ "second" by decide) secondKnown (afterNumeral.nextIdent + 1)
    (.closure numeralClosure)
  have second := Env.finds_extend secondKnown
    (.bind afterNumeral.nextIdent firstName truth .empty) (afterNumeral.nextIdent + 1)
    (.closure numeralClosure)
  have numberSpells := (numeralDisplays.mono toPair).spells_erase
  rw [numeralEnv, Env.erase] at numberSpells
  refine ⟨pair.erase, pair.env.erase, truth.erase, numeralClosure.erase, ?_,
    pairDisplays.spells_erase, ?_, ?_, numberSpells⟩
  · rw [pairEq, Value.erase]
  · rw [pairEnv]
    exact first.erase
  · rw [pairEnv, ← Value.erase]
    exact second.erase

end Surroundings

namespace Machine

def Yields (env : Env) (tree : Tree String) (scene : Scene Surroundings)
    (kind : Value → Scene Surroundings → Prop) : Prop :=
  ∀ (code : Code) (id : NodeId), code.arena.Spells scene.names id tree →
    ∃ value cacheable after,
      Plain Surroundings.host (.node env code id) scene (.ok ⟨value, cacheable⟩) after ∧
        kind value after

def Calls (func arg : Value) (scene : Scene Surroundings)
    (kind : Value → Scene Surroundings → Prop) : Prop :=
  ∀ (env : Env) (called passed : Bool), ∃ value cacheable after,
    Plain Surroundings.host (.application env ⟨func, called⟩ ⟨arg, passed⟩) scene
      (.ok ⟨value, cacheable⟩) after ∧ kind value after

section Rules

variable {env : Env} {scene : Scene Surroundings} {kind other : Value → Scene Surroundings → Prop}

theorem Yields.mono {tree : Tree String} (yields : Yields env tree scene kind)
    (implies : ∀ value after, scene.names.Interns after.names → kind value after →
      other value after) : Yields env tree scene other := by
  intro code id spells
  obtain ⟨value, cacheable, after, plain, holds⟩ := yields code id spells
  exact ⟨value, cacheable, after, plain, implies value after plain.interns holds⟩

theorem Calls.mono {func arg : Value} (calls : Calls func arg scene kind)
    (implies : ∀ value after, scene.names.Interns after.names → kind value after →
      other value after) : Calls func arg scene other := by
  intro env called passed
  obtain ⟨value, cacheable, after, plain, holds⟩ := calls env called passed
  exact ⟨value, cacheable, after, plain, implies value after plain.interns holds⟩

theorem Yields.var {text : String} {value : Value} (finds : env.Finds scene.names text value)
    (holds : kind value scene) : Yields env (.var text) scene kind := by
  intro code id ⟨name, node, known⟩
  obtain ⟨number, numbered, bound⟩ := finds
  cases numbered.symm.trans known
  exact ⟨value, true, scene, .variable node bound, holds⟩

theorem Yields.lambda {param : String} {body : Tree String}
    (holds : ∀ closure : Closure, closure.Spells scene.names env param body →
      kind (.closure closure) scene) : Yields env (.lambda param body) scene kind := by
  intro code id ⟨name, inner, node, known, spells⟩
  exact ⟨_, true, scene, .abstraction node, holds _ ⟨rfl, known, spells⟩⟩

theorem Yields.apply {left right : Tree String}
    (operator : Yields env left scene fun func middle =>
      Yields env right middle fun arg ready => Calls func arg ready kind) :
    Yields env (.apply left right) scene kind := by
  intro code id ⟨func, arg, node, leftSpells, rightSpells⟩
  obtain ⟨called, _, middle, first, operand⟩ := operator code func leftSpells
  have rightThere := rightSpells.mono (.refl _) first.interns.extends
  obtain ⟨passed, _, ready, second, calls⟩ := operand code arg rightThere
  obtain ⟨value, cacheable, after, third, holds⟩ := calls env _ _
  exact ⟨value, cacheable, after, .applied node first second third, holds⟩

theorem Calls.closure {callee : Closure} {arg : Value} {param : String} {body : Tree String}
    (spells : callee.Spells scene.names env param body)
    (entered : ∀ name, scene.names.numbers[param]? = some name →
      Yields (env.extend 0 name arg) body scene kind) :
    Calls (.closure callee) arg scene kind := by
  intro outer called passed
  obtain ⟨rfl, known, bodySpells⟩ := spells
  obtain ⟨value, cacheable, after, body, holds⟩ :=
    entered _ known callee.code callee.body bodySpells
  have plain : Plain Surroundings.host
      (.application outer ⟨.closure callee, called⟩ ⟨arg, passed⟩) scene
      (outcomeOfBody (called && passed) (.ok ⟨value, cacheable⟩)) after := .entered rfl body
  exact ⟨value, _, after, plain, holds⟩

theorem Calls.builtin {function : Builtin} {arg value : Value} {cacheable : Bool}
    {after : Scene Surroundings}
    (answer : Surroundings.host.answer function arg scene = (.ok ⟨value, cacheable⟩, after))
    (holds : kind value after) : Calls (.builtin function) arg scene kind := by
  intro env called passed
  have plain := @Plain.called _ Surroundings.host env ⟨.builtin function, called⟩ ⟨arg, passed⟩
    scene function rfl
  rw [answer] at plain
  exact ⟨value, _, after, plain, holds⟩

end Rules

section Church

variable {scene : Scene Surroundings} {func : Value}
  {reached : Nat → Value → Scene Surroundings → Prop}

theorem Yields.iterated {env : Env} {text : String} (finds : env.Finds scene.names text func)
    (step : ∀ count value middle, scene.names.Interns middle.names → reached count value middle →
      Calls func value middle (reached (count + 1)))
    (count : Nat) {body : Tree String} {done : Nat}
    (yields : Yields env body scene (reached done)) :
    Yields env (Church.iterated text count body) scene (reached (done + count)) := by
  induction count generalizing body done with
  | zero => exact yields
  | succ count ih =>
      have once : Yields env (.apply (.var text) body) scene (reached (done + 1)) :=
        .apply (.var finds (yields.mono fun value middle interns holds =>
          step done value middle interns holds))
      rw [show done + (count + 1) = done + 1 + count by omega]
      exact ih once

/-- A numeral called with a function and then with a value calls the function as many times: what
one call makes of what has been reached, that many calls make of the value. -/
theorem Calls.numeral {number : Closure} {outer : Env} {count : Nat}
    (spells : number.Spells scene.names outer "f" (Church.numeralBody count))
    (coherent : scene.names.Coherent)
    (step : ∀ count value middle, scene.names.Interns middle.names → reached count value middle →
      Calls func value middle (reached (count + 1))) :
    Calls (.closure number) func scene fun half middle => middle = scene ∧
      ∀ value, reached 0 value scene → Calls half value scene (reached count) := by
  refine .closure spells fun f fKnown => .lambda fun inner innerSpells => ⟨rfl, ?_⟩
  intro value start
  refine .closure innerSpells fun x xKnown => ?_
  have finds := (Env.finds_extend fKnown outer 0 func).extend coherent (show "f" ≠ "x" by decide)
    xKnown 0 value
  have first : Yields ((outer.extend 0 f func).extend 0 x value) (.var "x") scene (reached 0) :=
    .var (Env.finds_extend xKnown _ 0 value) start
  have all := Yields.iterated finds step count first
  rw [Nat.zero_add] at all
  exact all

theorem Calls.second {pair selector : Closure} {env outer : Env} {first second : Value}
    (pairSpells : pair.Spells scene.names env "p" Church.pairBody)
    (holdsFirst : env.Finds scene.names "first" first)
    (holdsSecond : env.Finds scene.names "second" second) (coherent : scene.names.Coherent)
    (selects : selector.Spells scene.names outer "a" (.lambda "b" (.var "b"))) :
    Calls (.closure pair) (.closure selector) scene fun value after =>
      value = second ∧ after = scene := by
  refine .closure pairSpells fun p pKnown => ?_
  have findsFirst := holdsFirst.extend coherent (show "first" ≠ "p" by decide) pKnown 0
    (.closure selector)
  have findsSecond := holdsSecond.extend coherent (show "second" ≠ "p" by decide) pKnown 0
    (.closure selector)
  refine .apply (.apply (.var (Env.finds_extend pKnown env 0 _) (.var findsFirst ?_)))
  refine .closure selects fun a aKnown => .lambda fun half halfSpells => .var findsSecond ?_
  exact .closure halfSpells fun b bKnown => .var (Env.finds_extend bKnown _ 0 second) ⟨rfl, rfl⟩

end Church

section Bytes

variable {scene : Scene Surroundings}

theorem Calls.next {function : Builtin} (operation : function.operation = .next) {value : Value}
    {octet : UInt8} (isByte : value.byte? = some octet) :
    Calls (.builtin function) value scene fun result after =>
      result.byte? = some (octet + 1) ∧ after = scene := by
  have answer := Surroundings.answer_next operation value scene
  rw [isByte] at answer
  exact .builtin answer ⟨rfl, rfl⟩

theorem Calls.print {function : Builtin} (operation : function.operation = .print) {value : Value}
    {octet : UInt8} (isByte : value.byte? = some octet)
    (heard : scene.world.io.output.isSilent = false)
    (succeeds : scene.world.io.output.failure = none) :
    Calls (.builtin function) value scene fun _ after =>
      after = ⟨scene.names, { scene.world with io := scene.world.io.write octet }⟩ := by
  have answer := Surroundings.answer_print operation value scene
  rw [isByte] at answer
  dsimp only at answer
  rw [heard, if_neg Bool.false_ne_true, succeeds] at answer
  exact .builtin answer rfl

theorem Calls.printByte {printByte number : Closure} {outer : Env} {count : Nat}
    (prints : Prelude.PrintsBytes printByte scene.names)
    (spells : number.Spells scene.names outer "f" (Church.numeralBody count))
    (coherent : scene.names.Coherent) (heard : scene.world.io.output.isSilent = false)
    (succeeds : scene.world.io.output.failure = none) :
    Calls (.closure printByte) (.closure number) scene fun value after =>
      value = .closure number ∧
        after = ⟨scene.names,
          { scene.world with io := scene.world.io.write (UInt8.ofNat count) }⟩ := by
  obtain ⟨body, ⟨ident, null⟩, ⟨printer, print, prints⟩, ⟨counter, next, counts⟩⟩ := prints
  refine .closure body fun n nKnown => ?_
  replace null := null.extend coherent (show "null" ≠ "n" by decide) nKnown 0 (.closure number)
  replace print := print.extend coherent (show "print" ≠ "n" by decide) nKnown 0 (.closure number)
  replace next := next.extend coherent (show "next" ≠ "n" by decide) nKnown 0 (.closure number)
  have numeral := Env.finds_extend nKnown printByte.env 0 (.closure number)
  generalize printByte.env.extend 0 n (.closure number) = inside at null print next numeral ⊢
  have counted : Yields inside (.apply (.apply (.var "n") (.var "next")) (.var "null")) scene
      fun value middle => value.byte? = some (UInt8.ofNat count) ∧ middle = scene := by
    refine .apply (.apply (.var numeral (.var next ?_)))
    have calls := @Calls.numeral scene (.builtin counter)
      (fun count value middle => value.byte? = some (UInt8.ofNat count) ∧ middle = scene)
      number outer count spells coherent fun count value middle _ reached => by
        obtain ⟨isByte, rfl⟩ := reached
        have following := @Calls.next middle counter counts value _ isByte
        rw [← UInt8.ofNat_one, ← UInt8.ofNat_add] at following
        exact following
    refine calls.mono fun half middle _ done => ?_
    obtain ⟨rfl, applied⟩ := done
    exact .var null (applied _ ⟨rfl, rfl⟩)
  have printed : Yields inside (.apply (.var "print")
      (.apply (.apply (.var "n") (.var "next")) (.var "null"))) scene fun _ after =>
        after = ⟨scene.names,
          { scene.world with io := scene.world.io.write (UInt8.ofNat count) }⟩ := by
    refine .apply (.var print (counted.mono fun value middle _ done => ?_))
    obtain ⟨isByte, rfl⟩ := done
    exact .print prints isByte heard succeeds
  -- what is printed is dropped, and the numeral handed back
  refine .apply (.apply (.lambda fun ignoring ignores => printed.mono fun _ after _ done => ?_))
  subst done
  refine .closure ignores fun _ _ => .lambda fun identity isIdentity => .var numeral ?_
  exact .closure isIdentity fun v vKnown => .var (Env.finds_extend vKnown _ 0 _) ⟨rfl, rfl⟩

theorem Calls.readByte {readByte : Closure} (reads : Prelude.ReadsBytes readByte scene.names)
    (coherent : scene.names.Coherent) {byte : Option UInt8} {input : Input}
    (found : scene.world.io.input.read = (.ok byte, input)) (arg : Value) :
    Calls (.closure readByte) arg scene fun value after =>
      value = (Surroundings.readPair byte ⟨scene.names, 0⟩).1.erase ∧
        after = ⟨(Surroundings.readPair byte ⟨scene.names, 0⟩).2.names,
          { scene.world with io := { scene.world.io with input } }⟩ := by
  obtain ⟨body, function, read, operation⟩ := reads
  refine .closure body fun x xKnown => ?_
  replace read := read.extend coherent (show "read" ≠ "x" by decide) xKnown 0 arg
  have answer := Surroundings.answer_read operation arg scene
  rw [found] at answer
  exact .apply (.var read (.var (Env.finds_extend xKnown _ 0 arg) (.builtin answer ⟨rfl, rfl⟩)))

end Bytes

end Machine

namespace Prelude

section Offers

variable {env : Env} {names later : NameTable} {closure : Closure}

theorem PrintsBytes.mono (prints : PrintsBytes closure names) (grown : later.Extends names) :
    PrintsBytes closure later := by
  obtain ⟨spells, ⟨ident, null⟩, ⟨printer, print, isPrint⟩, ⟨counter, next, isNext⟩⟩ := prints
  exact ⟨spells.mono grown, ⟨ident, null.mono grown⟩, ⟨printer, print.mono grown, isPrint⟩,
    ⟨counter, next.mono grown, isNext⟩⟩

theorem ReadsBytes.mono (reads : ReadsBytes closure names) (grown : later.Extends names) :
    ReadsBytes closure later := by
  obtain ⟨spells, reader, read, isRead⟩ := reads
  exact ⟨spells.mono grown, reader, read.mono grown, isRead⟩

theorem finds_builtin_erase {text : String} {operation : Operation}
    (finds : ∃ function, env.Finds names text (.builtin function) ∧
      function.operation = operation) :
    ∃ function, env.erase.Finds names text (.builtin function) ∧
      function.operation = operation := by
  obtain ⟨function, found, same⟩ := finds
  have erased := found.erase
  rw [Value.erase] at erased
  exact ⟨function.erase, erased, by rw [function.erase_eq]; exact same⟩

theorem PrintsBytes.erase (prints : PrintsBytes closure names) :
    PrintsBytes closure.erase names := by
  obtain ⟨spells, ⟨ident, null⟩, print, next⟩ := prints
  have erased := null.erase
  rw [Value.erase] at erased
  rw [closure.erase_eq]
  exact ⟨⟨rfl, spells.param, spells.body⟩, ⟨0, erased⟩, finds_builtin_erase print,
    finds_builtin_erase next⟩

theorem ReadsBytes.erase (reads : ReadsBytes closure names) : ReadsBytes closure.erase names := by
  obtain ⟨spells, read⟩ := reads
  rw [closure.erase_eq]
  exact ⟨⟨rfl, spells.param, spells.body⟩, finds_builtin_erase read⟩

structure Offers (env : Env) (names : NameTable) : Prop where
  prints : ∃ closure, env.Finds names "PRINT_BYTE" (.closure closure) ∧ PrintsBytes closure names
  reads : ∃ closure, env.Finds names "READ_BYTE" (.closure closure) ∧ ReadsBytes closure names

theorem Offers.mono (offers : Offers env names) (grown : later.Extends names) :
    Offers env later := by
  obtain ⟨⟨printByte, print, prints⟩, ⟨readByte, read, reads⟩⟩ := offers
  exact ⟨⟨printByte, print.mono grown, prints.mono grown⟩,
    ⟨readByte, read.mono grown, reads.mono grown⟩⟩

theorem Offers.extend (offers : Offers env names) (coherent : names.Coherent) {text : String}
    (notPrint : "PRINT_BYTE" ≠ text) (notRead : "READ_BYTE" ≠ text) {name : NameId}
    (known : names.numbers[text]? = some name) (ident : Ident) (value : Value) :
    Offers (env.extend ident name value) names := by
  obtain ⟨⟨printByte, print, prints⟩, ⟨readByte, read, reads⟩⟩ := offers
  exact ⟨⟨printByte, print.extend coherent notPrint known ident value, prints⟩,
    ⟨readByte, read.extend coherent notRead known ident value, reads⟩⟩

theorem Offers.erase (offers : Offers env names) : Offers env.erase names := by
  obtain ⟨⟨printByte, print, prints⟩, ⟨readByte, read, reads⟩⟩ := offers
  have printErased := print.erase
  have readErased := read.erase
  rw [Value.erase] at printErased readErased
  exact ⟨⟨printByte.erase, printErased, prints.erase⟩, ⟨readByte.erase, readErased, reads.erase⟩⟩

end Offers

theorem environment_offers {mint : Mint} (coherent : mint.names.Coherent) :
    mint.names.Interns (environment [] mint).2.names ∧
      Offers (environment [] mint).1 (environment [] mint).2.names := by
  obtain ⟨names, ident, printName, readName, printByte, readByte, interns, base, same, print,
    read⟩ := exists_base mint
  have finds := finds_printByte (interns.coherent coherent) print read ident printByte readByte
  rw [same]
  exact ⟨interns, ⟨printByte, finds, base.printsBytes (interns.coherent coherent)⟩,
    ⟨readByte, Env.finds_extend read _ _ _, base.readsBytes⟩⟩

end Prelude

end LambdaMachine
