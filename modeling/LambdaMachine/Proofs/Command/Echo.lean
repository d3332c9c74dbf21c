import LambdaMachine.Proofs.Command.Silence
import LambdaMachine.Proofs.Prelude.Input
import LambdaMachine.Proofs.Program.Extension
import Mathlib.Data.List.TakeDrop

/-!
Programs that echo. Each line reads a byte and prints it, and for that calls the same closure with
the same closure as the line before. A byte that was read is an effect and is never served again.
The end of the input can be, since it does not pass.
-/

namespace LambdaMachine

inductive Feed.Delivers : Feed → List UInt8 → Prop
  | exhausted : Delivers [] []
  | finish {rest} : Delivers (.finish :: rest) []
  | interruption {rest bytes} (delivers : Delivers rest bytes) :
      Delivers (.interruption :: rest) bytes
  | byte {octet rest bytes} (delivers : Delivers rest bytes) :
      Delivers (.byte octet :: rest) (octet :: bytes)

namespace Input

inductive Serves : Input → List UInt8 → Prop
  | empty : Serves .empty []
  | buffer {bytes} : Serves (.buffer bytes) bytes
  | reader {feed bytes} (delivers : Feed.Delivers feed bytes) : Serves (.reader feed false) bytes
  | ended {feed} : Serves (.reader feed true) []

end Input

section Serves

variable {feed : Feed} {input : Input} {bytes : List UInt8}

theorem Feed.Delivers.nextByte (delivers : feed.Delivers bytes) :
    (bytes = [] ∧ ∃ rest, feed.nextByte = (.ok none, rest)) ∨
      ∃ octet others rest, bytes = octet :: others ∧
        feed.nextByte = (.ok (some octet), rest) ∧ rest.Delivers others := by
  induction delivers with
  | exhausted => exact .inl ⟨rfl, _, rfl⟩
  | finish => exact .inl ⟨rfl, _, rfl⟩
  | interruption _ ih => exact ih
  | byte delivers _ => exact .inr ⟨_, _, _, rfl, rfl, delivers⟩

theorem Input.Serves.read (serves : input.Serves bytes) :
    ∃ rest, input.read = (.ok bytes.head?, rest) ∧ rest.Serves bytes.tail := by
  cases serves with
  | empty => exact ⟨_, rfl, .empty⟩
  | buffer =>
      cases bytes with
      | nil => exact ⟨_, rfl, .buffer⟩
      | cons octet others => exact ⟨_, rfl, .buffer⟩
  | @reader feed _ delivers =>
      rcases delivers.nextByte with ⟨rfl, rest, next⟩ | ⟨octet, others, rest, rfl, next, after⟩
      · refine ⟨.reader rest true, ?_, .ended⟩
        rw [Input.read, next]
        rfl
      · refine ⟨.reader rest false, ?_, .reader after⟩
        rw [Input.read, next]
        rfl
  | ended => exact ⟨_, rfl, .ended⟩

theorem Input.Serves.afterReads (serves : input.Serves bytes) (attempts : Nat) :
    (input.afterReads attempts).Serves (bytes.drop attempts) := by
  induction attempts generalizing input bytes with
  | zero => exact serves
  | succ attempts ih =>
      obtain ⟨rest, found, after⟩ := serves.read
      rw [Input.afterReads, found, ← List.drop_tail]
      exact ih after

end Serves

namespace Echo

def identityTree : Tree String :=
  .lambda "x" (.var "x")

def line : String :=
  "o = (PRINT_BYTE ((READ_BYTE id) \\a.\\b.b))\n"

def lineTree : Tree String :=
  .apply (.var "PRINT_BYTE")
    (.apply (.apply (.var "READ_BYTE") (.var "id")) (.lambda "a" (.lambda "b" (.var "b"))))

def lines : Nat → String
  | 0 => "id"
  | count + 1 => line ++ lines count

def linesTree : Nat → Tree String
  | 0 => .var "id"
  | count + 1 => .apply (.lambda "o" (linesTree count)) lineTree

def source (count : Nat) : String :=
  "id = \\x.x\n" ++ lines count

def sourceTree (count : Nat) : Tree String :=
  .apply (.lambda "id" (linesTree count)) identityTree

theorem exists_phrase {text rest : List Char} {tree : Tree String}
    (read : (Phrase.read? 60 (text ++ rest)).map (fun found => (found.1.tree, found.2)) =
      some (tree, rest)) :
    ∃ phrase : Phrase, phrase.chars = text ∧ phrase.tree = tree ∧ phrase.Maximal rest := by
  obtain ⟨⟨phrase, left⟩, found, same⟩ := Option.map_eq_some_iff.mp read
  obtain ⟨spelled, maximal, _⟩ := exact_phrase.sound found
  cases same
  exact ⟨phrase, List.append_cancel_right spelled, rfl, maximal⟩

theorem detached_letter (rest : List Char) : Detached ['x'] rest := by
  intro stops
  exact (Bool.false_ne_true (stops 'x' rfl).symm).elim

theorem exists_assignment {name : String} {target side : List Char} {sideTree : Tree String}
    (front : (Phrase.read? 60 (target ++ ['x'])).map (fun found => (found.1.tree, found.2)) =
      some (.var name, ['x']))
    (back : (Phrase.read? 60 (side ++ ['x'])).map (fun found => (found.1.tree, found.2)) =
      some (sideTree, ['x']))
    {script : Script} (maximal : script.Maximal) :
    ∃ longer : Script, longer.chars = target ++ '=' :: ' ' :: (side ++ script.chars) ∧
      longer.tree = .apply (.lambda name script.tree) sideTree ∧ longer.Maximal := by
  obtain ⟨targetPhrase, rfl, bare, targetMaximal⟩ := exists_phrase front
  obtain ⟨sidePhrase, rfl, rfl, sideMaximal⟩ := exists_phrase back
  refine ⟨.assignment targetPhrase name bare ⟨[' '], List.forall_mem_singleton.mpr rfl⟩
    sidePhrase script, rfl, rfl, ?_⟩
  exact ⟨targetMaximal.mono (detached_letter _), sideMaximal.mono (detached_letter _), maximal⟩

theorem exists_script_lines (count : Nat) :
    ∃ script : Script, script.chars = (lines count).toList ∧ script.tree = linesTree count ∧
      script.Maximal := by
  induction count with
  | zero =>
      obtain ⟨phrase, chars, tree, maximal⟩ := @exists_phrase "id".toList [] (.var "id")
        (by decide +kernel)
      exact ⟨.body phrase, chars, tree, maximal⟩
  | succ count ih =>
      obtain ⟨script, chars, tree, maximal⟩ := ih
      obtain ⟨longer, longerChars, longerTree, longerMaximal⟩ :=
        @exists_assignment "o" "o ".toList "(PRINT_BYTE ((READ_BYTE id) \\a.\\b.b))\n".toList
          lineTree (by decide +kernel) (by decide +kernel) script maximal
      refine ⟨longer, ?_, ?_, longerMaximal⟩
      · rw [longerChars, chars, lines, String.toList_append]
        rfl
      · rw [longerTree, tree, linesTree]

theorem exists_script (count : Nat) :
    ∃ script : Script, script.chars = (source count).toList ∧ script.tree = sourceTree count ∧
      script.Maximal := by
  obtain ⟨script, chars, tree, maximal⟩ := exists_script_lines count
  obtain ⟨longer, longerChars, longerTree, longerMaximal⟩ :=
    @exists_assignment "id" "id ".toList "\\x.x\n".toList identityTree
      (by decide +kernel) (by decide +kernel) script maximal
  refine ⟨longer, ?_, ?_, longerMaximal⟩
  · rw [longerChars, chars, source, String.toList_append]
    rfl
  · rw [longerTree, tree, sourceTree]

theorem comment_not_mem_lines (count : Nat) : Rune.comment ∉ (lines count).toList := by
  induction count with
  | zero => decide
  | succ count ih =>
      rw [lines, String.toList_append, List.mem_append, not_or]
      exact ⟨by decide, ih⟩

theorem exists_parse (count : Nat) :
    ∃ program names, Program.parse (.ofString (source count)) .empty = (.ok program, names) ∧
      program.arena.Spells names program.root (sourceTree count) := by
  obtain ⟨script, chars, tree, maximal⟩ := exists_script count
  have plain : Rune.comment ∉ (source count).toList := by
    rw [source, String.toList_append, List.mem_append, not_or]
    exact ⟨by decide, comment_not_mem_lines count⟩
  obtain ⟨program, names, parsed, spells, _⟩ :=
    Program.exists_parse_of_script chars.symm plain maximal .empty
  exact ⟨program, names, parsed, tree ▸ spells⟩

section Line

theorem yields_line {env : Env} {scene : Scene Surroundings}
    (offers : Prelude.Offers env scene.names) (coherent : scene.names.Coherent) {passed : Value}
    (finds : env.Finds scene.names "id" passed) {printed : Array UInt8} {input : Input}
    (io : scene.world.io = ⟨.captured printed, input⟩) {bytes : List UInt8}
    (serves : input.Serves bytes) :
    Machine.Yields env lineTree scene fun _ after =>
      after.world.io = ⟨.captured (printed.push (bytes.headD 0)), input.read.2⟩ := by
  obtain ⟨⟨printByte, print, prints⟩, ⟨readByte, read, reads⟩⟩ := offers
  obtain ⟨rest, found, _⟩ := serves.read
  have got : Machine.Yields env (.apply (.var "READ_BYTE") (.var "id")) scene fun value after =>
      value = (Surroundings.readPair bytes.head? ⟨scene.names, 0⟩).1.erase ∧
        after = ⟨(Surroundings.readPair bytes.head? ⟨scene.names, 0⟩).2.names,
          { scene.world with io := { scene.world.io with input := rest } }⟩ :=
    .apply (.var read (.var finds (.readByte reads coherent (by rw [io]; exact found) passed)))
  have chosen : Machine.Yields env
      (.apply (.apply (.var "READ_BYTE") (.var "id")) (.lambda "a" (.lambda "b" (.var "b")))) scene
      fun value after => ∃ number, value = .closure number ∧
        number.Spells after.names .empty "f" (Church.numeralBody (bytes.head?.getD 0).toNat) ∧
        after.world.io = ⟨.captured printed, rest⟩ := by
    refine .apply (got.mono fun value middle interns done => ?_)
    obtain ⟨rfl, rfl⟩ := done
    have middleCoherent := interns.coherent coherent
    obtain ⟨pair, outer, first, number, isPair, pairSpells, findsFirst, findsSecond, numeral⟩ :=
      Surroundings.readPair_spells bytes.head? middleCoherent
    refine .lambda fun selector selects => ?_
    rw [isPair]
    refine (Machine.Calls.second pairSpells findsFirst findsSecond middleCoherent selects).mono ?_
    rintro value after _ ⟨rfl, rfl⟩
    exact ⟨number, rfl, numeral, by rw [io]⟩
  refine .apply (.var print (chosen.mono fun value middle interns done => ?_))
  obtain ⟨number, rfl, numeral, reading⟩ := done
  have printing := Machine.Calls.printByte (prints.mono interns.extends) numeral
    (interns.coherent coherent) (by rw [reading]; rfl) (by rw [reading]; rfl)
  refine printing.mono fun value after _ done => ?_
  rw [done.2, reading, UInt8.ofNat_toNat, found, List.headD_eq_head?_getD]
  rfl

end Line

end Echo

namespace Machine

section Applies

variable {machine : Machine Surroundings} {waiting : List Frame} {env : Env} {code : Code}
  {id func arg : NodeId} {callee key : Closure} {io : ByteIo}
  {state middle : MachineState Surroundings} {first second : Transition Surroundings}

def Applies (machine : Machine Surroundings) (first : Transition Surroundings)
    (callee key : Closure) (io : ByteIo) : Prop :=
  ∃ outer env stack now,
    machine.Follows first (.moved (.value outer ⟨.closure key, true⟩)
      (.call env ⟨.closure callee, true⟩ :: stack) now) ∧ now.world.io = io

theorem Applies.before (applies : machine.Applies second callee key io)
    (follows : machine.Follows first second) : machine.Applies first callee key io := by
  obtain ⟨outer, env, stack, now, rest, same⟩ := applies
  exact ⟨outer, env, stack, now, follows.trans rest, same⟩

theorem applies_operands {outer last : Env} {ready : MachineState Surroundings}
    (within : machine.overLimit state.countStep.counters.steps = none)
    (node : code.arena.node? id = some (.apply func arg))
    (operator : machine.Evaluates true (.argument env code arg :: waiting) (.node env code func)
      state.countStep (.ok ⟨outer, .closure callee, true⟩) middle)
    (operand : machine.Evaluates true (.call env ⟨.closure callee, true⟩ :: waiting)
      (.node env code arg) middle (.ok ⟨last, .closure key, true⟩) ready)
    (same : ready.world.io = io) :
    machine.Applies (.moved (.node env code id) waiting state) callee key io :=
  ⟨_, _, _, _, (follows_operand within node operator).trans operand.follows, same⟩

end Applies

end Machine

namespace Echo

section Run

variable {machine : Machine Surroundings} {waiting : List Frame} {env : Env} {code : Code}
  {id : NodeId} {catalog : Catalog} {reader key : Closure} {state : MachineState Surroundings}

structure Ready (catalog : Catalog) (env : Env) (state : MachineState Surroundings)
    (reader key : Closure) : Prop where
  sound : Machine.Sound catalog state
  known : env.Known catalog
  coherent : state.mint.names.Coherent
  offers : Prelude.Offers env state.mint.names
  reads : env.Finds state.mint.names "READ_BYTE" (.closure reader)
  finds : env.Finds state.mint.names "id" (.closure key)

theorem Ready.mono {later : Catalog} {after : MachineState Surroundings}
    (ready : Ready catalog env state reader key)
    (grows : catalog.Grows state.mint.nextIdent later after.mint.nextIdent)
    (sound : Machine.Sound later after) (interns : state.mint.names.Interns after.mint.names) :
    Ready later env after reader key :=
  ⟨sound, ready.known.mono grows, interns.coherent ready.coherent,
    ready.offers.mono interns.extends, ready.reads.mono interns.extends,
    ready.finds.mono interns.extends⟩

theorem Ready.abstraction (ready : Ready catalog env state reader key) (param : NameId)
    (body : NodeId) (code : Code) :
    Ready catalog env { state.countStep.countStep with
      mint := (state.countStep.mint.closure env param body code).2 } reader key :=
  have grows := Catalog.Grows.skip ready.sound.bounded (Nat.le_succ _)
  ready.mono grows (ready.sound.grow rfl (.refl _) grows) .refl

theorem Ready.entering (ready : Ready catalog env state reader key) {callee : Closure}
    (sameEnv : callee.env = env) (param : state.mint.names.numbers["o"]? = some callee.param)
    {value : Value} (known : value.Known catalog) :
    Ready catalog (state.entering callee value).1 (state.entering callee value).2 reader key := by
  subst sameEnv
  -- what a line comes to is bound to a name that no line looks up
  exact ⟨ready.sound.entering callee value, ready.known.extend known _ _, ready.coherent,
    ready.offers.extend ready.coherent (by decide) (by decide) param _ _,
    ready.reads.extend ready.coherent (by decide) param _ _,
    ready.finds.extend ready.coherent (by decide) param _ _⟩

theorem Ready.printer (ready : Ready catalog env state reader key) :
    ∃ value, env.Finds state.mint.names "PRINT_BYTE" value := by
  obtain ⟨printByte, print, _⟩ := ready.offers.prints
  exact ⟨_, print⟩

theorem applies_line (unlimited : machine.limit = none)
    (spells : code.arena.Spells state.mint.names id lineTree)
    (printer : ∃ value, env.Finds state.mint.names "PRINT_BYTE" value)
    (reads : env.Finds state.mint.names "READ_BYTE" (.closure reader))
    (finds : env.Finds state.mint.names "id" (.closure key)) :
    machine.Applies (.moved (.node env code id) waiting state) reader key state.world.io := by
  obtain ⟨print, arg, node, ⟨printName, printNode, printKnown⟩, read, _, inner,
    ⟨func, passed, call, ⟨readName, readNode, readKnown⟩, ⟨idName, idNode, idKnown⟩⟩, _⟩ := spells
  obtain ⟨value, _, known, printBound⟩ := printer
  cases known.symm.trans printKnown
  obtain ⟨_, known, readBound⟩ := reads
  cases known.symm.trans readKnown
  obtain ⟨_, known, idBound⟩ := finds
  cases known.symm.trans idKnown
  have within := Machine.overLimit_of_unlimited unlimited
  refine .before ?_
    (Machine.follows_operand (within _) node (.variable (within _) printNode printBound))
  refine .before ?_ (Machine.follows_operator (within _) inner .refl)
  exact Machine.applies_operands (within _) call (.variable (within _) readNode readBound)
    (.variable (within _) idNode idBound) rfl

theorem push_takeD (printed : Array UInt8) (bytes : List UInt8) (count : Nat) :
    printed.push (bytes.headD 0) ++ (bytes.tail.takeD count 0).toArray =
      printed ++ (bytes.takeD (count + 1) 0).toArray := by
  rw [List.takeD]
  simp

section Lines

variable (prelude : machine.host = Surroundings.host) (unlimited : machine.limit = none)
include prelude unlimited

theorem Ready.exists_evaluates (ready : Ready catalog env state reader key)
    (spells : code.arena.Spells state.mint.names id lineTree) {printed : Array UInt8}
    {input : Input} (io : state.world.io = ⟨.captured printed, input⟩) {bytes : List UInt8}
    (serves : input.Serves bytes) (waiting : List Frame) :
    ∃ found after later,
      machine.Evaluates true waiting (.node env code id) state (.ok found) after ∧
      found.result.cacheable = false ∧ found.result.value.Known later ∧
      catalog.Grows state.mint.nextIdent later after.mint.nextIdent ∧
      Machine.Sound later after ∧ state.mint.names.Interns after.mint.names ∧
      after.world.io = ⟨.captured (printed.push (bytes.headD 0)), input.read.2⟩ := by
  have yields := @yields_line env.erase state.scene ready.offers.erase ready.coherent _
    ready.finds.erase printed input io bytes serves
  obtain ⟨value, cacheable, scene, plain, wrote⟩ := yields code.erase id spells
  obtain ⟨found, after, later, ended, _, rfl, grows, sound, known⟩ :=
    @Machine.Realized.succeeds machine true (.node env code id) state scene catalog
      (plain.realized true prelude unlimited) prelude unlimited _ plain waiting ready.sound
      ready.known
  have interns := plain.interns
  refine ⟨found, after, later, ended, ?_, known, grows, sound, interns, wrote⟩
  -- a cacheable value would be found again without a trace, and the line leaves a byte each time
  rw [Bool.eq_false_iff]
  intro cacheable
  obtain ⟨rest, read, servesRest⟩ := serves.read
  have steady := (ended.faithful prelude unlimited ready.sound ready.known).steady
  have again := steady.again found.result.erase rfl cacheable after.scene (.refl _)
  have anew := @yields_line env.erase after.scene (ready.offers.mono interns.extends).erase
    (interns.coherent ready.coherent) _ (ready.finds.mono interns.extends).erase _ rest
    (by rw [read] at wrote; exact wrote) _ servesRest
  obtain ⟨_, _, last, plainAnew, wroteAnew⟩ :=
    anew code.erase id (spells.mono (.refl _) interns.extends)
  obtain ⟨_, rfl⟩ := again.deterministic plainAnew
  have sizes := congrArg (fun io => io.output.bytes.length) (wrote.symm.trans wroteAnew)
  simp [Output.bytes] at sizes

/-- A line makes its call, and leaves what comes after it to be evaluated, with one byte printed
and one attempt to read made. -/
theorem Ready.exists_step (ready : Ready catalog env state reader key) {tree : Tree String}
    (spells : code.arena.Spells state.mint.names id (.apply (.lambda "o" tree) lineTree))
    {printed : Array UInt8} {input : Input} (io : state.world.io = ⟨.captured printed, input⟩)
    {bytes : List UInt8} (serves : input.Serves bytes) (waiting : List Frame) :
    machine.Applies (.moved (.node env code id) waiting state) reader key state.world.io ∧
    ∃ inner body later next, Ready later inner next reader key ∧
      code.arena.Spells next.mint.names body tree ∧
      next.world.io = ⟨.captured (printed.push (bytes.headD 0)), input.read.2⟩ ∧
      machine.Follows (.moved (.node env code id) waiting state)
        (.moved (.node inner code body) (.taint :: waiting) next) ∧
      ∀ found after,
        machine.Evaluates true (.taint :: waiting) (.node inner code body) next (.ok found) after →
        ∃ last, machine.Evaluates true waiting (.node env code id) state (.ok last) after := by
  have within := Machine.overLimit_of_unlimited unlimited
  obtain ⟨func, arg, node, ⟨param, body, lambda, paramKnown, bodySpells⟩, lineSpells⟩ := spells
  have operator := @Machine.Evaluates.abstraction _ machine true
    (.argument env code arg :: waiting) env code func state.countStep param body (within _) lambda
  have operandReady := ready.abstraction param body code
  obtain ⟨passed, after, later, operand, uncacheable, known, grows, sound, interns, wrote⟩ :=
    operandReady.exists_evaluates prelude unlimited lineSpells io serves
      (.call env ⟨.closure (state.mint.closure env param body code).1, true⟩ :: waiting)
  have entered := @Ready.entering env later reader key after (operandReady.mono grows sound interns)
    ⟨state.mint.nextIdent, env, param, body, code⟩ rfl (interns.extends _ _ paramKnown) _ known
  have application := Machine.follows_application (within _) node operator operand
  have tainted : (true && passed.result.cacheable) = false := uncacheable
  refine ⟨?_, _, body, later, _, entered, bodySpells.mono (.refl _) interns.extends, wrote, ?_, ?_⟩
  · refine .before ?_ (Machine.follows_operand (within _) node operator)
    exact applies_line unlimited lineSpells ready.printer ready.reads ready.finds
  · rw [Machine.apply_tainted rfl tainted] at application
    exact application
  · intro found last inside
    exact ⟨_, .applied (within _) node operator operand (.tainted rfl tainted inside)⟩

/-- The lines echo the bytes one by one, and each of them makes the same call. -/
theorem Ready.echoes {count : Nat} (ready : Ready catalog env state reader key)
    (spells : code.arena.Spells state.mint.names id (linesTree count)) {printed : Array UInt8}
    {input : Input} (io : state.world.io = ⟨.captured printed, input⟩) {bytes : List UInt8}
    (serves : input.Serves bytes) (waiting : List Frame) :
    ∃ found after, machine.Evaluates true waiting (.node env code id) state (.ok found) after ∧
      after.world.io = ⟨.captured (printed ++ (bytes.takeD count 0).toArray),
        input.afterReads count⟩ ∧
      ∀ earlier < count, machine.Applies (.moved (.node env code id) waiting state) reader key
        ⟨.captured (printed ++ (bytes.takeD earlier 0).toArray), input.afterReads earlier⟩ := by
  induction count generalizing catalog env state id printed input bytes waiting with
  | zero =>
      obtain ⟨name, node, known⟩ := spells
      obtain ⟨_, same, bound⟩ := ready.finds
      cases same.symm.trans known
      have within := Machine.overLimit_of_unlimited unlimited
      refine ⟨_, _, .variable (within _) node bound, ?_, by omega⟩
      rw [List.takeD_zero, Array.append_empty]
      exact io
  | succ count ih =>
      obtain ⟨applies, inner, body, later, next, reached, bodySpells, wrote, follows, completes⟩ :=
        ready.exists_step prelude unlimited spells io serves waiting
      obtain ⟨rest, read, servesRest⟩ := serves.read
      rw [read] at wrote
      obtain ⟨found, after, inside, echoed, others⟩ :=
        ih reached bodySpells wrote servesRest (.taint :: waiting)
      obtain ⟨last, whole⟩ := completes found after inside
      refine ⟨last, after, whole, ?_, fun earlier lt => ?_⟩
      · rw [echoed, Input.afterReads, read, push_takeD]
      · cases earlier with
        | zero =>
            rw [List.takeD_zero, Array.append_empty, Input.afterReads, ← io]
            exact applies
        | succ earlier =>
            have applied := (others earlier (Nat.lt_of_succ_lt_succ lt)).before follows
            rw [push_takeD] at applied
            rw [Input.afterReads, read]
            exact applied

theorem exists_ready (sound : Machine.Sound catalog state) (known : env.Known catalog)
    (coherent : state.mint.names.Coherent) (offers : Prelude.Offers env state.mint.names)
    (fresh : state.memo = .empty) {count : Nat}
    (spells : code.arena.Spells state.mint.names id (sourceTree count)) (waiting : List Frame) :
    ∃ reader key, env.Finds state.mint.names "READ_BYTE" (.closure reader) ∧
    ∃ inner body later next frame, Ready later inner next reader key ∧
      code.arena.Spells next.mint.names body (linesTree count) ∧ next.world = state.world ∧
      machine.Follows (.moved (.node env code id) waiting state)
        (.moved (.node inner code body) (frame :: waiting) next) ∧
      ∀ found after,
        machine.Evaluates true (frame :: waiting) (.node inner code body) next (.ok found) after →
        ∃ last final, machine.Evaluates true waiting (.node env code id) state (.ok last) final ∧
          final.world = after.world := by
  have within := Machine.overLimit_of_unlimited unlimited
  obtain ⟨func, arg, node, ⟨param, body, lambda, paramKnown, bodySpells⟩,
    ⟨bound, inner, identity, _, _⟩⟩ := spells
  obtain ⟨reader, reads, _⟩ := offers.reads
  let middle : MachineState Surroundings :=
    { state.countStep.countStep with mint := (state.mint.closure env param body code).2 }
  let ready : MachineState Surroundings :=
    { middle.countStep with mint := (middle.mint.closure env bound inner code).2 }
  let callee : Closure := (state.mint.closure env param body code).1
  let key : Closure := (middle.mint.closure env bound inner code).1
  have operator : machine.Evaluates true (.argument env code arg :: waiting) (.node env code func)
      state.countStep (.ok ⟨env, .closure callee, true⟩) middle := .abstraction (within _) lambda
  have operand : machine.Evaluates true (.call env ⟨.closure callee, true⟩ :: waiting)
      (.node env code arg) middle (.ok ⟨env, .closure key, true⟩) ready :=
    .abstraction (within _) identity
  obtain ⟨between, grows, soundMiddle, _⟩ :=
    (operator.faithful prelude unlimited sound.countStep known).leaves
  obtain ⟨later, growsAgain, soundReady, keyKnown⟩ :=
    (operand.faithful prelude unlimited soundMiddle (known.mono grows)).leaves
  -- nothing has been recorded yet, so the first assignment is not served from a table
  have absent : ready.memo.lookup callee key = none := by
    rw [show ready.memo = .empty from fresh, Memo.lookup_eq_entry, Memo.entry_empty]
  have application := Machine.follows_application (within _) node operator operand
  refine ⟨reader, key, reads, (ready.entering callee (.closure key)).1, body, later,
    (ready.entering callee (.closure key)).2, .memoize callee key,
    ⟨soundReady.entering callee _, ?_, coherent, ?_, ?_, ?_⟩, bodySpells, rfl, ?_, ?_⟩
  · exact ((known.mono grows).mono growsAgain).extend (keyKnown _ rfl) _ _
  · exact offers.extend coherent (by decide) (by decide) paramKnown _ _
  · exact reads.extend coherent (by decide) paramKnown _ _
  · exact Env.finds_extend paramKnown _ _ _
  · rw [Machine.apply_missed rfl rfl rfl absent] at application
    exact application
  · intro found last inside
    exact ⟨_, _, .applied (within _) node operator operand (.missed rfl rfl rfl absent inside),
      machine.world_remember true waiting callee key found last⟩

end Lines

end Run

end Echo

namespace Command

/-- The program of so many lines prints as many bytes: those of the input, and zero bytes when there
are no more. So much of the input is used up and no more. Yet on each line the closure that reads is
called with one and the same closure. -/
theorem echoes_input {input : Input} {bytes : List UInt8} (serves : input.Serves bytes)
    (count : Nat) (skipAssignments : Bool) (printed : Array UInt8) (sink : Sink) :
    let options : Options := { mode := .output, skipAssignments }
    Machine.Settles (fun fuel => run fuel (.ofString (Echo.source count)) options
        ⟨.captured printed, input⟩ sink)
      ⟨.ok (), ⟨.captured (printed ++ (bytes.takeD count 0).toArray), input.afterReads count⟩,
        sink⟩ ∧
    (input.afterReads count).Serves (bytes.drop (min count bytes.length)) ∧
    ∃ start env code id reader key,
      prepare (.ofString (Echo.source count)) options ⟨.captured printed, input⟩ sink =
        .inr start ∧
      start.focus = .node env code id ∧
      env.Finds start.state.mint.names "READ_BYTE" (.closure reader) ∧
      ∀ earlier < count, start.machine.Applies (.moved start.focus [] start.state) reader key
        ⟨.captured (printed ++ (bytes.takeD earlier 0).toArray), input.afterReads earlier⟩ := by
  intro options
  obtain ⟨program, names, parsed, spells⟩ := Echo.exists_parse count
  have interns := Program.interns_parse (.ofString (Echo.source count)) .empty
  rw [parsed] at interns
  have coherent := interns.coherent NameTable.coherent_empty
  have prepared := prepare_of_parsed parsed (show options.mode ≠ .parsed by simp [options])
    ⟨.captured printed, input⟩ sink
  obtain ⟨env, ident, mint, catalog, launched, bounded, known, provided, _, offers⟩ :=
    exists_launch program names
  have sound : Machine.Sound catalog ⟨mint, .empty, {}, ⟨⟨.captured printed, input⟩, #[]⟩⟩ :=
    ⟨bounded, Memo.lawful_empty _ _ _⟩
  rw [launched] at prepared
  have rootSpells : (Code.mk ident program.arena).arena.Spells mint.names program.root
      (Echo.sourceTree count) := spells.mono (.refl _) provided.extends
  have unlimited : (Machine.mk Surroundings.host none ⟨[env], []⟩).limit = none := rfl
  obtain ⟨reader, key, reads, inner, body, later, next, frame, ready, linesSpells, sameWorld,
    follows, completes⟩ := Echo.exists_ready rfl unlimited sound known
      (provided.coherent coherent) (offers coherent) rfl rootSpells []
  obtain ⟨found, after, ended, echoed, applies⟩ := ready.echoes rfl unlimited linesSpells
    (by rw [sameWorld]) serves [frame]
  obtain ⟨last, final, whole, finalWorld⟩ := completes found after ended
  refine ⟨?_, ?_, _, env, _, program.root, reader, key, prepared, rfl, reads, ?_⟩
  · have reported := whole.settles_run.map fun ending => conclude options sink ending.1 ending.2
    simp only [run, prepared]
    have concluded : conclude options sink (.ok last.result) final =
        ⟨.ok (), final.world.io, sink⟩ := by
      simp only [conclude, finalWorld, echoed]
      rfl
    rw [← echoed, ← finalWorld, ← concluded]
    exact reported
  · have left := serves.afterReads count
    rw [List.drop_eq_drop_min] at left
    exact left
  · intro earlier lt
    exact (applies earlier lt).before follows

/-- The end of an interrupted input is reached between the second line and the third. -/
theorem two_bytes_and_a_zero_are_echoed :
    let input := Input.reader (Feed.ofDeliveries [.bytes [104], .interruption, .bytes [105]]) false
    input.Serves [104, 105] ∧
    Machine.Settles (fun fuel => run fuel (.ofString (Echo.source 3)) { mode := .output }
        ⟨.captured #[], input⟩ {})
      ⟨.ok (), ⟨.captured #[104, 105, 0], .reader [] true⟩, {}⟩ := by
  intro input
  have serves : input.Serves [104, 105] := .reader (.byte (.interruption (.byte .exhausted)))
  have echoed := (echoes_input serves 3 false #[] {}).1
  rw [Array.empty_append] at echoed
  exact ⟨serves, echoed⟩

end Command

end LambdaMachine
