import LambdaMachine.Prelude.Host
import LambdaMachine.Proofs.Machine.Plain
import LambdaMachine.Proofs.Value.Church

/-!
What the functions of the prelude rely on and change. Their answers do not depend on identities,
a scene only moves on, and an answer that is cacheable is given again in every later scene, which
it leaves as it is. The closures they make are new.
-/

namespace LambdaMachine

def Input.Ended (input : Input) : Prop :=
  input.read = (.ok none, input)

theorem Input.ended_of_read {input after : Input} (found : input.read = (.ok none, after)) :
    after.Ended := by
  cases input with
  | empty => cases found; rfl
  | buffer bytes =>
      cases bytes with
      | nil => cases found; rfl
      | cons byte bytes => cases found
  | reader feed ended =>
      cases ended with
      | true => cases found; rfl
      | false =>
          simp only [Input.read] at found
          split at found
          · cases found; rfl
          · rename_i notEnd _
            cases found
            exact (notEnd rfl).elim

theorem Output.isSilent_write (output : Output) (byte : UInt8) :
    (output.write byte).isSilent = output.isSilent := by
  cases output <;> rfl

structure Scene.Before (earlier later : Scene Surroundings) : Prop where
  names : later.names.Extends earlier.names
  silent : later.world.io.output.isSilent = earlier.world.io.output.isSilent
  ended : earlier.world.io.input.Ended → later.world.io.input.Ended

theorem Scene.Before.refl (scene : Scene Surroundings) : scene.Before scene :=
  ⟨.refl _, rfl, id⟩

theorem Scene.Before.trans {first second third : Scene Surroundings}
    (before : first.Before second) (after : second.Before third) : first.Before third :=
  ⟨after.names.trans before.names, after.silent.trans before.silent,
    fun ended => after.ended (before.ended ended)⟩

namespace Surroundings

theorem readPair_eq (byte : Option UInt8) (mint : Mint) :
    readPair byte mint =
      Church.pair (Church.truth byte.isSome mint).1
        (Church.numeral (byte.getD 0).toNat (Church.truth byte.isSome mint).2).1
        (Church.numeral (byte.getD 0).toNat (Church.truth byte.isSome mint).2).2 := by
  rw [readPair]

theorem readPair_of_names (byte : Option UInt8) {mint other : Mint}
    (same : mint.names = other.names) :
    (readPair byte mint).1.erase = (readPair byte other).1.erase ∧
      (readPair byte mint).2.names = (readPair byte other).2.names := by
  simp only [readPair_eq, Church.pair_erase, Church.pair_names, Church.numeral_erase,
    Church.numeral_names, Church.truth_erase, Church.truth_names, same, and_self]

theorem readPair_interns (byte : Option UInt8) (mint : Mint) :
    mint.names.Interns (readPair byte mint).2.names := by
  rw [readPair_eq]
  exact (Church.truth_interns _ _).trans
    ((Church.numeral_interns _ _).trans (Church.pair_interns _ _ _))

theorem readPair_extends (byte : Option UInt8) (mint : Mint) :
    (readPair byte mint).2.names.Extends mint.names :=
  (readPair_interns byte mint).extends

theorem readPair_again (byte : Option UInt8) {mint other : Mint}
    (grown : other.names.Extends (readPair byte mint).2.names) :
    (readPair byte other).1.erase = (readPair byte mint).1.erase ∧
      (readPair byte other).2.names = other.names := by
  simp only [readPair_eq] at grown ⊢
  have afterNumeral := grown.trans (Church.pair_extends _ _ _)
  have afterTruth := afterNumeral.trans (Church.numeral_extends _ _)
  obtain ⟨sameTruth, truthNames⟩ := Church.truth_again byte.isSome afterTruth
  rw [← truthNames] at afterNumeral
  obtain ⟨sameNumeral, numeralNames⟩ := Church.numeral_again (byte.getD 0).toNat afterNumeral
  rw [← truthNames, ← numeralNames] at grown
  obtain ⟨samePair, pairNames⟩ := Church.pair_again sameTruth sameNumeral grown
  exact ⟨samePair, pairNames.trans (numeralNames.trans truthNames)⟩

theorem forms_readPair (allowed : Builtin → Prop) {catalog : Catalog} {mint : Mint}
    (bounded : catalog.Bounded mint.nextIdent) (byte : Option UInt8) :
    catalog.Forms allowed mint.nextIdent (readPair byte mint).1 (readPair byte mint).2.nextIdent := by
  rw [readPair_eq]
  obtain ⟨first, toFirst, truthAll⟩ := Church.forms_truth allowed bounded byte.isSome
  obtain ⟨second, toSecond, numeralAll⟩ :=
    Church.forms_numeral allowed toFirst.after (byte.getD 0).toNat
  obtain ⟨third, toThird, pairAll⟩ :=
    Church.forms_pair toSecond.after (toSecond.value truthAll) numeralAll
  exact ⟨third, toFirst.trans (toSecond.trans toThird), pairAll⟩

theorem value_eq_of_print {arg : Value} {mint : Mint} {world : Surroundings} {result : Evaluated}
    (printed : (print arg mint world).result = .ok result) : result.value = arg := by
  rw [print] at printed
  split at printed
  · cases printed
  · split at printed
    · cases printed; rfl
    · dsimp only at printed
      split at printed
      · cases printed
      · cases printed; rfl

theorem mint_print (arg : Value) (mint : Mint) (world : Surroundings) :
    (print arg mint world).mint = mint := by
  rw [print]
  split
  · rfl
  · split <;> rfl

/-- Names are only numbered, whichever function is called. -/
theorem interns_apply (function : Builtin) (arg : Value) (mint : Mint) (world : Surroundings) :
    mint.names.Interns (host.apply function arg mint world).mint.names := by
  cases operation : function.operation with
  | print =>
      simp only [host, operation, mint_print]
      exact .refl
  | next =>
      simp only [host, operation, next]
      split <;> exact .refl
  | read =>
      simp only [host, operation, read]
      split
      · exact .refl
      · exact readPair_interns _ mint
  | echo cacheable => simp only [host, operation]; exact .refl
  | successor cacheable =>
      simp only [host, operation]
      split <;> exact .refl
  | refuse text => simp only [host, operation]; exact .refl
  | constant cacheable => simp only [host, operation]; exact .refl

/-- Outside, a function does nothing, writes a byte, attempts to read, or notes the call. -/
theorem world_apply (function : Builtin) (arg : Value) (mint : Mint) (world : Surroundings) :
    let after := (host.apply function arg mint world).world
    after = world ∨ (∃ octet, after = { world with io := world.io.write octet }) ∨
      after = { world with io := world.io.read.2 } ∨ after = note function.name arg mint world := by
  cases operation : function.operation with
  | print =>
      simp only [host, operation, print]
      split
      · exact .inl rfl
      · split
        · exact .inl rfl
        · exact .inr (.inl ⟨_, rfl⟩)
  | next =>
      simp only [host, operation, next]
      split <;> exact .inl rfl
  | read =>
      simp only [host, operation, read]
      split <;> exact .inr (.inr (.inl rfl))
  | echo cacheable =>
      simp only [host, operation]
      exact .inr (.inr (.inr trivial))
  | successor cacheable =>
      simp only [host, operation]
      split <;> exact .inr (.inr (.inr rfl))
  | refuse text =>
      simp only [host, operation]
      exact .inr (.inr (.inr trivial))
  | constant cacheable =>
      simp only [host, operation]
      exact .inr (.inr (.inr trivial))

theorem isSilent_apply (function : Builtin) (arg : Value) (mint : Mint)
    (world : Surroundings) :
    (host.apply function arg mint world).world.io.output.isSilent = world.io.output.isSilent := by
  rcases world_apply function arg mint world with same | ⟨octet, wrote⟩ | read | noted
  · rw [same]
  · rw [wrote]
    exact Output.isSilent_write world.io.output octet
  · rw [read]
    rfl
  · rw [noted]
    rfl

theorem interns_answer (function : Builtin) (arg : Value) (scene : Scene Surroundings) :
    scene.names.Interns (host.answer function arg scene).2.names :=
  interns_apply function arg ⟨scene.names, 0⟩ scene.world

theorem byte?_erase (value : Value) : value.erase.byte? = value.byte? := by
  cases value with
  | closure closure => rw [Value.erase]; rfl
  | builtin function => rw [Value.erase]; rfl
  | datum ident data => rw [Value.erase]; cases data <;> rfl

theorem answer_erase {function : Builtin} (native : function.operation.Native) (arg : Value)
    (mint : Mint) (world : Surroundings) :
    host.answer function.erase arg.erase ⟨mint.names, world⟩ =
      ((host.apply function arg mint world).result.map Evaluated.erase,
        ⟨(host.apply function arg mint world).mint.names,
          (host.apply function arg mint world).world⟩) := by
  rw [function.erase_eq]
  cases operation : function.operation with
  | print =>
      simp only [Host.answer, host, operation, print, byte?_erase, Value.kind_erase]
      cases arg.byte? with
      | none => rfl
      | some octet =>
          simp only []
          split
          · simp only [Except.map, Evaluated.erase, Value.erase_erase]
          · cases world.io.output.failure <;>
              simp only [Except.map, Evaluated.erase, Value.erase_erase]
  | next =>
      simp only [Host.answer, host, operation, next, byte?_erase, Value.kind_erase]
      cases arg.byte? <;> rfl
  | read =>
      simp only [Host.answer, host, operation, read]
      cases (world.io.read).1 with
      | error text => rfl
      | ok byte =>
          have sameTable : (⟨mint.names, 0⟩ : Mint).names = mint.names := rfl
          obtain ⟨samePair, sameNames⟩ := readPair_of_names byte sameTable
          simp only [Except.map, Evaluated.erase, samePair, sameNames]
  | echo cacheable => rw [operation] at native; exact native.elim
  | successor cacheable => rw [operation] at native; exact native.elim
  | refuse text => rw [operation] at native; exact native.elim
  | constant cacheable => rw [operation] at native; exact native.elim

theorem answer_print {function : Builtin} (operation : function.operation = .print) (arg : Value)
    (scene : Scene Surroundings) :
    host.answer function arg scene = match arg.byte? with
      | none => (.error (.wrongKind "byte" arg.kind), scene)
      | some octet =>
          if scene.world.io.output.isSilent then (.ok ⟨arg.erase, true⟩, scene)
          else
            (match scene.world.io.output.failure with
              | some text => .error (.host text)
              | none => .ok ⟨arg.erase, false⟩,
            ⟨scene.names, { scene.world with io := scene.world.io.write octet }⟩) := by
  simp only [Host.answer, host, operation, print]
  cases arg.byte? with
  | none => rfl
  | some octet =>
      simp only []
      split
      · rfl
      · cases scene.world.io.output.failure <;> rfl

theorem answer_next {function : Builtin} (operation : function.operation = .next) (arg : Value)
    (scene : Scene Surroundings) :
    host.answer function arg scene = match arg.byte? with
      | none => (.error (.wrongKind "byte" arg.kind), scene)
      | some octet => (.ok ⟨.datum 0 (.byte (octet + 1)), true⟩, scene) := by
  simp only [Host.answer, host, operation, next]
  cases arg.byte? <;> rfl

theorem answer_read {function : Builtin} (operation : function.operation = .read) (arg : Value)
    (scene : Scene Surroundings) :
    host.answer function arg scene =
      match scene.world.io.input.read with
      | (.error text, input) =>
          (.error (.host text),
            ⟨scene.names, { scene.world with io := { scene.world.io with input } }⟩)
      | (.ok byte, input) =>
          (.ok ⟨(readPair byte ⟨scene.names, 0⟩).1.erase, byte.isNone⟩,
            ⟨(readPair byte ⟨scene.names, 0⟩).2.names,
              { scene.world with io := { scene.world.io with input } }⟩) := by
  simp only [Host.answer, host, operation, read, ByteIo.read]
  cases scene.world.io.input.read with
  | mk answer input =>
      cases answer with
      | error text => rfl
      | ok byte => simp only [Except.map, Evaluated.erase]

theorem before_answer {function : Builtin} (native : function.operation.Native) (arg : Value)
    (scene : Scene Surroundings) : scene.Before (host.answer function arg scene).2 := by
  cases operation : function.operation with
  | print =>
      rw [answer_print operation]
      cases arg.byte? with
      | none => exact .refl scene
      | some octet =>
          simp only []
          split
          · exact .refl scene
          · exact ⟨.refl _, Output.isSilent_write _ _, fun ended => ended⟩
  | next =>
      rw [answer_next operation]
      cases arg.byte? <;> exact .refl scene
  | read =>
      rw [answer_read operation]
      have stays : ∀ {answer input}, scene.world.io.input.read = (answer, input) →
          scene.world.io.input.Ended → input.Ended := by
        intro answer input found ended
        have same : input = scene.world.io.input := congrArg Prod.snd (found.symm.trans ended)
        rw [same]
        exact ended
      split
      · rename_i text input found
        exact ⟨.refl _, rfl, stays found⟩
      · rename_i byte input found
        exact ⟨readPair_extends byte ⟨scene.names, 0⟩, rfl, stays found⟩
  | echo cacheable => rw [operation] at native; exact native.elim
  | successor cacheable => rw [operation] at native; exact native.elim
  | refuse text => rw [operation] at native; exact native.elim
  | constant cacheable => rw [operation] at native; exact native.elim

/-- An answer that is cacheable is given again in every later scene, which it does not change. -/
theorem answer_again {function : Builtin} (native : function.operation.Native) {arg : Value}
    {scene later : Scene Surroundings} {result : Evaluated}
    (answered : (host.answer function arg scene).1 = .ok result)
    (cacheable : result.cacheable = true)
    (before : (host.answer function arg scene).2.Before later) :
    host.answer function arg later = (.ok result, later) := by
  cases operation : function.operation with
  | print =>
      rw [answer_print operation] at answered before ⊢
      cases octet : arg.byte? with
      | none => simp only [octet] at answered; cases answered
      | some octet =>
          simp only [octet] at answered before ⊢
          split at answered
          · rename_i silent
            rw [if_pos silent] at before
            cases answered
            rw [if_pos (before.silent.trans silent)]
          · dsimp only at answered
            split at answered
            · cases answered
            · cases answered
              cases cacheable
  | next =>
      rw [answer_next operation] at answered before ⊢
      cases octet : arg.byte? with
      | none => simp only [octet] at answered; cases answered
      | some octet =>
          simp only [octet] at answered ⊢
          cases answered
          rfl
  | read =>
      rw [answer_read operation] at answered before ⊢
      split at answered
      · cases answered
      · rename_i byte input found
        cases answered
        -- only an attempt at the end of the input is cacheable, and the end is permanent
        obtain rfl : byte = none := Option.isNone_iff_eq_none.mp cacheable
        simp only [found] at before
        have ended := before.ended (Input.ended_of_read found)
        have grown : (⟨later.names, 0⟩ : Mint).names.Extends
            (readPair none ⟨scene.names, 0⟩).2.names := before.names
        obtain ⟨samePair, sameNames⟩ := readPair_again none grown
        rw [Input.Ended] at ended
        simp only [ended, samePair, sameNames]
  | echo cacheable => rw [operation] at native; exact native.elim
  | successor cacheable => rw [operation] at native; exact native.elim
  | refuse text => rw [operation] at native; exact native.elim
  | constant cacheable => rw [operation] at native; exact native.elim

theorem grows_apply {function : Builtin} (native : function.operation.Native) {arg : Value}
    {catalog : Catalog} {mint : Mint} (bounded : catalog.Bounded mint.nextIdent)
    (argKnown : arg.Known catalog) (world : Surroundings) :
    ∃ later,
      catalog.Grows mint.nextIdent later (host.apply function arg mint world).mint.nextIdent ∧
      ∀ result, (host.apply function arg mint world).result = .ok result →
        result.value.Known later := by
  cases operation : function.operation with
  | print =>
      simp only [host, operation, mint_print]
      exact ⟨catalog, .refl bounded, fun _ answered => value_eq_of_print answered ▸ argKnown⟩
  | next =>
      simp only [host, operation, next]
      cases arg.byte? with
      | none => exact ⟨catalog, .refl bounded, fun _ answered => by cases answered⟩
      | some octet =>
          refine ⟨catalog, .skip bounded (Nat.le_succ _), fun _ answered => ?_⟩
          cases answered
          exact Value.known_datum catalog _ _
  | read =>
      simp only [host, operation, read]
      cases (world.io.read).1 with
      | error text => exact ⟨catalog, .refl bounded, fun _ answered => by cases answered⟩
      | ok byte =>
          obtain ⟨later, grows, pairKnown⟩ := forms_readPair _ bounded byte
          exact ⟨later, grows, fun _ answered => by cases answered; exact pairKnown⟩
  | echo cacheable => rw [operation] at native; exact native.elim
  | successor cacheable => rw [operation] at native; exact native.elim
  | refuse text => rw [operation] at native; exact native.elim
  | constant cacheable => rw [operation] at native; exact native.elim

end Surroundings

end LambdaMachine
