import LambdaMachine.Proofs.Machine.Plain
import LambdaMachine.Proofs.Prelude.Environment
import LambdaMachine.Proofs.Prelude.Host
import LambdaMachine.Proofs.Value.Layout

/-!
Host values do not leave the prelude. A value is clean if it is a closure of a program that holds
clean values only, or one of the two closures of the prelude, whose own environments are out of
reach: one returns what it was given, the other a pair. Reduction takes clean values to clean ones.
-/

namespace LambdaMachine

structure Closure.Printable (closure : Closure) (names : NameTable) : Prop where
  param : names.Holds closure.param
  body : closure.body < closure.code.arena.size
  arena : closure.code.arena.Tidy names.Holds

inductive Value.Clean (names : NameTable) : Value → Prop
  | program {closure : Closure} (printable : closure.Printable names)
      (env : ∀ name value, closure.env.lookup name = some value → Value.Clean names value) :
      Value.Clean names (.closure closure)
  | printByte {closure : Closure} (displays : closure.Displays names "n" Prelude.printBody) :
      Value.Clean names (.closure closure)
  | readByte {closure : Closure} {name : NameId} {function : Builtin}
      (displays : closure.Displays names "x" Prelude.readBody)
      (known : names.numbers["read"]? = some name)
      (bound : closure.env.lookup name = some (.builtin function))
      (operation : function.operation = .read) : Value.Clean names (.closure closure)

def Env.Clean (names : NameTable) (env : Env) : Prop :=
  ∀ name value, env.lookup name = some value → value.Clean names

section Clean

variable {names later : NameTable} {closure : Closure} {value : Value} {env : Env}

theorem Closure.Displays.printable {param : String} {body : Tree String}
    (displays : closure.Displays names param body) : closure.Printable names :=
  ⟨displays.holds, displays.spells.lt_size, displays.tidy⟩

theorem Closure.Displays.erase {param : String} {body : Tree String}
    (displays : closure.Displays names param body) : closure.erase.Displays names param body := by
  rw [closure.erase_eq]
  exact ⟨displays.isName, displays.param, displays.spells, displays.tidy⟩

theorem Closure.Printable.mono (printable : closure.Printable names)
    (interns : names.Interns later) : closure.Printable later :=
  ⟨printable.param.mono interns, printable.body,
    printable.arena.mono fun _ holds => holds.mono interns⟩

theorem Closure.printable_erase :
    closure.erase.Printable names ↔ closure.Printable names := by
  rw [closure.erase_eq]
  exact ⟨fun ⟨param, body, arena⟩ => ⟨param, body, arena⟩,
    fun ⟨param, body, arena⟩ => ⟨param, body, arena⟩⟩

theorem Value.Clean.mono (clean : value.Clean names) (interns : names.Interns later) :
    value.Clean later := by
  induction clean with
  | program printable _ ih => exact .program (printable.mono interns) ih
  | printByte displays => exact .printByte (displays.mono interns)
  | readByte displays known bound operation =>
      exact .readByte (displays.mono interns) (interns.extends _ _ known) bound operation

theorem Env.Clean.mono (clean : env.Clean names) (interns : names.Interns later) :
    env.Clean later :=
  fun name value bound => (clean name value bound).mono interns

theorem Env.Clean.extend (clean : env.Clean names) (valueClean : value.Clean names)
    (ident : Ident) (name : NameId) : (env.extend ident name value).Clean names := by
  intro other found bound
  rw [Env.lookup_extend] at bound
  split at bound
  · cases bound
    exact valueClean
  · exact clean other found bound

theorem Value.Clean.erase (clean : value.Clean names) : value.erase.Clean names := by
  induction clean with
  | @program closure printable _ ih =>
      rw [Value.erase]
      refine .program (Closure.printable_erase.mpr printable) fun name value bound => ?_
      rw [closure.erase_eq] at bound
      dsimp only at bound
      rw [Env.lookup_erase, Option.map_eq_some_iff] at bound
      obtain ⟨held, found, rfl⟩ := bound
      exact ih name held found
  | printByte displays =>
      rw [Value.erase]
      exact .printByte displays.erase
  | @readByte closure name function displays known bound operation =>
      rw [Value.erase]
      have boundErased : closure.erase.env.lookup name = some (.builtin function.erase) := by
        rw [closure.erase_eq]
        dsimp only
        rw [Env.lookup_erase, bound, Option.map_some, Value.erase]
      exact .readByte displays.erase known boundErased (by rw [function.erase_eq]; exact operation)

theorem Env.Clean.erase (clean : env.Clean names) : env.erase.Clean names := by
  intro name value bound
  rw [Env.lookup_erase, Option.map_eq_some_iff] at bound
  obtain ⟨held, found, rfl⟩ := bound
  exact (clean name held found).erase

theorem Value.Clean.exists_printable (clean : value.Clean names) :
    ∃ closure, value = .closure closure ∧ closure.Printable names := by
  cases clean with
  | program printable _ => exact ⟨_, rfl, printable⟩
  | printByte displays => exact ⟨_, rfl, displays.printable⟩
  | readByte displays _ _ _ => exact ⟨_, rfl, displays.printable⟩

end Clean

namespace Surroundings

theorem clean_readPair (byte : Option UInt8) (mint : Mint) :
    (readPair byte mint).1.Clean (readPair byte mint).2.names := by
  rw [readPair_eq]
  have truth := Church.truth_displays byte.isSome mint
  generalize Church.truth byte.isSome mint = made at truth ⊢
  obtain ⟨found, afterTruth⟩ := made
  obtain ⟨truthClosure, rfl, truthEnv, truthDisplays⟩ := truth
  dsimp only at truthDisplays ⊢
  have numeral := Church.numeral_displays (byte.getD 0).toNat afterTruth
  have toNumeral := Church.numeral_interns (byte.getD 0).toNat afterTruth
  generalize Church.numeral (byte.getD 0).toNat afterTruth = made at numeral toNumeral ⊢
  obtain ⟨number, afterNumeral⟩ := made
  obtain ⟨numeralClosure, rfl, numeralEnv, numeralDisplays⟩ := numeral
  dsimp only at toNumeral numeralDisplays ⊢
  have toPair :=
    Church.pair_interns (.closure truthClosure) (.closure numeralClosure) afterNumeral
  obtain ⟨pairClosure, firstName, secondName, pairEq, _, _, pairEnv, pairDisplays⟩ :=
    Church.pair_displays (.closure truthClosure) (.closure numeralClosure) afterNumeral
  have empty {closure : Closure} {names : NameTable} (held : closure.env = .empty)
      (printable : closure.Printable names) : (Value.closure closure).Clean names :=
    .program printable fun name value bound => by rw [held] at bound; cases bound
  have truthClean := empty truthEnv (truthDisplays.printable.mono (toNumeral.trans toPair))
  have numeralClean := empty numeralEnv (numeralDisplays.printable.mono toPair)
  rw [pairEq]
  refine .program pairDisplays.printable ?_
  rw [pairEnv]
  exact Env.Clean.extend (Env.Clean.extend (fun _ _ bound => by cases bound) truthClean _ _)
    numeralClean _ _

end Surroundings

namespace Machine

def Task.Clean (names : NameTable) : Task → Prop
  | .node env code id =>
      env.Clean names ∧ id < code.arena.size ∧ code.arena.Tidy names.Holds
  | .application _ func arg => func.value.Clean names ∧ arg.value.Clean names

theorem Task.Clean.node_mono {names later : NameTable} {env : Env} {code : Code} {id part : NodeId}
    (clean : (Task.node env code id).Clean names) (interns : names.Interns later)
    (inside : part < code.arena.size) : (Task.node env code part).Clean later :=
  ⟨clean.1.mono interns, inside, clean.2.2.mono fun _ holds => holds.mono interns⟩

section Prelude

variable {callee : Closure} {arg : Value} {scene after : Scene Surroundings} {result : Evaluated}

/-- Printing a numeral returns the numeral, whatever the host says to it. -/
theorem Plain.value_printByte {names : NameTable}
    (displays : callee.Displays names "n" Prelude.printBody)
    (plain : Plain Surroundings.host (.plainBody callee arg) scene (.ok result) after) :
    result.value = arg := by
  obtain ⟨_, _, root, ⟨_, _, left, ⟨_, _, outer, _, ⟨_, _, inner, vParam, ⟨_, vNode, v⟩⟩⟩, _⟩,
    ⟨_, nNode, n⟩⟩ := displays.spells
  obtain ⟨called, _, passed, _, operator, operand, application⟩ := plain.of_apply root
  -- the operand is the numeral
  have bound := (operand.of_var nNode).1
  rw [Env.lookup_extend, Option.some.inj (displays.param.symm.trans n), if_pos rfl] at bound
  -- the operator is the identity, whatever it was applied to
  obtain ⟨ignoring, _, _, _, abstraction, _, ignored⟩ := operator.of_apply left
  obtain ⟨_, body, sameCalled⟩ := ignored.of_closure (abstraction.of_lambda outer).1
  rw [(body.of_lambda inner).1] at sameCalled
  obtain ⟨_, last, sameResult⟩ := application.of_closure sameCalled
  have chosen := (last.of_var vNode).1
  dsimp only at chosen
  rw [Env.lookup_extend, Option.some.inj (vParam.symm.trans v), if_pos rfl] at chosen
  rw [sameResult, ← Option.some.inj chosen, ← Option.some.inj bound]

theorem Plain.clean_readByte {name : NameId} {function : Builtin}
    (coherent : scene.names.Coherent)
    (displays : callee.Displays scene.names "x" Prelude.readBody)
    (known : scene.names.numbers["read"]? = some name)
    (held : callee.env.lookup name = some (.builtin function))
    (operation : function.operation = .read)
    (plain : Plain Surroundings.host (.plainBody callee arg) scene (.ok result) after) :
    result.value.Clean after.names := by
  obtain ⟨_, _, root, ⟨_, readNode, read⟩, ⟨_, argNode, _⟩⟩ := displays.spells
  obtain ⟨called, _, passed, _, operator, operand, application⟩ := plain.of_apply root
  obtain rfl := Option.some.inj (known.symm.trans read)
  have different : callee.param ≠ name := by
    intro same
    have texts := (coherent.text_eq displays.param).symm.trans (same ▸ coherent.text_eq known)
    exact absurd texts (by decide)
  obtain ⟨bound, rfl⟩ := operator.of_var readNode
  obtain ⟨_, rfl⟩ := operand.of_var argNode
  rw [Env.lookup_extend, if_neg different, held] at bound
  obtain ⟨answered, answer, sameResult⟩ := application.of_builtin (Option.some.inj bound).symm
  rw [Surroundings.answer_read operation] at answer
  rw [sameResult]
  split at answer
  · cases (Prod.mk.inj answer).1
  · obtain ⟨read, rfl⟩ := Prod.mk.inj answer
    rw [← Except.ok.inj read]
    exact (Surroundings.clean_readPair _ _).erase

end Prelude

theorem Plain.interns {task : Task} {scene after : Scene Surroundings}
    {outcome : Except EvalError Evaluated}
    (plain : Plain Surroundings.host task scene outcome after) :
    scene.names.Interns after.names := by
  induction plain with
  | dangling _ => exact .refl
  | unbound _ _ => exact .refl
  | «variable» _ _ => exact .refl
  | abstraction _ => exact .refl
  | operatorFails _ _ operatorIh => exact operatorIh
  | operandFails _ _ _ operatorIh operandIh => exact operatorIh.trans operandIh
  | applied _ _ _ _ operatorIh operandIh applicationIh =>
      exact operatorIh.trans (operandIh.trans applicationIh)
  | notCallable _ => exact .refl
  | called _ => exact Surroundings.interns_answer _ _ _
  | entered _ _ bodyIh => exact bodyIh

/-- What a clean task comes to is clean. -/
theorem Plain.clean {task : Task} {scene after : Scene Surroundings}
    {outcome : Except EvalError Evaluated}
    (plain : Plain Surroundings.host task scene outcome after) (coherent : scene.names.Coherent)
    (clean : task.Clean scene.names) :
    ∀ result, outcome = .ok result → result.value.Clean after.names := by
  induction plain with
  | dangling _ => rintro _ ⟨⟩
  | unbound _ _ => rintro _ ⟨⟩
  | operatorFails _ _ _ => rintro _ ⟨⟩
  | operandFails _ _ _ _ _ => rintro _ ⟨⟩
  | notCallable _ => rintro _ ⟨⟩
  | «variable» _ bound =>
      rintro _ ⟨⟩
      exact clean.1 _ _ bound
  | abstraction node =>
      rintro _ ⟨⟩
      obtain ⟨envClean, inside, tidy⟩ := clean
      have fits := tidy _ _ node
      exact .program ⟨fits.1, Nat.lt_trans fits.2 inside, tidy⟩ envClean
  | applied node operator operand _ operatorIh operandIh applicationIh =>
      have fits := clean.2.2 _ _ node
      have funcInside := Nat.lt_trans fits.1 clean.2.1
      have argInside := Nat.lt_trans fits.2 clean.2.1
      have calledClean := operatorIh coherent (clean.node_mono .refl funcInside) _ rfl
      have passedClean := operandIh (operator.interns.coherent coherent)
        (clean.node_mono operator.interns argInside) _ rfl
      exact applicationIh ((operator.interns.trans operand.interns).coherent coherent)
        ⟨calledClean.mono operand.interns, passedClean⟩
  | called callee =>
      -- a clean value is no function of the host
      obtain ⟨_, same, _⟩ := clean.1.exists_printable
      cases callee.symm.trans same
  | @entered _ func arg _ callee outcome _ closure body bodyIh =>
      intro result ended
      obtain ⟨inner, rfl, same⟩ : ∃ inner, outcome = .ok inner ∧ result.value = inner.value := by
        cases outcome with
        | error error => cases ended
        | ok inner => cases ended; exact ⟨inner, rfl, rfl⟩
      rw [same]
      have funcClean := clean.1
      rw [closure] at funcClean
      cases funcClean with
      | program printable held =>
          have heldClean : callee.env.Clean _ := held
          exact bodyIh coherent ⟨heldClean.extend clean.2 _ _, printable.body, printable.arena⟩
            inner rfl
      | printByte displays =>
          rw [body.value_printByte displays]
          exact clean.2.mono body.interns
      | readByte displays known bound operation =>
          exact body.clean_readByte coherent displays known bound operation

end Machine

namespace Prelude

/-- All that programs can reach from the environment they start in is clean. -/
theorem clean_environment (mint : Mint) :
    mint.names.Interns (environment [] mint).2.names ∧
      (environment [] mint).1.Clean (environment [] mint).2.names := by
  obtain ⟨names, ident, printName, readName, printByte, readByte, interns, base, same, _⟩ :=
    exists_base mint
  obtain ⟨name, function, known, bound, operation⟩ := base.readName
  have printClean : (Value.closure printByte).Clean names := .printByte base.prints
  have readClean : (Value.closure readByte).Clean names :=
    .readByte base.reads known bound operation
  rw [same]
  refine ⟨interns, ?_⟩
  exact Env.Clean.extend (Env.Clean.extend (fun _ _ bound => by cases bound) printClean _ _)
    readClean _ _

end Prelude

end LambdaMachine
