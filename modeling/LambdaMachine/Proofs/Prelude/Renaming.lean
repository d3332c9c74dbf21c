import LambdaMachine.Proofs.Machine.Renaming
import LambdaMachine.Proofs.Prelude.Environment
import LambdaMachine.Proofs.Prelude.Host

/-!
The host functions and the prelude do not look at the numbers of names: called for the same with two
tables of names, they make closures that match.
-/

namespace LambdaMachine

namespace Church

variable {glossary : Glossary} {mint other : Mint}

def Fresh (closure : Closure) (next : Ident) : Prop :=
  closure.code.ident = next ∧ closure.ident = next + 1

theorem truth_fresh {value : Bool} {closure : Closure}
    (made : (truth value mint).1 = .closure closure) : Fresh closure mint.nextIdent := by
  rw [truth] at made
  cases made
  exact ⟨rfl, rfl⟩

theorem numeral_fresh {count : Nat} {closure : Closure}
    (made : (numeral count mint).1 = .closure closure) : Fresh closure mint.nextIdent := by
  rw [numeral] at made
  cases made
  exact ⟨rfl, rfl⟩

theorem pair_fresh {first second : Value} {closure : Closure}
    (made : (pair first second mint).1 = .closure closure) : Fresh closure (mint.nextIdent + 2) :=
    by
  rw [pair] at made
  cases made
  exact ⟨rfl, rfl⟩

theorem Fresh.matches {closure closure' : Closure} {next next' : Ident} {param : String}
    {body : Tree String} (fresh : Fresh closure next) (fresh' : Fresh closure' next')
    (idents : next = next') (mints : mint.Matches glossary other)
    (displays : closure.Displays mint.names param body)
    (displays' : closure'.Displays other.names param body)
    (envs : closure.env.Matches glossary closure'.env) :
    (Value.closure closure).Matches glossary (.closure closure') := by
  refine Value.matches_closure.mpr (mints.displayed displays displays' ?_ ?_ envs)
  · rw [fresh.2, fresh'.2, idents]
  · rw [fresh.1, fresh'.1, idents]

theorem truth_matches (same : mint.Matches glossary other) (value : Bool) :
    Mint.MakesAlike Value.Matches glossary (truth value mint) (truth value other) := by
  obtain ⟨later, grown, after⟩ := same.grow (truth_interns value mint) (truth_interns value other)
    (by rw [truth_nextIdent, truth_nextIdent, same.idents])
  obtain ⟨closure, made, env, displays⟩ := truth_displays value mint
  obtain ⟨closure', made', env', displays'⟩ := truth_displays value other
  refine ⟨later, grown, ?_, after⟩
  rw [made, made']
  refine (truth_fresh made).matches (truth_fresh made') same.idents after displays displays' ?_
  rw [env, env']
  exact Env.matches_empty later

theorem numeral_matches (same : mint.Matches glossary other) (count : Nat) :
    Mint.MakesAlike Value.Matches glossary (numeral count mint) (numeral count other) := by
  obtain ⟨later, grown, after⟩ := same.grow (numeral_interns count mint)
    (numeral_interns count other) (by rw [numeral_nextIdent, numeral_nextIdent, same.idents])
  obtain ⟨closure, made, env, displays⟩ := numeral_displays count mint
  obtain ⟨closure', made', env', displays'⟩ := numeral_displays count other
  refine ⟨later, grown, ?_, after⟩
  rw [made, made']
  refine (numeral_fresh made).matches (numeral_fresh made') same.idents after displays displays' ?_
  rw [env, env']
  exact Env.matches_empty later

theorem pair_matches (same : mint.Matches glossary other) {first first' second second' : Value}
    (firsts : first.Matches glossary first') (seconds : second.Matches glossary second') :
    Mint.MakesAlike Value.Matches glossary (pair first second mint) (pair first' second' other) := by
  obtain ⟨later, grown, after⟩ := same.grow (pair_interns first second mint)
    (pair_interns first' second' other) (by rw [pair_nextIdent, pair_nextIdent, same.idents])
  obtain ⟨closure, firstName, secondName, made, f, s, env, displays⟩ :=
    pair_displays first second mint
  obtain ⟨closure', firstName', secondName', made', f', s', env', displays'⟩ :=
    pair_displays first' second' other
  refine ⟨later, grown, ?_, after⟩
  rw [made, made']
  refine (pair_fresh made).matches (pair_fresh made') (congrArg (· + 2) same.idents) after displays
    displays' ?_
  rw [after.left] at f s
  rw [after.right] at f' s'
  have idents : mint.nextIdent = other.nextIdent := same.idents
  rw [env, env', idents]
  have held := (Env.matches_empty later).extend ⟨"first", f, f'⟩ (firsts.mono grown) other.nextIdent
  exact held.extend ⟨"second", s, s'⟩ (seconds.mono grown) (other.nextIdent + 1)

end Church

namespace Surroundings

variable {glossary : Glossary} {mint other : Mint} {arg arg' : Value}

theorem readPair_matches (same : mint.Matches glossary other) (byte : Option UInt8) :
    Mint.MakesAlike Value.Matches glossary (readPair byte mint) (readPair byte other) := by
  rw [readPair_eq, readPair_eq]
  obtain ⟨first, toFirst, truths, mints⟩ := Church.truth_matches same byte.isSome
  obtain ⟨second, toSecond, numbers, mints⟩ := Church.numeral_matches mints (byte.getD 0).toNat
  obtain ⟨third, toThird, pairs, mints⟩ :=
    Church.pair_matches mints (truths.mono toSecond) numbers
  exact ⟨third, toThird.trans (toSecond.trans toFirst), pairs, mints⟩

theorem byte?_eq (same : arg.Matches glossary arg') : arg.byte? = arg'.byte? := by
  cases arg with
  | closure closure => obtain ⟨_, rfl, _⟩ := same.of_closure; rfl
  | builtin function => obtain ⟨_, rfl, _⟩ := same.of_builtin; rfl
  | datum ident data => rw [same.of_datum]

theorem count?_eq (same : arg.Matches glossary arg') : arg.count? = arg'.count? := by
  cases arg with
  | closure closure => obtain ⟨_, rfl, _⟩ := same.of_closure; rfl
  | builtin function => obtain ⟨_, rfl, _⟩ := same.of_builtin; rfl
  | datum ident data => rw [same.of_datum]

theorem note_eq (same : arg.Matches glossary arg') (mints : mint.Matches glossary other)
    (name : String) (world : Surroundings) :
    note name arg mint world = note name arg' other world := by
  rw [note, note, mints.left, mints.right, same.text_eq]

theorem host_renames : host.Renames := by
  intro glossary function function' arg arg' mint mint' world functions args mints
  obtain ⟨_, names, operations, held⟩ := Builtin.matches_iff.mp functions
  cases operation : function.operation with
  | print =>
      rw [operation] at operations
      simp only [host, operation, ← operations, print, ← byte?_eq args, ← args.kind_eq]
      refine ⟨glossary, .refl _, ?_⟩
      cases arg.byte? with
      | none => exact ⟨.error _, mints, rfl⟩
      | some octet =>
          dsimp only
          split
          · exact ⟨.ok ⟨args, rfl⟩, mints, rfl⟩
          · cases world.io.output.failure with
            | some text => exact ⟨.error _, mints, rfl⟩
            | none => exact ⟨.ok ⟨args, rfl⟩, mints, rfl⟩
  | next =>
      rw [operation] at operations
      simp only [host, operation, ← operations, next, ← byte?_eq args, ← args.kind_eq]
      refine ⟨glossary, .refl _, ?_⟩
      cases arg.byte? with
      | none => exact ⟨.error _, mints, rfl⟩
      | some octet =>
          obtain ⟨bytes, after⟩ := mints.datum (.byte (octet + 1))
          exact ⟨.ok ⟨bytes, rfl⟩, after, rfl⟩
  | read =>
      rw [operation] at operations
      simp only [host, operation, ← operations, read]
      cases (world.io.read).1 with
      | error text => exact ⟨glossary, .refl _, .error _, mints, rfl⟩
      | ok byte =>
          obtain ⟨later, grown, pairs, after⟩ := readPair_matches mints byte
          exact ⟨later, grown, .ok ⟨pairs, rfl⟩, after, rfl⟩
  | echo cacheable =>
      rw [operation] at operations
      simp only [host, operation, ← operations, ← names, note_eq args mints]
      exact ⟨glossary, .refl _, .ok ⟨args, rfl⟩, mints, rfl⟩
  | successor cacheable =>
      rw [operation] at operations
      simp only [host, operation, ← operations, ← names, note_eq args mints, ← count?_eq args,
        ← args.kind_eq]
      refine ⟨glossary, .refl _, ?_⟩
      cases arg.count? with
      | none => exact ⟨.error _, mints, rfl⟩
      | some number =>
          obtain ⟨counts, after⟩ := mints.datum (.count (number + 1))
          exact ⟨.ok ⟨counts, rfl⟩, after, rfl⟩
  | refuse text =>
      rw [operation] at operations
      simp only [host, operation, ← operations, ← names, note_eq args mints]
      exact ⟨glossary, .refl _, .error _, mints, rfl⟩
  | constant cacheable =>
      rw [operation] at operations
      simp only [host, operation, ← operations, ← names, note_eq args mints]
      refine ⟨glossary, .refl _, .ok ⟨?_, rfl⟩, mints, rfl⟩
      cases kept : function.kept with
      | empty =>
          rw [kept] at held
          rw [held.of_empty]
          exact args
      | bind ident name value outer =>
          rw [kept] at held
          obtain ⟨_, _, _, bound, _, values, _⟩ := held.of_bind
          rw [bound]
          exact values

end Surroundings

namespace Prelude

variable {glossary : Glossary} {mint other : Mint}

theorem printEnv_matches (same : mint.Matches glossary other) :
    Mint.MakesAlike Env.Matches glossary (printEnv mint) (printEnv other) := by
  have empty {later : Glossary} : Env.empty.Matches later .empty := Env.matches_empty later
  obtain ⟨null, mints⟩ := same.intern "null"
  obtain ⟨zeros, mints⟩ := mints.datum (.byte 0)
  obtain ⟨print, mints⟩ := mints.intern "print"
  obtain ⟨printers, mints⟩ := mints.builtin "print" .print empty
  obtain ⟨next, mints⟩ := mints.intern "next"
  obtain ⟨counters, mints⟩ := mints.builtin "next" .next empty
  have toPrint := (glossary.intern "null").extends_intern "print"
  have toNext := ((glossary.intern "null").intern "print").extends_intern "next"
  obtain ⟨envs, mints⟩ := mints.extend empty (null.mono (toNext.trans toPrint))
    (zeros.mono (toNext.trans toPrint))
  obtain ⟨envs, mints⟩ := mints.extend envs (print.mono toNext) (printers.mono toNext)
  obtain ⟨envs, mints⟩ := mints.extend envs next counters
  exact ⟨_, toNext.trans (toPrint.trans (glossary.extends_intern "null")), envs, mints⟩

theorem readEnv_matches (same : mint.Matches glossary other) :
    Mint.MakesAlike Env.Matches glossary (readEnv mint) (readEnv other) := by
  have empty {later : Glossary} : Env.empty.Matches later .empty := Env.matches_empty later
  obtain ⟨read, mints⟩ := same.intern "read"
  obtain ⟨readers, mints⟩ := mints.builtin "read" .read empty
  obtain ⟨envs, mints⟩ := mints.extend empty read readers
  exact ⟨_, glossary.extends_intern "read", envs, mints⟩

theorem environment_matches (same : mint.Matches glossary other) :
    Mint.MakesAlike Env.Matches glossary (environment [] mint) (environment [] other) := by
  -- each part is named before it is used, so that no body is laid out on the way
  unfold environment
  dsimp only
  obtain ⟨first, toFirst, printEnvs, mints⟩ := printEnv_matches same
  generalize printEnv mint = made at printEnvs mints ⊢
  generalize printEnv other = made' at printEnvs mints ⊢
  obtain ⟨printEnv, mint⟩ := made
  obtain ⟨printEnv', other⟩ := made'
  dsimp only at printEnvs mints ⊢
  obtain ⟨second, toSecond, readEnvs, mints⟩ := readEnv_matches mints
  generalize readEnv mint = made at readEnvs mints ⊢
  generalize readEnv other = made' at readEnvs mints ⊢
  obtain ⟨readEnv, mint⟩ := made
  obtain ⟨readEnv', other⟩ := made'
  dsimp only at readEnvs mints ⊢
  have toThird := second.extends_intern "PRINT_BYTE"
  obtain ⟨printName, mints⟩ := mints.intern "PRINT_BYTE"
  obtain ⟨fourth, toFourth, printBytes, mints⟩ := mints.abstraction (show IsName "n" by decide)
    printBody_named (printEnvs.mono (toThird.trans toSecond))
  generalize (mint.intern "PRINT_BYTE").2.abstraction printEnv "n" printBody = made
    at printBytes mints ⊢
  generalize (other.intern "PRINT_BYTE").2.abstraction printEnv' "n" printBody = made'
    at printBytes mints ⊢
  obtain ⟨printByte, after⟩ := made
  obtain ⟨printByte', after'⟩ := made'
  dsimp only at printBytes mints ⊢
  have toFifth := fourth.extends_intern "READ_BYTE"
  obtain ⟨readName, mints⟩ := mints.intern "READ_BYTE"
  obtain ⟨last, toLast, readBytes, mints⟩ := mints.abstraction (show IsName "x" by decide)
    readBody_named (readEnvs.mono (toFifth.trans (toFourth.trans toThird)))
  generalize (after.intern "READ_BYTE").2.abstraction readEnv "x" readBody = made
    at readBytes mints ⊢
  generalize (after'.intern "READ_BYTE").2.abstraction readEnv' "x" readBody = made'
    at readBytes mints ⊢
  obtain ⟨readByte, final⟩ := made
  obtain ⟨readByte', final'⟩ := made'
  dsimp only at readBytes mints ⊢
  have fromFourth := toLast.trans toFifth
  obtain ⟨envs, mints⟩ := mints.extend (Env.matches_empty last)
    (printName.mono (fromFourth.trans toFourth))
    (Value.matches_closure.mpr (printBytes.mono fromFourth))
  obtain ⟨envs, mints⟩ := mints.extend envs (readName.mono toLast)
    (Value.matches_closure.mpr readBytes)
  have fromSecond := fromFourth.trans (toFourth.trans toThird)
  exact ⟨last, fromSecond.trans (toSecond.trans toFirst), envs, mints⟩

end Prelude

end LambdaMachine
