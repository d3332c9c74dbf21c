import LambdaMachine.Proofs.Machine.Scope
import LambdaMachine.Proofs.Prelude.Environment
import LambdaMachine.Proofs.Prelude.Host

/-!
The functions of the prelude keep lexical scope, and the environment that programs start in binds
the names that are free in its closures.
-/

namespace LambdaMachine

namespace Surroundings

theorem listed_answer {function : Builtin} {arg : Value} {catalog : Catalog} {mint : Mint}
    (bounded : catalog.Bounded mint.nextIdent) (listed : (Value.builtin function).Listed catalog)
    (argListed : arg.Listed catalog) (world : Surroundings) :
    ∃ later, catalog.Grows mint.nextIdent later (host.apply function arg mint world).mint.nextIdent ∧
      ∀ result, (host.apply function arg mint world).result = .ok result →
        result.value.Listed later := by
  cases operation : function.operation with
  | print =>
      simp only [host, operation, mint_print]
      refine ⟨catalog, .refl bounded, fun result printed => ?_⟩
      exact value_eq_of_print printed ▸ argListed
  | next =>
      simp only [host, operation, next]
      cases arg.byte? with
      | none => exact ⟨catalog, .refl bounded, by rintro _ ⟨⟩⟩
      | some octet =>
          refine ⟨catalog, .skip bounded (Nat.le_succ _), ?_⟩
          rintro _ ⟨⟩
          exact Value.listed_datum _ _ _
  | read =>
      simp only [host, operation, read]
      cases (world.io.read).1 with
      | error text => exact ⟨catalog, .refl bounded, by rintro _ ⟨⟩⟩
      | ok byte =>
          obtain ⟨later, grows, pairListed⟩ := forms_readPair (fun _ => True) bounded byte
          refine ⟨later, grows, ?_⟩
          rintro _ ⟨⟩
          exact pairListed
  | echo cacheable =>
      simp only [host, operation]
      refine ⟨catalog, .refl bounded, ?_⟩
      rintro _ ⟨⟩
      exact argListed
  | successor cacheable =>
      simp only [host, operation]
      cases arg.count? with
      | none => exact ⟨catalog, .refl bounded, by rintro _ ⟨⟩⟩
      | some number =>
          refine ⟨catalog, .skip bounded (Nat.le_succ _), ?_⟩
          rintro _ ⟨⟩
          exact Value.listed_datum _ _ _
  | refuse text =>
      simp only [host, operation]
      exact ⟨catalog, .refl bounded, by rintro _ ⟨⟩⟩
  | constant cacheable =>
      simp only [host, operation]
      refine ⟨catalog, .refl bounded, ?_⟩
      rintro _ ⟨⟩
      have keptListed := (Value.throughout_builtin.mp listed).2
      cases kept : function.kept with
      | empty => exact argListed
      | bind ident name value outer =>
          rw [kept, Env.Throughout] at keptListed
          exact keptListed.1

theorem lists_host : host.Lists where
  interns := interns_apply
  lists bounded listed argListed _ :=
    have ⟨later, grows, answered⟩ := listed_answer bounded listed argListed _
    ⟨later, grows, List.forall_mem_nil _, answered⟩

/-- The host functions keep nothing outside. -/
theorem secludes_host : host.Secludes :=
  fun _ _ _ _ _ _ => List.forall_mem_nil _

end Surroundings

namespace Prelude

variable {missing : NameId → Prop}

theorem occurs_printBody {text : String} (occurs : (Tree.lambda "n" printBody).Occurs text) :
    text ∈ ["null", "print", "next"] := by
  simp only [printBody, Tree.Occurs] at occurs
  grind

theorem occurs_readBody {text : String} (occurs : (Tree.lambda "x" readBody).Occurs text) :
    text = "read" := by
  simp only [readBody, Tree.Occurs] at occurs
  grind

theorem Base.enclosed_printByte {names : NameTable} {printByte readByte : Closure}
    (base : Base names printByte readByte) : (Value.closure printByte).Enclosed missing := by
  refine Value.enclosed_closure.mpr ⟨base.prints.encloses fun text occurs name known => ?_, ?_⟩
  · obtain ⟨bound, value, boundKnown, found⟩ := base.printNames text (occurs_printBody occurs)
    cases known.symm.trans boundKnown
    exact ⟨value, found⟩
  · exact base.printHolds _ _ fun _ _ => trivial

theorem Base.enclosed_readByte {names : NameTable} {printByte readByte : Closure}
    (base : Base names printByte readByte) : (Value.closure readByte).Enclosed missing := by
  refine Value.enclosed_closure.mpr ⟨base.reads.encloses fun text occurs name known => ?_, ?_⟩
  · obtain ⟨bound, function, boundKnown, found, _⟩ := base.readName
    rw [occurs_readBody occurs] at known
    cases known.symm.trans boundKnown
    exact ⟨_, found⟩
  · exact base.readHolds _ _ fun _ _ => trivial

/-- The environment is enclosed if the extra values are, and names are only numbered. -/
theorem enclosed_environment (mint : Mint) {extra : List (String × Value)}
    (each : ∀ binding ∈ extra, binding.2.Enclosed missing) :
    mint.names.Interns (environment extra mint).2.names ∧
      (environment extra mint).1.Enclosed missing := by
  obtain ⟨names, ident, printName, readName, printByte, readByte, interns, base, same, _⟩ :=
    exists_base mint
  have start := ((Env.enclosed_empty missing).extend base.enclosed_printByte ident printName).extend
    base.enclosed_readByte (ident + 1) readName
  rw [same]
  exact ⟨interns.trans (interns_extendAll _ extra ⟨names, ident + 2⟩),
    (@throughout_extendAll _ _ ⟨names, ident + 2⟩ _ extra start each).2⟩

end Prelude

end LambdaMachine
