import LambdaMachine.Proofs.Program.RoundTrip
import LambdaMachine.Proofs.Term.Reduction
import LambdaMachine.Proofs.Value.Known
import LambdaMachine.Proofs.Value.Layout

/-!
Lexical scope of values. A value is enclosed if every closure in it binds the names that are free in
its body, apart from those that are known to be missing. Values that are made without a program have
no missing names.
-/

namespace LambdaMachine

def Env.Provides (env : Env) (missing : NameId → Prop) (tree : Tree NameId) : Prop :=
  ∀ name, tree.Occurs name → (∃ value, env.lookup name = some value) ∨ missing name

def Closure.Encloses (missing : NameId → Prop) (closure : Closure) : Prop :=
  ∃ body, closure.code.arena.tree? closure.body = some body ∧
    closure.env.Provides missing (.lambda closure.param body)

def Value.Enclosed (missing : NameId → Prop) (value : Value) : Prop :=
  value.Throughout (Closure.Encloses missing) fun _ => True

def Env.Enclosed (missing : NameId → Prop) (env : Env) : Prop :=
  env.Throughout (Closure.Encloses missing) fun _ => True

def nothingMissing (_ : NameId) : Prop :=
  False

section Enclosed

variable {missing : NameId → Prop} {env : Env} {tree : Tree NameId} {value : Value}

theorem Closure.Encloses.of_nothing {closure : Closure}
    (encloses : closure.Encloses nothingMissing) :
    closure.Encloses missing := by
  obtain ⟨body, denoted, provides⟩ := encloses
  exact ⟨body, denoted, fun name occurs => (provides name occurs).imp_right False.elim⟩

theorem Env.Enclosed.of_nothing (enclosed : env.Enclosed nothingMissing) : env.Enclosed missing :=
  Env.Throughout.mono (fun _ => Closure.Encloses.of_nothing) enclosed

theorem Env.enclosed_empty (missing : NameId → Prop) : Env.empty.Enclosed missing :=
  Env.throughout_empty _ _

theorem Value.enclosed_closure {closure : Closure} :
    (Value.closure closure).Enclosed missing ↔
      closure.Encloses missing ∧ closure.env.Enclosed missing :=
  Value.throughout_closure

theorem Value.enclosed_builtin {function : Builtin} :
    (Value.builtin function).Enclosed missing ↔ function.kept.Enclosed missing :=
  Value.throughout_builtin.trans (and_iff_right trivial)

theorem Value.enclosed_datum (missing : NameId → Prop) (ident : Ident) (data : Datum) :
    (Value.datum ident data).Enclosed missing :=
  Value.throughout_datum _ _ ident data

theorem Env.Enclosed.extend (enclosed : env.Enclosed missing)
    (valueEnclosed : value.Enclosed missing)
    (ident : Ident) (name : NameId) : (env.extend ident name value).Enclosed missing :=
  Env.Throughout.extend enclosed valueEnclosed ident name

theorem Env.Provides.lambda {param : NameId} {body : Tree NameId}
    (provides : env.Provides missing (.lambda param body)) (ident : Ident) (value : Value) :
    (env.extend ident param value).Provides missing body := by
  intro name occurs
  rw [Env.lookup_extend]
  by_cases same : param = name
  · exact Or.inl ⟨value, if_pos same⟩
  · rw [if_neg same]
    exact provides name ⟨same, occurs⟩

end Enclosed

theorem Tree.Named.of_occurs {accepted : NameId → Prop} {tree : Tree NameId} {name : NameId}
    (named : tree.Named accepted) (occurs : tree.Occurs name) : accepted name := by
  induction tree with
  | var other => exact occurs ▸ named
  | lambda param body ih => exact ih named.2 occurs.2
  | apply func arg funcIh argIh => exact occurs.elim (funcIh named.1) (argIh named.2)

/-- A name that is free in the tree of numbers has a text that is free in the tree of texts. -/
theorem Arena.Spells.exists_text {arena : Arena} {names : NameTable} {id : NodeId}
    {tree : Tree String} {inner : Tree NameId} (spells : arena.Spells names id tree)
    (denoted : arena.tree? id = some inner) {name : NameId} (occurs : inner.Occurs name) :
    ∃ text, tree.Occurs text ∧ names.numbers[text]? = some name := by
  induction tree generalizing id inner with
  | var text =>
      obtain ⟨number, node, known⟩ := spells
      rw [tree?_var node denoted] at occurs
      cases occurs
      exact ⟨text, rfl, known⟩
  | lambda text tree ih =>
      obtain ⟨param, body, node, known, bodySpells⟩ := spells
      obtain ⟨bodyTree, bodyDenoted, rfl⟩ := tree?_lambda node denoted
      obtain ⟨found, foundOccurs, foundKnown⟩ := ih bodySpells bodyDenoted occurs.2
      refine ⟨found, ⟨?_, foundOccurs⟩, foundKnown⟩
      rintro rfl
      exact occurs.1 (Option.some.inj (known.symm.trans foundKnown))
  | apply left right leftIh rightIh =>
      obtain ⟨func, arg, node, funcSpells, argSpells⟩ := spells
      obtain ⟨funcTree, argTree, funcDenoted, argDenoted, rfl⟩ := tree?_apply node denoted
      rcases occurs with inFunc | inArg
      · obtain ⟨text, found, known⟩ := leftIh funcSpells funcDenoted inFunc
        exact ⟨text, Or.inl found, known⟩
      · obtain ⟨text, found, known⟩ := rightIh argSpells argDenoted inArg
        exact ⟨text, Or.inr found, known⟩

/-- A closure that is displayed encloses its body if the texts that are free in the abstraction are
bound. -/
theorem Closure.Displays.encloses {closure : Closure} {names : NameTable} {param : String}
    {body : Tree String} {missing : NameId → Prop} (displays : closure.Displays names param body)
    (bound : ∀ text, (Tree.lambda param body).Occurs text → ∀ name,
      names.numbers[text]? = some name → ∃ value, closure.env.lookup name = some value) :
    closure.Encloses missing := by
  obtain ⟨inner, denoted, _⟩ := displays.tidy.exists_tree? displays.spells.lt_size
  refine ⟨inner, denoted, fun name occurs => Or.inl ?_⟩
  obtain ⟨text, textOccurs, known⟩ := displays.spells.exists_text denoted occurs.2
  refine bound text ⟨?_, textOccurs⟩ name known
  rintro rfl
  exact occurs.1 (Option.some.inj (displays.param.symm.trans known))

theorem Closure.Displays.enclosed {closure : Closure} {names : NameTable} {param : String}
    {body : Tree String} {missing : NameId → Prop} (displays : closure.Displays names param body)
    (closed : (Tree.lambda param body).Closed) (held : closure.env = .empty) :
    (Value.closure closure).Enclosed missing := by
  refine Value.enclosed_closure.mpr ⟨displays.encloses fun text occurs => ?_, ?_⟩
  · exact (closed text occurs).elim
  · rw [held]
    exact Env.enclosed_empty missing

namespace Church

theorem closed_truth (value : Bool) : (Tree.lambda "t" (truthBody value)).Closed := by
  rintro text ⟨notT, notF, chosen⟩
  cases value
  · exact notF chosen
  · exact notT chosen

theorem occurs_iterated {func text : String} {count : Nat} {body : Tree String}
    (occurs : (iterated func count body).Occurs text) : func = text ∨ body.Occurs text := by
  induction count generalizing body with
  | zero => exact Or.inr occurs
  | succ count ih =>
      rcases ih occurs with same | same | inBody
      · exact Or.inl same
      · exact Or.inl same
      · exact Or.inr inBody

theorem closed_numeral (count : Nat) : (Tree.lambda "f" (numeralBody count)).Closed := by
  rintro text ⟨notF, notX, inside⟩
  rcases occurs_iterated inside with same | same
  · exact notF same
  · exact notX same

variable {missing : NameId → Prop}

theorem enclosed_truth (value : Bool) (mint : Mint) : (truth value mint).1.Enclosed missing := by
  obtain ⟨closure, same, held, displays⟩ := truth_displays value mint
  rw [same]
  exact displays.enclosed (closed_truth value) held

theorem enclosed_numeral (count : Nat) (mint : Mint) :
    (numeral count mint).1.Enclosed missing := by
  obtain ⟨closure, same, held, displays⟩ := numeral_displays count mint
  rw [same]
  exact displays.enclosed (closed_numeral count) held

theorem enclosed_identity (mint : Mint) :
    (Value.closure (identity mint).1).Enclosed missing := by
  obtain ⟨held, displays⟩ := identity_displays mint
  exact displays.enclosed (fun _ occurs => occurs.1 occurs.2) held

theorem enclosed_pair {first second : Value} (firstEnclosed : first.Enclosed missing)
    (secondEnclosed : second.Enclosed missing) (mint : Mint) :
    (pair first second mint).1.Enclosed missing := by
  obtain ⟨closure, firstName, secondName, same, firstKnown, secondKnown, held, displays⟩ :=
    pair_displays first second mint
  rw [same]
  refine Value.enclosed_closure.mpr ⟨displays.encloses fun text occurs name known => ?_, ?_⟩
  · obtain ⟨notP, (same | same) | same⟩ := occurs
    · exact (notP same).elim
    · subst same
      obtain rfl := Option.some.inj (firstKnown.symm.trans known)
      rw [held, Env.lookup, Env.lookup]
      split
      · exact ⟨_, rfl⟩
      · exact ⟨_, if_pos rfl⟩
    · subst same
      obtain rfl := Option.some.inj (secondKnown.symm.trans known)
      rw [held]
      exact ⟨_, if_pos rfl⟩
  · rw [held]
    exact ((Env.enclosed_empty missing).extend firstEnclosed _ _).extend secondEnclosed _ _

end Church

end LambdaMachine
