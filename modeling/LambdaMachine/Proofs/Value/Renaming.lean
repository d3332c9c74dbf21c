import LambdaMachine.Memo.Liveness
import LambdaMachine.Proofs.Program.RoundTrip
import LambdaMachine.Proofs.Term.Glossary
import LambdaMachine.Proofs.Value.Layout
import LambdaMachine.Value.Text

/-!
Values that match: they are built alike, of the same instances, and their names and code stand for
the same texts, each in its own table. Values that match look alike from outside, and hold the same
instances.
-/

namespace LambdaMachine

mutual

def Closure.Matches (glossary : Glossary) : Closure → Closure → Prop
  | ⟨ident, env, param, body, code⟩, other =>
      ident = other.ident ∧ code.ident = other.code.ident ∧ glossary.Pairs param other.param ∧
        glossary.Agree code.arena body other.code.arena other.body ∧ env.Matches glossary other.env

def Builtin.Matches (glossary : Glossary) : Builtin → Builtin → Prop
  | ⟨ident, name, operation, kept⟩, other =>
      ident = other.ident ∧ name = other.name ∧ operation = other.operation ∧
        kept.Matches glossary other.kept

def Env.Matches (glossary : Glossary) : Env → Env → Prop
  | .empty, .empty => True
  | .bind ident name value outer, .bind ident' name' value' outer' =>
      ident = ident' ∧ glossary.Pairs name name' ∧ value.Matches glossary value' ∧
        outer.Matches glossary outer'
  | _, _ => False

def Value.Matches (glossary : Glossary) : Value → Value → Prop
  | .closure closure, .closure closure' => closure.Matches glossary closure'
  | .builtin function, .builtin function' => function.Matches glossary function'
  | .datum ident data, .datum ident' data' => ident = ident' ∧ data = data'
  | _, _ => False

end

section Matches

variable {glossary : Glossary}

theorem Closure.matches_iff {closure other : Closure} :
    closure.Matches glossary other ↔
      closure.ident = other.ident ∧ closure.code.ident = other.code.ident ∧
        glossary.Pairs closure.param other.param ∧
        glossary.Agree closure.code.arena closure.body other.code.arena other.body ∧
        closure.env.Matches glossary other.env := by
  cases closure
  rw [Closure.Matches]

theorem Builtin.matches_iff {function other : Builtin} :
    function.Matches glossary other ↔
      function.ident = other.ident ∧ function.name = other.name ∧
        function.operation = other.operation ∧ function.kept.Matches glossary other.kept := by
  cases function
  rw [Builtin.Matches]

theorem Env.matches_empty (glossary : Glossary) : Env.empty.Matches glossary .empty := by
  rw [Env.Matches]
  trivial

theorem Env.Matches.extend {env other : Env} {name name' : NameId} {value value' : Value}
    (envs : env.Matches glossary other) (names : glossary.Pairs name name')
    (values : value.Matches glossary value') (ident : Ident) :
    (env.extend ident name value).Matches glossary (other.extend ident name' value') := by
  rw [Env.extend, Env.extend, Env.Matches]
  exact ⟨rfl, names, values, envs⟩

theorem Value.matches_closure {closure other : Closure} :
    (Value.closure closure).Matches glossary (.closure other) ↔
      closure.Matches glossary other := by
  rw [Value.Matches]

theorem Value.matches_builtin {function other : Builtin} :
    (Value.builtin function).Matches glossary (.builtin other) ↔
      function.Matches glossary other := by
  rw [Value.Matches]

theorem Value.matches_datum (glossary : Glossary) (ident : Ident) (data : Datum) :
    (Value.datum ident data).Matches glossary (.datum ident data) := by
  rw [Value.Matches]
  exact ⟨rfl, rfl⟩

theorem Value.Matches.of_closure {closure : Closure} {other : Value}
    (same : (Value.closure closure).Matches glossary other) :
    ∃ closure', other = .closure closure' ∧ closure.Matches glossary closure' := by
  cases other with
  | closure closure' => exact ⟨closure', rfl, Value.matches_closure.mp same⟩
  | builtin function => simp only [Value.Matches] at same
  | datum ident data => simp only [Value.Matches] at same

theorem Value.Matches.of_builtin {function : Builtin} {other : Value}
    (same : (Value.builtin function).Matches glossary other) :
    ∃ function', other = .builtin function' ∧ function.Matches glossary function' := by
  cases other with
  | closure closure => simp only [Value.Matches] at same
  | builtin function' => exact ⟨function', rfl, Value.matches_builtin.mp same⟩
  | datum ident data => simp only [Value.Matches] at same

theorem Value.Matches.of_datum {ident : Ident} {data : Datum} {other : Value}
    (same : (Value.datum ident data).Matches glossary other) : other = .datum ident data := by
  cases other with
  | closure closure => simp only [Value.Matches] at same
  | builtin function => simp only [Value.Matches] at same
  | datum ident' data' =>
      simp only [Value.Matches] at same
      rw [same.1, same.2]

theorem Env.Matches.of_empty {other : Env} (same : Env.empty.Matches glossary other) :
    other = .empty := by
  cases other with
  | empty => rfl
  | bind ident name value outer => simp only [Env.Matches] at same

theorem Env.Matches.of_bind {ident : Ident} {name : NameId} {value : Value} {outer other : Env}
    (same : (Env.bind ident name value outer).Matches glossary other) :
    ∃ name' value' outer', other = .bind ident name' value' outer' ∧
      glossary.Pairs name name' ∧ value.Matches glossary value' ∧
      outer.Matches glossary outer' := by
  cases other with
  | empty => simp only [Env.Matches] at same
  | bind ident' name' value' outer' =>
      rw [Env.Matches] at same
      obtain ⟨rfl, names, values, outers⟩ := same
      exact ⟨name', value', outer', rfl, names, values, outers⟩

/-- Names that are paired are bound to values that match, or both are not bound. -/
theorem Env.Matches.lookup : ∀ {env other : Env} {name name' : NameId},
    env.Matches glossary other → glossary.Pairs name name' →
      Option.Rel (Value.Matches glossary) (env.lookup name) (other.lookup name')
  | .empty, other, name, name', same, _ => by
      obtain rfl := same.of_empty
      exact .none
  | .bind ident bound value outer, other, name, name', same, names => by
      obtain ⟨bound', value', outer', rfl, bounds, values, outers⟩ := same.of_bind
      rw [Env.lookup, Env.lookup]
      by_cases here : bound = name
      · rw [if_pos here, if_pos ((bounds.eq_iff names).mp here)]
        exact .some values
      · rw [if_neg here, if_neg fun found => here ((bounds.eq_iff names).mpr found)]
        exact outers.lookup names

theorem Value.Matches.kind_eq {value other : Value} (same : value.Matches glossary other) :
    value.kind = other.kind := by
  cases value with
  | closure closure => obtain ⟨_, rfl, _⟩ := same.of_closure; rfl
  | builtin function => obtain ⟨_, rfl, _⟩ := same.of_builtin; rfl
  | datum ident data => rw [same.of_datum]

theorem Closure.Matches.text_eq {closure other : Closure} (same : closure.Matches glossary other) :
    closure.text glossary.left = other.text glossary.right := by
  obtain ⟨_, _, params, bodies, _⟩ := Closure.matches_iff.mp same
  rw [Closure.text, Closure.text, params.text_eq, bodies.text?_eq]

theorem Value.Matches.text_eq {value other : Value} (same : value.Matches glossary other) :
    value.text glossary.left = other.text glossary.right := by
  cases value with
  | closure closure =>
      obtain ⟨_, rfl, closures⟩ := same.of_closure
      exact closures.text_eq
  | builtin function =>
      obtain ⟨_, rfl, functions⟩ := same.of_builtin
      rw [Value.text, Value.text, (Builtin.matches_iff.mp functions).2.1]
  | datum ident data => rw [same.of_datum]; rfl

theorem Env.Matches.link_eq {env other : Env} (same : env.Matches glossary other) :
    env.link = other.link := by
  cases env with
  | empty => rw [same.of_empty]
  | bind ident name value outer =>
      obtain ⟨_, _, _, rfl, _⟩ := same.of_bind
      rfl

theorem Value.Matches.link_eq {value other : Value} (same : value.Matches glossary other) :
    value.link = other.link := by
  cases value with
  | closure closure =>
      obtain ⟨_, rfl, closures⟩ := same.of_closure
      rw [Value.link, Value.link, (Closure.matches_iff.mp closures).1]
  | builtin function =>
      obtain ⟨_, rfl, functions⟩ := same.of_builtin
      rw [Value.link, Value.link, (Builtin.matches_iff.mp functions).2.2.2.link_eq]
  | datum ident data => rw [same.of_datum]

section Mono

variable {later : Glossary}

mutual

theorem Closure.Matches.mono (grown : later.Extends glossary) :
    ∀ {closure other : Closure}, closure.Matches glossary other → closure.Matches later other
  | ⟨ident, env, param, body, code⟩, other, same => by
      rw [Closure.Matches] at same ⊢
      obtain ⟨idents, codes, params, bodies, envs⟩ := same
      exact ⟨idents, codes, params.mono grown, bodies.mono grown, envs.mono grown⟩

theorem Builtin.Matches.mono (grown : later.Extends glossary) :
    ∀ {function other : Builtin}, function.Matches glossary other → function.Matches later other
  | ⟨ident, name, operation, kept⟩, other, same => by
      rw [Builtin.Matches] at same ⊢
      obtain ⟨idents, names, operations, held⟩ := same
      exact ⟨idents, names, operations, held.mono grown⟩

theorem Env.Matches.mono (grown : later.Extends glossary) :
    ∀ {env other : Env}, env.Matches glossary other → env.Matches later other
  | .empty, other, same => by
      rw [same.of_empty]
      exact Env.matches_empty later
  | .bind ident name value outer, other, same => by
      obtain ⟨name', value', outer', rfl, names, values, outers⟩ := same.of_bind
      exact (outers.mono grown).extend (names.mono grown) (values.mono grown) ident

theorem Value.Matches.mono (grown : later.Extends glossary) :
    ∀ {value other : Value}, value.Matches glossary other → value.Matches later other
  | .closure closure, other, same => by
      obtain ⟨_, rfl, closures⟩ := same.of_closure
      exact Value.matches_closure.mpr (closures.mono grown)
  | .builtin function, other, same => by
      obtain ⟨_, rfl, functions⟩ := same.of_builtin
      exact Value.matches_builtin.mpr (functions.mono grown)
  | .datum ident data, other, same => by
      rw [same.of_datum]
      exact Value.matches_datum later ident data

end

end Mono

section Reach

variable {owners : IdentSet}

mutual

theorem Closure.Matches.reach_eq : ∀ {closure other : Closure},
    closure.Matches glossary other → closure.reach owners = other.reach owners
  | ⟨ident, env, param, body, code⟩, ⟨ident', env', param', body', code'⟩, same => by
      rw [Closure.Matches] at same
      obtain ⟨rfl, _, _, _, envs⟩ := same
      funext reached
      simp only [Closure.reach, Reached.addClosure, envs.link_eq, envs.reach_eq]

theorem Builtin.Matches.reach_eq : ∀ {function other : Builtin},
    function.Matches glossary other → function.reach owners = other.reach owners
  | ⟨ident, name, operation, kept⟩, ⟨ident', name', operation', kept'⟩, same => by
      rw [Builtin.Matches] at same
      obtain ⟨_, _, _, held⟩ := same
      funext reached
      simp only [Builtin.reach, held.reach_eq]

theorem Env.Matches.reach_eq : ∀ {env other : Env},
    env.Matches glossary other → env.reach owners = other.reach owners
  | .empty, other, same => by rw [same.of_empty]
  | .bind ident name value outer, other, same => by
      obtain ⟨name', value', outer', rfl, _, values, outers⟩ := same.of_bind
      funext reached
      simp only [Env.reach, Reached.addBinding, values.link_eq, outers.link_eq, values.reach_eq,
        outers.reach_eq]

theorem Value.Matches.reach_eq : ∀ {value other : Value},
    value.Matches glossary other → value.reach owners = other.reach owners
  | .closure closure, other, same => by
      obtain ⟨_, rfl, closures⟩ := same.of_closure
      funext reached
      simp only [Value.reach, closures.reach_eq]
  | .builtin function, other, same => by
      obtain ⟨_, rfl, functions⟩ := same.of_builtin
      funext reached
      simp only [Value.reach, functions.reach_eq]
  | .datum ident data, other, same => by rw [same.of_datum]

end

end Reach

/-- Closures of one abstraction of texts match if they are the same instance in environments that
match. -/
theorem Closure.Displays.matches {closure other : Closure} {param : String} {body : Tree String}
    (left : closure.Displays glossary.left param body)
    (right : other.Displays glossary.right param body) (idents : closure.ident = other.ident)
    (codes : closure.code.ident = other.code.ident)
    (envs : closure.env.Matches glossary other.env) : closure.Matches glossary other := by
  obtain ⟨leftTree, leftDenoted, _⟩ := left.tidy.exists_tree? left.spells.lt_size
  obtain ⟨rightTree, rightDenoted, _⟩ := right.tidy.exists_tree? right.spells.lt_size
  refine Closure.matches_iff.mpr ⟨idents, codes, ⟨param, left.param, right.param⟩, ?_, envs⟩
  exact ⟨body, ⟨left.spells, _, leftDenoted⟩, ⟨right.spells, _, rightDenoted⟩⟩

end Matches

structure Mint.Matches (glossary : Glossary) (mint other : Mint) : Prop where
  left : mint.names = glossary.left
  right : other.names = glossary.right
  idents : mint.nextIdent = other.nextIdent

namespace Mint

def MakesAlike {α : Type} (related : Glossary → α → α → Prop) (glossary : Glossary)
    (made made' : α × Mint) : Prop :=
  ∃ later : Glossary, later.Extends glossary ∧ related later made.1 made'.1 ∧
    made.2.Matches later made'.2

section Matches

variable {glossary : Glossary} {mint other : Mint} {env env' : Env} {name name' : NameId}

theorem Matches.issue (same : mint.Matches glossary other) :
    mint.issue.2.Matches glossary other.issue.2 :=
  ⟨same.left, same.right, congrArg (· + 1) same.idents⟩

theorem Matches.intern (same : mint.Matches glossary other) (text : String) :
    (glossary.intern text).Pairs (mint.intern text).1 (other.intern text).1 ∧
      (mint.intern text).2.Matches (glossary.intern text) (other.intern text).2 := by
  obtain ⟨names, next⟩ := mint
  obtain ⟨names', next'⟩ := other
  obtain ⟨rfl, rfl, rfl⟩ := same
  exact ⟨glossary.pairs_intern text, rfl, rfl, rfl⟩

theorem Matches.extend (same : mint.Matches glossary other) (envs : env.Matches glossary env')
    (names : glossary.Pairs name name') {value value' : Value}
    (values : value.Matches glossary value') :
    (mint.extend env name value).1.Matches glossary (other.extend env' name' value').1 ∧
      (mint.extend env name value).2.Matches glossary (other.extend env' name' value').2 := by
  refine ⟨?_, same.issue⟩
  have ident : mint.nextIdent = other.nextIdent := same.idents
  rw [Mint.extend, Mint.extend, Mint.issue, Mint.issue, ident]
  exact envs.extend names values _

theorem Matches.closure (same : mint.Matches glossary other) (envs : env.Matches glossary env')
    (names : glossary.Pairs name name') {code code' : Code} (codes : code.ident = code'.ident)
    {body body' : NodeId} (bodies : glossary.Agree code.arena body code'.arena body') :
    (mint.closure env name body code).1.Matches glossary
        (other.closure env' name' body' code').1 ∧
      (mint.closure env name body code).2.Matches glossary
        (other.closure env' name' body' code').2 :=
  ⟨Closure.matches_iff.mpr ⟨same.idents, codes, names, bodies, envs⟩, same.issue⟩

theorem Matches.builtin (same : mint.Matches glossary other) (name : String)
    (operation : Operation) (kept : env.Matches glossary env') :
    (mint.builtin name operation env).1.Matches glossary (other.builtin name operation env').1 ∧
      (mint.builtin name operation env).2.Matches glossary
        (other.builtin name operation env').2 :=
  ⟨Value.matches_builtin.mpr (Builtin.matches_iff.mpr ⟨same.idents, rfl, rfl, kept⟩), same.issue⟩

theorem Matches.datum (same : mint.Matches glossary other) (data : Datum) :
    (mint.datum data).1.Matches glossary (other.datum data).1 ∧
      (mint.datum data).2.Matches glossary (other.datum data).2 := by
  refine ⟨?_, same.issue⟩
  have ident : mint.nextIdent = other.nextIdent := same.idents
  rw [Mint.datum, Mint.datum, Mint.issue, Mint.issue, ident]
  exact Value.matches_datum glossary _ data

/-- Mints that number more names, and give out as many identities, match again. -/
theorem Matches.grow (same : mint.Matches glossary other) {after after' : Mint}
    (interns : mint.names.Interns after.names) (interns' : other.names.Interns after'.names)
    (idents : after.nextIdent = after'.nextIdent) :
    ∃ later, later.Extends glossary ∧ after.Matches later after' := by
  rw [same.left] at interns
  rw [same.right] at interns'
  exact ⟨⟨after.names, after'.names, interns.coherent glossary.leftCoherent,
    interns'.coherent glossary.rightCoherent⟩, ⟨interns.extends, interns'.extends⟩, rfl, rfl, idents⟩

theorem Matches.displayed (same : mint.Matches glossary other) {closure closure' : Closure}
    {param : String} {body : Tree String} (left : closure.Displays mint.names param body)
    (right : closure'.Displays other.names param body) (idents : closure.ident = closure'.ident)
    (codes : closure.code.ident = closure'.code.ident)
    (envs : closure.env.Matches glossary closure'.env) : closure.Matches glossary closure' := by
  rw [same.left] at left
  rw [same.right] at right
  exact left.matches right idents codes envs

theorem Matches.abstraction (same : mint.Matches glossary other) {param : String}
    {body : Tree String} (isName : IsName param) (named : body.Named IsName)
    (envs : env.Matches glossary env') :
    MakesAlike Closure.Matches glossary (mint.abstraction env param body)
      (other.abstraction env' param body) := by
  have left := mint.abstracts isName named env
  have right := other.abstracts isName named env'
  have idents : mint.nextIdent = other.nextIdent := same.idents
  obtain ⟨later, grown, after⟩ := same.grow left.interns right.interns (congrArg (· + 2) idents)
  refine ⟨later, grown, ?_, after⟩
  refine after.displayed left.displays right.displays (congrArg (· + 1) idents) idents ?_
  rw [left.env, right.env]
  exact envs.mono grown

end Matches

end Mint

end LambdaMachine
