import LambdaMachine.Machine.Host

/-!
Values without identities, and properties of everything a value holds. Erasing puts 0 for every
identity: two values are alike if they are equal once erased. A property of closures and one of host
functions hold throughout a value if they hold of all that can be reached in it through
environments.
-/

namespace LambdaMachine

mutual

def Closure.erase : Closure → Closure
  | ⟨_, env, param, body, code⟩ => ⟨0, env.erase, param, body, ⟨0, code.arena⟩⟩

def Builtin.erase : Builtin → Builtin
  | ⟨_, name, operation, kept⟩ => ⟨0, name, operation, kept.erase⟩

def Env.erase : Env → Env
  | .empty => .empty
  | .bind _ name value outer => .bind 0 name value.erase outer.erase

def Value.erase : Value → Value
  | .closure abstraction => .closure abstraction.erase
  | .builtin function => .builtin function.erase
  | .datum _ data => .datum 0 data

end

def Code.erase (code : Code) : Code :=
  ⟨0, code.arena⟩

def Evaluated.erase (result : Evaluated) : Evaluated :=
  ⟨result.value.erase, result.cacheable⟩

theorem Closure.erase_eq (closure : Closure) :
    closure.erase = ⟨0, closure.env.erase, closure.param, closure.body, closure.code.erase⟩ := by
  cases closure
  rw [Closure.erase]
  rfl

theorem Builtin.erase_eq (function : Builtin) :
    function.erase = ⟨0, function.name, function.operation, function.kept.erase⟩ := by
  cases function
  rw [Builtin.erase]

mutual

theorem Closure.erase_erase : ∀ closure : Closure, closure.erase.erase = closure.erase
  | ⟨ident, env, param, body, code⟩ => by
      simp only [Closure.erase, env.erase_erase]

theorem Builtin.erase_erase : ∀ function : Builtin, function.erase.erase = function.erase
  | ⟨ident, name, operation, kept⟩ => by
      simp only [Builtin.erase, kept.erase_erase]

theorem Env.erase_erase : ∀ env : Env, env.erase.erase = env.erase
  | .empty => by simp only [Env.erase]
  | .bind ident name value outer => by
      simp only [Env.erase, value.erase_erase, outer.erase_erase]

theorem Value.erase_erase : ∀ value : Value, value.erase.erase = value.erase
  | .closure abstraction => by simp only [Value.erase, abstraction.erase_erase]
  | .builtin function => by simp only [Value.erase, function.erase_erase]
  | .datum ident data => by simp only [Value.erase]

end

theorem Env.erase_extend (env : Env) (ident : Ident) (name : NameId) (value : Value) :
    (env.extend ident name value).erase = env.erase.extend 0 name value.erase := by
  rw [Env.extend, Env.erase]
  rfl

theorem Env.lookup_erase : ∀ (env : Env) (name : NameId),
    env.erase.lookup name = (env.lookup name).map Value.erase
  | .empty, name => by
      rw [Env.erase, Env.lookup]
      rfl
  | .bind ident bound value outer, name => by
      rw [Env.erase, Env.lookup, Env.lookup]
      split
      · rfl
      · exact outer.lookup_erase name

theorem Value.kind_erase (value : Value) : value.erase.kind = value.kind := by
  cases value <;> rw [Value.erase] <;> rfl

theorem Value.erase_eq_closure {value : Value} {erased : Closure}
    (same : value.erase = .closure erased) :
    ∃ closure, value = .closure closure ∧ closure.erase = erased := by
  cases value with
  | closure closure =>
      rw [Value.erase] at same
      exact ⟨closure, rfl, Value.closure.inj same⟩
  | builtin function => rw [Value.erase] at same; cases same
  | datum ident data => rw [Value.erase] at same; cases same

theorem Value.erase_eq_builtin {value : Value} {erased : Builtin}
    (same : value.erase = .builtin erased) :
    ∃ function, value = .builtin function ∧ function.erase = erased := by
  cases value with
  | closure closure => rw [Value.erase] at same; cases same
  | builtin function =>
      rw [Value.erase] at same
      exact ⟨function, rfl, Value.builtin.inj same⟩
  | datum ident data => rw [Value.erase] at same; cases same

theorem Value.erase_eq_datum {value : Value} {erased : Ident} {data : Datum}
    (same : value.erase = .datum erased data) : ∃ ident, value = .datum ident data := by
  cases value with
  | closure closure => rw [Value.erase] at same; cases same
  | builtin function => rw [Value.erase] at same; cases same
  | datum ident other =>
      rw [Value.erase] at same
      cases same
      exact ⟨ident, rfl⟩

theorem Evaluated.value_erase_closure {result : Evaluated} {closure : Closure}
    (same : result.value = .closure closure) : result.erase.value = .closure closure.erase := by
  rw [Evaluated.erase, same, Value.erase]

theorem Evaluated.value_erase_builtin {result : Evaluated} {function : Builtin}
    (same : result.value = .builtin function) :
    result.erase.value = .builtin function.erase := by
  rw [Evaluated.erase, same, Value.erase]

theorem Env.exists_lookup_extend {env : Env} {ident : Ident} {bound name : NameId} {value : Value}
    (found : bound = name ∨ ∃ other, env.lookup name = some other) :
    ∃ other, (env.extend ident bound value).lookup name = some other := by
  rw [Env.lookup_extend]
  by_cases same : bound = name
  · exact ⟨value, if_pos same⟩
  · rw [if_neg same]
    exact found.resolve_left same

section Throughout

variable (closures : Closure → Prop) (builtins : Builtin → Prop)

mutual

def Closure.Throughout : Closure → Prop
  | ⟨ident, env, param, body, code⟩ => closures ⟨ident, env, param, body, code⟩ ∧ env.Throughout

def Builtin.Throughout : Builtin → Prop
  | ⟨ident, name, operation, kept⟩ => builtins ⟨ident, name, operation, kept⟩ ∧ kept.Throughout

def Env.Throughout : Env → Prop
  | .empty => True
  | .bind _ _ value outer => value.Throughout ∧ outer.Throughout

def Value.Throughout : Value → Prop
  | .closure abstraction => abstraction.Throughout
  | .builtin function => function.Throughout
  | .datum _ _ => True

end

end Throughout

section Lemmas

variable {closures weaker : Closure → Prop} {builtins : Builtin → Prop}

theorem Closure.throughout_iff {closure : Closure} :
    closure.Throughout closures builtins ↔
      closures closure ∧ closure.env.Throughout closures builtins := by
  cases closure
  rw [Closure.Throughout]

theorem Builtin.throughout_iff {function : Builtin} :
    function.Throughout closures builtins ↔
      builtins function ∧ function.kept.Throughout closures builtins := by
  cases function
  rw [Builtin.Throughout]

theorem Env.throughout_empty (closures : Closure → Prop) (builtins : Builtin → Prop) :
    Env.empty.Throughout closures builtins := by
  rw [Env.Throughout]
  trivial

theorem Value.throughout_closure {closure : Closure} :
    (Value.closure closure).Throughout closures builtins ↔
      closures closure ∧ closure.env.Throughout closures builtins := by
  rw [Value.Throughout, Closure.throughout_iff]

theorem Value.throughout_builtin {function : Builtin} :
    (Value.builtin function).Throughout closures builtins ↔
      builtins function ∧ function.kept.Throughout closures builtins := by
  rw [Value.Throughout, Builtin.throughout_iff]

theorem Value.throughout_datum (closures : Closure → Prop) (builtins : Builtin → Prop)
    (ident : Ident) (data : Datum) :
    (Value.datum ident data).Throughout closures builtins := by
  rw [Value.Throughout]
  trivial

theorem Env.Throughout.of_lookup : ∀ {env : Env} {name : NameId} {value : Value},
    env.Throughout closures builtins → env.lookup name = some value →
      value.Throughout closures builtins
  | .empty, name, value, _, found => by cases found
  | .bind ident bound held outer, name, value, all, found => by
      rw [Env.Throughout] at all
      rw [Env.lookup] at found
      split at found
      · cases found
        exact all.1
      · exact all.2.of_lookup found

theorem Env.Throughout.extend {env : Env} {value : Value}
    (envAll : env.Throughout closures builtins) (valueAll : value.Throughout closures builtins)
    (ident : Ident) (name : NameId) :
    (env.extend ident name value).Throughout closures builtins := by
  rw [Env.extend, Env.Throughout]
  exact ⟨valueAll, envAll⟩

mutual

theorem Closure.Throughout.mono (implies : ∀ closure, closures closure → weaker closure) :
    ∀ {closure : Closure}, closure.Throughout closures builtins →
      closure.Throughout weaker builtins
  | ⟨ident, env, param, body, code⟩, all => by
      rw [Closure.Throughout] at all ⊢
      exact ⟨implies _ all.1, all.2.mono implies⟩

theorem Builtin.Throughout.mono (implies : ∀ closure, closures closure → weaker closure) :
    ∀ {function : Builtin}, function.Throughout closures builtins →
      function.Throughout weaker builtins
  | ⟨ident, name, operation, kept⟩, all => by
      rw [Builtin.Throughout] at all ⊢
      exact ⟨all.1, all.2.mono implies⟩

theorem Env.Throughout.mono (implies : ∀ closure, closures closure → weaker closure) :
    ∀ {env : Env}, env.Throughout closures builtins → env.Throughout weaker builtins
  | .empty, _ => by
      rw [Env.Throughout]
      trivial
  | .bind ident name value outer, all => by
      rw [Env.Throughout] at all ⊢
      exact ⟨all.1.mono implies, all.2.mono implies⟩

theorem Value.Throughout.mono (implies : ∀ closure, closures closure → weaker closure) :
    ∀ {value : Value}, value.Throughout closures builtins → value.Throughout weaker builtins
  | .closure abstraction, all => by
      rw [Value.Throughout] at all ⊢
      exact all.mono implies
  | .builtin function, all => by
      rw [Value.Throughout] at all ⊢
      exact all.mono implies
  | .datum _ _, _ => by
      rw [Value.Throughout]
      trivial

end

end Lemmas

end LambdaMachine
