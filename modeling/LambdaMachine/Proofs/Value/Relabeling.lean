import LambdaMachine.Proofs.Value.Erasure
import LambdaMachine.Memo.Liveness
import LambdaMachine.Value.Text

/-!
The same values under other identities. A value reads the same whatever its identities are; they
only tell which instances are the same one.
-/

namespace LambdaMachine

def Code.relabel (label : Ident → Ident) (code : Code) : Code :=
  ⟨label code.ident, code.arena⟩

mutual

def Closure.relabel (label : Ident → Ident) : Closure → Closure
  | ⟨ident, env, param, body, code⟩ =>
      ⟨label ident, env.relabel label, param, body, code.relabel label⟩

def Builtin.relabel (label : Ident → Ident) : Builtin → Builtin
  | ⟨ident, name, operation, kept⟩ => ⟨label ident, name, operation, kept.relabel label⟩

def Env.relabel (label : Ident → Ident) : Env → Env
  | .empty => .empty
  | .bind ident name value outer =>
      .bind (label ident) name (value.relabel label) (outer.relabel label)

def Value.relabel (label : Ident → Ident) : Value → Value
  | .closure abstraction => .closure (abstraction.relabel label)
  | .builtin function => .builtin (function.relabel label)
  | .datum ident data => .datum (label ident) data

end

def Evaluated.relabel (label : Ident → Ident) (result : Evaluated) : Evaluated :=
  ⟨result.value.relabel label, result.cacheable⟩

variable {label : Ident → Ident}

theorem Closure.relabel_eq (closure : Closure) :
    closure.relabel label = ⟨label closure.ident, closure.env.relabel label, closure.param,
      closure.body, closure.code.relabel label⟩ := by
  cases closure
  rw [Closure.relabel]

theorem Builtin.relabel_eq (function : Builtin) :
    function.relabel label =
      ⟨label function.ident, function.name, function.operation, function.kept.relabel label⟩ := by
  cases function
  rw [Builtin.relabel]

theorem Value.relabel_closure (closure : Closure) :
    (Value.closure closure).relabel label = .closure (closure.relabel label) := by
  rw [Value.relabel]

theorem Env.relabel_extend (env : Env) (ident : Ident) (name : NameId) (value : Value) :
    (env.extend ident name value).relabel label =
      (env.relabel label).extend (label ident) name (value.relabel label) := by
  rw [Env.extend, Env.relabel]
  rfl

theorem Env.lookup_relabel : ∀ (env : Env) (name : NameId),
    (env.relabel label).lookup name = (env.lookup name).map (Value.relabel label)
  | .empty, name => by
      rw [Env.relabel, Env.lookup]
      rfl
  | .bind ident bound value outer, name => by
      rw [Env.relabel, Env.lookup, Env.lookup]
      split
      · rfl
      · exact outer.lookup_relabel name

theorem Value.kind_relabel (value : Value) : (value.relabel label).kind = value.kind := by
  cases value <;> rw [Value.relabel] <;> rfl

theorem Value.text_relabel (value : Value) (names : NameTable) :
    (value.relabel label).text names = value.text names := by
  cases value with
  | closure closure =>
      rw [Value.relabel, Closure.relabel_eq]
      rfl
  | builtin function =>
      rw [Value.relabel, Builtin.relabel_eq]
      rfl
  | datum ident data =>
      rw [Value.relabel]
      rfl

theorem Env.link_relabel (env : Env) : (env.relabel label).link = env.link.map label := by
  cases env <;> rw [Env.relabel] <;> rfl

theorem Value.link_relabel (value : Value) : (value.relabel label).link = value.link.map label := by
  cases value with
  | closure closure =>
      rw [Value.relabel, Closure.relabel_eq]
      rfl
  | builtin function =>
      rw [Value.relabel, Builtin.relabel_eq]
      exact function.kept.link_relabel
  | datum ident data =>
      rw [Value.relabel]
      rfl

mutual

theorem Closure.relabel_id : ∀ closure : Closure, closure.relabel id = closure
  | ⟨ident, env, param, body, code⟩ => by
      rw [Closure.relabel, env.relabel_id]
      rfl

theorem Builtin.relabel_id : ∀ function : Builtin, function.relabel id = function
  | ⟨ident, name, operation, kept⟩ => by
      rw [Builtin.relabel, kept.relabel_id]
      rfl

theorem Env.relabel_id : ∀ env : Env, env.relabel id = env
  | .empty => by rw [Env.relabel]
  | .bind ident name value outer => by
      rw [Env.relabel, value.relabel_id, outer.relabel_id]
      rfl

theorem Value.relabel_id : ∀ value : Value, value.relabel id = value
  | .closure abstraction => by rw [Value.relabel, abstraction.relabel_id]
  | .builtin function => by rw [Value.relabel, function.relabel_id]
  | .datum ident data => by
      rw [Value.relabel]
      rfl

end

mutual

theorem Closure.erase_relabel : ∀ closure : Closure,
    (closure.relabel label).erase = closure.erase
  | ⟨ident, env, param, body, code⟩ => by
      rw [Closure.relabel, Closure.erase, Closure.erase, env.erase_relabel]
      rfl

theorem Builtin.erase_relabel : ∀ function : Builtin,
    (function.relabel label).erase = function.erase
  | ⟨ident, name, operation, kept⟩ => by
      rw [Builtin.relabel, Builtin.erase, Builtin.erase, kept.erase_relabel]

theorem Env.erase_relabel : ∀ env : Env, (env.relabel label).erase = env.erase
  | .empty => by rw [Env.relabel]
  | .bind ident name value outer => by
      rw [Env.relabel, Env.erase, Env.erase, value.erase_relabel, outer.erase_relabel]

theorem Value.erase_relabel : ∀ value : Value, (value.relabel label).erase = value.erase
  | .closure abstraction => by
      rw [Value.relabel, Value.erase, Value.erase, abstraction.erase_relabel]
  | .builtin function => by rw [Value.relabel, Value.erase, Value.erase, function.erase_relabel]
  | .datum ident data => by rw [Value.relabel, Value.erase, Value.erase]

end

/-- New identities that never confuse instances. Those from `next` on, which are not given out yet,
become those from `nextLabel` on. -/
structure Relabels (label : Ident → Ident) (next nextLabel : Ident) : Prop where
  injective : ∀ first second, label first = label second → first = second
  shifts : ∀ count, label (next + count) = nextLabel + count

def labelPast (label : Ident → Ident) (bound : Ident) : Ident → Ident := fun ident =>
  if ident < bound then label ident else label ident + 1

namespace Relabels

variable {next nextLabel : Ident}

theorem refl (next : Ident) : Relabels id next next :=
  ⟨fun _ _ same => same, fun _ => rfl⟩

theorem label_next (relabels : Relabels label next nextLabel) : label next = nextLabel :=
  relabels.shifts 0

theorem advance (relabels : Relabels label next nextLabel) (count : Nat) :
    Relabels label (next + count) (nextLabel + count) := by
  refine ⟨relabels.injective, fun more => ?_⟩
  rw [Nat.add_assoc, relabels.shifts, Nat.add_assoc]

theorem lt (relabels : Relabels label next nextLabel) {ident : Ident} (below : ident < next) :
    label ident < nextLabel := by
  refine Nat.lt_of_not_le fun above => ?_
  obtain ⟨count, same⟩ := Nat.exists_eq_add_of_le above
  have twice := relabels.injective ident (next + count) (same.trans (relabels.shifts count).symm)
  exact Nat.not_lt.mpr (Nat.le_add_right next count) (twice ▸ below)

theorem le (relabels : Relabels label next nextLabel) {ident : Ident} (above : next ≤ ident) :
    nextLabel ≤ label ident := by
  obtain ⟨count, rfl⟩ := Nat.exists_eq_add_of_le above
  rw [relabels.shifts]
  exact Nat.le_add_right _ _

theorem past_ne (relabels : Relabels label next nextLabel) (ident : Ident) :
    labelPast label next ident ≠ nextLabel := by
  unfold labelPast
  split
  · rename_i below
    exact Nat.ne_of_lt (relabels.lt below)
  · rename_i above
    exact Nat.ne_of_gt (Nat.lt_succ_of_le (relabels.le (Nat.le_of_not_lt above)))

theorem past (relabels : Relabels label next nextLabel) :
    Relabels (labelPast label next) next (nextLabel + 1) := by
  constructor
  · intro first second same
    unfold labelPast at same
    split at same
    · rename_i firstBelow
      split at same
      · exact relabels.injective first second same
      · rename_i secondAbove
        have lower := relabels.lt firstBelow
        have upper := relabels.le (Nat.le_of_not_lt secondAbove)
        rw [same] at lower
        exact (Nat.lt_irrefl _ (Nat.lt_of_lt_of_le (Nat.lt_of_succ_lt lower) upper)).elim
    · rename_i firstAbove
      split at same
      · rename_i secondBelow
        have lower := relabels.lt secondBelow
        have upper := relabels.le (Nat.le_of_not_lt firstAbove)
        rw [← same] at lower
        exact (Nat.lt_irrefl _ (Nat.lt_of_lt_of_le (Nat.lt_of_succ_lt lower) upper)).elim
      · exact relabels.injective first second (Nat.succ.inj same)
  · intro count
    rw [labelPast, if_neg (Nat.not_lt.mpr (Nat.le_add_right next count)), relabels.shifts]
    exact Nat.add_right_comm _ _ _

end Relabels

end LambdaMachine
