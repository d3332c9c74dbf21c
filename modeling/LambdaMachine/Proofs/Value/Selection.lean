import LambdaMachine.Proofs.Term.Denotation
import LambdaMachine.Proofs.Value.Church
import LambdaMachine.Proofs.Value.Layout

/-!
Closures that choose and closures that pair, wherever they come from: λx.λy.x and λx.λy.y hand back
one of their arguments, and a pair hands its components to what it is applied to. The truth values
and the pairs of the host are such closures.
-/

namespace LambdaMachine

namespace Closure

def IsChoice (closure : Closure) (first : Bool) : Prop :=
  ∃ other last, closure.code.arena.node? closure.body = some (.lambda other last) ∧
    closure.code.arena.node? last = some (.var (cond first closure.param other)) ∧
    (first = true → closure.param ≠ other)

def IsHalf (closure : Closure) (first : Bool) (kept : Value) : Prop :=
  ∃ name, closure.code.arena.node? closure.body = some (.var name) ∧
    ∀ ident arg, (closure.env.extend ident closure.param arg).lookup name =
      some (cond first kept arg)

def IsPair (closure : Closure) (first second : Value) : Prop :=
  ∃ half last head operand firstName secondName,
    closure.code.arena.node? closure.body = some (.apply half last) ∧
    closure.code.arena.node? half = some (.apply head operand) ∧
    closure.code.arena.node? head = some (.var closure.param) ∧
    closure.code.arena.node? operand = some (.var firstName) ∧
    closure.code.arena.node? last = some (.var secondName) ∧
    closure.param ≠ firstName ∧ closure.env.lookup firstName = some first ∧
    closure.param ≠ secondName ∧ closure.env.lookup secondName = some second

/-- What a choice makes of its first argument. -/
theorem isHalf_of_choice {choice : Closure} {first : Bool} {other : NameId} {last : NodeId}
    (leaf : choice.code.arena.node? last = some (.var (cond first choice.param other)))
    (different : first = true → choice.param ≠ other) (ident outer : Ident) (kept : Value) :
    IsHalf ⟨ident, choice.env.extend outer choice.param kept, other, last, choice.code⟩ first
      kept := by
  refine ⟨_, leaf, fun inner arg => ?_⟩
  cases first with
  | true =>
      rw [cond_true, Env.lookup_extend, if_neg (different rfl).symm, Env.lookup_extend, if_pos rfl]
      rfl
  | false => exact if_pos rfl

end Closure

namespace Value

def Chooses (value : Value) (first : Bool) : Prop :=
  ∃ choice, value = .closure choice ∧ choice.IsChoice first

def Pairs (value first second : Value) : Prop :=
  ∃ pair, value = .closure pair ∧ pair.IsPair first second

end Value

/-- What an expression comes to that is made of names and choices, of pairs that are applied to
choices, and of choices that are applied to two values. -/
inductive Selects (env : Env) (arena : Arena) : NodeId → (Value → Prop) → Prop
  | name {id name value} (node : arena.node? id = some (.var name))
      (bound : env.lookup name = some value) : Selects env arena id (· = value)
  | choice {id name body other last first} (node : arena.node? id = some (.lambda name body))
      (inner : arena.node? body = some (.lambda other last))
      (leaf : arena.node? last = some (.var (cond first name other)))
      (different : first = true → name ≠ other) : Selects env arena id (·.Chooses first)
  | component {id operator operand value first second chosen kind}
      (node : arena.node? id = some (.apply operator operand))
      (pair : Selects env arena operator (· = value)) (isPair : value.Pairs first second)
      (selector : Selects env arena operand kind)
      (chooses : ∀ value, kind value → value.Chooses chosen) :
      Selects env arena id (· = cond chosen first second)
  | chosen {id half operator operand last first second chosen kind}
      (node : arena.node? id = some (.apply half last))
      (halfNode : arena.node? half = some (.apply operator operand))
      (selector : Selects env arena operator kind)
      (chooses : ∀ value, kind value → value.Chooses chosen)
      (firstSelected : Selects env arena operand (· = first))
      (secondSelected : Selects env arena last (· = second)) :
      Selects env arena id (· = cond chosen first second)

namespace Church

theorem exists_isChoice (value : Bool) {mint : Mint} (coherent : mint.names.Coherent) :
    ∃ closure, (truth value mint).1 = .closure closure ∧ closure.IsChoice value := by
  have later := (truth_interns value mint).coherent coherent
  obtain ⟨closure, made, _, displays⟩ := truth_displays value mint
  obtain ⟨other, last, node, otherKnown, name, leaf, known⟩ := displays.spells
  refine ⟨closure, made, other, last, node, ?_, fun _ => ?_⟩
  · rw [leaf]
    cases value with
    | true => cases known.symm.trans displays.param; rfl
    | false => cases known.symm.trans otherKnown; rfl
  · exact later.ne_of_ne displays.param otherKnown (by decide)

theorem exists_isPair (first second : Value) {mint : Mint} (coherent : mint.names.Coherent) :
    ∃ closure, (pair first second mint).1 = .closure closure ∧ closure.IsPair first second := by
  have later := (pair_interns first second mint).coherent coherent
  obtain ⟨closure, firstName, secondName, made, firstKnown, secondKnown, env, displays⟩ :=
    pair_displays first second mint
  obtain ⟨half, last, node, ⟨head, operand, halfNode, ⟨name, headNode, known⟩, firstRef,
    operandNode, firstAgain⟩, secondRef, lastNode, secondAgain⟩ := displays.spells
  cases known.symm.trans displays.param
  cases firstAgain.symm.trans firstKnown
  cases secondAgain.symm.trans secondKnown
  have apart := later.ne_of_ne secondKnown firstKnown (by decide)
  refine ⟨closure, made, half, last, head, operand, _, _, node, halfNode, headNode, operandNode,
    lastNode, later.ne_of_ne displays.param firstKnown (by decide), ?_,
    later.ne_of_ne displays.param secondKnown (by decide), ?_⟩
  · rw [env, Env.lookup, if_neg apart]
    exact if_pos rfl
  · rw [env]
    exact if_pos rfl

end Church

end LambdaMachine
