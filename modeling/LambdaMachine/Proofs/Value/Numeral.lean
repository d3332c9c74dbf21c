import LambdaMachine.Proofs.Term.Denotation
import LambdaMachine.Proofs.Value.Layout

/-!
Numerals: closures of the form λf.λx.(f (f .. x)), wherever they come from. Those of the host are
numerals, and so are those that are parsed.
-/

namespace LambdaMachine

def Tree.applied {ν : Type} (func : ν) : Nat → Tree ν → Tree ν
  | 0, tree => tree
  | count + 1, tree => .apply (.var func) (tree.applied func count)

namespace Arena

def Iterates (arena : Arena) (func start : NameId) : Nat → NodeId → Prop
  | 0, id => arena.node? id = some (.var start)
  | count + 1, id => ∃ head rest, arena.node? id = some (.apply head rest) ∧
      arena.node? head = some (.var func) ∧ arena.Iterates func start count rest

theorem Iterates.mono {earlier later : Arena} {func start : NameId} {count : Nat} {id : NodeId}
    (iterates : earlier.Iterates func start count id) (grown : later.Extends earlier) :
    later.Iterates func start count id := by
  induction count generalizing id with
  | zero => exact grown _ _ iterates
  | succ count ih =>
      obtain ⟨head, rest, node, isFunc, inner⟩ := iterates
      exact ⟨head, rest, grown _ _ node, grown _ _ isFunc, ih inner⟩

theorem iterates_of_tree? {arena : Arena} {func start : NameId} {count : Nat} {id : NodeId}
    (denoted : arena.tree? id = some (Tree.applied func count (.var start))) :
    arena.Iterates func start count id := by
  induction count generalizing id with
  | zero => exact node?_of_var denoted
  | succ count ih =>
      obtain ⟨head, rest, node, headDenoted, restDenoted⟩ := node?_of_apply denoted
      exact ⟨head, rest, node, node?_of_var headDenoted, ih restDenoted⟩

end Arena

/-- The closure applies its first argument so many times to its second. -/
def Closure.IsNumeral (closure : Closure) (count : Nat) : Prop :=
  ∃ start inner, closure.code.arena.node? closure.body = some (.lambda start inner) ∧
    closure.param ≠ start ∧ closure.code.arena.Iterates closure.param start count inner

theorem Closure.isNumeral_of_tree? {closure : Closure} {start : NameId} {count : Nat}
    (different : closure.param ≠ start)
    (denoted : closure.code.arena.tree? closure.body =
      some (.lambda start (Tree.applied closure.param count (.var start)))) :
    closure.IsNumeral count := by
  obtain ⟨inner, node, innerDenoted⟩ := Arena.node?_of_lambda denoted
  exact ⟨start, inner, node, different, Arena.iterates_of_tree? innerDenoted⟩

namespace Church

theorem iterate_iterates {func start : NameId} (count : Nat) {arena : Arena} {body : NodeId}
    {done : Nat} (iterates : arena.Iterates func start done body) :
    (iterate func count arena body).2.Iterates func start (done + count)
      (iterate func count arena body).1 := by
  induction count generalizing arena body done with
  | zero => exact iterates
  | succ count ih =>
      have toHead := arena.extends_add (.var func)
      have toBody := (arena.add (.var func)).2.extends_add (.apply arena.size body)
      rw [show done + (count + 1) = done + 1 + count by omega]
      have inner := iterates.mono (toBody.trans toHead)
      refine ih ⟨arena.size, body, Arena.node?_add_size _ _, ?_, inner⟩
      exact toBody _ _ (arena.node?_add_size (.var func))

theorem exists_isNumeral (count : Nat) {mint : Mint} (coherent : mint.names.Coherent) :
    ∃ closure, (numeral count mint).1 = .closure closure ∧ closure.IsNumeral count := by
  unfold numeral
  have toF := (coherent.intern "f").intern "x"
  have f := NameTable.extends_intern _ "x" _ _ (mint.names.numbers_intern "f")
  have x := (mint.names.intern "f").2.numbers_intern "x"
  have different := toF.ne_of_ne f x (by decide)
  have start : (Arena.empty.add (.var ((mint.names.intern "f").2.intern "x").1)).2.Iterates
      (mint.names.intern "f").1 ((mint.names.intern "f").2.intern "x").1 0 0 := rfl
  have body := iterate_iterates count start
  rw [Nat.zero_add] at body
  exact ⟨_, rfl, _, _, Arena.node?_add_size _ _, different, body.mono (Arena.extends_add _ _)⟩

theorem le_ident_numeral {count : Nat} {mint : Mint} {closure : Closure}
    (made : (numeral count mint).1 = .closure closure) : mint.nextIdent ≤ closure.ident := by
  unfold numeral at made
  rw [← Value.closure.inj made]
  exact Nat.le_succ _

end Church

end LambdaMachine
