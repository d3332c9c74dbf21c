import LambdaMachine.Term.Arena

/-!
Arenas in which every node comes after its parts. Nodes are only ever appended, so an arena that is
built up keeps the nodes it has.
-/

namespace LambdaMachine

def Node.Fits (accepted : NameId → Prop) (bound : NodeId) : Node → Prop
  | .var name => accepted name
  | .lambda param body => accepted param ∧ body < bound
  | .apply func arg => func < bound ∧ arg < bound

theorem Node.Fits.mono {accepted weaker : NameId → Prop} {bound : NodeId} {node : Node}
    (implies : ∀ name, accepted name → weaker name) (fits : node.Fits accepted bound) :
    node.Fits weaker bound := by
  cases node with
  | var name => exact implies name fits
  | lambda param body => exact ⟨implies param fits.1, fits.2⟩
  | apply func arg => exact fits

namespace Arena

def Tidy (accepted : NameId → Prop) (arena : Arena) : Prop :=
  ∀ id node, arena.node? id = some node → node.Fits accepted id

def Extends (later earlier : Arena) : Prop :=
  ∀ id node, earlier.node? id = some node → later.node? id = some node

theorem Extends.refl (arena : Arena) : arena.Extends arena :=
  fun _ _ found => found

theorem Extends.trans {first second third : Arena} (after : third.Extends second)
    (before : second.Extends first) : third.Extends first :=
  fun id node found => after id node (before id node found)

theorem lt_size_iff {arena : Arena} {id : NodeId} :
    id < arena.size ↔ ∃ node, arena.node? id = some node := by
  constructor
  · intro inside
    exact ⟨arena.nodes[id], Array.getElem?_eq_getElem inside⟩
  · rintro ⟨node, found⟩
    exact (Array.getElem?_eq_some_iff.mp found).1

theorem Extends.lt_size {earlier later : Arena} (grown : later.Extends earlier) {id : NodeId}
    (inside : id < earlier.size) : id < later.size := by
  obtain ⟨node, found⟩ := lt_size_iff.mp inside
  exact lt_size_iff.mpr ⟨node, grown id node found⟩

theorem tidy_empty (accepted : NameId → Prop) : Arena.empty.Tidy accepted := by
  intro id node found
  cases found

theorem Tidy.mono {accepted weaker : NameId → Prop} {arena : Arena}
    (implies : ∀ name, accepted name → weaker name) (tidy : arena.Tidy accepted) :
    arena.Tidy weaker :=
  fun id node found => (tidy id node found).mono implies

theorem node?_add_size (arena : Arena) (node : Node) :
    (arena.add node).2.node? arena.size = some node :=
  Array.getElem?_push_size

theorem extends_add (arena : Arena) (node : Node) : (arena.add node).2.Extends arena := by
  intro id old found
  have inside := lt_size_iff.mpr ⟨old, found⟩
  have same : (arena.nodes.push node)[id]? = arena.nodes[id]? :=
    Array.getElem?_push_lt inside |>.trans (Array.getElem?_eq_getElem inside).symm
  exact same.trans found

theorem size_add (arena : Arena) (node : Node) : (arena.add node).2.size = arena.size + 1 :=
  Array.size_push node

theorem Tidy.add {accepted : NameId → Prop} {arena : Arena} {node : Node}
    (tidy : arena.Tidy accepted) (fits : node.Fits accepted arena.size) :
    (arena.add node).2.Tidy accepted := by
  intro id other found
  have inside : id < arena.size + 1 := size_add arena node ▸ lt_size_iff.mpr ⟨other, found⟩
  rcases Nat.lt_succ_iff_lt_or_eq.mp inside with earlier | rfl
  · obtain ⟨old, foundOld⟩ := lt_size_iff.mp earlier
    have same := (extends_add arena node id old foundOld).symm.trans found
    cases same
    exact tidy id _ foundOld
  · have same := (node?_add_size arena node).symm.trans found
    cases same
    exact fits

section Add

variable {accepted : NameId → Prop} {arena : Arena}

theorem Tidy.add_var {name : NameId} (tidy : arena.Tidy accepted) (named : accepted name) :
    (arena.add (.var name)).2.Tidy accepted :=
  @Tidy.add accepted arena (.var name) tidy named

theorem Tidy.add_lambda {param : NameId} {body : NodeId} (tidy : arena.Tidy accepted)
    (named : accepted param) (inside : body < arena.size) :
    (arena.add (.lambda param body)).2.Tidy accepted :=
  @Tidy.add accepted arena (.lambda param body) tidy ⟨named, inside⟩

theorem Tidy.add_apply {func arg : NodeId} (tidy : arena.Tidy accepted)
    (funcInside : func < arena.size) (argInside : arg < arena.size) :
    (arena.add (.apply func arg)).2.Tidy accepted :=
  @Tidy.add accepted arena (.apply func arg) tidy ⟨funcInside, argInside⟩

end Add

end Arena

end LambdaMachine
