import LambdaMachine.Proofs.Value.Relabeling
import Mathlib.Logic.Basic

/-!
Heaps: which instance each identity belongs to. An identity is given to one instance only, so a
value, which is the whole tree of what it holds, has at every identity in it what the heap has
there.
-/

namespace LambdaMachine

inductive Cell where
  | closure (env : Env) (param : NameId) (body : NodeId) (code : Code)
  | binding (name : NameId) (value : Value) (outer : Env)

namespace Cell

def links : Cell → List Ident
  | .closure env _ _ _ => env.link
  | .binding _ value outer => value.link ++ outer.link

def relabel (label : Ident → Ident) : Cell → Cell
  | .closure env param body code => .closure (env.relabel label) param body (code.relabel label)
  | .binding name value outer => .binding name (value.relabel label) (outer.relabel label)

theorem links_relabel {label : Ident → Ident} (cell : Cell) :
    (cell.relabel label).links = cell.links.map label := by
  cases cell with
  | closure env param body code => exact env.link_relabel
  | binding name value outer =>
      rw [relabel, links, value.link_relabel, outer.link_relabel, links, List.map_append]

end Cell

abbrev Cells := Ident → Option Cell

section Within

variable (next : Ident) (cells : Cells)

mutual

/-- The closure and everything it holds are where the cells have them, and no identity in it is
still to be given out. -/
def Closure.Within : Closure → Prop
  | ⟨ident, env, param, body, code⟩ =>
      cells ident = some (.closure env param body code) ∧ code.ident < next ∧ env.Within

def Builtin.Within : Builtin → Prop
  | ⟨ident, _, _, kept⟩ => ident < next ∧ kept.Within

def Env.Within : Env → Prop
  | .empty => True
  | .bind ident name value outer =>
      cells ident = some (.binding name value outer) ∧ value.Within ∧ outer.Within

def Value.Within : Value → Prop
  | .closure abstraction => abstraction.Within
  | .builtin function => function.Within
  | .datum ident _ => ident < next

end

def Cell.Within : Cell → Prop
  | .closure env _ _ code => code.ident < next ∧ env.Within next cells
  | .binding _ value outer => value.Within next cells ∧ outer.Within next cells

end Within

section Within

variable {next later : Ident} {cells more : Cells}

def Closure.cell (closure : Closure) : Cell :=
  .closure closure.env closure.param closure.body closure.code

theorem Closure.within_iff {closure : Closure} :
    closure.Within next cells ↔ cells closure.ident = some closure.cell ∧
      closure.code.ident < next ∧ closure.env.Within next cells := by
  cases closure
  rw [Closure.Within]
  rfl

theorem Value.within_closure {closure : Closure} :
    (Value.closure closure).Within next cells ↔ closure.Within next cells := by
  rw [Value.Within]

theorem Builtin.within_iff {function : Builtin} :
    function.Within next cells ↔ function.ident < next ∧ function.kept.Within next cells := by
  cases function
  rw [Builtin.Within]

theorem Value.within_builtin {function : Builtin} :
    (Value.builtin function).Within next cells ↔ function.Within next cells := by
  rw [Value.Within]

theorem Value.within_datum {ident : Ident} {data : Datum} :
    (Value.datum ident data).Within next cells ↔ ident < next := by
  rw [Value.Within]

theorem Env.within_empty (next : Ident) (cells : Cells) : Env.empty.Within next cells := by
  rw [Env.Within]
  trivial

theorem Env.within_extend {env : Env} {ident : Ident} {name : NameId} {value : Value} :
    (env.extend ident name value).Within next cells ↔
      cells ident = some (.binding name value env) ∧ value.Within next cells ∧
        env.Within next cells := by
  rw [Env.extend, Env.Within]

theorem Env.Within.lookup : ∀ {env : Env} {name : NameId} {value : Value},
    env.Within next cells → env.lookup name = some value → value.Within next cells
  | .empty, name, value, _, found => by cases found
  | .bind ident bound held outer, name, value, within, found => by
      rw [Env.Within] at within
      rw [Env.lookup] at found
      split at found
      · cases found
        exact within.2.1
      · exact within.2.2.lookup found

theorem Env.Within.linked {env : Env} (within : env.Within next cells) {ident : Ident}
    (link : ident ∈ env.link) : ∃ cell, cells ident = some cell := by
  cases env with
  | empty => exact (List.not_mem_nil link).elim
  | bind bound name value outer =>
      rw [Env.Within] at within
      exact ⟨_, List.mem_singleton.mp link ▸ within.1⟩

theorem Value.Within.linked {value : Value} (within : value.Within next cells) {ident : Ident}
    (link : ident ∈ value.link) : ∃ cell, cells ident = some cell := by
  cases value with
  | closure closure =>
      have found := (Closure.within_iff.mp (Value.within_closure.mp within)).1
      exact ⟨_, List.mem_singleton.mp link ▸ found⟩
  | builtin function =>
      exact (Builtin.within_iff.mp (Value.within_builtin.mp within)).2.linked link
  | datum _ data => exact (List.not_mem_nil link).elim

theorem Cell.Within.linked {cell : Cell} (within : cell.Within next cells) {ident : Ident}
    (link : ident ∈ cell.links) : ∃ other, cells ident = some other := by
  cases cell with
  | closure env param body code => exact within.2.linked link
  | binding name value outer =>
      rcases List.mem_append.mp link with inValue | inOuter
      · exact within.1.linked inValue
      · exact within.2.linked inOuter

structure Cells.Grown (cells : Cells) (next : Ident) (more : Cells) (later : Ident) : Prop where
  le : next ≤ later
  kept : ∀ ident cell, cells ident = some cell → more ident = some cell

mutual

theorem Closure.Within.mono (grown : cells.Grown next more later) :
    ∀ {closure : Closure}, closure.Within next cells → closure.Within later more
  | ⟨ident, env, param, body, code⟩, within => by
      rw [Closure.Within] at within ⊢
      exact ⟨grown.kept _ _ within.1, Nat.lt_of_lt_of_le within.2.1 grown.le,
        within.2.2.mono grown⟩

theorem Builtin.Within.mono (grown : cells.Grown next more later) :
    ∀ {function : Builtin}, function.Within next cells → function.Within later more
  | ⟨ident, name, operation, kept⟩, within => by
      rw [Builtin.Within] at within ⊢
      exact ⟨Nat.lt_of_lt_of_le within.1 grown.le, within.2.mono grown⟩

theorem Env.Within.mono (grown : cells.Grown next more later) :
    ∀ {env : Env}, env.Within next cells → env.Within later more
  | .empty, _ => Env.within_empty _ _
  | .bind ident name value outer, within => by
      rw [Env.Within] at within ⊢
      exact ⟨grown.kept _ _ within.1, within.2.1.mono grown, within.2.2.mono grown⟩

theorem Value.Within.mono (grown : cells.Grown next more later) :
    ∀ {value : Value}, value.Within next cells → value.Within later more
  | .closure abstraction, within => by
      rw [Value.Within] at within ⊢
      exact within.mono grown
  | .builtin function, within => by
      rw [Value.Within] at within ⊢
      exact within.mono grown
  | .datum ident data, within => by
      rw [Value.Within] at within ⊢
      exact Nat.lt_of_lt_of_le within grown.le

end

theorem Cell.Within.mono (grown : cells.Grown next more later) {cell : Cell}
    (within : cell.Within next cells) : cell.Within later more := by
  cases cell with
  | closure env param body code =>
      exact ⟨Nat.lt_of_lt_of_le within.1 grown.le, Env.Within.mono grown within.2⟩
  | binding name value outer =>
      exact ⟨Value.Within.mono grown within.1, Env.Within.mono grown within.2⟩

end Within

/-- What has been made so far: an instance at each identity, within the instances themselves. -/
structure Heap where
  next : Ident
  cells : Cells
  bounded : ∀ ident cell, cells ident = some cell → ident < next
  within : ∀ ident cell, cells ident = some cell → cell.Within next cells

namespace Heap

structure Grows (earlier later : Heap) : Prop where
  le : earlier.next ≤ later.next
  same : ∀ ident, ident < earlier.next → later.cells ident = earlier.cells ident

theorem Grows.refl (heap : Heap) : heap.Grows heap :=
  ⟨Nat.le_refl _, fun _ _ => rfl⟩

theorem Grows.trans {first second third : Heap} (before : first.Grows second)
    (after : second.Grows third) : first.Grows third :=
  ⟨Nat.le_trans before.le after.le, fun ident below =>
    (after.same ident (Nat.lt_of_lt_of_le below before.le)).trans (before.same ident below)⟩

theorem Grows.grown {earlier later : Heap} (grows : earlier.Grows later) :
    earlier.cells.Grown earlier.next later.cells later.next :=
  ⟨grows.le, fun ident cell found =>
    (grows.same ident (earlier.bounded ident cell found)).trans found⟩

end Heap

def Value.In (heap : Heap) (value : Value) : Prop :=
  value.Within heap.next heap.cells

def Env.In (heap : Heap) (env : Env) : Prop :=
  env.Within heap.next heap.cells

def Closure.In (heap : Heap) (closure : Closure) : Prop :=
  closure.Within heap.next heap.cells

theorem Value.In.mono {earlier later : Heap} (grows : earlier.Grows later) {value : Value}
    (inside : value.In earlier) : value.In later :=
  Value.Within.mono grows.grown inside

theorem Env.In.mono {earlier later : Heap} (grows : earlier.Grows later) {env : Env}
    (inside : env.In earlier) : env.In later :=
  Env.Within.mono grows.grown inside

theorem Closure.In.mono {earlier later : Heap} (grows : earlier.Grows later) {closure : Closure}
    (inside : closure.In earlier) : closure.In later :=
  Closure.Within.mono grows.grown inside

namespace Heap

def empty : Heap where
  next := 0
  cells := fun _ => none
  bounded := fun _ _ found => by cases found
  within := fun _ _ found => by cases found

def skip (heap : Heap) (count : Nat) : Heap where
  next := heap.next + count
  cells := heap.cells
  bounded := fun ident cell found =>
    Nat.lt_of_lt_of_le (heap.bounded ident cell found) (Nat.le_add_right _ _)
  within := fun ident cell found =>
    (heap.within ident cell found).mono ⟨Nat.le_add_right _ _, fun _ _ same => same⟩

theorem grows_skip (heap : Heap) (count : Nat) : heap.Grows (heap.skip count) :=
  ⟨Nat.le_add_right _ _, fun _ _ => rfl⟩

def addCells (heap : Heap) (cell : Cell) : Cells := fun ident =>
  if ident = heap.next then some cell else heap.cells ident

theorem grown_addCells (heap : Heap) (cell : Cell) :
    heap.cells.Grown heap.next (heap.addCells cell) (heap.next + 1) := by
  refine ⟨Nat.le_succ _, fun ident old found => ?_⟩
  rw [addCells, if_neg, found]
  exact Nat.ne_of_lt (heap.bounded ident old found)

def add (heap : Heap) (cell : Cell) (inside : cell.Within heap.next heap.cells) : Heap where
  next := heap.next + 1
  cells := heap.addCells cell
  bounded := by
    intro ident other found
    rw [addCells] at found
    split at found
    · rename_i same
      rw [same]
      exact Nat.lt_succ_self _
    · exact Nat.lt_succ_of_lt (heap.bounded ident other found)
  within := by
    intro ident other found
    rw [addCells] at found
    split at found
    · cases found
      exact inside.mono (heap.grown_addCells cell)
    · exact (heap.within ident other found).mono (heap.grown_addCells cell)

section Add

variable {heap : Heap} {cell : Cell} {inside : cell.Within heap.next heap.cells}

theorem cells_add : (heap.add cell inside).cells heap.next = some cell :=
  if_pos rfl

theorem grows_add : heap.Grows (heap.add cell inside) :=
  ⟨Nat.le_succ _, fun _ below => if_neg (Nat.ne_of_lt below)⟩

end Add

theorem in_addClosure {heap : Heap} {closure : Closure} (ident : closure.ident = heap.next)
    (inside : closure.cell.Within heap.next heap.cells) :
    closure.In (heap.add closure.cell inside) := by
  refine Closure.within_iff.mpr ⟨?_, Nat.lt_succ_of_lt inside.1, ?_⟩
  · rw [ident]
    exact cells_add
  · exact Env.In.mono grows_add inside.2

theorem in_addBinding {heap : Heap} {name : NameId} {value : Value} {outer : Env}
    (inside : (Cell.binding name value outer).Within heap.next heap.cells) :
    (outer.extend heap.next name value).In (heap.add (.binding name value outer) inside) :=
  Env.within_extend.mpr
    ⟨cells_add, Value.In.mono grows_add inside.1, Env.In.mono grows_add inside.2⟩

end Heap

end LambdaMachine
