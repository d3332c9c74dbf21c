import LambdaMachine.Proofs.Value.Heap

/-!
Part of a heap. Some instances with all that they hold are a heap of their own, and what is made
from them alone holds nothing of the rest.
-/

namespace LambdaMachine

open Classical in
noncomputable def Cells.restrict (cells : Cells) (kept : Ident → Prop) : Cells := fun ident =>
  if kept ident then cells ident else none

def Cells.Closes (cells : Cells) (kept : Ident → Prop) : Prop :=
  ∀ ident cell link, kept ident → cells ident = some cell → link ∈ cell.links → kept link

section Restrict

variable {next : Ident} {cells : Cells} {kept : Ident → Prop}

theorem Cells.restrict_eq_some {ident : Ident} {cell : Cell} :
    cells.restrict kept ident = some cell ↔ kept ident ∧ cells ident = some cell := by
  unfold Cells.restrict
  split
  · rename_i isKept
    exact (and_iff_right isKept).symm
  · rename_i isLost
    refine ⟨fun found => ?_, fun both => (isLost both.1).elim⟩
    cases found

mutual

theorem Closure.Within.restrict (closes : cells.Closes kept) : ∀ {closure : Closure},
    closure.Within next cells → kept closure.ident → closure.Within next (cells.restrict kept)
  | ⟨ident, env, param, body, code⟩, within, isKept => by
      rw [Closure.Within] at within ⊢
      exact ⟨Cells.restrict_eq_some.mpr ⟨isKept, within.1⟩, within.2.1, within.2.2.restrict closes
        (closes _ _ · isKept within.1)⟩

theorem Builtin.Within.restrict (closes : cells.Closes kept) : ∀ {function : Builtin},
    function.Within next cells → (∀ link ∈ function.kept.link, kept link) →
      function.Within next (cells.restrict kept)
  | ⟨ident, name, operation, inner⟩, within, areKept => by
      rw [Builtin.Within] at within ⊢
      exact ⟨within.1, within.2.restrict closes areKept⟩

theorem Env.Within.restrict (closes : cells.Closes kept) : ∀ {env : Env},
    env.Within next cells → (∀ link ∈ env.link, kept link) → env.Within next (cells.restrict kept)
  | .empty, _, _ => Env.within_empty _ _
  | .bind ident name value outer, within, areKept => by
      have isKept := areKept ident (List.mem_singleton.mpr rfl)
      rw [Env.Within] at within ⊢
      have parts (link : Ident) := closes ident _ link isKept within.1
      exact ⟨Cells.restrict_eq_some.mpr ⟨isKept, within.1⟩,
        within.2.1.restrict closes fun link among => parts link (List.mem_append_left _ among),
        within.2.2.restrict closes fun link among => parts link (List.mem_append_right _ among)⟩

theorem Value.Within.restrict (closes : cells.Closes kept) : ∀ {value : Value},
    value.Within next cells → (∀ link ∈ value.link, kept link) →
      value.Within next (cells.restrict kept)
  | .closure abstraction, within, areKept => by
      rw [Value.Within] at within ⊢
      exact within.restrict closes (areKept _ (List.mem_singleton.mpr rfl))
  | .builtin function, within, areKept => by
      rw [Value.Within] at within ⊢
      exact within.restrict closes areKept
  | .datum ident data, within, _ => by
      rw [Value.Within] at within ⊢
      exact within

end

theorem Cell.Within.restrict (closes : cells.Closes kept) {cell : Cell}
    (within : cell.Within next cells) (areKept : ∀ link ∈ cell.links, kept link) :
    cell.Within next (cells.restrict kept) := by
  cases cell with
  | closure env param body code =>
      exact ⟨within.1, Env.Within.restrict closes within.2 areKept⟩
  | binding name value outer =>
      exact ⟨Value.Within.restrict closes within.1 fun link among =>
          areKept link (List.mem_append_left _ among),
        Env.Within.restrict closes within.2 fun link among =>
          areKept link (List.mem_append_right _ among)⟩

end Restrict

namespace Heap

variable {heap later : Heap} {kept : Ident → Prop}

noncomputable def restrict (heap : Heap) (kept : Ident → Prop) (closes : heap.cells.Closes kept) :
    Heap where
  next := heap.next
  cells := heap.cells.restrict kept
  bounded := fun ident cell found =>
    heap.bounded ident cell (Cells.restrict_eq_some.mp found).2
  within := by
    intro ident cell found
    obtain ⟨isKept, inHeap⟩ := Cells.restrict_eq_some.mp found
    exact (heap.within ident cell inHeap).restrict closes (closes ident cell · isKept inHeap)

def rejoinCells (heap later : Heap) : Cells := fun ident =>
  if ident < heap.next then heap.cells ident else later.cells ident

theorem grown_rejoinCells {closes : heap.cells.Closes kept}
    (grows : (heap.restrict kept closes).Grows later) :
    later.cells.Grown later.next (heap.rejoinCells later) later.next := by
  refine ⟨Nat.le_refl _, fun ident cell found => ?_⟩
  rw [rejoinCells]
  split
  · rename_i below
    rw [grows.same ident below] at found
    exact (Cells.restrict_eq_some.mp found).2
  · exact found

def rejoin {closes : heap.cells.Closes kept} (grows : (heap.restrict kept closes).Grows later) :
    Heap where
  next := later.next
  cells := heap.rejoinCells later
  bounded := by
    intro ident cell found
    rw [rejoinCells] at found
    split at found
    · rename_i below
      exact Nat.lt_of_lt_of_le below grows.le
    · exact later.bounded ident cell found
  within := by
    have old : heap.cells.Grown heap.next (heap.rejoinCells later) later.next :=
      ⟨grows.le, fun ident cell found => (if_pos (heap.bounded ident cell found)).trans found⟩
    intro ident cell found
    rw [rejoinCells] at found
    split at found
    · exact (heap.within ident cell found).mono old
    · exact (later.within ident cell found).mono (grown_rejoinCells grows)

section Rejoin

variable {closes : heap.cells.Closes kept}

theorem grows_rejoin (grows : (heap.restrict kept closes).Grows later) :
    heap.Grows (rejoin grows) :=
  ⟨grows.le, fun _ below => if_pos below⟩

theorem cells_rejoin (grows : (heap.restrict kept closes).Grows later) {ident : Ident}
    (fresh : heap.next ≤ ident) : (rejoin grows).cells ident = later.cells ident :=
  if_neg (Nat.not_lt.mpr fresh)

/-- What is in the heap that has grown out of a part was made there or belongs to the part. -/
theorem kept_of_cells (grows : (heap.restrict kept closes).Grows later) {ident : Ident}
    {cell : Cell} (found : later.cells ident = some cell) :
    kept ident ∨ heap.next ≤ ident := by
  rcases Nat.lt_or_ge ident heap.next with below | fresh
  · rw [grows.same ident below] at found
    exact .inl (Cells.restrict_eq_some.mp found).1
  · exact .inr fresh

end Rejoin

end Heap

end LambdaMachine
