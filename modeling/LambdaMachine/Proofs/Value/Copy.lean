import LambdaMachine.Proofs.Value.Heap

/-!
A heap and a copy of it under other identities. What is made in the heap can be made in the copy as
well, and the copy may have instances besides, which the heap knows nothing of.
-/

namespace LambdaMachine

section Relabel

variable {label other : Ident → Ident} {next later : Ident} {cells more : Cells}

structure Cells.Copied (cells : Cells) (next : Ident) (label : Ident → Ident) (more : Cells)
    (later : Ident) : Prop where
  lt : ∀ ident, ident < next → label ident < later
  cells : ∀ ident cell, cells ident = some cell → more (label ident) = some (cell.relabel label)

mutual

theorem Closure.Within.relabel (copied : cells.Copied next label more later) :
    ∀ {closure : Closure}, closure.Within next cells → (closure.relabel label).Within later more
  | ⟨ident, env, param, body, code⟩, within => by
      rw [Closure.Within] at within
      rw [Closure.relabel, Closure.Within]
      exact ⟨copied.cells _ _ within.1, copied.lt _ within.2.1, within.2.2.relabel copied⟩

theorem Builtin.Within.relabel (copied : cells.Copied next label more later) :
    ∀ {function : Builtin}, function.Within next cells → (function.relabel label).Within later more
  | ⟨ident, name, operation, kept⟩, within => by
      rw [Builtin.Within] at within
      rw [Builtin.relabel, Builtin.Within]
      exact ⟨copied.lt _ within.1, within.2.relabel copied⟩

theorem Env.Within.relabel (copied : cells.Copied next label more later) :
    ∀ {env : Env}, env.Within next cells → (env.relabel label).Within later more
  | .empty, _ => by
      rw [Env.relabel]
      exact Env.within_empty _ _
  | .bind ident name value outer, within => by
      rw [Env.Within] at within
      rw [Env.relabel, Env.Within]
      exact ⟨copied.cells _ _ within.1, within.2.1.relabel copied, within.2.2.relabel copied⟩

theorem Value.Within.relabel (copied : cells.Copied next label more later) :
    ∀ {value : Value}, value.Within next cells → (value.relabel label).Within later more
  | .closure abstraction, within => by
      rw [Value.Within] at within
      rw [Value.relabel, Value.Within]
      exact within.relabel copied
  | .builtin function, within => by
      rw [Value.Within] at within
      rw [Value.relabel, Value.Within]
      exact within.relabel copied
  | .datum ident data, within => by
      rw [Value.Within] at within
      rw [Value.relabel, Value.Within]
      exact copied.lt _ within

end

theorem Cell.Within.relabel (copied : cells.Copied next label more later) {cell : Cell}
    (within : cell.Within next cells) : (cell.relabel label).Within later more := by
  cases cell with
  | closure env param body code =>
      exact ⟨copied.lt _ within.1, Env.Within.relabel copied within.2⟩
  | binding name value outer =>
      exact ⟨Value.Within.relabel copied within.1, Env.Within.relabel copied within.2⟩

end Relabel

section Congr

variable {heap : Heap} {label other : Ident → Ident}

mutual

theorem Closure.Within.relabel_congr
    (same : ∀ ident, ident < heap.next → label ident = other ident) :
    ∀ {closure : Closure}, closure.Within heap.next heap.cells →
      closure.relabel label = closure.relabel other
  | ⟨ident, env, param, body, code⟩, within => by
      rw [Closure.Within] at within
      rw [Closure.relabel, Closure.relabel, same _ (heap.bounded _ _ within.1),
        within.2.2.relabel_congr same, Code.relabel, same _ within.2.1]
      rfl

theorem Builtin.Within.relabel_congr
    (same : ∀ ident, ident < heap.next → label ident = other ident) :
    ∀ {function : Builtin}, function.Within heap.next heap.cells →
      function.relabel label = function.relabel other
  | ⟨ident, name, operation, kept⟩, within => by
      rw [Builtin.Within] at within
      rw [Builtin.relabel, Builtin.relabel, same _ within.1, within.2.relabel_congr same]

theorem Env.Within.relabel_congr (same : ∀ ident, ident < heap.next → label ident = other ident) :
    ∀ {env : Env}, env.Within heap.next heap.cells → env.relabel label = env.relabel other
  | .empty, _ => by rw [Env.relabel, Env.relabel]
  | .bind ident name value outer, within => by
      rw [Env.Within] at within
      rw [Env.relabel, Env.relabel, same _ (heap.bounded _ _ within.1),
        within.2.1.relabel_congr same, within.2.2.relabel_congr same]

theorem Value.Within.relabel_congr (same : ∀ ident, ident < heap.next → label ident = other ident) :
    ∀ {value : Value}, value.Within heap.next heap.cells →
      value.relabel label = value.relabel other
  | .closure abstraction, within => by
      rw [Value.Within] at within
      rw [Value.relabel, Value.relabel, within.relabel_congr same]
  | .builtin function, within => by
      rw [Value.Within] at within
      rw [Value.relabel, Value.relabel, within.relabel_congr same]
  | .datum ident data, within => by
      rw [Value.Within] at within
      rw [Value.relabel, Value.relabel, same _ within]

end

theorem Cell.Within.relabel_congr (same : ∀ ident, ident < heap.next → label ident = other ident)
    {cell : Cell} (within : cell.Within heap.next heap.cells) :
    cell.relabel label = cell.relabel other := by
  cases cell with
  | closure env param body code =>
      rw [Cell.relabel, Cell.relabel, Env.Within.relabel_congr same within.2, Code.relabel,
        same _ within.1]
      rfl
  | binding name value outer =>
      rw [Cell.relabel, Cell.relabel, Value.Within.relabel_congr same within.1,
        Env.Within.relabel_congr same within.2]

theorem labelPast_of_lt {bound ident : Ident} (below : ident < bound) :
    labelPast label bound ident = label ident :=
  if_pos below

theorem Value.In.relabel_past {value : Value} (inside : value.In heap) :
    value.relabel (labelPast label heap.next) = value.relabel label :=
  Value.Within.relabel_congr (fun _ below => labelPast_of_lt below) inside

theorem Env.In.relabel_past {env : Env} (inside : env.In heap) :
    env.relabel (labelPast label heap.next) = env.relabel label :=
  Env.Within.relabel_congr (fun _ below => labelPast_of_lt below) inside

end Congr

theorem Cell.relabel_id (cell : Cell) : cell.relabel id = cell := by
  cases cell with
  | closure env param body code =>
      rw [Cell.relabel, env.relabel_id]
      rfl
  | binding name value outer => rw [Cell.relabel, value.relabel_id, outer.relabel_id]

namespace Heap

structure Copied (heap : Heap) (label : Ident → Ident) (copy : Heap) : Prop where
  relabels : Relabels label heap.next copy.next
  cells : ∀ ident cell, heap.cells ident = some cell →
    copy.cells (label ident) = some (cell.relabel label)

section Copied

variable {heap copy later : Heap} {label : Ident → Ident}

theorem Copied.raw (copied : heap.Copied label copy) :
    heap.cells.Copied heap.next label copy.cells copy.next :=
  ⟨fun _ below => copied.relabels.lt below, copied.cells⟩

theorem Copied.value (copied : heap.Copied label copy) {value : Value} (inside : value.In heap) :
    (value.relabel label).In copy :=
  Value.Within.relabel copied.raw inside

theorem Copied.env (copied : heap.Copied label copy) {env : Env} (inside : env.In heap) :
    (env.relabel label).In copy :=
  Env.Within.relabel copied.raw inside

theorem Copied.closure (copied : heap.Copied label copy) {closure : Closure}
    (inside : closure.In heap) : (closure.relabel label).In copy :=
  Closure.Within.relabel copied.raw inside

theorem copied_refl (heap : Heap) : heap.Copied id heap :=
  ⟨.refl _, fun _ cell found => by rw [Cell.relabel_id]; exact found⟩

/-- One more identity given out in the copy is passed over by the labels to come. -/
theorem Copied.past (copied : heap.Copied label copy) {laterCopy : Heap}
    (copyGrows : copy.Grows laterCopy) (next : laterCopy.next = copy.next + 1) :
    heap.Copied (labelPast label heap.next) laterCopy := by
  refine ⟨next ▸ copied.relabels.past, fun ident other found => ?_⟩
  have same : other.relabel (labelPast label heap.next) = other.relabel label :=
    Cell.Within.relabel_congr (fun _ below => labelPast_of_lt below) (heap.within ident other found)
  rw [labelPast_of_lt (heap.bounded ident other found), same]
  exact copyGrows.grown.kept _ _ (copied.cells ident other found)

def copyCells (heap copy later : Heap) (label : Ident → Ident) : Cells := fun ident =>
  if ident < copy.next then copy.cells ident
  else (later.cells (heap.next + (ident - copy.next))).map (Cell.relabel label)

theorem copyCells_of_lt {ident : Ident} (below : ident < copy.next) :
    copyCells heap copy later label ident = copy.cells ident :=
  if_pos below

theorem copyCells_label (copied : heap.Copied label copy) (grows : heap.Grows later) (ident : Ident)
    (cell : Cell) (found : later.cells ident = some cell) :
    copyCells heap copy later label (label ident) = some (cell.relabel label) := by
  rcases Nat.lt_or_ge ident heap.next with below | above
  · rw [copyCells_of_lt (copied.relabels.lt below)]
    exact copied.cells ident cell ((grows.same ident below).symm.trans found)
  · have beyond := Nat.not_lt.mpr (copied.relabels.le above)
    obtain ⟨count, rfl⟩ := Nat.exists_eq_add_of_le above
    rw [copyCells, if_neg beyond, copied.relabels.shifts, Nat.add_sub_cancel_left, found]
    rfl

/-- What comes to the heap can come to the copy. -/
theorem Copied.grow (copied : heap.Copied label copy) (grows : heap.Grows later) :
    ∃ laterCopy, copy.Grows laterCopy ∧ later.Copied label laterCopy := by
  have fresh : later.next = heap.next + (later.next - heap.next) :=
    (Nat.add_sub_cancel' grows.le).symm
  have relabels := copied.relabels.advance (later.next - heap.next)
  rw [← fresh] at relabels
  have old : copy.cells.Grown copy.next (copyCells heap copy later label)
      (copy.next + (later.next - heap.next)) :=
    ⟨Nat.le_add_right _ _, fun ident cell found => by
      rw [copyCells_of_lt (copy.bounded ident cell found)]
      exact found⟩
  have new : later.cells.Copied later.next label (copyCells heap copy later label)
      (copy.next + (later.next - heap.next)) :=
    ⟨fun _ below => relabels.lt below, copyCells_label copied grows⟩
  have cases (ident : Ident) (cell : Cell)
      (found : copyCells heap copy later label ident = some cell) :
      copy.cells ident = some cell ∨ ∃ count source, ident = label (heap.next + count) ∧
        later.cells (heap.next + count) = some source ∧ source.relabel label = cell := by
    rw [copyCells] at found
    split at found
    · exact .inl found
    · rename_i above
      obtain ⟨source, sourceFound, same⟩ := Option.map_eq_some_iff.mp found
      refine .inr ⟨ident - copy.next, source, ?_, sourceFound, same⟩
      rw [copied.relabels.shifts, Nat.add_sub_cancel' (Nat.le_of_not_lt above)]
  refine ⟨⟨copy.next + (later.next - heap.next), copyCells heap copy later label, ?_, ?_⟩,
    ⟨Nat.le_add_right _ _, fun _ below => copyCells_of_lt below⟩,
    ⟨relabels, copyCells_label copied grows⟩⟩
  · intro ident cell found
    obtain known | ⟨count, source, rfl, sourceFound, _⟩ := cases ident cell found
    · exact Nat.lt_of_lt_of_le (copy.bounded ident cell known) (Nat.le_add_right _ _)
    · exact relabels.lt (later.bounded _ source sourceFound)
  · intro ident cell found
    obtain known | ⟨count, source, _, sourceFound, rfl⟩ := cases ident cell found
    · exact (copy.within ident cell known).mono old
    · exact (later.within _ source sourceFound).relabel new

end Copied

end Heap

end LambdaMachine
