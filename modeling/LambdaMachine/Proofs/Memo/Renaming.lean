import LambdaMachine.Proofs.Memo.Catalog
import LambdaMachine.Proofs.Value.Renaming
import Std.Data.TreeMap.Lemmas

/-!
Memo tables that match entry by entry. They answer alike, are swept at the same moments, and the
same instances are alive around them.
-/

namespace LambdaMachine

def MapsRelated {α β : Type} (related : α → β → Prop) (left : Std.TreeMap Ident α)
    (right : Std.TreeMap Ident β) : Prop :=
  ∀ key : Ident, Option.Rel related left[key]? right[key]?

namespace MapsRelated

variable {α β γ : Type} {related : α → β → Prop} {left : Std.TreeMap Ident α}
  {right : Std.TreeMap Ident β}

theorem empty (related : α → β → Prop) : MapsRelated related ∅ ∅ :=
  fun _ => .none

/-- Either both maps have a value for the key, or none has one. -/
theorem cases (same : MapsRelated related left right) (key : Ident) :
    (left[key]? = none ∧ right[key]? = none) ∨
      ∃ value other, left[key]? = some value ∧ right[key]? = some other ∧ related value other := by
  have rel := same key
  generalize left[key]? = found at rel ⊢
  generalize right[key]? = found' at rel ⊢
  cases rel with
  | none => exact Or.inl ⟨rfl, rfl⟩
  | some rel => exact Or.inr ⟨_, _, rfl, rfl, rel⟩

theorem mono {weaker : α → β → Prop} (implies : ∀ value other, related value other →
    weaker value other) (same : MapsRelated related left right) :
    MapsRelated weaker left right := by
  intro key
  obtain ⟨absent, absent'⟩ | ⟨value, other, found, found', rel⟩ := same.cases key
  · rw [absent, absent']
    exact .none
  · rw [found, found']
    exact .some (implies _ _ rel)

/-- The maps are the same if two functions take related values to the same. -/
theorem map_equiv (same : MapsRelated related left right) (view : Ident → α → γ)
    (view' : Ident → β → γ)
    (alike : ∀ key value other, related value other → view key value = view' key other) :
    (left.map view).Equiv (right.map view') := by
  apply Std.TreeMap.Equiv.of_forall_constGet?_eq
  intro key
  rw [Std.TreeMap.getElem?_map, Std.TreeMap.getElem?_map]
  obtain ⟨absent, absent'⟩ | ⟨value, other, found, found', rel⟩ := same.cases key
  · rw [absent, absent']
    rfl
  · rw [found, found', Option.map_some, Option.map_some, alike key _ _ rel]

theorem size_eq (same : MapsRelated related left right) : left.size = right.size := by
  have views := same.map_equiv (fun _ _ => ()) (fun _ _ => ()) fun _ _ _ _ => rfl
  simpa only [Std.TreeMap.size_map] using views.size_eq

theorem foldl_eq (same : MapsRelated related left right) {walk : γ → Ident → α → γ}
    {walk' : γ → Ident → β → γ}
    (alike : ∀ done key value other, related value other →
      walk done key value = walk' done key other) (start : γ) :
    left.foldl walk start = right.foldl walk' start := by
  let step (done : γ) (_ : Ident) (next : γ → γ) : γ := next done
  have views := same.map_equiv (fun key value done => walk done key value)
    (fun key value done => walk' done key value)
    fun key value other rel => funext fun done => alike done key value other rel
  have walked : (left.map _).foldl step start = (right.map _).foldl step start := views.foldl_eq
  simpa only [Std.TreeMap.foldl_eq_foldl_toList, Std.TreeMap.toList_map, List.foldl_map] using
    walked

theorem insert (same : MapsRelated related left right) {value : α} {other : β}
    (rel : related value other) (key : Ident) :
    MapsRelated related (left.insert key value) (right.insert key other) := by
  intro asked
  rw [Std.TreeMap.getElem?_insert, Std.TreeMap.getElem?_insert]
  split
  · exact .some rel
  · exact same asked

theorem filter (same : MapsRelated related left right) (keep : Ident → Bool) :
    MapsRelated related (left.filter fun key _ => keep key)
      (right.filter fun key _ => keep key) := by
  intro key
  rw [Std.TreeMap.getElem?_filter', Std.TreeMap.getElem?_filter']
  obtain ⟨absent, absent'⟩ | ⟨value, other, found, found', rel⟩ := same.cases key
  · rw [absent, absent']
    exact .none
  · rw [found, found', Option.filter_some, Option.filter_some]
    split
    · exact .some rel
    · exact .none

theorem modify (same : MapsRelated related left right) {change : α → α} {change' : β → β}
    (alike : ∀ value other, related value other → related (change value) (change' other))
    (key : Ident) : MapsRelated related (left.modify key change) (right.modify key change') := by
  intro asked
  rw [Std.TreeMap.getElem?_modify, Std.TreeMap.getElem?_modify]
  split
  · obtain ⟨absent, absent'⟩ | ⟨value, other, found, found', rel⟩ := same.cases key
    · rw [absent, absent']
      exact .none
    · rw [found, found']
      exact .some (alike _ _ rel)
  · exact same asked

theorem alter (same : MapsRelated related left right) {change : Option α → Option α}
    {change' : Option β → Option β}
    (alike : ∀ value other, Option.Rel related value other →
      Option.Rel related (change value) (change' other)) (key : Ident) :
    MapsRelated related (left.alter key change) (right.alter key change') := by
  intro asked
  rw [Std.TreeMap.getElem?_alter, Std.TreeMap.getElem?_alter]
  split
  · exact alike _ _ (same key)
  · exact same asked

end MapsRelated

structure MemoTable.Matches (glossary : Glossary) (table other : MemoTable) : Prop where
  owner : table.owner.Matches glossary other.owner
  entries : MapsRelated (Value.Matches glossary) table.entries other.entries

def Memo.Matches (glossary : Glossary) (memo other : Memo) : Prop :=
  MapsRelated (MemoTable.Matches glossary) memo.tables other.tables

section Matches

variable {glossary later : Glossary} {memo other : Memo}

theorem MemoTable.Matches.mono {table other : MemoTable} (same : table.Matches glossary other)
    (grown : later.Extends glossary) : table.Matches later other :=
  ⟨same.owner.mono grown, same.entries.mono fun _ _ values => values.mono grown⟩

theorem MemoTable.Matches.insert {table other : MemoTable} (same : table.Matches glossary other)
    {value value' : Value} (values : value.Matches glossary value') (arg : Ident) :
    (table.insert arg value).Matches glossary (other.insert arg value') :=
  ⟨same.owner, same.entries.insert values arg⟩

theorem MemoTable.Matches.sweep {table other : MemoTable} (same : table.Matches glossary other)
    (alive : Ident → Bool) : (table.sweep alive).Matches glossary (other.sweep alive) := by
  refine ⟨?_, fun key => ?_⟩
  · rw [table.owner_sweep, other.owner_sweep]
    exact same.owner
  · have kept := table.lookup_sweep alive key
    have kept' := other.lookup_sweep alive key
    rw [MemoTable.lookup] at kept kept'
    rw [kept, kept']
    split
    · exact same.entries key
    · exact .none

theorem MemoTable.Matches.sweepDue_eq {table other : MemoTable}
    (same : table.Matches glossary other) : table.sweepDue = other.sweepDue := by
  rw [MemoTable.sweepDue, MemoTable.sweepDue, MemoTable.size, MemoTable.size,
    same.entries.size_eq]

theorem Memo.matches_empty (glossary : Glossary) : Memo.empty.Matches glossary .empty :=
  .empty _

theorem Memo.Matches.mono (same : memo.Matches glossary other) (grown : later.Extends glossary) :
    memo.Matches later other :=
  MapsRelated.mono (fun _ _ tables => tables.mono grown) same

theorem Memo.Matches.lookup (same : memo.Matches glossary other) {func func' arg arg' : Closure}
    (funcs : func.ident = func'.ident) (args : arg.ident = arg'.ident) :
    Option.Rel (Value.Matches glossary) (memo.lookup func arg) (other.lookup func' arg') := by
  rw [Memo.lookup, Memo.lookup, ← funcs, ← args]
  obtain ⟨absent, absent'⟩ | ⟨table, table', found, found', tables⟩ :=
    MapsRelated.cases same func.ident
  · rw [absent, absent']
    exact .none
  · rw [found, found']
    exact tables.entries arg.ident

theorem Memo.Matches.insert (same : memo.Matches glossary other) {func func' arg arg' : Closure}
    {value value' : Value} (funcs : func.Matches glossary func') (args : arg.ident = arg'.ident)
    (values : value.Matches glossary value') :
    (memo.insert func arg value).Matches glossary (other.insert func' arg' value') := by
  rw [Memo.insert, Memo.insert, ← (Closure.matches_iff.mp funcs).1, ← args]
  refine MapsRelated.alter same (fun table table' tables => ?_) func.ident
  cases tables with
  | none => exact .some (MemoTable.Matches.insert ⟨funcs, .empty _⟩ values arg.ident)
  | some found => exact .some (found.insert values arg.ident)

theorem Memo.Matches.sweepDue_eq (same : memo.Matches glossary other) {func func' : Closure}
    (funcs : func.ident = func'.ident) : memo.sweepDue func = other.sweepDue func' := by
  rw [Memo.sweepDue, Memo.sweepDue, ← funcs]
  obtain ⟨absent, absent'⟩ | ⟨table, table', found, found', tables⟩ :=
    MapsRelated.cases same func.ident
  · rw [absent, absent']
  · rw [found, found']
    exact tables.sweepDue_eq

theorem Memo.Matches.sweep (same : memo.Matches glossary other) {func func' : Closure}
    (funcs : func.ident = func'.ident) (alive : IdentSet) :
    (memo.sweep func alive).Matches glossary (other.sweep func' alive) := by
  rw [Memo.sweep, Memo.sweep, ← funcs]
  exact MapsRelated.modify
    (MapsRelated.filter same fun owner => owner == func.ident || alive.contains owner)
    (fun _ _ tables => tables.sweep alive.contains) func.ident

theorem Memo.Matches.owners_eq (same : memo.Matches glossary other) (room : Nat) :
    memo.owners room = other.owners room := by
  rw [Memo.owners, Memo.owners]
  apply MapsRelated.foldl_eq same
  intro owners ident table table' _
  rfl

theorem Memo.Matches.reachResults_eq (same : memo.Matches glossary other) (owners : IdentSet)
    (owner : Ident) (reached : Reached) :
    memo.reachResults owners owner reached = other.reachResults owners owner reached := by
  rw [Memo.reachResults, Memo.reachResults]
  obtain ⟨absent, absent'⟩ | ⟨table, table', found, found', tables⟩ :=
    MapsRelated.cases same owner
  · rw [absent, absent']
  · rw [found, found']
    exact tables.entries.foldl_eq (fun _ _ _ _ values => by rw [values.reach_eq]) reached

theorem Memo.Matches.visitTables_eq (same : memo.Matches glossary other) (owners : IdentSet)
    (visits : Nat) (reached : Reached) :
    memo.visitTables owners visits reached = other.visitTables owners visits reached := by
  induction visits generalizing reached with
  | zero => rfl
  | succ visits ih =>
      rw [Memo.visitTables, Memo.visitTables]
      cases reached.owners with
      | nil => rfl
      | cons owner rest =>
          dsimp only
          rw [same.reachResults_eq, ih]

theorem Memo.Matches.reachLoose_eq (same : memo.Matches glossary other) (owners seen : IdentSet) :
    memo.reachLoose owners seen = other.reachLoose owners seen := by
  have walked :
      memo.tables.foldl (fun reached _ table => table.owner.reach owners reached)
          ⟨seen, [], some []⟩ =
        other.tables.foldl (fun reached _ table => table.owner.reach owners reached)
          ⟨seen, [], some []⟩ :=
    MapsRelated.foldl_eq same (fun _ _ _ _ tables => by rw [tables.owner.reach_eq]) _
  rw [Memo.reachLoose, Memo.reachLoose, same.visitTables_eq, walked, MapsRelated.size_eq same]

theorem Memo.Matches.allHeld_eq (same : memo.Matches glossary other) (ident : Ident)
    (held : List Ident) : memo.allHeld ident held = other.allHeld ident held := by
  rw [Memo.allHeld, Memo.allHeld]
  obtain ⟨absent, absent'⟩ | ⟨table, table', found, found', tables⟩ :=
    MapsRelated.cases same ident
  · rw [absent, absent']
  · rw [found, found']
    exact tables.entries.foldl_eq (fun _ _ _ _ values => by rw [values.link_eq]) held

/-- The same instances are alive around tables that match, if the roots reach the same. -/
theorem Memo.Matches.alive_eq (same : memo.Matches glossary other)
    {reachRoots reachRoots' : IdentSet → Reached → Reached} (roots : reachRoots = reachRoots')
    (room : Nat) : memo.alive reachRoots room = other.alive reachRoots' room := by
  simp only [Memo.alive, same.owners_eq, same.visitTables_eq, MapsRelated.size_eq same,
    same.reachLoose_eq, same.allHeld_eq, roots]

theorem Memo.Matches.record (same : memo.Matches glossary other) {func func' arg arg' : Closure}
    {value value' : Value} (funcs : func.Matches glossary func') (args : arg.ident = arg'.ident)
    (values : value.Matches glossary value') {alive alive' : Memo → IdentSet}
    (alike : ∀ left right : Memo, left.Matches glossary right → alive left = alive' right) :
    (memo.record func arg value alive).Matches glossary
      (other.record func' arg' value' alive') := by
  have idents := (Closure.matches_iff.mp funcs).1
  have inserted := same.insert funcs args values
  rw [Memo.record, Memo.record, inserted.sweepDue_eq idents, alike _ _ inserted]
  split
  · exact inserted.sweep idents _
  · exact inserted

end Matches

end LambdaMachine
