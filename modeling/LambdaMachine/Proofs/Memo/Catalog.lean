import LambdaMachine.Memo.Table
import Std.Data.TreeMap.Lemmas

/-!
What the tables hold, entry by entry, and a law of entries that recording keeps. A catalog lists the
closures made so far by their identity; a table answers for the identities of two closures, so what
an entry says about the closures can only be said where the catalog tells which ones they are.
-/

namespace LambdaMachine

namespace MemoTable

variable {alive : Ident → Bool}

theorem owner_visit (table : MemoTable) (arg : Ident) :
    (table.visit alive arg).owner = table.owner := by
  unfold visit
  split <;> rfl

theorem lookup_visit (table : MemoTable) (arg key : Ident) :
    (table.visit alive arg).lookup key =
      if arg = key ∧ alive key = false then none else table.lookup key := by
  unfold visit
  split
  · rename_i lives
    rw [if_neg]
    rintro ⟨rfl, dead⟩
    rw [dead] at lives
    contradiction
  · rename_i dead
    rw [Bool.not_eq_true] at dead
    simp only [lookup, remove, Std.TreeMap.getElem?_erase, Nat.compare_eq_eq]
    by_cases same : arg = key
    · subst same
      rw [if_pos rfl, if_pos ⟨rfl, dead⟩]
    · rw [if_neg same, if_neg fun both => same both.1]

theorem owner_foldl_visit (keys : List Ident) (table : MemoTable) :
    (keys.foldl (visit alive) table).owner = table.owner := by
  induction keys generalizing table with
  | nil => rfl
  | cons arg keys ih => rw [List.foldl_cons, ih, owner_visit]

theorem lookup_foldl_visit (keys : List Ident) (table : MemoTable) (key : Ident) :
    (keys.foldl (visit alive) table).lookup key =
      if key ∈ keys ∧ alive key = false then none else table.lookup key := by
  induction keys generalizing table with
  | nil => rw [List.foldl_nil, if_neg fun both => List.not_mem_nil both.1]
  | cons arg keys ih =>
      rw [List.foldl_cons, ih, lookup_visit]
      simp only [List.mem_cons]
      grind

theorem owner_sweep (table : MemoTable) (alive : Ident → Bool) :
    (table.sweep alive).owner = table.owner :=
  owner_foldl_visit _ table

/-- Where nothing dies meanwhile, the order in which a sweep comes to the keys makes no
difference. -/
theorem lookup_sweep (table : MemoTable) (alive : Ident → Bool) (key : Ident) :
    (table.sweep alive).lookup key = if alive key then table.lookup key else none := by
  simp only [sweep, lookup_foldl_visit, Std.TreeMap.mem_keys]
  by_cases lives : alive key = true
  · rw [if_pos lives, if_neg fun both => Bool.noConfusion (lives.symm.trans both.2)]
  · rw [if_neg lives]
    by_cases among : key ∈ table.entries
    · rw [if_pos ⟨among, Bool.eq_false_iff.mpr lives⟩]
    · rw [if_neg fun both => among both.1, lookup, Std.TreeMap.getElem?_eq_none among]

end MemoTable

namespace Memo

def entry (memo : Memo) (owner key : Ident) : Option Value :=
  (memo.tables[owner]?).bind fun table => table.lookup key

theorem lookup_eq_entry (memo : Memo) (func arg : Closure) :
    memo.lookup func arg = memo.entry func.ident arg.ident :=
  rfl

theorem entry_insert (memo : Memo) (func arg : Closure) (value : Value) (owner key : Ident) :
    (memo.insert func arg value).entry owner key =
      if func.ident = owner ∧ arg.ident = key then some value else memo.entry owner key := by
  simp only [entry, insert, Std.TreeMap.getElem?_alter, Nat.compare_eq_eq]
  by_cases sameOwner : func.ident = owner
  · subst sameOwner
    simp only [if_true, true_and, Option.bind_some, MemoTable.lookup, MemoTable.insert,
      Std.TreeMap.getElem?_insert, Nat.compare_eq_eq]
    split
    · rfl
    · cases memo.tables[func.ident]? with
      | none => simp [MemoTable.empty]
      | some table => rfl
  · simp only [sameOwner, if_false, false_and]

theorem size_insert {memo : Memo} {func arg : Closure} (absent : memo.lookup func arg = none)
    (value : Value) (other : Closure) :
    (memo.insert func arg value).size other =
      if func.ident = other.ident then memo.size other + 1 else memo.size other := by
  simp only [size, insert, Std.TreeMap.getElem?_alter, Nat.compare_eq_eq]
  by_cases same : func.ident = other.ident
  · rw [lookup, same] at absent
    simp only [same, if_true]
    cases found : memo.tables[other.ident]? with
    | none => simp [MemoTable.empty, MemoTable.insert, MemoTable.size, Std.TreeMap.size_insert]
    | some table =>
        have fresh : arg.ident ∉ table.entries := by
          rw [found, Option.bind_some, MemoTable.lookup] at absent
          rw [Std.TreeMap.mem_iff_isSome_getElem?, absent]
          decide
        simp [MemoTable.insert, MemoTable.size, Std.TreeMap.size_insert, fresh]
  · simp only [same, if_false]

theorem entry_of_entry_sweep {memo : Memo} {func : Closure} {alive : IdentSet} {owner key : Ident}
    {value : Value} (found : (memo.sweep func alive).entry owner key = some value) :
    memo.entry owner key = some value := by
  obtain ⟨table, tableFound, entryFound⟩ := Option.bind_eq_some_iff.mp found
  simp only [sweep, Std.TreeMap.getElem?_modify, Nat.compare_eq_eq, Std.TreeMap.getElem?_filter']
    at tableFound
  split at tableFound
  · rename_i sameOwner
    subst sameOwner
    obtain ⟨swept, sweptFound, rfl⟩ := Option.map_eq_some_iff.mp tableFound
    have kept := (Option.filter_eq_some_iff.mp sweptFound).1
    rw [MemoTable.lookup_sweep] at entryFound
    split at entryFound
    · exact Option.bind_eq_some_iff.mpr ⟨swept, kept, entryFound⟩
    · contradiction
  · have kept := (Option.filter_eq_some_iff.mp tableFound).1
    exact Option.bind_eq_some_iff.mpr ⟨table, kept, entryFound⟩

/-- A sweep keeps the results for arguments that are alive, in the table that is swept and in those
of closures that are alive. -/
theorem entry_sweep {memo : Memo} {func : Closure} {alive : IdentSet} {owner key : Ident}
    (kept : owner = func.ident ∨ alive.contains owner = true) (lives : alive.contains key = true) :
    (memo.sweep func alive).entry owner key = memo.entry owner key := by
  have stays : (owner == func.ident || alive.contains owner) = true := by
    rw [Bool.or_eq_true, beq_iff_eq]
    exact kept
  have keepsAll {α : Type} (held : Option α) : held.filter (fun _ => true) = held := by
    cases held <;> rfl
  by_cases swept : func.ident = owner
  · subst swept
    simp only [entry, sweep, Std.TreeMap.getElem?_modify, Nat.compare_eq_eq, if_true,
      Std.TreeMap.getElem?_filter', stays, keepsAll, Option.bind_map]
    congr 1
    funext table
    rw [Function.comp, MemoTable.lookup_sweep, if_pos lives]
  · simp only [entry, sweep, Std.TreeMap.getElem?_modify, Nat.compare_eq_eq, swept, if_false,
      Std.TreeMap.getElem?_filter', stays, keepsAll]

theorem entry_insert_of_entry_record {memo : Memo} {func arg : Closure} {result : Value}
    {alive : Memo → IdentSet} {owner key : Ident} {value : Value}
    (found : (memo.record func arg result alive).entry owner key = some value) :
    (memo.insert func arg result).entry owner key = some value := by
  simp only [record] at found
  split at found
  · exact entry_of_entry_sweep found
  · exact found

theorem entry_of_entry_insert {memo : Memo} {func arg : Closure} {result : Value}
    {owner key : Ident} {value : Value}
    (found : (memo.insert func arg result).entry owner key = some value) :
    (func.ident = owner ∧ arg.ident = key ∧ result = value) ∨
      memo.entry owner key = some value := by
  rw [entry_insert] at found
  split at found
  · rename_i same
    exact Or.inl ⟨same.1, same.2, Option.some.inj found⟩
  · exact Or.inr found

theorem entry_of_entry_record {memo : Memo} {func arg : Closure} {result : Value}
    {alive : Memo → IdentSet} {owner key : Ident} {value : Value}
    (found : (memo.record func arg result alive).entry owner key = some value) :
    (func.ident = owner ∧ arg.ident = key ∧ result = value) ∨
      memo.entry owner key = some value :=
  entry_of_entry_insert (entry_insert_of_entry_record found)

/-- Recording a result loses no other one that can still be asked for. -/
theorem entry_record {memo : Memo} {func arg : Closure} {result : Value} {alive : Memo → IdentSet}
    {owner key : Ident} (ownerLives : (alive (memo.insert func arg result)).contains owner = true)
    (keyLives : (alive (memo.insert func arg result)).contains key = true) :
    (memo.record func arg result alive).entry owner key =
      (memo.insert func arg result).entry owner key := by
  simp only [record]
  split
  · exact entry_sweep (.inr ownerLives) keyLives
  · rfl

/-- Every identity in the tables has been given out. -/
def Issued (memo : Memo) (next : Ident) : Prop :=
  ∀ owner key value, memo.entry owner key = some value → owner < next ∧ key < next

end Memo

abbrev Catalog := Ident → Option Closure

namespace Catalog

def Bounded (catalog : Catalog) (next : Ident) : Prop :=
  ∀ ident closure, catalog ident = some closure → ident < next

def Extends (later earlier : Catalog) (next : Ident) : Prop :=
  ∀ ident, ident < next → later ident = earlier ident

def Lists (catalog : Catalog) (closure : Closure) : Prop :=
  catalog closure.ident = some closure

def add (catalog : Catalog) (closure : Closure) : Catalog := fun ident =>
  if ident = closure.ident then some closure else catalog ident

theorem add_lists (catalog : Catalog) (closure : Closure) : (catalog.add closure).Lists closure :=
  if_pos rfl

theorem add_extends (catalog : Catalog) (closure : Closure) :
    (catalog.add closure).Extends catalog closure.ident :=
  fun _ below => if_neg (Nat.ne_of_lt below)

theorem Bounded.add {catalog : Catalog} {closure : Closure}
    (bounded : catalog.Bounded closure.ident) :
    (catalog.add closure).Bounded (closure.ident + 1) := by
  intro ident listed found
  rw [Catalog.add] at found
  split at found
  · rename_i same
    rw [same]
    exact Nat.lt_succ_self _
  · exact Nat.lt_succ_of_lt (bounded ident listed found)

theorem Bounded.mono {catalog : Catalog} {next later : Ident} (bounded : catalog.Bounded next)
    (le : next ≤ later) : catalog.Bounded later :=
  fun ident closure found => Nat.lt_of_lt_of_le (bounded ident closure found) le

theorem Extends.refl (catalog : Catalog) (next : Ident) : catalog.Extends catalog next :=
  fun _ _ => rfl

theorem Extends.trans {first second third : Catalog} {next later : Ident} (le : next ≤ later)
    (after : third.Extends second later) (before : second.Extends first next) :
    third.Extends first next :=
  fun ident below => (after ident (Nat.lt_of_lt_of_le below le)).trans (before ident below)

theorem Lists.mono {earlier later : Catalog} {next : Ident} {closure : Closure}
    (bounded : earlier.Bounded next) (grown : later.Extends earlier next)
    (listed : earlier.Lists closure) : later.Lists closure :=
  (grown closure.ident (bounded _ _ listed)).trans listed

end Catalog

structure Memo.Lawful (catalog : Catalog) (next : Ident)
    (law : Closure → Closure → Value → Prop) (memo : Memo) : Prop where
  issued : memo.Issued next
  lawful : ∀ func arg value, catalog.Lists func → catalog.Lists arg →
    memo.lookup func arg = some value → law func arg value

theorem Memo.entry_empty (owner key : Ident) : Memo.empty.entry owner key = none := by
  simp [Memo.entry, Memo.empty]

theorem Memo.lawful_empty (catalog : Catalog) (next : Ident)
    (law : Closure → Closure → Value → Prop) : Memo.empty.Lawful catalog next law := by
  constructor
  · intro owner key value found
    rw [entry_empty] at found
    cases found
  · intro func arg value _ _ found
    rw [lookup_eq_entry, entry_empty] at found
    cases found

namespace Memo.Lawful

variable {catalog : Catalog} {next : Ident} {law : Closure → Closure → Value → Prop} {memo : Memo}

theorem record {func arg : Closure} {value : Value} (lawful : memo.Lawful catalog next law)
    (bounded : catalog.Bounded next) (funcListed : catalog.Lists func)
    (argListed : catalog.Lists arg) (holds : law func arg value) (alive : Memo → IdentSet) :
    (memo.record func arg value alive).Lawful catalog next law := by
  constructor
  · intro owner key other found
    rcases entry_of_entry_record found with ⟨rfl, rfl, _⟩ | earlier
    · exact ⟨bounded _ _ funcListed, bounded _ _ argListed⟩
    · exact lawful.issued owner key other earlier
  · intro otherFunc otherArg other otherFuncListed otherArgListed found
    rcases entry_of_entry_record found with ⟨sameFunc, sameArg, rfl⟩ | earlier
    · rw [Catalog.Lists, ← sameFunc, funcListed] at otherFuncListed
      rw [Catalog.Lists, ← sameArg, argListed] at otherArgListed
      cases otherFuncListed
      cases otherArgListed
      exact holds
    · exact lawful.lawful otherFunc otherArg other otherFuncListed otherArgListed earlier

/-- New closures have no entries, so a catalog may grow with the identities given out. -/
theorem grow {later : Catalog} {nextLater : Ident} {lawLater : Closure → Closure → Value → Prop}
    (lawful : memo.Lawful catalog next law) (le : next ≤ nextLater)
    (grown : later.Extends catalog next)
    (weaker : ∀ func arg value, law func arg value → lawLater func arg value) :
    memo.Lawful later nextLater lawLater := by
  constructor
  · intro owner key value found
    have issued := lawful.issued owner key value found
    exact ⟨Nat.lt_of_lt_of_le issued.1 le, Nat.lt_of_lt_of_le issued.2 le⟩
  · intro func arg value funcListed argListed found
    have issued := lawful.issued _ _ value found
    apply weaker
    apply lawful.lawful func arg value _ _ found
    · exact (grown _ issued.1).symm.trans funcListed
    · exact (grown _ issued.2).symm.trans argListed

end Memo.Lawful

end LambdaMachine
