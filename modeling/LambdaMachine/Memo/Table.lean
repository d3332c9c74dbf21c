import LambdaMachine.Memo.IdentSet
import Std.Data.TreeMap

/-!
Memo tables: the results of applying one closure, by the identity of the argument. A table that
grows to a power of two of at least 1024 entries is swept of the arguments that are no longer
alive; the tables of closures that are no longer alive, which nothing can ask for, go with them.
-/

namespace LambdaMachine

structure MemoTable where
  owner : Closure
  entries : Std.TreeMap Ident Value

namespace MemoTable

def sweepThreshold : Nat := 1024

def empty (owner : Closure) : MemoTable :=
  ⟨owner, ∅⟩

def size (table : MemoTable) : Nat :=
  table.entries.size

def lookup (table : MemoTable) (arg : Ident) : Option Value :=
  table.entries[arg]?

def insert (table : MemoTable) (arg : Ident) (value : Value) : MemoTable :=
  { table with entries := table.entries.insert arg value }

def sweepDue (table : MemoTable) : Bool :=
  sweepThreshold ≤ table.size && Nat.pow 2 table.size.log2 == table.size

def remove (table : MemoTable) (arg : Ident) : MemoTable :=
  { table with entries := table.entries.erase arg }

def visit (alive : Ident → Bool) (table : MemoTable) (arg : Ident) : MemoTable :=
  if alive arg then table else table.remove arg

/-- Comes to one key after the other. In which order is left open, and a key may die with a result
that is removed on the way; here it counts as visited before, so it stays. -/
def sweep (table : MemoTable) (alive : Ident → Bool) : MemoTable :=
  table.entries.keys.foldl (visit alive) table

end MemoTable

structure Memo where
  tables : Std.TreeMap Ident MemoTable

namespace Memo

def empty : Memo := ⟨∅⟩

def lookup (memo : Memo) (func arg : Closure) : Option Value :=
  (memo.tables[func.ident]?).bind fun table => table.lookup arg.ident

def size (memo : Memo) (func : Closure) : Nat :=
  match memo.tables[func.ident]? with
  | some table => table.size
  | none => 0

def insert (memo : Memo) (func arg : Closure) (value : Value) : Memo :=
  ⟨memo.tables.alter func.ident fun table? =>
    some ((table?.getD (.empty func)).insert arg.ident value)⟩

def sweepDue (memo : Memo) (func : Closure) : Bool :=
  match memo.tables[func.ident]? with
  | some table => table.sweepDue
  | none => false

def sweep (memo : Memo) (func : Closure) (alive : IdentSet) : Memo :=
  let tables := memo.tables.filter fun owner _ => owner == func.ident || alive.contains owner
  ⟨tables.modify func.ident fun table => table.sweep alive.contains⟩

/-- Records a result and sweeps the table if that is due. What is alive is asked only then. -/
def record (memo : Memo) (func arg : Closure) (value : Value)
    (alive : Memo → IdentSet) : Memo :=
  let memo := memo.insert func arg value
  if memo.sweepDue func then memo.sweep func (alive memo) else memo

end Memo

end LambdaMachine
