import Std.Data.TreeMap

/-!
The table of names. Each distinct text gets the next free number, and names are compared by number
from then on. Number 0 is the empty text.
-/

namespace LambdaMachine

abbrev NameId := Nat

structure NameTable where
  texts : Array String
  numbers : Std.TreeMap String NameId

namespace NameTable

def empty : NameTable :=
  ⟨#[""], (∅ : Std.TreeMap String NameId).insert "" 0⟩

def intern (table : NameTable) (text : String) : NameId × NameTable :=
  match table.numbers[text]? with
  | some name => (name, table)
  | none =>
      let name := table.texts.size
      (name, ⟨table.texts.push text, table.numbers.insert text name⟩)

/-- The text of a number; a number that was never given out reads as the empty text. -/
def text (table : NameTable) (name : NameId) : String :=
  (table.texts[name]?).getD ""

def size (table : NameTable) : Nat :=
  table.texts.size

def isEmpty (table : NameTable) : Bool :=
  table.size ≤ 1

end NameTable

end LambdaMachine
