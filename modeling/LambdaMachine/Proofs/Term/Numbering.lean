import LambdaMachine.Proofs.Term.Names
import Mathlib.Data.List.Basic

/-!
What a table holds after texts were numbered one after the other: each distinct text once, where it
came first.
-/

namespace LambdaMachine.NameTable

def internAll (table : NameTable) (texts : List String) : NameTable :=
  texts.foldl (fun table text => (table.intern text).2) table

theorem internAll_append (table : NameTable) (texts more : List String) :
    table.internAll (texts ++ more) = (table.internAll texts).internAll more :=
  List.foldl_append

theorem extends_internAll (table : NameTable) (texts : List String) :
    (table.internAll texts).Extends table := by
  induction texts generalizing table with
  | nil => exact .refl table
  | cons text texts ih => exact (ih _).trans (extends_intern table text)

def Agrees (number : String → NameId) (table : NameTable) : Prop :=
  ∀ (text : String) (name : NameId), table.numbers[text]? = some name → number text = name

theorem Agrees.mono {number : String → NameId} {table earlier : NameTable}
    (agrees : Agrees number table) (grown : table.Extends earlier) : Agrees number earlier :=
  fun text name known => agrees text name (grown text name known)

theorem Agrees.intern {number : String → NameId} {table : NameTable} {text : String}
    (agrees : Agrees number (table.intern text).2) : (table.intern text).1 = number text :=
  (agrees text _ (table.numbers_intern text)).symm

theorem texts_intern {table : NameTable} {text : String} :
    (table.intern text).2.texts.toList =
      if table.numbers[text]? = none then table.texts.toList ++ [text] else table.texts.toList := by
  unfold intern
  split
  · rename_i known
    rw [known, if_neg (by simp)]
  · rename_i unknown
    rw [unknown, if_pos rfl, Array.toList_push]

/-- The number of a text is the place it has among the texts, and others have none. -/
def Regular (table : NameTable) : Prop :=
  ∀ text : String, table.numbers[text]? =
    if text ∈ table.texts.toList then some (table.texts.toList.idxOf text) else none

theorem regular_empty : empty.Regular := by
  intro text
  rw [empty, Std.TreeMap.getElem?_insert]
  by_cases same : text = ""
  · subst same
    rfl
  · rw [if_neg, if_neg (by simpa using same)]
    · rfl
    · intro equal
      exact same (Std.LawfulEqOrd.eq_of_compare equal).symm

theorem Regular.numbers_eq_none {table : NameTable} (regular : table.Regular) {text : String} :
    table.numbers[text]? = none ↔ text ∉ table.texts.toList := by
  rw [regular text]
  by_cases among : text ∈ table.texts.toList
  · simp [among]
  · simp [among]

theorem Regular.intern {table : NameTable} (regular : table.Regular) (text : String) :
    (table.intern text).2.Regular := by
  intro other
  unfold NameTable.intern
  split
  · exact regular other
  · rename_i unknown
    have absent := regular.numbers_eq_none.mp unknown
    rw [Std.TreeMap.getElem?_insert, Array.toList_push]
    by_cases same : text = other
    · subst same
      rw [if_pos Std.ReflOrd.compare_self, if_pos (by simp), List.idxOf_append_of_notMem absent]
      simp
    · rw [if_neg fun equal => same (Std.LawfulEqOrd.eq_of_compare equal), regular other]
      by_cases among : other ∈ table.texts.toList
      · rw [if_pos among, if_pos (List.mem_append_left _ among), List.idxOf_append_of_mem among]
      · rw [if_neg among, if_neg]
        simpa [among] using Ne.symm same

theorem Regular.internAll {table : NameTable} (regular : table.Regular) (texts : List String) :
    (table.internAll texts).Regular := by
  induction texts generalizing table with
  | nil => exact regular
  | cons text texts ih => exact ih (regular.intern text)

theorem Regular.agrees {table : NameTable} (regular : table.Regular) :
    Agrees table.texts.toList.idxOf table := by
  intro text name known
  rw [regular text] at known
  split at known
  · exact Option.some.inj known
  · cases known

theorem eraseDups_concat (texts : List String) (text : String) :
    (texts ++ [text]).eraseDups =
      if text ∈ texts then texts.eraseDups else texts.eraseDups ++ [text] := by
  rw [List.eraseDups_append]
  by_cases among : text ∈ texts
  · simp [List.removeAll, among]
  · simp [List.removeAll, List.eraseDups_cons, among]

/-- The texts of the table, in the order of their numbers, are those seen so far. -/
theorem Regular.texts_internAll {table : NameTable} (regular : table.Regular) {seen : List String}
    (texts : table.texts.toList = seen.eraseDups) (more : List String) :
    (table.internAll more).texts.toList = (seen ++ more).eraseDups := by
  induction more generalizing table seen with
  | nil => rw [List.append_nil]; exact texts
  | cons text more ih =>
      rw [List.append_cons]
      refine ih (regular.intern text) ?_
      rw [texts_intern, eraseDups_concat, texts]
      by_cases among : text ∈ seen
      · rw [if_pos among, if_neg]
        rw [regular.numbers_eq_none, texts, List.mem_eraseDups]
        exact not_not.mpr among
      · rw [if_neg among, if_pos]
        rw [regular.numbers_eq_none, texts, List.mem_eraseDups]
        exact among

end LambdaMachine.NameTable
