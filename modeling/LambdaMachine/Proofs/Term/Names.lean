import LambdaMachine.Term.Names
import Std.Data.TreeMap.Lemmas

/-!
Tables of names only grow: a text that has a number keeps it, and can be found by it.
-/

namespace LambdaMachine.NameTable

def Extends (later earlier : NameTable) : Prop :=
  ∀ (text : String) (name : NameId), earlier.numbers[text]? = some name →
    later.numbers[text]? = some name

theorem Extends.refl (table : NameTable) : table.Extends table :=
  fun _ _ known => known

theorem Extends.trans {first second third : NameTable} (after : third.Extends second)
    (before : second.Extends first) : third.Extends first :=
  fun text name known => after text name (before text name known)

theorem extends_intern (table : NameTable) (text : String) :
    (table.intern text).2.Extends table := by
  intro other name known
  unfold intern
  split
  · exact known
  · rename_i unknown
    rw [Std.TreeMap.getElem?_insert]
    split
    · rename_i same
      rw [Std.LawfulEqOrd.eq_of_compare same, known] at unknown
      cases unknown
    · exact known

theorem numbers_intern (table : NameTable) (text : String) :
    (table.intern text).2.numbers[text]? = some (table.intern text).1 := by
  unfold intern
  split
  · assumption
  · exact Std.TreeMap.getElem?_insert_self

theorem intern_of_extends {table later : NameTable} {text : String}
    (grown : later.Extends (table.intern text).2) :
    later.intern text = ((table.intern text).1, later) := by
  have known := grown text _ (table.numbers_intern text)
  rw [intern, known]

/-- The later table comes of the earlier one by numbering texts. -/
inductive Interns (earlier : NameTable) : NameTable → Prop
  | refl : Interns earlier earlier
  | intern {later : NameTable} (interns : Interns earlier later) (text : String) :
      Interns earlier (later.intern text).2

theorem Interns.trans {first second third : NameTable} (before : first.Interns second)
    (after : second.Interns third) : first.Interns third := by
  induction after with
  | refl => exact before
  | intern _ text ih => exact ih.intern text

theorem Interns.extends {earlier later : NameTable} (interns : earlier.Interns later) :
    later.Extends earlier := by
  induction interns with
  | refl => exact .refl earlier
  | intern _ text ih => exact (extends_intern _ text).trans ih

def Coherent (table : NameTable) : Prop :=
  ∀ (text : String) (name : NameId), table.numbers[text]? = some name →
    table.texts[name]? = some text

theorem Coherent.text_eq {table : NameTable} (coherent : table.Coherent) {text : String}
    {name : NameId} (known : table.numbers[text]? = some name) : table.text name = text := by
  rw [NameTable.text, coherent text name known]
  rfl

/-- Different texts have different numbers. -/
theorem Coherent.ne_of_ne {table : NameTable} (coherent : table.Coherent) {left right : String}
    {leftName rightName : NameId} (leftKnown : table.numbers[left]? = some leftName)
    (rightKnown : table.numbers[right]? = some rightName) (different : left ≠ right) :
    leftName ≠ rightName := by
  rintro rfl
  exact different ((coherent.text_eq leftKnown).symm.trans (coherent.text_eq rightKnown))

theorem coherent_empty : NameTable.empty.Coherent := by
  intro text name known
  rw [NameTable.empty, Std.TreeMap.getElem?_insert] at known
  split at known
  · rename_i same
    cases known
    rw [← Std.LawfulEqOrd.eq_of_compare same]
    rfl
  · cases known

theorem Coherent.intern {table : NameTable} (coherent : table.Coherent) (text : String) :
    (table.intern text).2.Coherent := by
  intro other name known
  unfold NameTable.intern at known ⊢
  split at known
  · exact coherent other name known
  · rw [Std.TreeMap.getElem?_insert] at known
    split at known
    · rename_i same
      cases known
      rw [← Std.LawfulEqOrd.eq_of_compare same]
      exact Array.getElem?_push_size
    · have found := coherent other name known
      have inside : name < table.texts.size := (Array.getElem?_eq_some_iff.mp found).1
      rw [Array.getElem?_push_lt inside, ← Array.getElem?_eq_getElem inside]
      exact found

theorem Interns.coherent {earlier later : NameTable} (interns : earlier.Interns later)
    (coherent : earlier.Coherent) : later.Coherent := by
  induction interns with
  | refl => exact coherent
  | intern _ text ih => exact ih.intern text

def Issued (table : NameTable) (name : NameId) : Prop :=
  name < table.size

instance (table : NameTable) : DecidablePred table.Issued :=
  fun _ => inferInstanceAs (Decidable (_ < _))

/-- In a table that is built up, every number that was given out belongs to a text. -/
theorem Interns.exists_text {table : NameTable} (interns : NameTable.empty.Interns table)
    {name : NameId} (issued : table.Issued name) :
    ∃ text : String, table.numbers[text]? = some name := by
  induction interns with
  | refl =>
      have zero : name = 0 := Nat.lt_one_iff.mp issued
      exact ⟨"", zero ▸ Std.TreeMap.getElem?_insert_self⟩
  | @intern table _ text ih =>
      by_cases earlier : table.Issued name
      · obtain ⟨found, known⟩ := ih earlier
        exact ⟨found, extends_intern table text found name known⟩
      · refine ⟨text, ?_⟩
        rw [Issued, size] at issued earlier
        unfold NameTable.intern at issued ⊢
        split at issued
        · exact (earlier issued).elim
        · rename_i unknown
          rw [Array.size_push] at issued
          have last : name = table.texts.size :=
            Nat.le_antisymm (Nat.lt_succ_iff.mp issued) (Nat.le_of_not_lt earlier)
          rw [last]
          exact Std.TreeMap.getElem?_insert_self

end LambdaMachine.NameTable
