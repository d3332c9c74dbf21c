import LambdaMachine.Proofs.Term.Numbering
import Mathlib.Data.List.Nodup

/-!
Numbers and texts determine each other. However texts are numbered one after the other, a number is
the place that its text has among the distinct ones, in the order in which they came first; a text
that has been seen keeps its number and leaves the table as it is.
-/

namespace LambdaMachine.NameTable

structure OneToOne (table : NameTable) : Prop where
  regular : table.Regular
  nodup : table.texts.toList.Nodup

theorem oneToOne_empty : empty.OneToOne :=
  ⟨regular_empty, List.nodup_singleton ""⟩

namespace OneToOne

variable {table : NameTable}

theorem intern (oneToOne : table.OneToOne) (text : String) : (table.intern text).2.OneToOne := by
  refine ⟨oneToOne.regular.intern text, ?_⟩
  rw [texts_intern]
  split
  · rename_i unknown
    have absent := oneToOne.regular.numbers_eq_none.mp unknown
    exact List.concat_eq_append ▸ oneToOne.nodup.concat absent
  · exact oneToOne.nodup

theorem internAll (oneToOne : table.OneToOne) (texts : List String) :
    (table.internAll texts).OneToOne := by
  induction texts generalizing table with
  | nil => exact oneToOne
  | cons text texts ih => exact ih (oneToOne.intern text)

theorem numbers_eq_some_iff (oneToOne : table.OneToOne) {text : String} {name : NameId} :
    table.numbers[text]? = some name ↔ table.texts[name]? = some text := by
  rw [oneToOne.regular text, ← Array.getElem?_toList]
  constructor
  · intro known
    split at known
    · rename_i among
      cases known
      exact List.getElem?_idxOf among
    · cases known
  · intro found
    obtain ⟨inside, rfl⟩ := List.getElem?_eq_some_iff.mp found
    rw [if_pos (List.getElem_mem inside), oneToOne.nodup.idxOf_getElem]

/-- A text that has a number leaves the table as it is. -/
theorem intern_of_mem (oneToOne : table.OneToOne) {text : String}
    (among : text ∈ table.texts.toList) :
    table.intern text = (table.texts.toList.idxOf text, table) := by
  rw [NameTable.intern, oneToOne.regular text, if_pos among]

theorem coherent (oneToOne : table.OneToOne) : table.Coherent :=
  fun _ _ => oneToOne.numbers_eq_some_iff.mp

theorem text_intern (oneToOne : table.OneToOne) (text : String) :
    (table.intern text).2.text (table.intern text).1 = text :=
  (oneToOne.intern text).coherent.text_eq (table.numbers_intern text)

/-- A number that has been given out reads the same ever after. -/
theorem text_internAll (oneToOne : table.OneToOne) {name : NameId} (issued : table.Issued name)
    (more : List String) : (table.internAll more).text name = table.text name := by
  have found : table.texts[name]? = some table.texts[name] := Array.getElem?_eq_getElem issued
  have known := oneToOne.numbers_eq_some_iff.mpr found
  have kept := extends_internAll table more _ _ known
  rw [(oneToOne.internAll more).coherent.text_eq kept, oneToOne.coherent.text_eq known]

/-- Different texts get different numbers, whatever is numbered in between. -/
theorem intern_ne (oneToOne : table.OneToOne) {text other : String} (different : text ≠ other)
    (between : List String) :
    (table.intern text).1 ≠ (((table.intern text).2.internAll between).intern other).1 := by
  have behind := ((oneToOne.intern text).internAll between).intern other
  have kept := extends_internAll (table.intern text).2 between _ _ (table.numbers_intern text)
  exact behind.coherent.ne_of_ne (extends_intern _ other _ _ kept) (numbers_intern _ other)
    different

/-- The number that a text got is its place also when others have been numbered after it. -/
theorem intern_eq_idxOf (oneToOne : table.OneToOne) (before : List String) (text : String)
    (after : List String) :
    ((table.internAll before).intern text).1 =
      (table.internAll (before ++ text :: after)).texts.toList.idxOf text := by
  have later : table.internAll (before ++ text :: after) =
      ((table.internAll before).intern text).2.internAll after := internAll_append ..
  have agrees := (oneToOne.internAll (before ++ text :: after)).regular.agrees
  rw [later] at agrees ⊢
  exact (agrees.mono (extends_internAll _ after)).intern

theorem issued_iff (oneToOne : table.OneToOne) {name : NameId} :
    table.Issued name ↔ ∃ text ∈ table.texts.toList, table.texts.toList.idxOf text = name := by
  rw [Issued, NameTable.size, ← Array.length_toList]
  constructor
  · intro inside
    exact ⟨_, List.getElem_mem inside, oneToOne.nodup.idxOf_getElem name inside⟩
  · rintro ⟨text, among, rfl⟩
    exact List.idxOf_lt_length_iff.mpr among

end OneToOne

theorem text_of_size_le {table : NameTable} {name : NameId} (beyond : table.size ≤ name) :
    table.text name = "" := by
  rw [NameTable.text, Array.getElem?_eq_none beyond, Option.getD_none]

theorem texts_internAll (texts : List String) :
    (empty.internAll texts).texts.toList = ("" :: texts).eraseDups := by
  have first : empty.texts.toList = [""].eraseDups := by decide
  exact regular_empty.texts_internAll first texts

theorem isEmpty_internAll (texts : List String) :
    (empty.internAll texts).isEmpty = true ↔ ∀ text ∈ texts, text = "" := by
  rw [isEmpty, decide_eq_true_eq, size, ← Array.length_toList, texts_internAll,
    List.eraseDups_cons, List.length_cons]
  constructor
  · intro single text among
    by_contra other
    have left : text ∈ (texts.filter fun text => !text == "").eraseDups := by
      rw [List.mem_eraseDups, List.mem_filter]
      exact ⟨among, by simpa using other⟩
    have more := List.length_pos_of_mem left
    omega
  · intro same
    have nothing : (texts.filter fun text => !text == "") = [] := by
      rw [List.filter_eq_nil_iff]
      exact fun text among => by simp [same text among]
    rw [nothing]
    exact Nat.le_refl 1

/-- However texts are numbered one after the other, the table lists the distinct ones in the order
in which they came first, behind the empty text, and finds each by its place. So the numbers in use
are those below its size; a text that came before gets its first number again, and the table stays
as it is; a text is read back by its number, also after others; different texts have different
numbers; and what was never given out reads as the empty text. -/
theorem numbering_is_one_to_one (texts : List String) :
    let table : NameTable := empty.internAll texts
    let distinct := ("" :: texts).eraseDups
    table.texts.toList = distinct ∧ distinct.Nodup ∧
    (∀ (text : String) name, table.numbers[text]? = some name ↔ table.texts[name]? = some text) ∧
    table.size = distinct.length ∧ (table.isEmpty = true ↔ ∀ text ∈ texts, text = "") ∧
    table.intern "" = (0, table) ∧
    (∀ before text after, texts = before ++ text :: after →
      ((empty.internAll before).intern text).1 = distinct.idxOf text ∧
      table.intern text = (((empty.internAll before).intern text).1, table)) ∧
    (∀ name, table.Issued name ↔ ∃ text ∈ "" :: texts, distinct.idxOf text = name) ∧
    (∀ text, (table.intern text).2.text (table.intern text).1 = text) ∧
    (∀ text between other, text ≠ other →
      (table.intern text).1 ≠ (((table.intern text).2.internAll between).intern other).1) ∧
    (∀ name, table.Issued name → ∀ more, (table.internAll more).text name = table.text name) ∧
    (∀ name, table.size ≤ name → table.text name = "") := by
  intro table distinct
  have listed : table.texts.toList = distinct := texts_internAll texts
  have oneToOne : table.OneToOne := oneToOne_empty.internAll texts
  have among {text : String} : text ∈ table.texts.toList ↔ text ∈ "" :: texts := by
    rw [listed, List.mem_eraseDups]
  refine ⟨listed, listed ▸ oneToOne.nodup, fun _ _ => oneToOne.numbers_eq_some_iff, ?_,
    isEmpty_internAll texts, ?_, ?_, ?_, oneToOne.text_intern,
    fun _ between _ different => oneToOne.intern_ne different between,
    fun _ issued more => oneToOne.text_internAll issued more, fun _ => text_of_size_le⟩
  · rw [← listed, Array.length_toList, NameTable.size]
  · have first : ("" :: texts).eraseDups.idxOf "" = 0 := by
      rw [List.eraseDups_cons, List.idxOf_cons_self]
    rw [oneToOne.intern_of_mem (among.mpr List.mem_cons_self), listed, first]
  · rintro before text after rfl
    have member : text ∈ "" :: (before ++ text :: after) :=
      List.mem_cons_of_mem "" (List.mem_append_right before List.mem_cons_self)
    rw [oneToOne_empty.intern_eq_idxOf before text after,
      oneToOne.intern_of_mem (among.mpr member), texts_internAll]
    exact ⟨rfl, rfl⟩
  · intro name
    rw [oneToOne.issued_iff, listed]
    simp only [distinct, List.mem_eraseDups]

end LambdaMachine.NameTable
