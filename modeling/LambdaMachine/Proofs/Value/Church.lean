import LambdaMachine.Proofs.Term.Names
import LambdaMachine.Proofs.Value.Known
import LambdaMachine.Value.Church

/-!
The closures for truth values, numerals and pairs depend on the numbers of their names alone. Made
a second time, they are alike and give out no more names; every time they are new closures.
-/

namespace LambdaMachine

namespace Church

def truthWith (value : Bool) (t f : NameId) : Value :=
  .closure ⟨0, .empty, t, 1, ⟨0, ⟨#[.var (if value then t else f), .lambda f 0]⟩⟩⟩

def numeralWith (count : Nat) (f x : NameId) : Value :=
  let (start, arena) := Arena.empty.add (.var x)
  let (body, arena) := Church.iterate f count arena start
  let (inner, arena) := arena.add (.lambda x body)
  .closure ⟨0, .empty, f, inner, ⟨0, arena⟩⟩

def pairWith (first second : Value) (p firstName secondName : NameId) : Value :=
  .closure ⟨0, .bind 0 secondName second (.bind 0 firstName first .empty), p, 4,
    ⟨0, ⟨#[.var p, .var firstName, .var secondName, .apply 0 1, .apply 3 2]⟩⟩⟩

theorem truth_erase (value : Bool) (mint : Mint) :
    (truth value mint).1.erase =
      truthWith value (mint.names.intern "t").1 ((mint.names.intern "t").2.intern "f").1 := by
  rw [truth]
  rfl

theorem truth_names (value : Bool) (mint : Mint) :
    (truth value mint).2.names = ((mint.names.intern "t").2.intern "f").2 := by
  rw [truth]
  rfl

theorem numeral_erase (count : Nat) (mint : Mint) :
    (numeral count mint).1.erase =
      numeralWith count (mint.names.intern "f").1 ((mint.names.intern "f").2.intern "x").1 := by
  rw [numeral]
  rfl

theorem numeral_names (count : Nat) (mint : Mint) :
    (numeral count mint).2.names = ((mint.names.intern "f").2.intern "x").2 := by
  rw [numeral]
  rfl

theorem pair_erase (first second : Value) (mint : Mint) :
    (pair first second mint).1.erase =
      pairWith first.erase second.erase (mint.names.intern "p").1
        ((mint.names.intern "p").2.intern "first").1
        (((mint.names.intern "p").2.intern "first").2.intern "second").1 := by
  rw [pair]
  rfl

theorem pair_names (first second : Value) (mint : Mint) :
    (pair first second mint).2.names =
      (((mint.names.intern "p").2.intern "first").2.intern "second").2 := by
  rw [pair]
  rfl

theorem truth_nextIdent (value : Bool) (mint : Mint) :
    (truth value mint).2.nextIdent = mint.nextIdent + 2 := by
  rw [truth]
  rfl

theorem numeral_nextIdent (count : Nat) (mint : Mint) :
    (numeral count mint).2.nextIdent = mint.nextIdent + 2 := by
  rw [numeral]
  rfl

theorem pair_nextIdent (first second : Value) (mint : Mint) :
    (pair first second mint).2.nextIdent = mint.nextIdent + 4 := by
  rw [pair]
  rfl

theorem truth_interns (value : Bool) (mint : Mint) :
    mint.names.Interns (truth value mint).2.names := by
  unfold truth
  exact (NameTable.Interns.intern .refl "t").intern "f"

theorem numeral_interns (count : Nat) (mint : Mint) :
    mint.names.Interns (numeral count mint).2.names := by
  unfold numeral
  exact (NameTable.Interns.intern .refl "f").intern "x"

theorem pair_interns (first second : Value) (mint : Mint) :
    mint.names.Interns (pair first second mint).2.names := by
  unfold pair
  exact ((NameTable.Interns.intern .refl "p").intern "first").intern "second"

theorem identity_interns (mint : Mint) : mint.names.Interns (identity mint).2.names := by
  unfold identity
  exact .intern .refl "x"

theorem numeral_extends (count : Nat) (mint : Mint) :
    (numeral count mint).2.names.Extends mint.names :=
  (numeral_interns count mint).extends

theorem pair_extends (first second : Value) (mint : Mint) :
    (pair first second mint).2.names.Extends mint.names :=
  (pair_interns first second mint).extends

/-- Once its names have numbers, the same value can be made again without giving out more. -/
theorem truth_again (value : Bool) {mint other : Mint}
    (grown : other.names.Extends (truth value mint).2.names) :
    (truth value other).1.erase = (truth value mint).1.erase ∧
      (truth value other).2.names = other.names := by
  rw [truth_names] at grown
  have f := NameTable.intern_of_extends grown
  have t := NameTable.intern_of_extends (grown.trans (NameTable.extends_intern _ _))
  simp only [truth_erase, truth_names, t, f, and_self]

theorem numeral_again (count : Nat) {mint other : Mint}
    (grown : other.names.Extends (numeral count mint).2.names) :
    (numeral count other).1.erase = (numeral count mint).1.erase ∧
      (numeral count other).2.names = other.names := by
  rw [numeral_names] at grown
  have x := NameTable.intern_of_extends grown
  have f := NameTable.intern_of_extends (grown.trans (NameTable.extends_intern _ _))
  simp only [numeral_erase, numeral_names, f, x, and_self]

/-- It is the same down to its identities, if the mint has given out as many. -/
theorem numeral_of_extends (count : Nat) {mint : Mint} {names : NameTable}
    (grown : names.Extends (numeral count mint).2.names) :
    numeral count { mint with names } =
      ((numeral count mint).1, { (numeral count mint).2 with names }) := by
  rw [numeral_names] at grown
  have x := NameTable.intern_of_extends grown
  have f := NameTable.intern_of_extends (grown.trans (NameTable.extends_intern _ _))
  simp only [numeral, Mint.intern, f, x]
  rfl

theorem pair_again {first second otherFirst otherSecond : Value}
    (sameFirst : otherFirst.erase = first.erase) (sameSecond : otherSecond.erase = second.erase)
    {mint other : Mint} (grown : other.names.Extends (pair first second mint).2.names) :
    (pair otherFirst otherSecond other).1.erase = (pair first second mint).1.erase ∧
      (pair otherFirst otherSecond other).2.names = other.names := by
  rw [pair_names] at grown
  have grownFirst := grown.trans (NameTable.extends_intern _ _)
  have secondName := NameTable.intern_of_extends grown
  have firstName := NameTable.intern_of_extends grownFirst
  have p := NameTable.intern_of_extends (grownFirst.trans (NameTable.extends_intern _ _))
  simp only [pair_erase, pair_names, sameFirst, sameSecond, p, firstName, secondName, and_self]

section Makes

variable {catalog : Catalog} {mint : Mint} {allowed : Builtin → Prop}

theorem forms_truth (allowed : Builtin → Prop) (bounded : catalog.Bounded mint.nextIdent)
    (value : Bool) :
    catalog.Forms allowed mint.nextIdent (truth value mint).1 (truth value mint).2.nextIdent := by
  unfold truth
  exact @Mint.forms_closureOver catalog ((mint.intern "t").2.intern "f").2 .empty allowed bounded
    (Env.throughout_empty _ _) _ _ _

theorem forms_numeral (allowed : Builtin → Prop) (bounded : catalog.Bounded mint.nextIdent)
    (count : Nat) :
    catalog.Forms allowed mint.nextIdent (numeral count mint).1 (numeral count mint).2.nextIdent := by
  unfold numeral
  exact @Mint.forms_closureOver catalog ((mint.intern "f").2.intern "x").2 .empty allowed bounded
    (Env.throughout_empty _ _) _ _ _

theorem forms_identity (allowed : Builtin → Prop) (bounded : catalog.Bounded mint.nextIdent) :
    catalog.Forms allowed mint.nextIdent (.closure (identity mint).1)
      (identity mint).2.nextIdent := by
  unfold identity
  exact @Mint.forms_closureOver catalog (mint.intern "x").2 .empty allowed bounded
    (Env.throughout_empty _ _) _ _ _

theorem forms_pair (bounded : catalog.Bounded mint.nextIdent) {first second : Value}
    (firstAll : first.Throughout catalog.Lists allowed)
    (secondAll : second.Throughout catalog.Lists allowed) :
    catalog.Forms allowed mint.nextIdent (pair first second mint).1
      (pair first second mint).2.nextIdent := by
  unfold pair
  have bindings := Catalog.Grows.skip bounded (Nat.le_add_right mint.nextIdent 2)
  have envAll := ((Env.throughout_empty catalog.Lists allowed).extend firstAll mint.nextIdent
    ((mint.names.intern "p").2.intern "first").1).extend secondAll (mint.nextIdent + 1)
    (((mint.names.intern "p").2.intern "first").2.intern "second").1
  obtain ⟨later, grows, all⟩ := @Mint.forms_closureOver catalog
    ⟨(((mint.names.intern "p").2.intern "first").2.intern "second").2, mint.nextIdent + 2⟩ _
    allowed bindings.after envAll (mint.names.intern "p").1 4
    ⟨#[.var (mint.names.intern "p").1, .var ((mint.names.intern "p").2.intern "first").1,
      .var (((mint.names.intern "p").2.intern "first").2.intern "second").1,
      .apply 0 1, .apply 3 2]⟩
  exact ⟨later, bindings.trans grows, all⟩

end Makes

end Church

end LambdaMachine
