import LambdaMachine.Proofs.Memo.Catalog
import LambdaMachine.Proofs.Value.Erasure
import LambdaMachine.Value.Mint

/-!
Values whose closures are all in a catalog, and how a catalog grows when values are made.
-/

namespace LambdaMachine

def Operation.Native : Operation → Prop
  | .print | .next | .read => True
  | _ => False

def Value.Known (catalog : Catalog) (value : Value) : Prop :=
  value.Throughout catalog.Lists fun function => function.operation.Native

def Env.Known (catalog : Catalog) (env : Env) : Prop :=
  env.Throughout catalog.Lists fun function => function.operation.Native

theorem Env.known_empty (catalog : Catalog) : Env.empty.Known catalog :=
  Env.throughout_empty _ _

theorem Value.known_closure {catalog : Catalog} {closure : Closure} :
    (Value.closure closure).Known catalog ↔
      catalog.Lists closure ∧ closure.env.Known catalog :=
  Value.throughout_closure

theorem Value.known_datum (catalog : Catalog) (ident : Ident) (data : Datum) :
    (Value.datum ident data).Known catalog :=
  Value.throughout_datum _ _ ident data

theorem Value.known_builtin {catalog : Catalog} {function : Builtin} :
    (Value.builtin function).Known catalog ↔
      function.operation.Native ∧ function.kept.Known catalog :=
  Value.throughout_builtin

theorem Env.Known.extend {catalog : Catalog} {env : Env} {value : Value}
    (envKnown : env.Known catalog) (valueKnown : value.Known catalog) (ident : Ident)
    (name : NameId) : (env.extend ident name value).Known catalog :=
  Env.Throughout.extend envKnown valueKnown ident name

structure Catalog.Grows (earlier : Catalog) (next : Ident) (later : Catalog)
    (nextLater : Ident) : Prop where
  before : earlier.Bounded next
  le : next ≤ nextLater
  grown : later.Extends earlier next
  after : later.Bounded nextLater

theorem Catalog.Grows.skip {catalog : Catalog} {next nextLater : Ident}
    (bounded : catalog.Bounded next) (le : next ≤ nextLater) :
    catalog.Grows next catalog nextLater :=
  ⟨bounded, le, .refl _ _, bounded.mono le⟩

theorem Catalog.Grows.refl {catalog : Catalog} {next : Ident} (bounded : catalog.Bounded next) :
    catalog.Grows next catalog next :=
  .skip bounded (Nat.le_refl next)

theorem Catalog.Grows.trans {first second third : Catalog} {start middle stop : Ident}
    (earlier : first.Grows start second middle) (later : second.Grows middle third stop) :
    first.Grows start third stop :=
  ⟨earlier.before, Nat.le_trans earlier.le later.le, .trans earlier.le later.grown earlier.grown,
    later.after⟩

section Grows

variable {earlier later : Catalog} {next nextLater : Ident} {allowed : Builtin → Prop}

/-- What is listed stays listed when the catalog grows. -/
theorem Catalog.Grows.value {value : Value} (grows : earlier.Grows next later nextLater)
    (all : value.Throughout earlier.Lists allowed) : value.Throughout later.Lists allowed :=
  all.mono fun _ listed => listed.mono grows.before grows.grown

theorem Catalog.Grows.env {env : Env} (grows : earlier.Grows next later nextLater)
    (all : env.Throughout earlier.Lists allowed) : env.Throughout later.Lists allowed :=
  all.mono fun _ listed => listed.mono grows.before grows.grown

theorem Value.Known.mono {value : Value} (known : value.Known earlier)
    (grows : earlier.Grows next later nextLater) : value.Known later :=
  grows.value known

theorem Env.Known.mono {env : Env} (known : env.Known earlier)
    (grows : earlier.Grows next later nextLater) : env.Known later :=
  grows.env known

end Grows

def Catalog.Makes (catalog : Catalog) (next : Ident) (value : Value) (nextLater : Ident) : Prop :=
  ∃ later, catalog.Grows next later nextLater ∧ value.Known later

def Catalog.Forms (allowed : Builtin → Prop) (catalog : Catalog) (next : Ident) (value : Value)
    (nextLater : Ident) : Prop :=
  ∃ later, catalog.Grows next later nextLater ∧ value.Throughout later.Lists allowed

namespace Mint

variable {catalog : Catalog} {mint : Mint} {env : Env} {allowed : Builtin → Prop}

theorem forms_closure (bounded : catalog.Bounded mint.nextIdent)
    (all : env.Throughout catalog.Lists allowed) (param : NameId) (body : NodeId) (code : Code) :
    catalog.Forms allowed mint.nextIdent (.closure (mint.closure env param body code).1)
      (mint.closure env param body code).2.nextIdent := by
  have grows : catalog.Grows mint.nextIdent (catalog.add (mint.closure env param body code).1)
      (mint.nextIdent + 1) :=
    ⟨bounded, Nat.le_succ _, catalog.add_extends _, Catalog.Bounded.add bounded⟩
  exact ⟨_, grows, Value.throughout_closure.mpr ⟨catalog.add_lists _, grows.env all⟩⟩

theorem forms_closureOver (bounded : catalog.Bounded mint.nextIdent)
    (all : env.Throughout catalog.Lists allowed) (param : NameId) (body : NodeId)
    (arena : Arena) :
    catalog.Forms allowed mint.nextIdent (.closure (mint.closureOver env param body arena).1)
      (mint.closureOver env param body arena).2.nextIdent := by
  have issued := Catalog.Grows.skip bounded (Nat.le_succ mint.nextIdent)
  obtain ⟨later, grows, listed⟩ := @forms_closure catalog mint.issue.2 env allowed issued.after all
    param body ⟨mint.nextIdent, arena⟩
  exact ⟨later, issued.trans grows, listed⟩

theorem makes_closure (bounded : catalog.Bounded mint.nextIdent) (known : env.Known catalog)
    (param : NameId) (body : NodeId) (code : Code) :
    catalog.Makes mint.nextIdent (.closure (mint.closure env param body code).1)
      (mint.closure env param body code).2.nextIdent :=
  forms_closure bounded known param body code

end Mint

end LambdaMachine
