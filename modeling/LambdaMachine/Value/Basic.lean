import LambdaMachine.Term.Arena

/-!
What expressions evaluate to: closures, functions of the host, and data of the host. Each instance
has a number of its own, so that two instances can be told apart even if they are built alike.
-/

namespace LambdaMachine

abbrev Ident := Nat

structure Code where
  ident : Ident
  arena : Arena

/-- Data that programs pass around and cannot call. A host may have data of other kinds, which show
themselves as they like. -/
inductive Datum where
  | byte (byte : UInt8)
  | count (number : UInt64)
  | other (kind text inspected : String) (content : Nat)
  deriving DecidableEq

/-- What a function of the host does with its argument. A host may have functions that do something
else, and tell them apart by their names. -/
inductive Operation where
  | print
  /-- Returns the byte after a byte; the last one is followed by 0. -/
  | next
  | read
  /-- Notes the call and returns the argument. -/
  | echo (cacheable : Bool)
  /-- Notes the call and returns the count after a count. -/
  | successor (cacheable : Bool)
  /-- Notes the call and fails with this text. -/
  | refuse (text : String)
  /-- Notes the call and returns the value the function keeps. -/
  | constant (cacheable : Bool)
  deriving DecidableEq

mutual

structure Closure where
  ident : Ident
  env : Env
  param : NameId
  body : NodeId
  code : Code

structure Builtin where
  ident : Ident
  name : String
  operation : Operation
  kept : Env

/-- Names bound to values, the innermost binding first. Bindings are instances too, since closures
and other environments share them. -/
inductive Env where
  | empty
  | bind (ident : Ident) (name : NameId) (value : Value) (outer : Env)

inductive Value where
  | closure (closure : Closure)
  | builtin (builtin : Builtin)
  | datum (ident : Ident) (datum : Datum)

end

namespace Env

def extend (env : Env) (ident : Ident) (name : NameId) (value : Value) : Env :=
  .bind ident name value env

def lookup : Env → NameId → Option Value
  | .empty, _ => none
  | .bind _ bound value outer, name => if bound = name then some value else outer.lookup name

def bindings : Env → List (NameId × Value)
  | .empty => []
  | .bind _ name value outer => (name, value) :: outer.bindings

def depth (env : Env) : Nat :=
  env.bindings.length

def isEmpty : Env → Bool
  | .empty => true
  | .bind _ _ _ _ => false

theorem lookup_extend (env : Env) (ident : Ident) (bound name : NameId) (value : Value) :
    (env.extend ident bound value).lookup name =
      if bound = name then some value else env.lookup name :=
  rfl

end Env

def Datum.kind : Datum → String
  | .byte _ => "byte"
  | .count _ => "count"
  | .other kind _ _ _ => kind

namespace Value

def kind : Value → String
  | .closure _ => "closure"
  | .builtin _ => "builtin"
  | .datum _ data => data.kind

def same : Value → Value → Bool
  | .closure left, .closure right => left.ident == right.ident
  | .builtin left, .builtin right => left.ident == right.ident
  | .datum left _, .datum right _ => left == right
  | _, _ => false

end Value

end LambdaMachine
