import LambdaMachine.Value.Basic

/-!
The mint: it numbers names and gives out identities for new instances.
-/

namespace LambdaMachine

structure Mint where
  names : NameTable
  nextIdent : Ident

namespace Mint

def new : Mint :=
  ⟨.empty, 0⟩

def issue (mint : Mint) : Ident × Mint :=
  (mint.nextIdent, { mint with nextIdent := mint.nextIdent + 1 })

def intern (mint : Mint) (text : String) : NameId × Mint :=
  let (name, names) := mint.names.intern text
  (name, { mint with names })

def extend (mint : Mint) (env : Env) (name : NameId) (value : Value) : Env × Mint :=
  let (ident, mint) := mint.issue
  (env.extend ident name value, mint)

def closure (mint : Mint) (env : Env) (param : NameId) (body : NodeId) (code : Code) :
    Closure × Mint :=
  let (ident, mint) := mint.issue
  (⟨ident, env, param, body, code⟩, mint)

def closureOver (mint : Mint) (env : Env) (param : NameId) (body : NodeId) (arena : Arena) :
    Closure × Mint :=
  let (ident, mint) := mint.issue
  mint.closure env param body ⟨ident, arena⟩

def builtin (mint : Mint) (name : String) (operation : Operation) (kept : Env) : Value × Mint :=
  let (ident, mint) := mint.issue
  (.builtin ⟨ident, name, operation, kept⟩, mint)

def datum (mint : Mint) (datum : Datum) : Value × Mint :=
  let (ident, mint) := mint.issue
  (.datum ident datum, mint)

end Mint

end LambdaMachine
