import LambdaMachine.Memo.Table

/-!
Which closures are alive. A closure is alive as long as something alive holds it: a root, the
environment of a closure, a value that a host function keeps, or a result in a memo table. Holding
is counted, not traced, so closures that hold each other in a ring keep themselves alive. A ring
always leads through a memo table, since everything else refers to older instances only.
-/

namespace LambdaMachine

structure Roots where
  envs : List Env
  values : List Value

def Env.link : Env → List Ident
  | .empty => []
  | .bind ident _ _ _ => [ident]

def Value.link : Value → List Ident
  | .closure abstraction => [abstraction.ident]
  | .builtin function => function.kept.link
  | .datum _ _ => []

structure Reached where
  seen : IdentSet
  /-- The closures whose memo tables are still to be visited. -/
  owners : List Ident
  /-- The instances with what each one holds, memo tables apart, if that is asked for. -/
  found : Option (List (Ident × List Ident))

namespace Reached

def addClosure (reached : Reached) (ident : Ident) (env : Env) (owner : Bool) : Reached :=
  ⟨reached.seen.insert ident, if owner then ident :: reached.owners else reached.owners,
    reached.found.map fun found => (ident, env.link) :: found⟩

def addBinding (reached : Reached) (ident : Ident) (value : Value) (outer : Env) : Reached :=
  ⟨reached.seen.insert ident, reached.owners,
    reached.found.map fun found => (ident, value.link ++ outer.link) :: found⟩

end Reached

mutual

def Closure.reach (owners : IdentSet) : @& Closure → Reached → Reached
  | ⟨ident, env, _, _, _⟩, reached =>
      if reached.seen.contains ident then reached
      else env.reach owners (reached.addClosure ident env (owners.contains ident))

def Builtin.reach (owners : IdentSet) : @& Builtin → Reached → Reached
  | ⟨_, _, _, kept⟩, reached => kept.reach owners reached

def Env.reach (owners : IdentSet) : @& Env → Reached → Reached
  | .empty, reached => reached
  | .bind ident _ value outer, reached =>
      if reached.seen.contains ident then reached
      else outer.reach owners (value.reach owners (reached.addBinding ident value outer))

def Value.reach (owners : IdentSet) : @& Value → Reached → Reached
  | .closure abstraction, reached => abstraction.reach owners reached
  | .builtin function, reached => function.reach owners reached
  | .datum _ _, reached => reached

end

namespace Roots

/-- Reaches one value after the other. Where there are many, most are closures that hold nothing, and
these are seen without going into them. -/
def reachValues (owners : @& IdentSet) : @& List Value → IdentSet → List Ident →
    Option (List (Ident × List Ident)) → Reached
  | [], seen, waiting, found => ⟨seen, waiting, found⟩
  | .closure ⟨ident, .empty, _, _, _⟩ :: rest, seen, waiting, none =>
      if seen.contains ident then reachValues owners rest seen waiting none
      else if owners.contains ident then
        reachValues owners rest (seen.insert ident) (ident :: waiting) none
      else reachValues owners rest (seen.insert ident) waiting none
  | value :: rest, seen, waiting, found =>
      let ⟨seen, waiting, found⟩ := value.reach owners ⟨seen, waiting, found⟩
      reachValues owners rest seen waiting found

theorem reachValues_eq_foldl (owners : IdentSet) (values : List Value) (seen : IdentSet)
    (waiting : List Ident) (found : Option (List (Ident × List Ident))) :
    reachValues owners values seen waiting found =
      values.foldl (fun reached value => value.reach owners reached) ⟨seen, waiting, found⟩ := by
  fun_induction reachValues owners values seen waiting found with
  | case1 => rfl
  | case2 seen waiting ident _ _ _ rest known ih =>
      rw [ih, List.foldl_cons, Value.reach, Closure.reach, if_pos known]
  | case3 seen waiting ident _ _ _ rest unknown owner ih =>
      rw [ih, List.foldl_cons, Value.reach, Closure.reach, if_neg unknown, Env.reach, owner]
      rfl
  | case4 seen waiting ident _ _ _ rest unknown owner ih =>
      rw [ih, List.foldl_cons, Value.reach, Closure.reach, if_neg unknown, Env.reach,
        Bool.eq_false_iff.mpr owner]
      rfl
  | case5 value rest _ _ _ _ _ _ _ next ih => rw [ih, List.foldl_cons, next]

def reach (owners : IdentSet) (roots : Roots) (reached : Reached) : Reached :=
  let ⟨seen, waiting, found⟩ :=
    roots.envs.foldl (fun reached env => env.reach owners reached) reached
  reachValues owners roots.values seen waiting found

theorem reach_eq_foldl (owners : IdentSet) (roots : Roots) (reached : Reached) :
    roots.reach owners reached =
      roots.values.foldl (fun reached value => value.reach owners reached)
        (roots.envs.foldl (fun reached env => env.reach owners reached) reached) :=
  reachValues_eq_foldl owners roots.values _ _ _

end Roots

namespace Memo

def owners (memo : Memo) (room : Nat) : IdentSet :=
  memo.tables.foldl (fun owners ident _ => owners.insert ident) (.withRoom room)

def reachResults (memo : Memo) (owners : IdentSet) (owner : Ident) (reached : Reached) : Reached :=
  match memo.tables[owner]? with
  | some table => table.entries.foldl (fun reached _ value => value.reach owners reached) reached
  | none => reached

def visitTables (memo : Memo) (owners : IdentSet) : Nat → Reached → Reached
  | 0, reached => reached
  | visits + 1, reached =>
      match reached.owners with
      | [] => reached
      | owner :: rest =>
          memo.visitTables owners visits
            (memo.reachResults owners owner { reached with owners := rest })

def reachLoose (memo : Memo) (owners seen : IdentSet) : Reached :=
  memo.visitTables owners memo.tables.size
    (memo.tables.foldl (fun reached _ table => table.owner.reach owners reached)
      ⟨seen, [], some []⟩)

def allHeld (memo : Memo) (ident : Ident) (held : List Ident) : List Ident :=
  match memo.tables[ident]? with
  | some table => table.entries.foldl (fun held _ value => value.link ++ held) held
  | none => held

end Memo

/-- Instances that no root holds: what each one holds, and how often each one is held by
another. -/
structure LooseEnds where
  holdings : Std.TreeMap Ident (List Ident)
  holders : Std.TreeMap Ident Nat

namespace LooseEnds

def ofHoldings (holdings : List (Ident × List Ident)) : LooseEnds :=
  let nobody : Std.TreeMap Ident Nat := .ofList (holdings.map fun (ident, _) => (ident, 0))
  { holdings := .ofList holdings
    holders := holdings.foldl (fun holders (_, held) =>
      held.foldl (fun holders ident => holders.modify ident (· + 1)) holders) nobody }

def unheld (loose : LooseEnds) : List Ident :=
  loose.holders.foldr (fun ident count idents => if count = 0 then ident :: idents else idents) []

def letGo : List Ident → LooseEnds → List Ident × LooseEnds
  | [], loose => ([], loose)
  | ident :: rest, loose =>
      let holders := loose.holders.modify ident (· - 1)
      let (freed, after) := letGo rest { loose with holders }
      (if holders[ident]? = some 0 then ident :: freed else freed, after)

/-- Drops instances that nothing holds, and then those that only they held. Each one is dropped
once at most, so their number bounds the rounds. -/
def settle : Nat → List Ident → LooseEnds → LooseEnds
  | 0, _, loose => loose
  | _ + 1, [], loose => loose
  | rounds + 1, ident :: rest, loose =>
      let held := (loose.holdings[ident]?).getD []
      let (freed, loose) := letGo held { loose with holdings := loose.holdings.erase ident }
      settle rounds (freed ++ rest) loose

end LooseEnds

namespace Memo

/-- The instances that are alive: those held by the roots, and those that hang on a ring. Given the
owners of tables, `reachRoots` reaches what the roots hold. There is room for identities below
`room` from the start. -/
def alive (memo : Memo) (reachRoots : IdentSet → Reached → Reached) (room : Nat) : IdentSet :=
  let owners := memo.owners room
  let rooted := memo.visitTables owners memo.tables.size
    (reachRoots owners ⟨.withRoom room, [], none⟩)
  let reached := memo.reachLoose owners rooted.seen
  let holdings := (reached.found.getD []).map fun (ident, held) => (ident, memo.allHeld ident held)
  let loose := LooseEnds.ofHoldings holdings
  let rings := LooseEnds.settle (holdings.length + 1) loose.unheld loose
  holdings.foldl (fun alive (ident, _) =>
    if rings.holdings.contains ident then alive else alive.erase ident) reached.seen

end Memo

end LambdaMachine
