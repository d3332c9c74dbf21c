import LambdaMachine.Proofs.Machine.Trampoline
import LambdaMachine.Proofs.Memo.Catalog
import LambdaMachine.Proofs.Term.Denotation
import LambdaMachine.Proofs.Term.Reduction

/-!
The machine computes what call by value computes. A closure is read back as the abstraction it
stands for, with the values of its free names put in; a node under an environment stands for its
tree with the same names put in. An evaluation of a closed tree makes all the closures it meets, so
what its environment and the older tables hold does not matter.
-/

namespace LambdaMachine

open LambdaMachine.Tree (Computes Reduces Substitution)

mutual

/-- The abstraction of a closure, each free name of which is replaced by what its innermost binding
reads back as. -/
def Closure.readBack : Closure → Option (Tree NameId)
  | ⟨_, env, param, body, code⟩ =>
      (code.arena.tree? body).map fun tree =>
        .lambda param (tree.substitute (Substitution.without (fun name => env.readBack name) param))

def Env.readBack : Env → NameId → Option (Tree NameId)
  | .empty, _ => none
  | .bind _ bound value outer, name => if bound = name then value.readBack else outer.readBack name

def Value.readBack : Value → Option (Tree NameId)
  | .closure abstraction => abstraction.readBack
  | .builtin _ => none
  | .datum _ _ => none

end

theorem Closure.readBack_eq (closure : Closure) :
    closure.readBack = (closure.code.arena.tree? closure.body).map fun tree =>
      .lambda closure.param
        (tree.substitute (Substitution.without closure.env.readBack closure.param)) := by
  cases closure
  rw [Closure.readBack]

theorem Env.readBack_eq_bind_lookup : ∀ (env : Env) (name : NameId),
    env.readBack name = (env.lookup name).bind Value.readBack
  | .empty, name => by
      rw [Env.readBack, Env.lookup]
      rfl
  | .bind ident bound value outer, name => by
      rw [Env.readBack, Env.lookup]
      split
      · rfl
      · exact outer.readBack_eq_bind_lookup name

inductive Closure.Scoped (catalog : Catalog) : Closure → Prop
  | intro {closure : Closure} {tree : Tree NameId} (binding : NameId → Closure)
      (listed : catalog.Lists closure)
      (denoted : closure.code.arena.tree? closure.body = some tree)
      (bound : ∀ name, tree.Occurs name → closure.param ≠ name →
        closure.env.lookup name = some (.closure (binding name)))
      (inScope : ∀ name, tree.Occurs name → closure.param ≠ name →
        Closure.Scoped catalog (binding name)) :
      Closure.Scoped catalog closure

def Env.Covers (catalog : Catalog) (env : Env) (tree : Tree NameId) : Prop :=
  ∀ name, tree.Occurs name →
    ∃ closure, env.lookup name = some (.closure closure) ∧ closure.Scoped catalog

namespace Closure.Scoped

variable {catalog : Catalog} {closure : Closure}

theorem lists (inScope : closure.Scoped catalog) : catalog.Lists closure := by
  cases inScope
  assumption

theorem body (inScope : closure.Scoped catalog) :
    ∃ tree, closure.code.arena.tree? closure.body = some tree ∧
      closure.env.Covers catalog (.lambda closure.param tree) := by
  cases inScope with
  | intro binding listed denoted bound inScope =>
      refine ⟨_, denoted, fun name occurs => ?_⟩
      exact ⟨binding name, bound name occurs.2 occurs.1, inScope name occurs.2 occurs.1⟩

theorem of_covers {tree : Tree NameId} (listed : catalog.Lists closure)
    (denoted : closure.code.arena.tree? closure.body = some tree)
    (covers : closure.env.Covers catalog (.lambda closure.param tree)) :
    closure.Scoped catalog := by
  classical
  let binding (name : NameId) : Closure :=
    if occurs : (Tree.lambda closure.param tree).Occurs name then (covers name occurs).choose
    else closure
  have bindingSpec : ∀ name, tree.Occurs name → closure.param ≠ name →
      closure.env.lookup name = some (.closure (binding name)) ∧
        (binding name).Scoped catalog := by
    intro name occurs different
    have free : (Tree.lambda closure.param tree).Occurs name := ⟨different, occurs⟩
    simp only [binding, dif_pos free]
    exact (covers name free).choose_spec
  exact .intro binding listed denoted
    (fun name occurs different => (bindingSpec name occurs different).1)
    (fun name occurs different => (bindingSpec name occurs different).2)

theorem mono {later : Catalog} {next : Ident} (bounded : catalog.Bounded next)
    (grown : later.Extends catalog next) (inScope : closure.Scoped catalog) :
    closure.Scoped later := by
  induction inScope with
  | intro binding listed denoted bound _ ih =>
      exact .intro binding (listed.mono bounded grown) denoted bound ih

theorem exists_readBack (inScope : closure.Scoped catalog) :
    ∃ value, closure.readBack = some value ∧ value.Closed ∧ value.isLambda = true := by
  induction inScope with
  | @intro closure tree binding listed denoted bound _ ih =>
      rw [closure.readBack_eq, denoted]
      refine ⟨_, rfl, ?_, rfl⟩
      rintro name ⟨different, occurs⟩
      have replaced : ∀ other, tree.Occurs other → closure.param ≠ other →
          ∃ value, closure.env.readBack other = some value ∧ value.Closed := by
        intro other occursOther differentOther
        obtain ⟨value, readBack, closed, _⟩ := ih other occursOther differentOther
        rw [Env.readBack_eq_bind_lookup, bound other occursOther differentOther]
        exact ⟨value, readBack, closed⟩
      have left := Tree.occurs_substitute (fun other value occursOther found => by
        rw [Substitution.without] at found
        split at found
        · cases found
        · rename_i distinct
          obtain ⟨_, known, closed⟩ := replaced other occursOther (Ne.symm distinct)
          rw [found] at known
          cases known
          exact closed) occurs
      obtain ⟨value, known, _⟩ := replaced name left.1 different
      rw [Substitution.without, if_neg (Ne.symm different), known] at left
      cases left.2

end Closure.Scoped

namespace Env.Covers

variable {catalog : Catalog} {env : Env} {tree : Tree NameId}

theorem mono {later : Catalog} {next : Ident} (bounded : catalog.Bounded next)
    (grown : later.Extends catalog next) (covers : env.Covers catalog tree) :
    env.Covers later tree := by
  intro name occurs
  obtain ⟨closure, bound, inScope⟩ := covers name occurs
  exact ⟨closure, bound, inScope.mono bounded grown⟩

theorem closed_of_readBack (covers : env.Covers catalog tree) {name : NameId}
    {value : Tree NameId} (occurs : tree.Occurs name) (found : env.readBack name = some value) :
    value.Closed := by
  obtain ⟨closure, bound, inScope⟩ := covers name occurs
  obtain ⟨_, readBack, closed, _⟩ := inScope.exists_readBack
  rw [Env.readBack_eq_bind_lookup, bound] at found
  cases readBack.symm.trans found
  exact closed

end Env.Covers

def ReadBackLaw (catalog : Catalog) (func arg : Closure) (result : Value) : Prop :=
  ∃ closure funcTree argTree value, result = .closure closure ∧ closure.Scoped catalog ∧
    func.readBack = some funcTree ∧ arg.readBack = some argTree ∧
    closure.readBack = some value ∧ Computes (.apply funcTree argTree) value

structure MachineState.ReadsBack {World : Type} (catalog : Catalog)
    (state : MachineState World) : Prop where
  bounded : catalog.Bounded state.mint.nextIdent
  lawful : state.memo.Lawful catalog state.mint.nextIdent (ReadBackLaw catalog)

theorem MachineState.ReadsBack.add {World : Type} {catalog : Catalog} {state : MachineState World}
    (ready : state.ReadsBack catalog) (closure : Closure)
    (new : closure.ident = state.mint.nextIdent) {after : MachineState World}
    (memo : after.memo = state.memo) (mint : after.mint.nextIdent = state.mint.nextIdent + 1) :
    after.ReadsBack (catalog.add closure) := by
  have bounded : catalog.Bounded closure.ident := new ▸ ready.bounded
  have grown : (catalog.add closure).Extends catalog state.mint.nextIdent :=
    new ▸ catalog.add_extends closure
  constructor
  · rw [mint, ← new]
    exact bounded.add
  · rw [memo]
    refine ready.lawful.grow (by rw [mint]; exact Nat.le_succ _) grown ?_
    rintro func arg value ⟨result, funcTree, argTree, tree, same, inScope, rest⟩
    exact ⟨result, funcTree, argTree, tree, same, inScope.mono ready.bounded grown, rest⟩

namespace Machine

variable {World : Type}

def Task.Means (catalog : Catalog) : Task → Tree NameId → Prop
  | .node env code id, meaning =>
      ∃ tree, code.arena.tree? id = some tree ∧ env.Covers catalog tree ∧
        meaning = tree.substitute env.readBack
  | .application _ func arg, meaning =>
      ∃ callee key funcTree argTree, func = ⟨.closure callee, true⟩ ∧ arg = ⟨.closure key, true⟩ ∧
        callee.Scoped catalog ∧ key.Scoped catalog ∧ callee.readBack = some funcTree ∧
        key.readBack = some argTree ∧ meaning = .apply funcTree argTree

def Delivers (catalog : Catalog) (state : MachineState World) (outcome : Outcome)
    (after : MachineState World) (value : Tree NameId) : Prop :=
  ∃ later env closure, outcome = .ok ⟨env, .closure closure, true⟩ ∧ closure.Scoped later ∧
    closure.readBack = some value ∧ after.ReadsBack later ∧
    later.Extends catalog state.mint.nextIdent ∧ state.mint.nextIdent ≤ after.mint.nextIdent

/-- Entering the body of a closure is reducing the application. -/
theorem exists_body_means {catalog : Catalog} {callee key : Closure}
    {funcTree argTree : Tree NameId}
    (calleeScoped : callee.Scoped catalog) (keyScoped : key.Scoped catalog)
    (funcRead : callee.readBack = some funcTree) (argRead : key.readBack = some argTree)
    (state : MachineState World) :
    ∃ body, funcTree = .lambda callee.param body ∧ argTree.isLambda = true ∧
      (Task.body callee (.closure key) state).Means catalog
        (body.instantiate callee.param argTree) := by
  obtain ⟨tree, denoted, covers⟩ := calleeScoped.body
  obtain ⟨_, argAgain, _, argLambda⟩ := keyScoped.exists_readBack
  cases argRead.symm.trans argAgain
  rw [callee.readBack_eq, denoted] at funcRead
  cases funcRead
  let env := (state.entering callee (.closure key)).1
  have bodySub : env.readBack = Substitution.assign callee.env.readBack callee.param argTree := by
    funext name
    change (if callee.param = name then key.readBack else callee.env.readBack name) = _
    rw [Substitution.assign, argRead]
    simp only [eq_comm]
  refine ⟨_, rfl, argLambda, tree, denoted, ?_, ?_⟩
  · intro name occurs
    by_cases same : callee.param = name
    · exact ⟨key, if_pos same, keyScoped⟩
    · obtain ⟨closure, bound, inScope⟩ := covers name ⟨same, occurs⟩
      exact ⟨closure, (if_neg same).trans bound, inScope⟩
  · have reduct := Tree.instantiate_substitute
      (fun _ _ occurs found => covers.closed_of_readBack occurs found) argTree
    exact reduct.trans (congrArg (tree.substitute ·) bodySub.symm)

variable {machine : Machine World}

theorem delivers_variable {catalog : Catalog} {env : Env} {tree : Tree NameId} {name : NameId}
    {value : Value} {state : MachineState World} (ready : state.ReadsBack catalog)
    (covers : env.Covers catalog tree) (isVar : tree = .var name)
    (bound : env.lookup name = some value) :
    ∃ result, Computes (tree.substitute env.readBack) result ∧
      Delivers catalog state (.ok ⟨env, value, true⟩) state.countStep result := by
  subst isVar
  obtain ⟨closure, found, inScope⟩ := covers name rfl
  cases bound.symm.trans found
  obtain ⟨result, readBack, _, abstraction⟩ := inScope.exists_readBack
  refine ⟨result, ?_, catalog, env, closure, rfl, inScope, readBack, ⟨ready.bounded, ready.lawful⟩,
    .refl _ _, Nat.le_refl _⟩
  have replaced : env.readBack name = some result := by
    rw [Env.readBack_eq_bind_lookup, found]
    exact readBack
  rw [Tree.substitute, replaced]
  exact .of_isLambda abstraction

theorem delivers_abstraction {catalog : Catalog} {env : Env} {code : Code}
    {tree bodyTree : Tree NameId} {param : NameId} {body : NodeId} {state : MachineState World}
    (ready : state.ReadsBack catalog)
    (covers : env.Covers catalog tree) (denoted : code.arena.tree? body = some bodyTree)
    (isLambda : tree = .lambda param bodyTree) :
    ∃ result, Computes (tree.substitute env.readBack) result ∧
      Delivers catalog state (.ok ⟨env, .closure (state.mint.closure env param body code).1, true⟩)
        { state.countStep with mint := (state.mint.closure env param body code).2 } result := by
  subst isLambda
  let closure := (state.mint.closure env param body code).1
  have grown : (catalog.add closure).Extends catalog state.mint.nextIdent :=
    catalog.add_extends closure
  refine ⟨_, .lambda param _, catalog.add closure, env, closure, rfl, ?_, ?_, ?_, grown, ?_⟩
  · exact .of_covers (catalog.add_lists closure) denoted (covers.mono ready.bounded grown)
  · rw [closure.readBack_eq]
    change (code.arena.tree? body).map _ = _
    rw [denoted]
    rfl
  · exact ready.add closure rfl rfl rfl
  · exact Nat.le_succ _

theorem Task.Means.node_apply {catalog : Catalog} {env : Env} {code : Code} {id func arg : NodeId}
    {meaning : Tree NameId} (means : (Task.node env code id).Means catalog meaning)
    (node : code.arena.node? id = some (.apply func arg)) :
    ∃ funcMeaning argMeaning, meaning = .apply funcMeaning argMeaning ∧
      (Task.node env code func).Means catalog funcMeaning ∧
      (Task.node env code arg).Means catalog argMeaning := by
  obtain ⟨tree, denoted, covers, rfl⟩ := means
  obtain ⟨funcTree, argTree, funcDenoted, argDenoted, rfl⟩ := Arena.tree?_apply node denoted
  refine ⟨_, _, rfl, ⟨funcTree, funcDenoted, ?_, rfl⟩, ⟨argTree, argDenoted, ?_, rfl⟩⟩
  · exact fun name occurs => covers name (Or.inl occurs)
  · exact fun name occurs => covers name (Or.inr occurs)

theorem Task.Means.node_mono {catalog later : Catalog} {next : Ident} {env : Env} {code : Code}
    {id : NodeId} {meaning : Tree NameId} (bounded : catalog.Bounded next)
    (grown : later.Extends catalog next) (means : (Task.node env code id).Means catalog meaning) :
    (Task.node env code id).Means later meaning := by
  obtain ⟨tree, denoted, covers, same⟩ := means
  exact ⟨tree, denoted, covers.mono bounded grown, same⟩

theorem Delivers.trans {catalog later : Catalog} {state middle after : MachineState World}
    {outcome : Outcome} {value : Tree NameId}
    (le : state.mint.nextIdent ≤ middle.mint.nextIdent)
    (grown : later.Extends catalog state.mint.nextIdent)
    (delivers : Delivers later middle outcome after value) :
    Delivers catalog state outcome after value := by
  obtain ⟨last, env, closure, same, inScope, readBack, ready, lastGrown, lastLe⟩ := delivers
  exact ⟨last, env, closure, same, inScope, readBack, ready, lastGrown.trans le grown,
    Nat.le_trans le lastLe⟩

theorem Delivers.isOk {catalog : Catalog} {state after : MachineState World}
    {outcome : Outcome} {value : Tree NameId}
    (delivers : Delivers catalog state outcome after value) : ∃ found, outcome = .ok found := by
  obtain ⟨_, _, _, same, _⟩ := delivers
  exact ⟨_, same⟩

theorem Delivers.remember (machine : Machine World) {catalog : Catalog}
    {state after : MachineState World} {outcome : Outcome} {value funcTree argTree : Tree NameId}
    {callee key : Closure}
    (bounded : catalog.Bounded state.mint.nextIdent)
    (delivers : Delivers catalog state outcome after value)
    (calleeScoped : callee.Scoped catalog) (keyScoped : key.Scoped catalog)
    (funcRead : callee.readBack = some funcTree) (argRead : key.readBack = some argTree)
    (computes : Computes (.apply funcTree argTree) value) (waiting : List Frame) :
    Delivers catalog state outcome
      (machine.rememberOutcome true waiting callee key outcome after) value := by
  obtain ⟨later, env, closure, rfl, inScope, readBack, ready, grown, le⟩ := delivers
  have law : ReadBackLaw later callee key (.closure closure) :=
    ⟨closure, funcTree, argTree, value, rfl, inScope, funcRead, argRead, readBack, computes⟩
  let found : Found := ⟨env, .closure closure, true⟩
  have sameMint := machine.mint_remember true waiting callee key found after
  have remembered : (machine.remember true waiting callee key found after).ReadsBack later := by
    constructor
    · rw [sameMint]
      exact ready.bounded
    · rw [sameMint]
      rcases machine.memo_remember true waiting callee key found after with
        same | ⟨_, alive, recorded⟩
      · rw [same]
        exact ready.lawful
      · rw [recorded]
        exact ready.lawful.record ready.bounded (calleeScoped.lists.mono bounded grown)
          (keyScoped.lists.mono bounded grown) law alive
  exact ⟨later, env, closure, rfl, inScope, readBack, remembered, grown, sameMint ▸ le⟩

/-- Every task that ends delivers the value of the tree it stands for. -/
theorem Evaluates.delivers (unlimited : machine.limit = none) {waiting : List Frame} {task : Task}
    {state after : MachineState World} {outcome : Outcome}
    (ended : machine.Evaluates true waiting task state outcome after) {catalog : Catalog}
    {meaning : Tree NameId} (ready : state.ReadsBack catalog)
    (means : task.Means catalog meaning) :
    ∃ value, Computes meaning value ∧ Delivers catalog state outcome after value := by
  induction ended generalizing catalog meaning with
  | limited exceeded =>
      rw [overLimit_of_unlimited unlimited] at exceeded
      cases exceeded
  | dangling _ node =>
      obtain ⟨tree, denoted, _⟩ := means
      obtain ⟨_, found⟩ := Arena.exists_node_of_tree? denoted
      rw [node] at found
      cases found
  | unbound _ node absent =>
      obtain ⟨tree, denoted, covers, _⟩ := means
      cases Arena.tree?_var node denoted
      obtain ⟨_, found, _⟩ := covers _ rfl
      rw [absent] at found
      cases found
  | «variable» _ node bound =>
      obtain ⟨tree, denoted, covers, rfl⟩ := means
      exact delivers_variable ready covers (Arena.tree?_var node denoted) bound
  | abstraction _ node =>
      obtain ⟨tree, denoted, covers, rfl⟩ := means
      obtain ⟨bodyTree, bodyDenoted, same⟩ := Arena.tree?_lambda node denoted
      exact delivers_abstraction ready covers bodyDenoted same
  | operatorFails _ node _ operatorIh =>
      obtain ⟨_, _, _, funcMeans, _⟩ := means.node_apply node
      obtain ⟨_, _, delivers⟩ := operatorIh ⟨ready.bounded, ready.lawful⟩ funcMeans
      obtain ⟨_, impossible⟩ := delivers.isOk
      cases impossible
  | operandFails _ node _ _ operatorIh operandIh =>
      obtain ⟨_, _, _, funcMeans, argMeans⟩ := means.node_apply node
      obtain ⟨_, _, later, _, _, _, _, _, middleReady, grown, _⟩ :=
        operatorIh ⟨ready.bounded, ready.lawful⟩ funcMeans
      obtain ⟨_, _, delivers⟩ := operandIh middleReady (argMeans.node_mono ready.bounded grown)
      obtain ⟨_, impossible⟩ := delivers.isOk
      cases impossible
  | applied _ node _ _ _ operatorIh operandIh applicationIh =>
      obtain ⟨_, _, rfl, funcMeans, argMeans⟩ := means.node_apply node
      obtain ⟨funcValue, funcComputes, later, _, callee, same, calleeScoped, funcRead, middleReady,
        grown, le⟩ := operatorIh ⟨ready.bounded, ready.lawful⟩ funcMeans
      cases same
      obtain ⟨argValue, argComputes, last, _, key, same, keyScoped, argRead, lastReady,
        lastGrown, lastLe⟩ := operandIh middleReady (argMeans.node_mono ready.bounded grown)
      cases same
      obtain ⟨value, computes, delivers⟩ := applicationIh lastReady
        ⟨callee, key, funcValue, argValue, rfl, rfl,
          calleeScoped.mono middleReady.bounded lastGrown, keyScoped, funcRead, argRead, rfl⟩
      exact ⟨value, funcComputes.apply_values argComputes computes,
        (delivers.trans lastLe lastGrown).trans le grown⟩
  | notCallable callee =>
      obtain ⟨_, _, _, _, rfl, _⟩ := means
      cases callee
  | called callee _ =>
      obtain ⟨_, _, _, _, rfl, _⟩ := means
      cases callee
  | @recalled waiting env func arg state callee key hit closure _ argument found =>
      obtain ⟨_, _, funcTree, argTree, rfl, rfl, calleeScoped, keyScoped, funcRead, argRead,
        rfl⟩ := means
      cases closure
      cases argument
      obtain ⟨result, _, _, value, rfl, inScope, funcAgain, argAgain, readBack, computes⟩ :=
        ready.lawful.lawful callee key _ calleeScoped.lists keyScoped.lists found
      cases funcAgain.symm.trans funcRead
      cases argAgain.symm.trans argRead
      exact ⟨value, computes, catalog, _, result, rfl, inScope, readBack,
        ⟨ready.bounded, ready.lawful⟩, .refl _ _, Nat.le_refl _⟩
  | @missed waiting env func arg state callee key outcome after closure _ argument _ _ bodyIh =>
      obtain ⟨_, _, funcTree, argTree, rfl, rfl, calleeScoped, keyScoped, funcRead, argRead,
        rfl⟩ := means
      cases closure
      cases argument
      obtain ⟨body, rfl, argLambda, bodyMeans⟩ :=
        exists_body_means calleeScoped keyScoped funcRead argRead state
      have entered : (state.entering callee (.closure key)).2.ReadsBack catalog :=
        ⟨ready.bounded.mono (Nat.le_succ _),
          ready.lawful.grow (Nat.le_succ _) (.refl _ _) fun _ _ _ law => law⟩
      obtain ⟨value, computes, delivers⟩ := bodyIh entered bodyMeans
      have applied := (Tree.computes_beta_iff argLambda).mpr computes
      have delivered := delivers.trans (Nat.le_succ _) (.refl _ _)
      exact ⟨value, applied, delivered.remember machine ready.bounded calleeScoped keyScoped
        funcRead argRead applied waiting⟩
  | entered _ _ argument _ _ =>
      obtain ⟨_, key, _, _, rfl, rfl, _⟩ := means
      exact absurd rfl (argument key)
  | tainted _ uncacheable _ _ =>
      obtain ⟨_, _, _, _, rfl, rfl, _⟩ := means
      cases uncacheable

theorem exists_evaluates_application {callee key : Closure} {env : Env} {waiting : List Frame}
    {state : MachineState World}
    (body : ∀ waiting, ∃ outcome after,
      machine.Evaluates true waiting (.body callee (.closure key) state)
        (state.entering callee (.closure key)).2 outcome after) :
    ∃ outcome after, machine.Evaluates true waiting
      (.application env ⟨.closure callee, true⟩ ⟨.closure key, true⟩) state outcome after := by
  cases recalled : recollect true callee key state with
  | some hit => exact ⟨_, _, .recalled rfl rfl rfl recalled⟩
  | none =>
      obtain ⟨outcome, after, ended⟩ := body (.memoize callee key :: waiting)
      exact ⟨_, _, .missed rfl rfl rfl recalled ended⟩

theorem exists_evaluates_abstraction (unlimited : machine.limit = none) {catalog : Catalog}
    {env : Env} {code : Code} {id : NodeId} {meaning : Tree NameId} {waiting : List Frame}
    {state : MachineState World} (means : (Task.node env code id).Means catalog meaning)
    (abstraction : meaning.isLambda = true) :
    ∃ outcome after,
      machine.Evaluates true waiting (.node env code id) state outcome after := by
  have within := overLimit_of_unlimited unlimited state.countStep.counters.steps
  have meansAgain := means
  obtain ⟨tree, denoted, covers, same⟩ := meansAgain
  obtain ⟨node, found⟩ := Arena.exists_node_of_tree? denoted
  cases node with
  | var name =>
      cases Arena.tree?_var found denoted
      obtain ⟨closure, bound, _⟩ := covers name rfl
      exact ⟨_, _, .variable within found bound⟩
  | lambda param body => exact ⟨_, _, .abstraction within found⟩
  | apply func arg =>
      obtain ⟨_, _, rfl, _⟩ := means.node_apply found
      cases abstraction

theorem Task.Means.exists_apply {catalog : Catalog} {env : Env} {code : Code} {id : NodeId}
    {func arg : Tree NameId} (means : (Task.node env code id).Means catalog (.apply func arg)) :
    ∃ funcId argId, code.arena.node? id = some (.apply funcId argId) := by
  obtain ⟨tree, denoted, covers, same⟩ := means
  obtain ⟨node, found⟩ := Arena.exists_node_of_tree? denoted
  cases node with
  | var name =>
      cases Arena.tree?_var found denoted
      obtain ⟨closure, bound, inScope⟩ := covers name rfl
      obtain ⟨value, readBack, _, abstraction⟩ := inScope.exists_readBack
      rw [Tree.substitute, Env.readBack_eq_bind_lookup, bound] at same
      change _ = (closure.readBack).getD _ at same
      rw [readBack] at same
      cases same
      cases abstraction
  | lambda param body =>
      obtain ⟨_, _, rfl⟩ := Arena.tree?_lambda found denoted
      cases same
  | apply funcId argId => exact ⟨funcId, argId, found⟩

/-- Every task that stands for a tree with a value ends. -/
theorem exists_evaluates_of_computes (unlimited : machine.limit = none)
    {meaning value : Tree NameId} (computes : Computes meaning value) {task : Task}
    {catalog : Catalog} {state : MachineState World} {waiting : List Frame}
    (ready : state.ReadsBack catalog) (means : task.Means catalog meaning) :
    ∃ outcome after, machine.Evaluates true waiting task state outcome after := by
  induction computes generalizing task catalog state waiting with
  | lambda param body =>
      cases task with
      | node env code id => exact exists_evaluates_abstraction unlimited means rfl
      | application env func arg =>
          obtain ⟨_, _, _, _, _, _, _, _, _, _, impossible⟩ := means
          cases impossible
  | @apply func param body arg passed value funcComputes argComputes bodyComputes funcIh argIh
      bodyIh =>
      -- what the values of the parts are is known, so the body is the one the tree goes on with
      have applies : ∀ {env callee key catalog funcTree argTree} {state : MachineState World}
          {waiting}, state.ReadsBack catalog → callee.Scoped catalog → key.Scoped catalog →
          callee.readBack = some funcTree → key.readBack = some argTree →
          funcTree = .lambda param body → argTree = passed →
          ∃ outcome after, machine.Evaluates true waiting
            (.application env ⟨.closure callee, true⟩ ⟨.closure key, true⟩)
            state outcome after := by
        intro env callee key catalog funcTree argTree state waiting ready calleeScoped keyScoped
          funcRead argRead sameFunc sameArg
        subst sameFunc sameArg
        obtain ⟨bodyTree, same, _, bodyMeans⟩ :=
          exists_body_means calleeScoped keyScoped funcRead argRead state
        cases same
        have entered : (state.entering callee (.closure key)).2.ReadsBack catalog :=
          ⟨ready.bounded.mono (Nat.le_succ _),
            ready.lawful.grow (Nat.le_succ _) (.refl _ _) fun _ _ _ law => law⟩
        exact exists_evaluates_application fun _ => bodyIh entered bodyMeans
      cases task with
      | node env code id =>
          have within := overLimit_of_unlimited unlimited state.countStep.counters.steps
          obtain ⟨funcId, argId, node⟩ := means.exists_apply
          obtain ⟨_, _, same, funcMeans, argMeans⟩ := means.node_apply node
          cases same
          have counted : state.countStep.ReadsBack catalog := ⟨ready.bounded, ready.lawful⟩
          obtain ⟨called, middle, operator⟩ := funcIh counted funcMeans
          obtain ⟨funcValue, funcAgain, later, _, callee, rfl, calleeScoped, funcRead, middleReady,
            grown, le⟩ := operator.delivers unlimited counted funcMeans
          have laterMeans := argMeans.node_mono ready.bounded grown
          obtain ⟨passedOn, last, operand⟩ := argIh middleReady laterMeans
          obtain ⟨argValue, argAgain, _, _, key, rfl, keyScoped, argRead, lastReady, lastGrown,
            _⟩ := operand.delivers unlimited middleReady laterMeans
          obtain ⟨outcome, after, application⟩ := applies lastReady
            (calleeScoped.mono middleReady.bounded lastGrown) keyScoped funcRead argRead
            (funcAgain.deterministic funcComputes) (argAgain.deterministic argComputes)
          exact ⟨outcome, after, .applied within node operator operand application⟩
      | application env called passedOn =>
          obtain ⟨callee, key, funcTree, argTree, rfl, rfl, calleeScoped, keyScoped, funcRead,
            argRead, same⟩ := means
          cases same
          obtain ⟨_, funcAgain, _, funcLambda⟩ := calleeScoped.exists_readBack
          obtain ⟨_, argAgain, _, argLambda⟩ := keyScoped.exists_readBack
          cases funcRead.symm.trans funcAgain
          cases argRead.symm.trans argAgain
          exact applies ready calleeScoped keyScoped funcRead argRead
            ((Computes.of_isLambda funcLambda).deterministic funcComputes)
            ((Computes.of_isLambda argLambda).deterministic argComputes)

theorem Task.means_of_closed (catalog : Catalog) (env : Env) {code : Code} {id : NodeId}
    {tree : Tree NameId} (denoted : code.arena.tree? id = some tree) (closed : tree.Closed) :
    (Task.node env code id).Means catalog tree :=
  ⟨tree, denoted, fun name occurs => absurd occurs (closed name), (closed.substitute_eq _).symm⟩

/-- Before any closure of an evaluation is made, nothing is asked of the tables. -/
theorem readsBack_of_issued {state : MachineState World}
    (issued : state.memo.Issued state.mint.nextIdent) : state.ReadsBack (fun _ => none) := by
  constructor
  · intro ident closure impossible
    cases impossible
  · refine ⟨issued, fun func arg value impossible => ?_⟩
    cases impossible

/-- A closed tree never fails. It has a closure for its value exactly if it reduces, by value and
from the left, to an abstraction, and that is what the closure reads back as. -/
theorem evaluate_iff_reduces_to_readBack (machine : Machine World)
    (unlimited : machine.limit = none) (env : Env) (code : Code) (root : NodeId)
    (state : MachineState World) (issued : state.memo.Issued state.mint.nextIdent)
    (tree : Tree NameId) (denoted : code.arena.tree? root = some tree) (closed : tree.Closed) :
    (∀ fuel ending after, machine.evaluate fuel env code root state = some (ending, after) →
      ∃ closure, ending = .ok (.closure closure)) ∧
    ((∃ fuel closure after,
        machine.evaluate fuel env code root state = some (.ok (.closure closure), after)) ↔
      ∃ value, Reduces tree value ∧ value.isLambda = true) ∧
    ∀ fuel closure after value,
      machine.evaluate fuel env code root state = some (.ok (.closure closure), after) →
      Reduces tree value → value.isLambda = true → closure.readBack = some value := by
  have ready := readsBack_of_issued issued
  have means := Task.means_of_closed (fun _ => none) env denoted closed
  -- whatever the evaluation ends with is a closure that reads back as the value of the tree
  have sound : ∀ fuel ending after,
      machine.evaluate fuel env code root state = some (ending, after) →
      ∃ closure value, ending = .ok (.closure closure) ∧ closure.readBack = some value ∧
        Computes tree value := by
    intro fuel ending after ended
    obtain ⟨outcome, evaluates, rfl⟩ := evaluate_iff_evaluates.mp ⟨fuel, ended⟩
    obtain ⟨value, computes, _, _, closure, rfl, _, readBack, _⟩ :=
      evaluates.delivers unlimited ready means
    exact ⟨closure, value, rfl, readBack, computes⟩
  refine ⟨?_, ⟨?_, ?_⟩, ?_⟩
  · intro fuel ending after ended
    obtain ⟨closure, _, same, _⟩ := sound fuel ending after ended
    exact ⟨closure, same⟩
  · rintro ⟨fuel, closure, after, ended⟩
    obtain ⟨_, value, _, _, computes⟩ := sound fuel _ after ended
    exact ⟨value, Tree.computes_iff_reduces.mp computes⟩
  · rintro ⟨value, reduces, abstraction⟩
    have computes := Tree.computes_iff_reduces.mpr ⟨reduces, abstraction⟩
    obtain ⟨outcome, after, evaluates⟩ :=
      exists_evaluates_of_computes unlimited computes ready means
    obtain ⟨fuel, ended⟩ := evaluate_iff_evaluates.mpr ⟨outcome, evaluates, rfl⟩
    obtain ⟨closure, _, same, _⟩ := sound fuel _ after ended
    rw [same] at ended
    exact ⟨fuel, closure, after, ended⟩
  · intro fuel closure after value ended reduces abstraction
    obtain ⟨_, _, same, readBack, computes⟩ := sound fuel _ after ended
    cases same
    have computesAgain := Tree.computes_iff_reduces.mpr ⟨reduces, abstraction⟩
    rw [readBack, computes.deterministic computesAgain]

def selfApplication : Arena :=
  ⟨#[.var 1, .apply 0 0, .lambda 1 1, .var 2, .lambda 2 3, .apply 2 4]⟩

def idleMachine : Machine Unit :=
  ⟨⟨fun _ arg mint world => ⟨.ok ⟨arg, true⟩, mint, world⟩, fun _ => []⟩, none, ⟨[], []⟩⟩

theorem selfApplication_reads_back_identity :
    ∃ fuel closure after,
      idleMachine.evaluate fuel .empty ⟨0, selfApplication⟩ 5 ⟨⟨.empty, 1⟩, .empty, {}, ()⟩ =
        some (.ok (.closure closure), after) ∧
      closure.readBack = some (.lambda 2 (.var 2)) := by
  have issued : Memo.empty.Issued 1 := by
    intro owner key value found
    simp [Memo.entry, Memo.empty] at found
  have reduces : Reduces (.apply (.lambda 1 (.apply (.var 1) (.var 1))) (.lambda 2 (.var 2)))
      (.lambda 2 (.var 2) : Tree NameId) := .head .beta (.head .beta .refl)
  obtain ⟨_, terminates, readBack⟩ := evaluate_iff_reduces_to_readBack idleMachine rfl .empty
    ⟨0, selfApplication⟩ 5 ⟨⟨.empty, 1⟩, .empty, {}, ()⟩ issued
    (.apply (.lambda 1 (.apply (.var 1) (.var 1))) (.lambda 2 (.var 2))) (by decide)
    (by simp [Tree.Closed, Tree.Occurs])
  obtain ⟨fuel, closure, after, ended⟩ := terminates.mpr ⟨_, reduces, rfl⟩
  exact ⟨fuel, closure, after, ended, readBack fuel closure after _ ended reduces rfl⟩

end Machine

end LambdaMachine
