import LambdaMachine.Proofs.Machine.Direct
import LambdaMachine.Proofs.Value.Scope

/-!
Evaluation keeps lexical scope: with whatever limit, and with every host whose functions do so,
closures go on binding the names that are free in them, and so do the results in the tables. A
variable can only be unbound if its name was missing at the start.
-/

namespace LambdaMachine

variable {World : Type}

def Value.Listed (catalog : Catalog) (value : Value) : Prop :=
  value.Throughout catalog.Lists fun _ => True

def Env.Listed (catalog : Catalog) (env : Env) : Prop :=
  env.Throughout catalog.Lists fun _ => True

theorem Value.listed_closure {catalog : Catalog} {closure : Closure} :
    (Value.closure closure).Listed catalog ↔
      catalog.Lists closure ∧ closure.env.Listed catalog :=
  Value.throughout_closure

theorem Value.listed_datum (catalog : Catalog) (ident : Ident) (data : Datum) :
    (Value.datum ident data).Listed catalog :=
  Value.throughout_datum _ _ ident data

namespace Host

def KeepsListed (host : Host World) (catalog : Catalog) (world : World) : Prop :=
  ∀ value ∈ host.kept world, value.Listed catalog

def KeepsEnclosed (host : Host World) (missing : NameId → Prop) (world : World) : Prop :=
  ∀ value ∈ host.kept world, value.Enclosed missing

def Interns (host : Host World) : Prop :=
  ∀ (function : Builtin) (arg : Value) (mint : Mint) (world : World),
    mint.names.Interns (host.apply function arg mint world).mint.names

/-- The closures that the host answers with and keeps are those that it was given or kept and new
ones. -/
structure Lists (host : Host World) : Prop where
  interns : host.Interns
  lists : ∀ {catalog : Catalog} {function : Builtin} {arg : Value} {mint : Mint} {world : World},
    catalog.Bounded mint.nextIdent → (Value.builtin function).Listed catalog → arg.Listed catalog →
      host.KeepsListed catalog world →
        let reply := host.apply function arg mint world
        ∃ later, catalog.Grows mint.nextIdent later reply.mint.nextIdent ∧
          host.KeepsListed later reply.world ∧
            ∀ result, reply.result = .ok result → result.value.Listed later

/-- No names are missing in what the host answers with and keeps but those that are missing in what
it is called with and has kept. -/
structure KeepsScope (host : Host World) : Prop extends host.Lists where
  encloses : ∀ {missing : NameId → Prop} {function : Builtin} {arg : Value} {mint : Mint}
    {world : World}, (Value.builtin function).Enclosed missing → arg.Enclosed missing →
      host.KeepsEnclosed missing world →
        let reply := host.apply function arg mint world
        host.KeepsEnclosed missing reply.world ∧
          ∀ result, reply.result = .ok result → result.value.Enclosed missing

def Secludes (host : Host World) : Prop :=
  ∀ missing function arg mint world, host.KeepsEnclosed missing world →
    host.KeepsEnclosed missing (host.apply function arg mint world).world

variable {host : Host World} {catalog later : Catalog} {world : World}

theorem KeepsListed.grow {next nextLater : Ident} (listed : host.KeepsListed catalog world)
    (grows : catalog.Grows next later nextLater) : host.KeepsListed later world :=
  fun value among => grows.value (listed value among)

end Host

namespace Machine

def Task.Listed (catalog : Catalog) : Task → Prop
  | .node env _ _ => env.Listed catalog
  | .application _ func arg => func.value.Listed catalog ∧ arg.value.Listed catalog

def Task.Enclosed (missing : NameId → Prop) : Task → Prop
  | .node env code id => env.Enclosed missing ∧
      ∃ tree, code.arena.tree? id = some tree ∧ env.Provides missing tree
  | .application _ func arg => func.value.Enclosed missing ∧ arg.value.Enclosed missing

def Safe (missing : NameId → Prop) (outcome : Outcome) (names : NameTable) : Prop :=
  match outcome with
  | .ok found => found.result.value.Enclosed missing
  | .error (.unbound text) => ∃ name, missing name ∧ text = names.text name
  | .error (.dangling _) => False
  | .error _ => True

structure Lexical (host : Host World) (catalog : Catalog) (state : MachineState World) : Prop where
  bounded : catalog.Bounded state.mint.nextIdent
  lawful : state.memo.Lawful catalog state.mint.nextIdent fun _ _ value => value.Listed catalog
  kept : host.KeepsListed catalog state.world

def Scoped (host : Host World) (missing : NameId → Prop) (catalog : Catalog)
    (state : MachineState World) : Prop :=
  (state.memo.Lawful catalog state.mint.nextIdent fun func arg value =>
    (Value.closure func).Enclosed missing → (Value.closure arg).Enclosed missing →
      value.Enclosed missing) ∧ host.KeepsEnclosed missing state.world

section Grow

variable {host : Host World} {missing : NameId → Prop} {catalog later : Catalog}
  {state after : MachineState World}

theorem Lexical.grow (lexical : Lexical host catalog state) (sameMemo : after.memo = state.memo)
    (grows : catalog.Grows state.mint.nextIdent later after.mint.nextIdent)
    (kept : host.KeepsListed later after.world) : Lexical host later after := by
  refine ⟨grows.after, ?_, kept⟩
  rw [sameMemo]
  exact lexical.lawful.grow grows.le grows.grown fun _ _ _ listed => grows.value listed

theorem Scoped.grow (inScope : Scoped host missing catalog state)
    (sameMemo : after.memo = state.memo)
    (grows : catalog.Grows state.mint.nextIdent later after.mint.nextIdent)
    (kept : host.KeepsEnclosed missing after.world) : Scoped host missing later after := by
  refine ⟨?_, kept⟩
  rw [sameMemo]
  exact inScope.1.grow grows.le grows.grown fun _ _ _ => id

end Grow

structure KeepsScope (host : Host World) (catalog : Catalog) (task : Task)
    (state : MachineState World) (outcome : Outcome) (after : MachineState World)
    (later : Catalog) : Prop where
  grows : catalog.Grows state.mint.nextIdent later after.mint.nextIdent
  lexical : Lexical host later after
  interns : state.mint.names.Interns after.mint.names
  listed : ∀ found, outcome = .ok found → found.result.value.Listed later
  safe : ∀ missing, Scoped host missing catalog state → task.Enclosed missing →
    Safe missing outcome after.mint.names
  keeps : ∀ missing, Scoped host missing catalog state →
    host.Secludes ∨ task.Enclosed missing → Scoped host missing later after

section Rules

variable {catalog middle later : Catalog} {env : Env} {code : Code} {id : NodeId} {task : Task}
  {func arg : Evaluated} {callee : Closure} {host : Host World}
  {state after : MachineState World} {outcome : Outcome}

theorem Task.Enclosed.operator {missing : NameId → Prop} {operator operand : NodeId}
    (node : code.arena.node? id = some (.apply operator operand))
    (enclosed : (Task.node env code id).Enclosed missing) :
    (Task.node env code operator).Enclosed missing ∧
      (Task.node env code operand).Enclosed missing := by
  obtain ⟨envEnclosed, tree, denoted, provides⟩ := enclosed
  obtain ⟨funcTree, argTree, funcDenoted, argDenoted, rfl⟩ := Arena.tree?_apply node denoted
  exact ⟨⟨envEnclosed, funcTree, funcDenoted, fun name occurs => provides name (Or.inl occurs)⟩,
    envEnclosed, argTree, argDenoted, fun name occurs => provides name (Or.inr occurs)⟩

theorem Task.Enclosed.body {missing : NameId → Prop}
    (calleeEnclosed : (Value.closure callee).Enclosed missing)
    (argEnclosed : arg.value.Enclosed missing) (state : MachineState World) :
    (Task.body callee arg.value state).Enclosed missing := by
  obtain ⟨⟨body, denoted, provides⟩, envEnclosed⟩ := Value.enclosed_closure.mp calleeEnclosed
  exact ⟨envEnclosed.extend argEnclosed _ _, body, denoted, provides.lambda _ _⟩

theorem Task.listed_body (calleeListed : (Value.closure callee).Listed catalog)
    (argListed : arg.value.Listed catalog) (state : MachineState World) :
    (Task.body callee arg.value state).Listed catalog :=
  Env.Throughout.extend (Value.listed_closure.mp calleeListed).2 argListed
    state.mint.nextIdent callee.param

theorem Lexical.entering (lexical : Lexical host catalog state) (callee : Closure) (arg : Value) :
    Lexical host catalog (state.entering callee arg).2 :=
  lexical.grow rfl (.skip lexical.bounded (Nat.le_succ _)) lexical.kept

theorem Lexical.countStep (lexical : Lexical host catalog state) :
    Lexical host catalog state.countStep :=
  ⟨lexical.bounded, lexical.lawful, lexical.kept⟩

theorem KeepsScope.stay (lexical : Lexical host catalog state)
    (listed : ∀ found, outcome = .ok found → found.result.value.Listed catalog)
    (safe : ∀ missing, Scoped host missing catalog state → task.Enclosed missing →
      Safe missing outcome state.mint.names) (counters : Counters) :
    KeepsScope host catalog task state outcome { state with counters } catalog :=
  ⟨.refl lexical.bounded, ⟨lexical.bounded, lexical.lawful, lexical.kept⟩, .refl, listed, safe,
    fun _ inScope _ => inScope⟩

/-- A body is evaluated in place of the application. -/
theorem KeepsScope.entered (lexical : Lexical host catalog state)
    (closure : func.value = .closure callee)
    (body : KeepsScope host catalog (.body callee arg.value state)
      (state.entering callee arg.value).2 outcome after later) :
    KeepsScope host catalog (.application env func arg) state outcome after later := by
  have grows : catalog.Grows state.mint.nextIdent catalog
      (state.entering callee arg.value).2.mint.nextIdent := .skip lexical.bounded (Nat.le_succ _)
  refine ⟨grows.trans body.grows, body.lexical, body.interns, body.listed,
    fun missing inScope enclosed => ?_, fun missing inScope either => ?_⟩
  · exact body.safe missing (inScope.grow rfl grows inScope.2)
      (.body (closure ▸ enclosed.1) enclosed.2 state)
  · exact body.keeps missing (inScope.grow rfl grows inScope.2)
      (either.imp_right fun enclosed => .body (closure ▸ enclosed.1) enclosed.2 state)

theorem KeepsScope.taint (kept : KeepsScope host catalog task state outcome after later) :
    KeepsScope host catalog task state (taintOutcome outcome) after later := by
  cases outcome with
  | error error => exact kept
  | ok found =>
      refine ⟨kept.grows, kept.lexical, kept.interns, ?_, kept.safe, kept.keeps⟩
      rintro _ ⟨⟩
      exact kept.listed found rfl

theorem KeepsScope.called {machine : Machine World} {function : Builtin}
    (keeps : machine.host.KeepsScope) (lexical : Lexical machine.host catalog state)
    (callee : func.value = .builtin function)
    (listed : (Task.application env func arg).Listed catalog)
    (reply : machine.callDirect env function arg.value (func.cacheable && arg.cacheable) state =
      some (outcome, after)) :
    ∃ later, KeepsScope machine.host catalog (.application env func arg) state outcome after
      later := by
  obtain ⟨later, grows, keptListed, answered⟩ :=
    keeps.lists lexical.bounded (callee ▸ listed.1) listed.2 lexical.kept
  have interns := keeps.interns function arg.value state.mint state.world
  simp only [callDirect, MachineState.countCall, Option.some.injEq, Prod.mk.injEq] at reply
  obtain ⟨rfl, rfl⟩ := reply
  refine ⟨later, grows, lexical.grow rfl grows keptListed, interns, ?_, ?_, ?_⟩
  · intro found ended
    cases answer : (machine.host.apply function arg.value state.mint state.world).result with
    | error error => rw [answer] at ended; cases ended
    | ok result => rw [answer] at ended; cases ended; exact answered result answer
  · intro missing inScope enclosed
    cases answer : (machine.host.apply function arg.value state.mint state.world).result with
    | error error => cases error <;> exact trivial
    | ok result =>
        exact (keeps.encloses (callee ▸ enclosed.1) enclosed.2 inScope.2).2 result answer
  · rintro missing inScope (secludes | enclosed)
    · exact inScope.grow rfl grows (secludes missing function arg.value state.mint _ inScope.2)
    · exact inScope.grow rfl grows
        (keeps.encloses (callee ▸ enclosed.1) enclosed.2 inScope.2).1

theorem KeepsScope.recalled {memoizing : Bool} {key : Closure} {hit : Value}
    (lexical : Lexical host catalog state) (closure : func.value = .closure callee)
    (argument : arg.value = .closure key)
    (listed : (Task.application env func arg).Listed catalog)
    (found : recollect memoizing callee key state = some hit) :
    KeepsScope host catalog (.application env func arg) state (.ok ⟨env, hit, true⟩) state.countHit
      catalog := by
  have recorded : state.memo.lookup callee key = some hit := by
    rw [recollect] at found
    split at found
    · exact found
    · cases found
  have calleeListed := (Value.listed_closure.mp (closure ▸ listed.1)).1
  have keyListed := (Value.listed_closure.mp (argument ▸ listed.2)).1
  refine .stay lexical ?_ (fun missing inScope enclosed => ?_) _
  · rintro _ ⟨⟩
    exact lexical.lawful.lawful callee key hit calleeListed keyListed recorded
  · exact inScope.1.lawful callee key hit calleeListed keyListed recorded (closure ▸ enclosed.1)
      (argument ▸ enclosed.2)

theorem KeepsScope.missed {machine : Machine World} {memoizing : Bool} {waiting : List Frame}
    {key : Closure} (lexical : Lexical host catalog state)
    (closure : func.value = .closure callee) (argument : arg.value = .closure key)
    (listed : (Task.application env func arg).Listed catalog)
    (body : KeepsScope host catalog (.body callee arg.value state)
      (state.entering callee arg.value).2 outcome after later) :
    KeepsScope host catalog (.application env func arg) state outcome
      (machine.rememberOutcome memoizing waiting callee key outcome after) later := by
  have kept : KeepsScope host catalog (.application env func arg) state outcome after later :=
    .entered lexical closure body
  cases outcome with
  | error error => exact kept
  | ok found =>
      have calleeListed := (Value.listed_closure.mp (closure ▸ listed.1)).1.mono
        kept.grows.before kept.grows.grown
      have keyListed := (Value.listed_closure.mp (argument ▸ listed.2)).1.mono
        kept.grows.before kept.grows.grown
      have law (law : Closure → Closure → Value → Prop)
          (lawful : after.memo.Lawful later after.mint.nextIdent law)
          (holds : law callee key found.result.value) :
          (machine.remember memoizing waiting callee key found after).memo.Lawful later
            after.mint.nextIdent law := by
        rcases machine.memo_remember memoizing waiting callee key found after with
          same | ⟨_, alive, recorded⟩
        · exact same ▸ lawful
        · exact recorded ▸ lawful.record kept.lexical.bounded calleeListed keyListed holds alive
      have grows : catalog.Grows state.mint.nextIdent catalog
          (state.entering callee arg.value).2.mint.nextIdent :=
        .skip lexical.bounded (Nat.le_succ _)
      rw [rememberOutcome]
      refine ⟨?_, ⟨?_, ?_, ?_⟩, ?_, kept.listed, ?_, fun missing inScope either => ⟨?_, ?_⟩⟩
      · rw [mint_remember]
        exact kept.grows
      · rw [mint_remember]
        exact kept.lexical.bounded
      · rw [mint_remember]
        exact law _ kept.lexical.lawful (kept.listed found rfl)
      · rw [world_remember]
        exact kept.lexical.kept
      · rw [mint_remember]
        exact kept.interns
      · exact kept.safe
      · rw [mint_remember]
        refine law _ (kept.keeps missing inScope either).1 fun calleeEnclosed keyEnclosed => ?_
        exact body.safe missing (inScope.grow rfl grows inScope.2)
          (.body calleeEnclosed (argument ▸ keyEnclosed) state)
      · rw [world_remember]
        exact (kept.keeps missing inScope either).2

end Rules

/-- Evaluation keeps lexical scope. -/
theorem Evaluates.keepsScope {machine : Machine World} {memoizing : Bool} {waiting : List Frame}
    {task : Task} {state after : MachineState World} {outcome : Outcome}
    (keeps : machine.host.KeepsScope)
    (ended : machine.Evaluates memoizing waiting task state outcome after) {catalog : Catalog}
    (lexical : Lexical machine.host catalog state) (listed : task.Listed catalog) :
    ∃ later, KeepsScope machine.host catalog task state outcome after later := by
  induction ended generalizing catalog with
  | limited _ =>
      refine ⟨catalog, .stay lexical (by rintro _ ⟨⟩) (fun _ _ _ => ?_) _⟩
      exact trivial
  | dangling _ node =>
      refine ⟨catalog, .stay lexical (by rintro _ ⟨⟩) (fun missing _ enclosed => ?_) _⟩
      obtain ⟨_, tree, denoted, _⟩ := enclosed
      obtain ⟨_, found⟩ := Arena.exists_node_of_tree? denoted
      cases node.symm.trans found
  | @unbound _ env _ _ _ name _ node absent =>
      refine ⟨catalog, .stay lexical (by rintro _ ⟨⟩) (fun missing _ enclosed => ?_) _⟩
      obtain ⟨_, tree, denoted, provides⟩ := enclosed
      rw [Arena.tree?_var node denoted] at provides
      rcases provides name rfl with ⟨value, bound⟩ | isMissing
      · cases absent.symm.trans bound
      · exact ⟨name, isMissing, rfl⟩
  | «variable» _ _ bound =>
      refine ⟨catalog, .stay lexical ?_ (fun missing _ enclosed => ?_) _⟩
      · rintro _ ⟨⟩
        exact Env.Throughout.of_lookup listed bound
      · exact Env.Throughout.of_lookup enclosed.1 bound
  | @abstraction _ env code _ state param body _ node =>
      obtain ⟨later, grows, closureListed⟩ :=
        Mint.forms_closure lexical.bounded listed param body code
      refine ⟨later, grows, lexical.grow rfl grows (lexical.kept.grow grows), .refl, ?_,
        fun missing _ enclosed => ?_, fun missing inScope _ => inScope.grow rfl grows inScope.2⟩
      · rintro _ ⟨⟩
        exact closureListed
      · obtain ⟨envEnclosed, tree, denoted, provides⟩ := enclosed
        obtain ⟨bodyTree, bodyDenoted, rfl⟩ := Arena.tree?_lambda node denoted
        exact Value.enclosed_closure.mpr ⟨⟨bodyTree, bodyDenoted, provides⟩, envEnclosed⟩
  | operatorFails _ node _ operatorIh =>
      obtain ⟨later, operator⟩ := operatorIh lexical.countStep listed
      exact ⟨later, operator.grows, operator.lexical, operator.interns, by rintro _ ⟨⟩,
        fun missing inScope enclosed => operator.safe missing inScope (enclosed.operator node).1,
        fun missing inScope either => operator.keeps missing inScope
          (either.imp_right fun enclosed => (enclosed.operator node).1)⟩
  | operandFails _ node _ _ operatorIh operandIh =>
      obtain ⟨middle, operator⟩ := operatorIh lexical.countStep listed
      obtain ⟨later, operand⟩ := operandIh operator.lexical (operator.grows.env listed)
      refine ⟨later, operator.grows.trans operand.grows, operand.lexical,
        operator.interns.trans operand.interns, by rintro _ ⟨⟩, fun missing inScope enclosed => ?_,
        fun missing inScope either => ?_⟩
      · obtain ⟨operatorEnclosed, operandEnclosed⟩ := enclosed.operator node
        exact operand.safe missing (operator.keeps missing inScope (.inr operatorEnclosed))
          operandEnclosed
      · have parts := either.imp_right fun enclosed => enclosed.operator node
        exact operand.keeps missing
          (operator.keeps missing inScope (parts.imp_right And.left)) (parts.imp_right And.right)
  | @applied _ _ _ _ _ _ _ called _ passed _ _ _ _ node _ _ _ operatorIh operandIh applicationIh =>
      obtain ⟨middle, operator⟩ := operatorIh lexical.countStep listed
      obtain ⟨ready, operand⟩ := operandIh operator.lexical (operator.grows.env listed)
      have calledListed := operand.grows.value (operator.listed called rfl)
      obtain ⟨later, application⟩ :=
        applicationIh operand.lexical ⟨calledListed, operand.listed passed rfl⟩
      refine ⟨later, operator.grows.trans (operand.grows.trans application.grows),
        application.lexical, operator.interns.trans (operand.interns.trans application.interns),
        application.listed, fun missing inScope enclosed => ?_, fun missing inScope either => ?_⟩
      · obtain ⟨operatorEnclosed, operandEnclosed⟩ := enclosed.operator node
        have scopedMiddle := operator.keeps missing inScope (.inr operatorEnclosed)
        have scopedReady := operand.keeps missing scopedMiddle (.inr operandEnclosed)
        exact application.safe missing scopedReady
          ⟨operator.safe missing inScope operatorEnclosed,
            operand.safe missing scopedMiddle operandEnclosed⟩
      · have parts := either.imp_right fun enclosed => enclosed.operator node
        have scopedMiddle := operator.keeps missing inScope (parts.imp_right And.left)
        have scopedReady := operand.keeps missing scopedMiddle (parts.imp_right And.right)
        exact application.keeps missing scopedReady (parts.imp_right fun enclosed =>
          ⟨operator.safe missing inScope enclosed.1,
            operand.safe missing scopedMiddle enclosed.2⟩)
  | notCallable _ =>
      refine ⟨catalog, .stay lexical (by rintro _ ⟨⟩) (fun _ _ _ => ?_) _⟩
      exact trivial
  | called callee reply => exact KeepsScope.called keeps lexical callee listed reply
  | recalled closure _ argument found =>
      exact ⟨catalog, .recalled lexical closure argument listed found⟩
  | missed closure _ argument _ _ bodyIh =>
      obtain ⟨later, body⟩ := bodyIh (lexical.entering _ _)
        (Task.listed_body (closure ▸ listed.1) listed.2 _)
      exact ⟨later, .missed lexical closure argument listed body⟩
  | entered closure _ _ _ bodyIh =>
      obtain ⟨later, body⟩ := bodyIh (lexical.entering _ _)
        (Task.listed_body (closure ▸ listed.1) listed.2 _)
      exact ⟨later, .entered lexical closure body⟩
  | tainted closure _ _ bodyIh =>
      obtain ⟨later, body⟩ := bodyIh (lexical.entering _ _)
        (Task.listed_body (closure ▸ listed.1) listed.2 _)
      exact ⟨later, (KeepsScope.entered lexical closure body).taint⟩

end Machine

end LambdaMachine
