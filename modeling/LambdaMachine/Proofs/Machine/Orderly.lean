import LambdaMachine.Proofs.Machine.Counting
import LambdaMachine.Proofs.Machine.Underway
import LambdaMachine.Proofs.Machine.Scope

/-!
Laws of tables. If every result that evaluation records obeys a law, then every entry for listed
closures does, at the end of an evaluation and at every moment on the way, whatever the host
functions are and whatever the limit.
-/

namespace LambdaMachine

variable {World : Type}

def Host.Stays (host : Host World) (steady : World → Prop) : Prop :=
  ∀ (function : Builtin) (arg : Value) (mint : Mint) (world : World),
    steady world → steady (host.apply function arg mint world).world

def Focus.Listed (catalog : Catalog) : Focus → Prop
  | .node env _ _ => env.Listed catalog
  | .value _ result => result.value.Listed catalog

def Frame.Listed (catalog : Catalog) : Frame → Prop
  | .argument env _ _ => env.Listed catalog
  | .call env func => env.Listed catalog ∧ func.value.Listed catalog
  | .memoize func arg => (Value.closure func).Listed catalog ∧ (Value.closure arg).Listed catalog
  | .taint => True

theorem Frame.Listed.grow {frame : Frame} {catalog later : Catalog} {next nextLater : Ident}
    (listed : frame.Listed catalog) (grows : catalog.Grows next later nextLater) :
    frame.Listed later := by
  cases frame with
  | argument env code arg => exact grows.env listed
  | call env func => exact ⟨grows.env listed.1, grows.value listed.2⟩
  | memoize func arg => exact ⟨grows.value listed.1, grows.value listed.2⟩
  | taint => trivial

namespace Machine

structure Orderly (host : Host World) (law : Closure → Closure → Value → Prop)
    (steady : World → Prop) (catalog : Catalog) (state : MachineState World) : Prop where
  bounded : catalog.Bounded state.mint.nextIdent
  lawful : state.memo.Lawful catalog state.mint.nextIdent fun func key value =>
    value.Listed catalog ∧ law func key value
  kept : host.KeepsListed catalog state.world
  steady : steady state.world
  coherent : state.mint.names.Coherent

def Obeys (machine : Machine World) (law : Closure → Closure → Value → Prop)
    (steady : World → Prop) : Prop :=
  ∀ {waiting callee key} {state after : MachineState World} {found catalog},
    Orderly machine.host law steady catalog state →
    (Value.closure callee).Listed catalog → (Value.closure key).Listed catalog →
    machine.Evaluates true waiting (.body callee (.closure key) state)
      (state.entering callee (.closure key)).2 (.ok found) after →
    found.result.cacheable = true → law callee key found.result.value

section Rules

variable {host : Host World} {law : Closure → Closure → Value → Prop} {steady : World → Prop}
  {catalog middle later : Catalog}
  {env : Env} {task : Task} {func arg : Evaluated} {callee : Closure}
  {state after : MachineState World} {outcome : Outcome}

theorem Orderly.weaken {other : Closure → Closure → Value → Prop}
    (orderly : Orderly host law steady catalog state)
    (weaker : ∀ func key value, law func key value → other func key value) :
    Orderly host other steady catalog state :=
  { orderly with
    lawful := orderly.lawful.grow (Nat.le_refl _) (.refl _ _)
      fun _ _ _ holds => holds.imp_right (weaker _ _ _) }

theorem Orderly.grow (orderly : Orderly host law steady catalog state)
    (sameMemo : after.memo = state.memo)
    (grows : catalog.Grows state.mint.nextIdent later after.mint.nextIdent)
    (kept : host.KeepsListed later after.world) (holds : steady after.world)
    (interns : state.mint.names.Interns after.mint.names) :
    Orderly host law steady later after := by
  refine ⟨grows.after, ?_, kept, holds, interns.coherent orderly.coherent⟩
  rw [sameMemo]
  exact orderly.lawful.grow grows.le grows.grown fun _ _ _ holds => ⟨grows.value holds.1, holds.2⟩

/-- Nothing has happened but that identities and numbers of names were given out. -/
theorem Orderly.remint (orderly : Orderly host law steady catalog state)
    (sameMemo : after.memo = state.memo) (sameWorld : after.world = state.world)
    (grows : catalog.Grows state.mint.nextIdent later after.mint.nextIdent)
    (interns : state.mint.names.Interns after.mint.names) :
    Orderly host law steady later after :=
  orderly.grow sameMemo grows (sameWorld ▸ orderly.kept.grow grows) (sameWorld ▸ orderly.steady)
    interns

theorem Orderly.entering (orderly : Orderly host law steady catalog state) (callee : Closure)
    (arg : Value) : Orderly host law steady catalog (state.entering callee arg).2 :=
  orderly.remint rfl rfl (.skip orderly.bounded (Nat.le_succ _)) .refl

theorem Orderly.recount (orderly : Orderly host law steady catalog state) (counters : Counters) :
    Orderly host law steady catalog { state with counters } :=
  ⟨orderly.bounded, orderly.lawful, orderly.kept, orderly.steady, orderly.coherent⟩

/-- A function of the host is called. -/
theorem Orderly.answered {function : Builtin} {arg : Value} (lists : host.Lists)
    (stays : host.Stays steady) (orderly : Orderly host law steady catalog state)
    (functionListed : (Value.builtin function).Listed catalog) (argListed : arg.Listed catalog)
    (counters : Counters) :
    let reply := host.apply function arg state.mint state.world
    ∃ later, catalog.Grows state.mint.nextIdent later reply.mint.nextIdent ∧
      Orderly host law steady later ⟨reply.mint, state.memo, counters, reply.world⟩ ∧
      ∀ result, reply.result = .ok result → result.value.Listed later := by
  obtain ⟨later, grows, kept, answered⟩ :=
    lists.lists orderly.bounded functionListed argListed orderly.kept
  exact ⟨later, grows, orderly.grow rfl grows kept (stays function arg state.mint _ orderly.steady)
    (lists.interns function arg state.mint state.world), answered⟩

structure KeepsOrder (host : Host World) (law : Closure → Closure → Value → Prop)
    (steady : World → Prop) (catalog : Catalog) (state : MachineState World) (outcome : Outcome)
    (after : MachineState World)
    (later : Catalog) : Prop where
  grows : catalog.Grows state.mint.nextIdent later after.mint.nextIdent
  orderly : Orderly host law steady later after
  listed : ∀ found, outcome = .ok found → found.result.value.Listed later

theorem KeepsOrder.stay (orderly : Orderly host law steady catalog state)
    (listed : ∀ found, outcome = .ok found → found.result.value.Listed catalog)
    (counters : Counters) :
    KeepsOrder host law steady catalog state outcome { state with counters } catalog :=
  ⟨.refl orderly.bounded, orderly.recount counters, listed⟩

theorem KeepsOrder.entered {value : Value}
    (body : KeepsOrder host law steady catalog (state.entering callee value).2 outcome after later)
    (orderly : Orderly host law steady catalog state) :
    KeepsOrder host law steady catalog state outcome after later :=
  ⟨(Catalog.Grows.skip orderly.bounded (Nat.le_succ _)).trans body.grows, body.orderly,
    body.listed⟩

theorem KeepsOrder.taint (kept : KeepsOrder host law steady catalog state outcome after later) :
    KeepsOrder host law steady catalog state (taintOutcome outcome) after later := by
  cases outcome with
  | error error => exact kept
  | ok found =>
      refine ⟨kept.grows, kept.orderly, ?_⟩
      rintro _ ⟨⟩
      exact kept.listed found rfl

theorem KeepsOrder.called {machine : Machine World} {function : Builtin}
    (lists : machine.host.Lists) (stays : machine.host.Stays steady)
    (orderly : Orderly machine.host law steady catalog state)
    (callee : func.value = .builtin function)
    (listed : (Task.application env func arg).Listed catalog)
    (reply : machine.callDirect env function arg.value (func.cacheable && arg.cacheable) state =
      some (outcome, after)) :
    ∃ later, KeepsOrder machine.host law steady catalog state outcome after later := by
  obtain ⟨later, grows, orderlyThen, answered⟩ := orderly.answered lists stays
    (callee ▸ listed.1) listed.2 state.countCall.counters
  simp only [callDirect, MachineState.countCall, Option.some.injEq, Prod.mk.injEq] at reply
  obtain ⟨rfl, rfl⟩ := reply
  refine ⟨later, grows, orderlyThen, fun found ended => ?_⟩
  cases answer : (machine.host.apply function arg.value state.mint state.world).result with
  | error error => rw [answer] at ended; cases ended
  | ok result => rw [answer] at ended; cases ended; exact answered result answer

theorem KeepsOrder.remembered {machine : Machine World} {waiting : List Frame}
    {key : Closure} (orderly : Orderly host law steady catalog state)
    (calleeListed : (Value.closure callee).Listed catalog)
    (keyListed : (Value.closure key).Listed catalog)
    (body : KeepsOrder host law steady catalog (state.entering callee (.closure key)).2 outcome after
      later)
    (obeys : ∀ found, outcome = .ok found → found.result.cacheable = true →
      law callee key found.result.value) :
    KeepsOrder host law steady catalog state outcome
      (machine.rememberOutcome true waiting callee key outcome after) later := by
  have kept : KeepsOrder host law steady catalog state outcome after later := body.entered orderly
  cases outcome with
  | error error => exact kept
  | ok found =>
      have remembered : Orderly host law steady later
          (machine.remember true waiting callee key found after) := by
        constructor
        · rw [mint_remember]
          exact kept.orderly.bounded
        · rw [mint_remember]
          rcases machine.memo_remember true waiting callee key found after with
            same | ⟨cacheable, alive, recorded⟩
          · rw [same]
            exact kept.orderly.lawful
          · rw [recorded]
            exact kept.orderly.lawful.record kept.orderly.bounded
              ((Value.listed_closure.mp calleeListed).1.mono kept.grows.before kept.grows.grown)
              ((Value.listed_closure.mp keyListed).1.mono kept.grows.before kept.grows.grown)
              ⟨kept.listed found rfl, obeys found rfl cacheable⟩ alive
        · rw [world_remember]
          exact kept.orderly.kept
        · rw [world_remember]
          exact kept.orderly.steady
        · rw [mint_remember]
          exact kept.orderly.coherent
      rw [rememberOutcome]
      refine ⟨?_, remembered, kept.listed⟩
      rw [mint_remember]
      exact kept.grows

end Rules

section Runs

variable {machine : Machine World} {law : Closure → Closure → Value → Prop} {steady : World → Prop}
  {waiting : List Frame} {task : Task} {state after : MachineState World}
  {outcome : Outcome} {catalog : Catalog}

/-- An evaluation keeps the law that its records obey. -/
theorem Evaluates.keepsOrder (lists : machine.host.Lists) (stays : machine.host.Stays steady)
    (obeys : machine.Obeys law steady)
    (ended : machine.Evaluates true waiting task state outcome after)
    (orderly : Orderly machine.host law steady catalog state) (listed : task.Listed catalog) :
    ∃ later, KeepsOrder machine.host law steady catalog state outcome after later := by
  induction ended generalizing catalog with
  | limited _ => exact ⟨catalog, .stay orderly (by rintro _ ⟨⟩) _⟩
  | dangling _ _ => exact ⟨catalog, .stay orderly (by rintro _ ⟨⟩) _⟩
  | unbound _ _ _ => exact ⟨catalog, .stay orderly (by rintro _ ⟨⟩) _⟩
  | «variable» _ _ bound =>
      refine ⟨catalog, .stay orderly ?_ _⟩
      rintro _ ⟨⟩
      exact Env.Throughout.of_lookup listed bound
  | @abstraction _ env code _ state param body _ _ =>
      obtain ⟨later, grows, closureListed⟩ :=
        Mint.forms_closure orderly.bounded listed param body code
      refine ⟨later, grows, orderly.remint rfl rfl grows .refl, ?_⟩
      rintro _ ⟨⟩
      exact closureListed
  | operatorFails _ _ _ operatorIh =>
      obtain ⟨later, operator⟩ := operatorIh (orderly.recount _) listed
      exact ⟨later, operator.grows, operator.orderly, by rintro _ ⟨⟩⟩
  | operandFails _ _ _ _ operatorIh operandIh =>
      obtain ⟨middle, operator⟩ := operatorIh (orderly.recount _) listed
      obtain ⟨later, operand⟩ := operandIh operator.orderly (operator.grows.env listed)
      exact ⟨later, operator.grows.trans operand.grows, operand.orderly, by rintro _ ⟨⟩⟩
  | @applied _ _ _ _ _ _ _ called _ passed _ _ _ _ _ _ _ _ operatorIh operandIh applicationIh =>
      obtain ⟨middle, operator⟩ := operatorIh (orderly.recount _) listed
      obtain ⟨ready, operand⟩ := operandIh operator.orderly (operator.grows.env listed)
      have calledListed := operand.grows.value (operator.listed called rfl)
      obtain ⟨later, application⟩ :=
        applicationIh operand.orderly ⟨calledListed, operand.listed passed rfl⟩
      exact ⟨later, operator.grows.trans (operand.grows.trans application.grows),
        application.orderly, application.listed⟩
  | notCallable _ => exact ⟨catalog, .stay orderly (by rintro _ ⟨⟩) _⟩
  | called callee reply => exact KeepsOrder.called lists stays orderly callee listed reply
  | recalled closure _ argument found =>
      simp only [recollect, if_true] at found
      have calleeListed := (Value.listed_closure.mp (closure ▸ listed.1)).1
      have keyListed := (Value.listed_closure.mp (argument ▸ listed.2)).1
      refine ⟨catalog, .stay orderly ?_ _⟩
      rintro _ ⟨⟩
      exact (orderly.lawful.lawful _ _ _ calleeListed keyListed found).1
  | missed closure _ argument _ body bodyIh =>
      have calleeListed := closure ▸ listed.1
      have keyListed := argument ▸ listed.2
      obtain ⟨later, kept⟩ := bodyIh (orderly.entering _ _)
        (Task.listed_body calleeListed listed.2 _)
      rw [argument] at body kept
      refine ⟨later, .remembered orderly calleeListed keyListed kept ?_⟩
      rintro found rfl cacheable
      exact obeys orderly calleeListed keyListed body cacheable
  | entered closure _ _ _ bodyIh =>
      obtain ⟨later, kept⟩ := bodyIh (orderly.entering _ _)
        (Task.listed_body (closure ▸ listed.1) listed.2 _)
      exact ⟨later, kept.entered orderly⟩
  | tainted closure _ _ bodyIh =>
      obtain ⟨later, kept⟩ := bodyIh (orderly.entering _ _)
        (Task.listed_body (closure ▸ listed.1) listed.2 _)
      exact ⟨later, (kept.entered orderly).taint⟩

/-- What the machine is about to use is listed, at every moment of an evaluation. -/
theorem Underway.orderly {focus : Focus} {stack : List Frame} {now : MachineState World}
    (lists : machine.host.Lists) (stays : machine.host.Stays steady)
    (obeys : machine.Obeys law steady)
    (underway : machine.Underway waiting task state focus stack now)
    (orderly : Orderly machine.host law steady catalog state) (listed : task.Listed catalog)
    (waitingListed : ∀ frame ∈ waiting, frame.Listed catalog) :
    ∃ later, Orderly machine.host law steady later now ∧ focus.Listed later ∧
      ∀ frame ∈ stack, frame.Listed later := by
  induction underway generalizing catalog with
  | begun => exact ⟨catalog, orderly, listed, waitingListed⟩
  | ended evaluated =>
      obtain ⟨later, kept⟩ := evaluated.keepsOrder lists stays obeys orderly listed
      exact ⟨later, kept.orderly, kept.listed _ rfl,
        fun frame among => (waitingListed frame among).grow kept.grows⟩
  | operator _ _ _ innerIh =>
      exact innerIh (orderly.recount _) listed (List.forall_mem_cons.mpr ⟨listed, waitingListed⟩)
  | @operand _ _ _ _ _ _ _ called _ _ _ _ _ _ operator _ innerIh =>
      obtain ⟨middle, kept⟩ := operator.keepsOrder lists stays obeys (orderly.recount _) listed
      refine innerIh kept.orderly (kept.grows.env listed) (List.forall_mem_cons.mpr ⟨?_, ?_⟩)
      · exact ⟨kept.grows.env listed, kept.listed called rfl⟩
      · exact fun frame among => (waitingListed frame among).grow kept.grows
  | @application _ _ _ _ _ _ _ called _ passed _ _ _ _ _ _ operator operand _ innerIh =>
      obtain ⟨middle, kept⟩ := operator.keepsOrder lists stays obeys (orderly.recount _) listed
      obtain ⟨ready, keptReady⟩ :=
        operand.keepsOrder lists stays obeys kept.orderly (kept.grows.env listed)
      have calledListed := keptReady.grows.value (kept.listed called rfl)
      refine innerIh keptReady.orderly ⟨calledListed, keptReady.listed passed rfl⟩ ?_
      exact fun frame among => ((waitingListed frame among).grow kept.grows).grow keptReady.grows
  | missed closure _ argument _ _ innerIh =>
      have calleeListed := closure ▸ listed.1
      refine innerIh (orderly.entering _ _) (Task.listed_body calleeListed listed.2 _)
        (List.forall_mem_cons.mpr ⟨⟨calleeListed, argument ▸ listed.2⟩, waitingListed⟩)
  | entered closure _ _ _ innerIh =>
      exact innerIh (orderly.entering _ _) (Task.listed_body (closure ▸ listed.1) listed.2 _)
        waitingListed
  | tainted closure _ _ innerIh =>
      exact innerIh (orderly.entering _ _) (Task.listed_body (closure ▸ listed.1) listed.2 _)
        (List.forall_mem_cons.mpr ⟨trivial, waitingListed⟩)

end Runs

end Machine

end LambdaMachine
