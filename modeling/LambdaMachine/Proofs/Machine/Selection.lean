import LambdaMachine.Proofs.Machine.Achieves
import LambdaMachine.Proofs.Machine.Orderly
import LambdaMachine.Proofs.Value.Selection

/-!
Choosing and taking pairs apart, whatever the tables hold. What is recorded for a choice is a
closure that keeps its first argument, what is recorded for that is what is chosen, and what is
recorded for a pair and a choice is a component. So a selection hands back the instance that was put
in, with or without a table.
-/

namespace LambdaMachine

variable {World : Type}

namespace Machine

def Quietly (good : Value → Prop) (state : MachineState World) (result : Evaluated)
    (after : MachineState World) (calls : Nat) : Prop :=
  good result.value ∧ after.world = state.world ∧ calls = 0

structure ChoiceLaw (func key : Closure) (value : Value) : Prop where
  choice : ∀ first, func.IsChoice first →
    ∃ half : Closure, value = .closure half ∧ half.IsHalf first (.closure key)
  half : ∀ first kept, func.IsHalf first kept → value = cond first kept (.closure key)

structure SelectionLaw (func key : Closure) (value : Value) : Prop extends
    ChoiceLaw func key value where
  component : ∀ first second chosen, func.IsPair first second → key.IsChoice chosen →
    value = cond chosen first second

section Bodies

variable {machine : Machine World} {waiting : List Frame} {env : Env} {task : Task}
  {callee choice half pair : Closure} {arg kept first second : Value} {chosen : Bool}
  {state : MachineState World} {good : Value → Prop} {steady : World → Prop} {catalog : Catalog}

/-- A closure that is applied to a value comes to what its body comes to, or to what is recorded. -/
theorem Achieves.application (called passed : Bool)
    (recorded : ∀ key hit, arg = .closure key → state.memo.lookup callee key = some hit → good hit)
    (body : ∀ frames, machine.Achieves frames (.body callee arg state)
      (state.entering callee arg).2 (Quietly good state)) :
    machine.Achieves waiting (.application env ⟨.closure callee, called⟩ ⟨arg, passed⟩) state
      (Quietly good state) := by
  by_cases isClosure : ∃ key, arg = .closure key
  · obtain ⟨key, argument⟩ := isClosure
    have missed (absent : (called && passed) = true → state.memo.lookup callee key = none) :
        machine.Achieves waiting (.application env ⟨.closure callee, called⟩ ⟨arg, passed⟩) state
          (Quietly good state) := by
      refine .missed rfl argument absent fun frames => (body frames).mono ?_
      rintro result after calls ⟨holds, world, none⟩ last _ same
      exact ⟨holds, same.trans world, none⟩
    cases cacheable : called && passed with
    | false => exact missed fun both => absurd (cacheable.symm.trans both) Bool.false_ne_true
    | true =>
        cases found : state.memo.lookup callee key with
        | none => exact missed fun _ => found
        | some hit =>
            exact ⟨_, _, _, _, .recalled rfl cacheable argument found,
              recorded key hit argument found, rfl, rfl⟩
  · exact .entered rfl (fun key same => isClosure ⟨key, same⟩) body

theorem Achieves.choiceBody (unlimited : machine.limit = none) (isChoice : choice.IsChoice chosen)
    (kept : Value) :
    machine.Achieves waiting (.body choice kept state) (state.entering choice kept).2
      (Quietly (fun value => ∃ half, value = .closure half ∧ half.IsHalf chosen kept) state) := by
  obtain ⟨other, last, node, leaf, different⟩ := isChoice
  exact .lambda unlimited node
    ⟨⟨_, rfl, Closure.isHalf_of_choice leaf different _ _ kept⟩, rfl, rfl⟩

theorem Achieves.halfBody (unlimited : machine.limit = none) (isHalf : half.IsHalf chosen kept)
    (arg : Value) :
    machine.Achieves waiting (.body half arg state) (state.entering half arg).2
      (Quietly (· = cond chosen kept arg) state) := by
  obtain ⟨name, node, found⟩ := isHalf
  exact .var unlimited node (found _ arg) ⟨rfl, rfl, rfl⟩

theorem obeys_choiceLaw (machine : Machine World) (steady : World → Prop) :
    machine.Obeys ChoiceLaw steady := by
  intro waiting callee key state after found catalog _ _ _ ended _
  constructor
  · intro first isChoice
    obtain ⟨_, holds, _⟩ := (Achieves.choiceBody rfl isChoice _).of_evaluates ended
    exact holds
  · intro first kept isHalf
    obtain ⟨_, holds, _⟩ := (Achieves.halfBody rfl isHalf _).of_evaluates ended
    exact holds

/-- A choice that is applied to a value keeps it. -/
theorem Orderly.keeps (unlimited : machine.limit = none)
    (orderly : Orderly machine.host ChoiceLaw steady catalog state)
    (choiceListed : (Value.closure choice).Listed catalog) (argListed : arg.Listed catalog)
    (isChoice : choice.IsChoice chosen) (called passed : Bool) :
    machine.Achieves waiting (.application env ⟨.closure choice, called⟩ ⟨arg, passed⟩) state
      (Quietly (fun value => ∃ half, value = .closure half ∧ half.IsHalf chosen arg) state) := by
  refine .application called passed ?_ fun frames => .choiceBody unlimited isChoice arg
  rintro key hit rfl found
  exact (orderly.lawful.lawful _ _ _ (Value.listed_closure.mp choiceListed).1
    (Value.listed_closure.mp argListed).1 found).2.choice chosen isChoice

/-- What has kept a value is applied to another one. -/
theorem Orderly.chooses (unlimited : machine.limit = none)
    (orderly : Orderly machine.host ChoiceLaw steady catalog state)
    (halfListed : (Value.closure half).Listed catalog) (argListed : arg.Listed catalog)
    (isHalf : half.IsHalf chosen kept) (called passed : Bool) :
    machine.Achieves waiting (.application env ⟨.closure half, called⟩ ⟨arg, passed⟩) state
      (Quietly (· = cond chosen kept arg) state) := by
  refine .application called passed ?_ fun frames => .halfBody unlimited isHalf arg
  rintro key hit rfl found
  exact (orderly.lawful.lawful _ _ _ (Value.listed_closure.mp halfListed).1
    (Value.listed_closure.mp argListed).1 found).2.half chosen kept isHalf

def ComesTo (machine : Machine World) (law : Closure → Closure → Value → Prop)
    (steady : World → Prop) (env : Env) (code : Code) (id : NodeId) (good : Value → Prop) : Prop :=
  ∀ waiting state catalog, Orderly machine.host law steady catalog state → env.Listed catalog →
    machine.Achieves waiting (.node env code id) state (Quietly good state)

section ComesTo

variable {law : Closure → Closure → Value → Prop} {code : Code} {id : NodeId}

theorem ComesTo.var (unlimited : machine.limit = none) {name : NameId}
    (node : code.arena.node? id = some (.var name)) (bound : env.lookup name = some arg) :
    machine.ComesTo law steady env code id (· = arg) :=
  fun _ _ _ _ _ => .var unlimited node bound ⟨rfl, rfl, rfl⟩

/-- The operator and the operand come to values, and the one is applied to the other. -/
theorem ComesTo.apply (unlimited : machine.limit = none)
    (lists : machine.host.Lists) (stays : machine.host.Stays steady)
    (obeys : machine.Obeys law steady)
    {operator operand : NodeId} {goodFunc goodArg : Value → Prop}
    (node : code.arena.node? id = some (.apply operator operand))
    (operatorComes : machine.ComesTo law steady env code operator goodFunc)
    (operandComes : machine.ComesTo law steady env code operand goodArg)
    (application : ∀ waiting state catalog func arg called passed, goodFunc func → goodArg arg →
      Orderly machine.host law steady catalog state → func.Listed catalog → arg.Listed catalog →
        machine.Achieves waiting (.application env ⟨func, called⟩ ⟨arg, passed⟩) state
          (Quietly good state)) :
    machine.ComesTo law steady env code id good := by
  intro waiting state catalog orderly listed
  obtain ⟨_, func, middle, _, operatorCosts, isFunc, world, noCalls⟩ :=
    operatorComes (.argument env code operand :: waiting) _ _ (orderly.recount _) listed
  obtain ⟨later, kept⟩ :=
    operatorCosts.evaluates.keepsOrder lists stays obeys (orderly.recount _) listed
  obtain ⟨_, arg, ready, _, operandCosts, isArg, sameWorld, noMore⟩ :=
    operandComes (.call env func :: waiting) _ _ kept.orderly (kept.grows.env listed)
  obtain ⟨last, keptReady⟩ :=
    operandCosts.evaluates.keepsOrder lists stays obeys kept.orderly (kept.grows.env listed)
  obtain ⟨_, result, after, _, costs, holds, lastWorld, noneLeft⟩ :=
    application waiting ready last func.value arg.value func.cacheable arg.cacheable isFunc isArg
      keptReady.orderly (keptReady.grows.value (kept.listed _ rfl)) (keptReady.listed _ rfl)
  refine ⟨_, result, after, _, .applied (overLimit_of_unlimited unlimited _) node operatorCosts
    operandCosts costs, holds, lastWorld.trans (sameWorld.trans world), ?_⟩
  simp only [Effort.calls_add, Effort.visit, noCalls, noMore, noneLeft]

/-- A choice gets two values one after the other. -/
theorem ComesTo.choose (unlimited : machine.limit = none)
    (lists : machine.host.Lists) (stays : machine.host.Stays steady)
    (obeys : machine.Obeys law steady)
    (choices : ∀ func key value, law func key value → ChoiceLaw func key value)
    {halfNode operator operand last : NodeId} {kind : Value → Prop}
    (node : code.arena.node? id = some (.apply halfNode last))
    (inner : code.arena.node? halfNode = some (.apply operator operand))
    (selector : machine.ComesTo law steady env code operator kind)
    (chooses : ∀ value, kind value → value.Chooses chosen)
    (firstComes : machine.ComesTo law steady env code operand (· = first))
    (secondComes : machine.ComesTo law steady env code last (· = second)) :
    machine.ComesTo law steady env code id (· = cond chosen first second) := by
  have halfComes : machine.ComesTo law steady env code halfNode
      fun value => ∃ half, value = .closure half ∧ half.IsHalf chosen first := by
    refine .apply unlimited lists stays obeys inner selector firstComes ?_
    rintro waiting state catalog func _ called passed isSelector rfl orderly funcListed argListed
    obtain ⟨choice, rfl, isChoice⟩ := chooses func isSelector
    exact (orderly.weaken choices).keeps unlimited funcListed argListed isChoice called passed
  refine .apply unlimited lists stays obeys node halfComes secondComes ?_
  rintro waiting state catalog _ _ called passed ⟨half, rfl, isHalf⟩ rfl orderly funcListed
    argListed
  exact (orderly.weaken choices).chooses unlimited funcListed argListed isHalf called passed

end ComesTo

/-- A pair hands its components to the choice that it is applied to. -/
theorem Orderly.pairBody (unlimited : machine.limit = none)
    (lists : machine.host.Lists) (stays : machine.host.Stays steady)
    (orderly : Orderly machine.host ChoiceLaw steady catalog state)
    (pairListed : (Value.closure pair).Listed catalog)
    (choiceListed : (Value.closure choice).Listed catalog) (isPair : pair.IsPair first second)
    (isChoice : choice.IsChoice chosen) :
    machine.Achieves waiting (.body pair (.closure choice) state)
      (state.entering pair (.closure choice)).2 (Quietly (· = cond chosen first second) state) := by
  obtain ⟨half, last, head, operand, firstName, secondName, node, halfNode, headNode, operandNode,
    lastNode, notFirst, firstBound, notSecond, secondBound⟩ := isPair
  let inside := (state.entering pair (.closure choice)).1
  have paramBound : inside.lookup pair.param = some (.closure choice) := if_pos rfl
  have firstInside : inside.lookup firstName = some first := (if_neg notFirst).trans firstBound
  have secondInside : inside.lookup secondName = some second := (if_neg notSecond).trans secondBound
  have comes : machine.ComesTo ChoiceLaw steady inside pair.code pair.body
      (· = cond chosen first second) :=
    .choose unlimited lists stays (obeys_choiceLaw machine steady) (fun _ _ _ holds => holds) node
      halfNode (.var unlimited headNode paramBound) (fun value same => ⟨choice, same, isChoice⟩)
      (.var unlimited operandNode firstInside) (.var unlimited lastNode secondInside)
  exact comes waiting _ catalog (orderly.entering pair (.closure choice))
    (@Task.listed_body _ _ ⟨.closure choice, true⟩ pair pairListed choiceListed state)

theorem obeys_selectionLaw (lists : machine.host.Lists) (stays : machine.host.Stays steady) :
    machine.Obeys SelectionLaw steady := by
  intro waiting callee key state after found catalog orderly calleeListed keyListed ended cacheable
  have choices := orderly.weaken fun _ _ _ holds => holds.toChoiceLaw
  refine ⟨obeys_choiceLaw machine steady choices calleeListed keyListed ended cacheable, ?_⟩
  intro first second chosen isPair isChoice
  have achieves := @Orderly.pairBody _ (machine.withLimit none) waiting key callee first second chosen
    state steady catalog rfl lists stays choices calleeListed keyListed isPair isChoice
  obtain ⟨_, holds, _⟩ := achieves.of_evaluates ended
  exact holds

/-- A pair that is applied to a choice hands back the component itself. -/
theorem Orderly.takes (unlimited : machine.limit = none)
    (lists : machine.host.Lists) (stays : machine.host.Stays steady)
    (orderly : Orderly machine.host SelectionLaw steady catalog state)
    (pairListed : (Value.closure pair).Listed catalog)
    (choiceListed : (Value.closure choice).Listed catalog) (isPair : pair.IsPair first second)
    (isChoice : choice.IsChoice chosen) (called passed : Bool) :
    machine.Achieves waiting
      (.application env ⟨.closure pair, called⟩ ⟨.closure choice, passed⟩) state
      (Quietly (· = cond chosen first second) state) := by
  have choices := orderly.weaken fun _ _ _ holds => holds.toChoiceLaw
  refine .application called passed ?_ fun frames =>
    choices.pairBody unlimited lists stays pairListed choiceListed isPair isChoice
  rintro key hit ⟨⟩ found
  exact (orderly.lawful.lawful _ _ _ (Value.listed_closure.mp pairListed).1
    (Value.listed_closure.mp choiceListed).1 found).2.component first second chosen isPair isChoice

/-- From tables in order, an expression of selections comes to the instance that it selects: on what
it selects. -/
theorem comesTo_of_selects (unlimited : machine.limit = none)
    (lists : machine.host.Lists) (stays : machine.host.Stays steady) {code : Code} {id : NodeId}
    (selects : Selects env code.arena id good) :
    machine.ComesTo SelectionLaw steady env code id good := by
  have obeys : machine.Obeys SelectionLaw steady := obeys_selectionLaw lists stays
  induction selects with
  | name node bound => exact .var unlimited node bound
  | choice node inner leaf different =>
      intro waiting state catalog _ _
      exact .lambda unlimited node ⟨⟨_, rfl, _, _, inner, leaf, different⟩, rfl, rfl⟩
  | component node _ isPair _ chooses pairIh selectorIh =>
      refine .apply unlimited lists stays obeys node pairIh selectorIh ?_
      rintro waiting state catalog _ arg called passed rfl isSelector orderly pairListed argListed
      obtain ⟨pair, rfl, isPair⟩ := isPair
      obtain ⟨choice, rfl, isChoice⟩ := chooses arg isSelector
      exact orderly.takes unlimited lists stays pairListed argListed isPair isChoice called passed
  | chosen node halfNode _ chooses _ _ selectorIh firstIh secondIh =>
      exact .choose unlimited lists stays obeys (fun _ _ _ holds => holds.toChoiceLaw) node halfNode
        selectorIh chooses firstIh secondIh

end Bodies

end Machine

end LambdaMachine
