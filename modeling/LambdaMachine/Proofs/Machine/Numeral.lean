import LambdaMachine.Proofs.Machine.Iteration
import LambdaMachine.Proofs.Prelude.Blindness
import LambdaMachine.Proofs.Value.Numeral

/-!
Numerals are applied to a function and to a value. On the way to the first application instances are
made and a result may be recorded, which nothing that was there before can come to. From there on
the calls of the function wait on the stack, one for each that the numeral counts.
-/

namespace LambdaMachine

variable {World : Type}

namespace MachineState

def Beside (host : Host World) (alike : Heap → (Ident → Ident) → World → World → Prop)
    (ahead : Nat) (heap copy : Heap) (roots : Ident → Prop) (state image : MachineState World) :
    Prop :=
  ∃ label : Ident → Ident, (∀ ident, ident < heap.next → label ident = ident) ∧
    state.Mirrors host alike label ahead heap copy roots image

section Beside

variable {host : Host World} {alike : Heap → (Ident → Ident) → World → World → Prop} {ahead : Nat}
  {heap copy laterCopy : Heap} {roots : Ident → Prop} {state image : MachineState World}

theorem Beside.countStep (beside : state.Beside host alike ahead heap copy roots image) :
    state.Beside host alike (ahead + 1) heap copy roots image.countStep := by
  obtain ⟨label, same, mirrors⟩ := beside
  exact ⟨label, same, mirrors.stepAside⟩

theorem Beside.countSteps (beside : state.Beside host alike ahead heap copy roots image)
    (more : Nat) :
    state.Beside host alike (ahead + more) heap copy roots (MachineState.countStep^[more] image) := by
  induction more with
  | zero => exact beside
  | succ more ih =>
      rw [Function.iterate_succ_apply']
      exact ih.countStep

theorem Beside.issue (blind : host.Blind alike)
    (beside : state.Beside host alike ahead heap copy roots image)
    (copyGrows : copy.Grows laterCopy) (one : laterCopy.next = copy.next + 1) :
    state.Beside host alike ahead heap laterCopy roots
      { image with mint := image.mint.issue.2 } := by
  obtain ⟨label, same, mirrors⟩ := beside
  refine ⟨labelPast label heap.next, fun ident below => ?_, mirrors.aside blind copyGrows one⟩
  rw [labelPast_of_lt below, same ident below]

/-- The image binds a value. -/
theorem Beside.extend (blind : host.Blind alike)
    (beside : state.Beside host alike ahead heap copy roots image) {env : Env} {value : Value}
    (envInside : env.In copy) (valueInside : value.In copy) (name : NameId) :
    ∃ laterCopy, copy.Grows laterCopy ∧ (image.mint.extend env name value).1.In laterCopy ∧
      state.Beside host alike ahead heap laterCopy roots
        { image with mint := (image.mint.extend env name value).2 } := by
  obtain ⟨_, _, mirrors⟩ := id beside
  have inside : (Cell.binding name value env).Within copy.next copy.cells :=
    ⟨valueInside, envInside⟩
  have within := Heap.in_addBinding inside
  rw [mirrors.imageNext] at within
  exact ⟨_, Heap.grows_add, within, beside.issue blind Heap.grows_add rfl⟩

/-- The image makes a closure, for which nothing is recorded. -/
theorem Beside.closure (blind : host.Blind alike)
    (beside : state.Beside host alike ahead heap copy roots image) {env : Env} {code : Code}
    (envInside : env.In copy) (codeBelow : code.ident < copy.next) (param : NameId)
    (body : NodeId) :
    let made := image.mint.closure env param body code
    ∃ laterCopy, copy.Grows laterCopy ∧ made.1.In laterCopy ∧
      made.1.ident = copy.next ∧ (∀ key, image.memo.entry made.1.ident key = none) ∧
      state.Beside host alike ahead heap laterCopy roots { image with mint := made.2 } := by
  intro made
  obtain ⟨_, _, mirrors⟩ := id beside
  have inside : made.1.cell.Within copy.next copy.cells := ⟨codeBelow, envInside⟩
  refine ⟨_, Heap.grows_add, Heap.in_addClosure mirrors.imageNext.symm inside,
    mirrors.imageNext.symm, fun key => ?_, beside.issue blind Heap.grows_add rfl⟩
  exact Memo.entry_of_le mirrors.memo.imageInside.issued (.inl (Nat.le_of_eq mirrors.imageNext))

/-- The image records a result for a closure that cannot be come to. -/
theorem Beside.remember {machine : Machine World} (blind : machine.host.Blind alike)
    {waiting : List Frame} {callee key : Closure} {found : Found}
    (beside : state.Beside machine.host alike ahead heap copy roots image)
    (rests : machine.Rests copy (.memoize callee key :: waiting)) (env : found.env.In copy)
    (value : found.result.value.In copy) (known : callee.ident < heap.next)
    (apart : ¬state.Reaches machine.host heap roots callee.ident)
    (absent : ∀ other, image.memo.entry callee.ident other = none)
    (below : ∀ root, roots root → root < heap.next)
    (held : ∀ memo : Memo, ∀ root, roots root →
      memo.Reaches copy (machine.Holds (.memoize callee key :: waiting)) root) :
    state.Beside machine.host alike ahead heap copy roots
      (machine.remember true waiting callee key found image) := by
  obtain ⟨label, same, mirrors⟩ := beside
  obtain ⟨calleeInside, keyInside⟩ : callee.In copy ∧ key.In copy :=
    rests.frames (.memoize callee key) List.mem_cons_self
  have inserted := mirrors.memo.imageInside.insert calleeInside keyInside value
  have keptLinks := blind.keptLinks_eq mirrors.alike.worlds
  have lives (ident : Ident) (reaches : state.Reaches machine.host heap roots ident) :
      (machine.aliveAt waiting callee key found image
        (image.memo.insert callee key found.result.value)).contains (label ident) = true := by
    refine @Machine.Rests.contains_aliveAt _ machine _ _ _ _ _ rests _ env value _ inserted _
      (blind.keeps_image mirrors.alike.worlds mirrors.copied)
      (Rooted (machine.Holds _) (machine.host.keptLinks image.world))
      (fun _ isRoot => isRoot.imp_right .inr)
      ((mirrors.memo.reaches mirrors.copied reaches).transfer ?_ ?_)
    · rintro _ ⟨root, isRoot | kept, rfl⟩
      · rw [same root (below root isRoot)]
        exact (held _ root isRoot).transfer (fun _ holds => .root (.inl holds))
          fun _ _ _ recorded => .inl recorded
      · exact .root (.inr (keptLinks ▸ List.mem_map_of_mem kept))
    · intro owner other value recorded
      refine .inl ?_
      rw [Memo.entry_insert, if_neg, recorded]
      rintro ⟨rfl, _⟩
      cases (absent other).symm.trans recorded
  rw [Machine.remember]
  split
  · exact ⟨label, same, mirrors.copied, mirrors.next, mirrors.imageNext, mirrors.names,
      mirrors.memo.recordAside mirrors.copied calleeInside keyInside value
        (same callee.ident known).symm apart lives,
      ⟨mirrors.alike.steps, mirrors.alike.hits, mirrors.alike.calls, mirrors.alike.worlds⟩⟩
  · exact ⟨label, same, mirrors⟩

end Beside

end MachineState

/-- The program applies the value of a name to two values, one after the other, that are bound to
other names. -/
def Program.Applies (program : Program) (name : NameId) (outer : Env) (func arg : Value) : Prop :=
  ∃ funcName argName, name ≠ funcName ∧ name ≠ argName ∧ outer.lookup funcName = some func ∧
    outer.lookup argName = some arg ∧ program.arena.tree? program.root =
      some (.apply (.apply (.var name) (.var funcName)) (.var argName))

namespace Machine

variable {machine : Machine World} {env : Env} {code : Code} {waiting : List Frame}
  {state : MachineState World}

def Allows (machine : Machine World) (more : Nat) (state : MachineState World) : Prop :=
  machine.overLimit (Counters.bump^[more] state.counters.steps) = none

section Allows

variable {more : Nat}

theorem Allows.fewer {fewer : Nat} (allows : machine.Allows more state) (le : fewer ≤ more) :
    machine.Allows fewer state :=
  within_of_le rfl (Counters.iterate_bump_le le _) allows

theorem Allows.node (allows : machine.Allows (more + 1) state) :
    machine.overLimit state.countStep.counters.steps = none :=
  allows.fewer (Nat.succ_le_succ (Nat.zero_le more))

theorem Allows.countStep (allows : machine.Allows (more + 1) state) :
    machine.Allows more state.countStep :=
  allows

theorem Allows.of_steps {after : MachineState World} (allows : machine.Allows more state)
    (steps : after.counters.steps = state.counters.steps) : machine.Allows more after := by
  rw [Allows, steps]
  exact allows

theorem allows_of_unlimited (unlimited : machine.limit = none) (more : Nat)
    (state : MachineState World) : machine.Allows more state :=
  overLimit_of_unlimited unlimited _

end Allows

/-- On its way to the variable that it starts with, a node that iterates leaves a call for each
iteration: on the number of iterations. -/
theorem follows_iterates {func start : NameId} {f first : Value}
    (isFunc : env.lookup func = some f) (isStart : env.lookup start = some first) {count : Nat}
    {id : NodeId} (iterates : code.arena.Iterates func start count id)
    (allows : machine.Allows (2 * count + 1) state) :
    machine.Follows (.moved (.node env code id) waiting state)
      (.moved (.value env ⟨first, true⟩)
        (List.replicate count (.call env ⟨f, true⟩) ++ waiting)
        (MachineState.countStep^[2 * count + 1] state)) := by
  induction count generalizing id waiting state with
  | zero => exact (Evaluates.variable allows.node iterates isStart).follows
  | succ count ih =>
      obtain ⟨head, rest, node, isHead, inner⟩ := iterates
      have operand : machine.Follows (.moved (.node env code id) waiting state) _ :=
        follows_operand allows.node node (.variable allows.countStep.node isHead isFunc)
      rw [List.replicate_succ', List.append_assoc]
      exact operand.trans (ih inner allows.countStep.countStep)

section Half

variable {alike : Heap → (Ident → Ident) → World → World → Prop} {ahead : Nat} {heap copy : Heap}
  {roots : Ident → Prop} {image : MachineState World} {number : Closure} {func : Value}
  {start : NameId} {inner : NodeId}

structure IsHalf (number : Closure) (func : Value) (start : NameId) (inner : NodeId)
    (half : Closure) : Prop where
  param : half.param = start
  body : half.body = inner
  code : half.code = number.code
  bound : half.env.lookup number.param = some func

theorem entry_remember_eq_none {callee key : Closure} {found : Found} {owner other : Ident}
    (different : callee.ident ≠ owner) (absent : state.memo.entry owner other = none) :
    (machine.remember true waiting callee key found state).memo.entry owner other = none := by
  rcases machine.memo_remember true waiting callee key found state with
    same | ⟨_, alive, recorded⟩
  · rw [same, absent]
  · rw [recorded]
    refine Option.eq_none_iff_forall_ne_some.mpr fun value found => ?_
    rcases Memo.entry_of_entry_record found with ⟨same, _⟩ | before
    · exact different same
    · cases absent.symm.trans before

/-- A numeral that nothing can come to is applied to a function: a closure is made, and if the
function is a closure it is recorded. -/
theorem exists_half (blind : machine.host.Blind alike)
    (beside : state.Beside machine.host alike ahead heap copy roots image)
    (rests : machine.Rests copy waiting) (allows : machine.Allows 1 image)
    (numberInside : number.In copy) (funcInside : func.In copy)
    (node : number.code.arena.node? number.body = some (.lambda start inner))
    (known : number.ident < heap.next) (apart : ¬state.Reaches machine.host heap roots number.ident)
    (absent : ∀ key, image.memo.entry number.ident key = none)
    (below : ∀ root, roots root → root < heap.next)
    (held : ∀ (memo : Memo) (later : Heap) (root : Ident), copy.Grows later → roots root →
      memo.Reaches later (machine.Holds waiting) root) (outer : Env) :
    ∃ (origin : Env) (half : Closure) (ready : MachineState World) (laterCopy : Heap),
      machine.Evaluates true waiting (.application outer ⟨.closure number, true⟩ ⟨func, true⟩) image
          (.ok ⟨origin, ⟨.closure half, true⟩⟩) ready ∧
        copy.Grows laterCopy ∧ IsHalf number func start inner half ∧ half.In laterCopy ∧
        (∀ key, ready.memo.entry half.ident key = none) ∧
        ready.counters.steps = image.countStep.counters.steps ∧
        state.Beside machine.host alike (ahead + 1) heap laterCopy roots ready := by
  obtain ⟨found, codeBelow, envInside⟩ := Closure.within_iff.mp numberInside
  obtain ⟨boundCopy, toBound, boundInside, bound⟩ :=
    beside.extend blind envInside funcInside number.param
  obtain ⟨laterCopy, toLater, halfInside, fresh, noEntries, made⟩ := bound.countStep.closure blind
    boundInside (Nat.lt_of_lt_of_le codeBelow toBound.le) start inner
  let entered := image.entering number func
  let half := entered.2.mint.closure entered.1 start inner number.code
  let last : MachineState World := { entered.2.countStep with mint := half.2 }
  have grows := toBound.trans toLater
  have isHalf : IsHalf number func start inner half.1 := ⟨rfl, rfl, rfl, if_pos rfl⟩
  have body (frames : List Frame) : machine.Evaluates true frames (.body number func image)
      entered.2 (.ok ⟨entered.1, ⟨.closure half.1, true⟩⟩) last :=
    .abstraction allows.node node
  by_cases isClosure : ∃ key, func = .closure key
  · obtain ⟨key, rfl⟩ := isClosure
    have keyInside := Value.within_closure.mp funcInside
    have frame : (Frame.memoize number key).In copy := ⟨numberInside, keyInside⟩
    let passed : Found := ⟨entered.1, ⟨.closure half.1, true⟩⟩
    have remembered : state.Beside machine.host alike (ahead + 1) heap laterCopy roots
        (machine.remember true waiting number key passed last) :=
      made.remember blind ((rests.push frame).mono grows) (Env.In.mono toLater boundInside)
        (Value.within_closure.mpr halfInside) known apart absent below
        fun memo root isRoot => (held memo laterCopy root grows isRoot).transfer
          (fun _ holds => .root holds.push) fun _ _ _ recorded => .inl recorded
    have older : number.ident < half.1.ident :=
      fresh ▸ Nat.lt_of_lt_of_le (copy.bounded _ _ found) toBound.le
    have kept := @kept_rememberOutcome _ machine waiting number key
      (.ok ⟨entered.1, ⟨.closure half.1, true⟩⟩) last
    exact ⟨_, half.1, _, laterCopy, .missed rfl rfl rfl (absent key.ident) (body _), grows, isHalf,
      halfInside, fun other => entry_remember_eq_none (Nat.ne_of_lt older) (noEntries other),
      kept.steps, remembered⟩
  · exact ⟨_, half.1, last, laterCopy, .entered rfl rfl (fun key same => isClosure ⟨key, same⟩)
      (body _), grows, isHalf, halfInside, noEntries, rfl, made⟩

/-- A closure for which nothing is recorded is entered. -/
theorem exists_begin {callee : Closure} {arg : Value} {outer : Env}
    (absent : ∀ key, state.memo.entry callee.ident key = none) :
    ∃ frames, machine.apply outer ⟨.closure callee, true⟩ ⟨arg, true⟩ [] state =
        machine.begin frames (.body callee arg state) (state.entering callee arg).2 ∧
      machine.OnlyRecords frames ∧
      ∀ heap, callee.In heap → arg.In heap → ∀ frame ∈ frames, frame.In heap := by
  by_cases isClosure : ∃ key, arg = .closure key
  · obtain ⟨key, rfl⟩ := isClosure
    refine ⟨[.memoize callee key], apply_missed rfl rfl rfl (absent key.ident),
      onlyRecords_memoize callee key, fun heap calleeInside keyInside frame among => ?_⟩
    cases List.mem_singleton.mp among
    exact ⟨calleeInside, Value.within_closure.mp keyInside⟩
  · exact ⟨[], apply_entered rfl rfl fun key same => isClosure ⟨key, same⟩, onlyRecords_nil,
      fun _ _ _ _ among => (List.not_mem_nil among).elim⟩

end Half

section Calls

variable {alike : Heap → (Ident → Ident) → World → World → Prop} {ahead count : Nat}
  {heap copy : Heap} {image : MachineState World} {number : Closure} {func arg : Value}
  {outer : Env}

/-- When a numeral is applied to a function and a value, the value gets to a stack of calls of that
function. -/
theorem exists_follows_calls (blind : machine.host.Blind alike)
    (beside : state.Beside machine.host alike ahead heap copy (· ∈ outer.link) image)
    (rests : machine.Rests copy []) (allows : machine.Allows (2 * count + 7) image)
    (isNumeral : number.IsNumeral count) {ident : Ident} {name funcName argName : NameId}
    (env : Env) (isEnv : env = outer.extend ident name (.closure number))
    (envInside : env.In copy) (outerInside : outer.In heap)
    {id : NodeId} (applies : code.arena.tree? id =
      some (.apply (.apply (.var name) (.var funcName)) (.var argName)))
    (isFunc : env.lookup funcName = some func) (isArg : env.lookup argName = some arg)
    (known : number.ident < heap.next)
    (apart : ¬state.Reaches machine.host heap (· ∈ outer.link) number.ident)
    (absent : ∀ key, image.memo.entry number.ident key = none) :
    ∃ (inner : Env) (frames : List Frame) (ready : MachineState World) (laterCopy : Heap),
      machine.Follows (.moved (.node env code id) [] image)
          (.moved (.value inner ⟨arg, true⟩)
            (List.replicate count (.call inner ⟨func, true⟩) ++ frames) ready) ∧
        machine.OnlyRecords frames ∧ copy.Grows laterCopy ∧ inner.In laterCopy ∧
        machine.Rests laterCopy frames ∧
        state.Beside machine.host alike (ahead + (2 * count + 7)) heap laterCopy (· ∈ outer.link)
          ready := by
  obtain ⟨half, last, node, halfDenoted, lastDenoted⟩ := Arena.node?_of_apply applies
  obtain ⟨head, operand, halfNode, headDenoted, operandDenoted⟩ := Arena.node?_of_apply halfDenoted
  have headNode := Arena.node?_of_var headDenoted
  have operandNode := Arena.node?_of_var operandDenoted
  have lastNode := Arena.node?_of_var lastDenoted
  obtain ⟨start, body, lambda, different, iterates⟩ := isNumeral
  have isNumber : env.lookup name = some (.closure number) := by rw [isEnv]; exact if_pos rfl
  have numberInside := Value.within_closure.mp (Env.Within.lookup envInside isNumber)
  have funcInside := Env.Within.lookup envInside isFunc
  have argInside := Env.Within.lookup envInside isArg
  have below (root : Ident) (isRoot : root ∈ outer.link) : root < heap.next := by
    obtain ⟨cell, found⟩ := outerInside.linked isRoot
    exact heap.bounded root cell found
  have held (memo : Memo) (later : Heap) (root : Ident) (grows : copy.Grows later)
      (isRoot : root ∈ outer.link) :
      memo.Reaches later (machine.Holds [.argument env code last]) root := by
    have inside := Env.In.mono grows envInside
    rw [isEnv] at inside
    refine .part (.root (holds_frame ?_)) (Env.within_extend.mp inside).1
      (List.mem_append_right _ isRoot)
    rw [isEnv]
    exact List.mem_singleton.mpr rfl
  have argument : (Frame.argument env code last).In copy := envInside
  have counted := beside.countStep.countStep.countStep.countStep
  have spare := allows.countStep.countStep.countStep.countStep
  obtain ⟨origin, closure, middle, middleCopy, application, toMiddle, isHalf, closureInside,
    noEntries, steps, made⟩ := exists_half blind counted (rests.push argument)
      (spare.fewer (Nat.le_add_left 1 _)) numberInside funcInside lambda known apart absent below
      held env
  have operator := Evaluates.applied allows.countStep.node halfNode
    (.variable allows.countStep.countStep.node headNode isNumber)
    (.variable allows.countStep.countStep.countStep.node operandNode isFunc) application
  have counted : machine.Allows (2 * count + 2) middle := spare.countStep.of_steps steps
  have applied := follows_application allows.node node operator
    (.variable counted.node lastNode isArg)
  obtain ⟨frames, begins, records, framesInside⟩ :=
    @exists_begin _ machine middle.countStep closure arg env noEntries
  obtain ⟨laterCopy, toLater, innerInside, ready⟩ := made.countStep.extend blind
    (Closure.within_iff.mp closureInside).2.2 (Value.In.mono toMiddle argInside) closure.param
  have inside : closure.code.arena.Iterates number.param start count closure.body := by
    rw [isHalf.code, isHalf.body]
    exact iterates
  let entered := middle.countStep.entering closure arg
  have boundFunc : entered.1.lookup number.param = some func := by
    rw [← isHalf.bound]
    exact if_neg fun same => different (same.symm.trans isHalf.param)
  have boundArg : entered.1.lookup start = some arg := if_pos isHalf.param
  have onward := @follows_iterates _ machine entered.1 closure.code frames entered.2 _ _ _ _
    boundFunc boundArg count closure.body inside counted.countStep
  rw [begins] at applied
  have ahead_eq : ahead + (2 * count + 7) = ahead + 1 + 1 + 1 + 1 + 1 + 1 + (2 * count + 1) := by
    omega
  refine ⟨_, frames, _, laterCopy, applied.trans onward, records, toMiddle.trans toLater,
    innerInside, ?_, ahead_eq ▸ ready.countSteps _⟩
  have grows := toMiddle.trans toLater
  have framed := (rests.mono grows).append (framesInside laterCopy
    (Closure.In.mono toLater closureInside) (Value.In.mono grows argInside))
  rw [List.append_nil] at framed
  exact framed

end Calls

section Numeral

variable {base : Machine World} {alike : Heap → (Ident → Ident) → World → World → Prop}
  {outer : Env} {count : Nat}

/-- The machine holds nothing but the environment and what the other machine holds. -/
structure Retains (machine base : Machine World) (env : Env) : Prop where
  envs : ∀ other ∈ machine.held.envs, other = env ∨ other ∈ base.held.envs
  values : ∀ value ∈ machine.held.values, value ∈ base.held.values

theorem Rests.retain {heap : Heap} (rests : base.Rests heap []) (retains : machine.Retains base env)
    (inside : env.In heap) : machine.Rests heap [] := by
  refine ⟨fun other among => ?_, fun value among => rests.values value (retains.values value among),
    rests.frames⟩
  rcases retains.envs other among with rfl | held
  · exact inside
  · exact rests.envs other held

def bindNumeral (count : Nat) (name : NameId) (outer : Env) (state : MachineState World) :
    Env × MachineState World :=
  let made := Church.numeral count state.mint
  let bound := made.2.extend outer name made.1
  (bound.1, { state with mint := bound.2 })

structure Bound (machine : Machine World)
    (alike : Heap → (Ident → Ident) → World → World → Prop) (outer : Env)
    (state : MachineState World) (count : Nat) (name : NameId) (heap : Heap) (number : Closure) :
    Prop where
  counts : number.IsNumeral count
  env : (bindNumeral count name outer state).1.In heap
  rests : machine.Rests heap []
  known : number.ident < heap.next
  apart : ¬state.Reaches machine.host heap (· ∈ outer.link) number.ident
  absent : ∀ key, state.memo.entry number.ident key = none
  binds : ∃ ident, (bindNumeral count name outer state).1 =
    outer.extend ident name (.closure number)
  outerInside : outer.In heap
  beside : (bindNumeral count name outer state).2.Beside machine.host alike 0 heap heap (· ∈ outer.link)
    (bindNumeral count name outer state).2

theorem exists_bound (blind : machine.host.Blind alike)
    (consistent : base.Consistent alike outer state) (coherent : state.mint.names.Coherent)
    (count : Nat) (name : NameId)
    (retains : machine.Retains base (bindNumeral count name outer state).1) :
    ∃ heap number, Bound machine alike outer state count name heap number := by
  obtain ⟨heap, next, rests, outerInside, memoInside, settled⟩ := consistent
  obtain ⟨number, made, counts⟩ := Church.exists_isNumeral count coherent
  obtain ⟨middle, toMiddle, middleNext, madeInside⟩ := @Church.makes_numeral _ _ next count
  obtain ⟨later, toLater, laterNext, boundInside⟩ := Mint.makes_extend middleNext name
    (Env.In.mono toMiddle outerInside) madeInside
  have fresh : heap.next ≤ number.ident := next ▸ Church.le_ident_numeral made
  rw [made] at madeInside
  have grows := toMiddle.trans toLater
  have numberInside := Value.In.mono toLater madeInside
  refine ⟨later, number, counts, boundInside, (rests.mono grows).retain retains boundInside, ?_,
    fun reaches => ?_, fun key => ?_, ⟨_, congrArg (outer.extend _ name) made⟩,
    Env.In.mono grows outerInside, id, fun _ _ => rfl, later.copied_refl, laterNext, laterNext,
    rfl, Memo.mirrors_refl (memoInside.mono grows), ⟨rfl, rfl, rfl, blind.grows grows settled⟩⟩
  · exact later.bounded _ _ (Closure.within_iff.mp (Value.within_closure.mp numberInside)).1
  · have old := reaches.lt memoInside grows fun _ isRoot => isRoot.elim outerInside.linked
      fun kept => have ⟨value, among, linked⟩ := List.mem_flatMap.mp kept
        (blind.keeps settled value among).linked linked
    exact absurd old (Nat.not_lt.mpr fresh)
  · exact Memo.entry_of_le memoInside.issued (.inl fresh)

section Tied

variable {name : NameId} {func arg : Value} {program : Program} {heap : Heap} {number : Closure}

/-- A program that applies a new numeral gets to a stack of calls, or is stopped before. -/
theorem Bound.exists_follows_calls (bound : Bound machine alike outer state count name heap number)
    (blind : machine.host.Blind alike) (applies : program.Applies name outer func arg)
    {limit : Option Nat}
    (allows : (machine.withLimit limit).Allows (2 * count + 7)
      (bindNumeral count name outer state).2) :
    let begun := bindNumeral count name outer state
    ∃ (inner : Env) (frames : List Frame) (ready : MachineState World) (copy : Heap),
      (machine.withLimit limit).Follows
          (.moved (.node begun.1 ⟨begun.2.mint.nextIdent, program.arena⟩ program.root) []
            { begun.2 with mint := begun.2.mint.issue.2 })
          (.moved (.value inner ⟨arg, true⟩)
            (List.replicate count (.call inner ⟨func, true⟩) ++ frames) ready) ∧
        (machine.withLimit limit).OnlyRecords frames ∧ inner.In copy ∧
        (machine.withLimit limit).Rests copy frames ∧
        begun.2.Beside machine.host alike (2 * count + 7) heap copy (· ∈ outer.link) ready := by
  intro begun
  have grows := heap.grows_skip 1
  obtain ⟨ident, isEnv⟩ := bound.binds
  obtain ⟨funcName, argName, notFunc, notArg, isFunc, isArg, denoted⟩ := applies
  have rests : (machine.withLimit limit).Rests (heap.skip 1) [] :=
    ⟨(bound.rests.mono grows).envs, (bound.rests.mono grows).values,
      (bound.rests.mono grows).frames⟩
  have boundFunc : begun.1.lookup funcName = some func := by
    rw [isEnv, Env.lookup_extend, if_neg notFunc, isFunc]
  have boundArg : begun.1.lookup argName = some arg := by
    rw [isEnv, Env.lookup_extend, if_neg notArg, isArg]
  obtain ⟨inner, frames, ready, copy, follows, records, _, innerInside, framesInside, beside⟩ :=
    @Machine.exists_follows_calls _ (machine.withLimit limit)
      ⟨begun.2.mint.nextIdent, program.arena⟩ _ _ _ _ _ _ _ _ _ _ _ blind
      (bound.beside.issue blind grows rfl) rests allows bound.counts ident name _ _ begun.1 isEnv
      (Env.In.mono grows bound.env) bound.outerInside program.root denoted boundFunc boundArg
      bound.known bound.apart bound.absent
  rw [Nat.zero_add] at beside
  exact ⟨inner, frames, ready, copy, follows, records, innerInside, framesInside, beside⟩

theorem Bound.tied (bound : Bound machine alike outer state count name heap number)
    (blind : machine.host.Blind alike)
    (applies : program.Applies name outer func arg) (limit : Option Nat) {imageLimit : Option Nat}
    (allows : (machine.withLimit imageLimit).Allows (2 * count + 7)
      (bindNumeral count name outer state).2) :
    let begun := bindNumeral count name outer state
    (machine.withLimit limit).Tied (machine.withLimit imageLimit) alike (2 * count + 7)
      (fun ending final => ∃ result, (machine.withLimit limit).TimesEnds ⟨func, true⟩ count
        ⟨arg, true⟩ begun.2 result final ∧ ending = result.map (·.value))
      (fun outcome after => (machine.withLimit imageLimit).Halts
        (.node begun.1 ⟨begun.2.mint.nextIdent, program.arena⟩ program.root) []
        { begun.2 with mint := begun.2.mint.issue.2 } (outcome.map (·.result)) after) := by
  intro begun
  obtain ⟨inner, frames, ready, copy, follows, records, innerInside, framesInside, label, same,
    mirrors⟩ := bound.exists_follows_calls blind applies allows
  obtain ⟨_, _, _, _, isFunc, isArg, _⟩ := applies
  have funcInside := Env.Within.lookup bound.outerInside isFunc
  have argInside := Env.Within.lookup bound.outerInside isArg
  have unchanged {value : Value} (inside : value.In heap) : value.relabel label = value :=
    (show _ = value.relabel id from Value.Within.relabel_congr same inside).trans value.relabel_id
  have reached {source : NameId} {value : Value} (found : outer.lookup source = some value)
      (link : Ident) (among : link ∈ value.link) :
      begun.2.Reaches machine.host heap (· ∈ outer.link) link :=
    Memo.Reaches.lookup bound.outerInside (fun _ linked => .root (.inl linked)) found link among
  have rests : (machine.withLimit limit).Rests heap [] :=
    ⟨bound.rests.envs, bound.rests.values, bound.rests.frames⟩
  have sameHost : (machine.withLimit imageLimit).host = (machine.withLimit limit).host := rfl
  have calls : begun.2.Mirrors machine.host alike label (2 * count + 7) heap copy
      (Rooted (Pending count func) arg.link) ready := mirrors.reroot ?_
  have tied := @tied_calls _ (machine.withLimit limit) _ _ _ _ _ _ ⟨func, true⟩ ⟨arg, true⟩ inner
    inner _ _ _ sameHost blind records count funcInside argInside innerInside rests framesInside
    calls
  · simp only [Evaluated.relabel, unchanged funcInside, unchanged argInside] at tied
    exact Eq.mp (congrArg _ (funext fun _ => funext fun _ => propext follows.halts_iff.symm)) tied
  · rintro root (⟨_, linked⟩ | linked)
    · exact reached isFunc root linked
    · exact reached isArg root linked

end Tied

section Agreement

variable {name : NameId} {func arg : Value} {program : Program}

theorem numeral_agrees (blind : machine.host.Blind alike) (unlimited : machine.limit = none)
    (consistent : base.Consistent alike outer state) (coherent : state.mint.names.Coherent)
    (count : Nat)
    (retains : machine.Retains base (bindNumeral count name outer state).1)
    (applies : program.Applies name outer func arg) :
    let begun := bindNumeral count name outer state
    machine.AgreesInOrder alike (2 * count + 7)
      (fun fuel => machine.evaluateProgram fuel begun.1 program begun.2)
      (fun fuel => machine.iterate fuel ⟨func, true⟩ count ⟨arg, true⟩ begun.2) := by
  intro begun
  obtain ⟨heap, number, bound⟩ := exists_bound blind consistent coherent count name retains
  have allows : (machine.withLimit machine.limit).Allows (2 * count + 7) begun.2 :=
    allows_of_unlimited unlimited _ _
  exact (bound.tied blind applies machine.limit allows).agreesInOrder
    (computes_evaluate_halts _ _ _ _ _) (computes_iterate _ _ _ _ _)

theorem numeral_keeps_up (blind : machine.host.Blind alike)
    (consistent : base.Consistent alike outer state) (coherent : state.mint.names.Coherent)
    (count : Nat)
    (retains : machine.Retains base (bindNumeral count name outer state).1)
    (applies : program.Applies name outer func arg) :
    let begun := bindNumeral count name outer state
    machine.KeepsUp alike (2 * count + 7)
      (fun machine fuel => machine.evaluateProgram fuel begun.1 program begun.2)
      (fun machine fuel => machine.iterate fuel ⟨func, true⟩ count ⟨arg, true⟩ begun.2) := by
  intro begun limit larger ending outcome final after inOrderSettles evaluatedSettles room
  obtain ⟨heap, number, bound⟩ := exists_bound blind consistent coherent count name retains
  have orders := computes_iterate (machine.withLimit limit) ⟨func, true⟩ count ⟨arg, true⟩ begun.2
  obtain ⟨_, ended, _⟩ := orders.of_settles inOrderSettles
  have fits := Nat.le_trans (Counters.iterate_bump_mono (2 * count + 7) ended.proceeds.steps) room
  have allows : (machine.withLimit (some larger)).Allows (2 * count + 7) begun.2 :=
    if_neg (Nat.not_lt.mpr fits)
  exact (bound.tied blind applies limit allows).precedes
    (computes_evaluate_halts _ _ _ _ _) orders rfl rfl inOrderSettles evaluatedSettles room

/-- Zero hands back its second argument, which is the very same instance. -/
theorem zero_returns (blind : machine.host.Blind alike) (unlimited : machine.limit = none)
    (consistent : base.Consistent alike outer state) (coherent : state.mint.names.Coherent)
    (retains : machine.Retains base (bindNumeral 0 name outer state).1)
    (applies : program.Applies name outer func arg) :
    let begun := bindNumeral 0 name outer state
    ∃ after, Settles (fun fuel => machine.evaluateProgram fuel begun.1 program begun.2)
      (.ok arg, after) := by
  intro begun
  obtain ⟨heap, number, bound⟩ := exists_bound blind consistent coherent 0 name retains
  have allows : (machine.withLimit machine.limit).Allows 7 begun.2 :=
    allows_of_unlimited unlimited _ _
  obtain ⟨inner, frames, ready, _, follows, records, _⟩ :=
    bound.exists_follows_calls blind applies allows
  obtain ⟨after, halts, _⟩ := records ⟨inner, ⟨arg, true⟩⟩ ready
  have computes := computes_evaluate_halts machine begun.1
    ⟨begun.2.mint.nextIdent, program.arena⟩ program.root
    { begun.2 with mint := begun.2.mint.issue.2 }
  exact ⟨after, computes.settles _ _ ⟨.ok ⟨inner, ⟨arg, true⟩⟩, follows.halts_iff.mpr halts, rfl⟩⟩

end Agreement

end Numeral

end Machine

end LambdaMachine
