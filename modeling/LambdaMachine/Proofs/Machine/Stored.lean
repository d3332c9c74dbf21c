import LambdaMachine.Proofs.Machine.Image
import LambdaMachine.Proofs.Memo.Mirroring

/-!
Steps keep to one heap. All that the machine works on, what waits, the results in the tables and what
the host keeps are in a heap that grows with every instance that is made, so no identity ever belongs
to two instances.
-/

namespace LambdaMachine

def Focus.Stored (heap : Heap) : Focus → Prop
  | .node env code _ => env.In heap ∧ code.ident < heap.next
  | .value env result => env.In heap ∧ result.value.In heap

def Frame.Stored (heap : Heap) : Frame → Prop
  | .argument env code _ => env.In heap ∧ code.ident < heap.next
  | frame => frame.In heap

theorem Frame.Stored.mono {heap later : Heap} {frame : Frame} (stored : frame.Stored heap)
    (grows : heap.Grows later) : frame.Stored later := by
  cases frame with
  | argument env code arg =>
      exact ⟨Env.In.mono grows stored.1, Nat.lt_of_lt_of_le stored.2 grows.le⟩
  | call env func => exact @Frame.In.mono _ _ (.call env func) grows stored
  | memoize func arg => exact @Frame.In.mono _ _ (.memoize func arg) grows stored
  | taint => trivial

namespace Machine

variable {World : Type}

structure Stored (alike : Heap → (Ident → Ident) → World → World → Prop) (heap : Heap)
    (focus : Focus) (stack : List Frame) (state : MachineState World) : Prop where
  next : heap.next = state.mint.nextIdent
  focus : focus.Stored heap
  stack : ∀ frame ∈ stack, frame.Stored heap
  memo : state.memo.In heap
  world : Settled alike heap state.world

end Machine

def Transition.Stored {World : Type} (alike : Heap → (Ident → Ident) → World → World → Prop)
    (heap : Heap) : Transition World → Prop
  | .moved focus stack state =>
      ∃ later, heap.Grows later ∧ Machine.Stored alike later focus stack state
  | .halted outcome state => ∃ later, heap.Grows later ∧ later.next = state.mint.nextIdent ∧
      state.memo.In later ∧ Settled alike later state.world ∧
        ∀ result, outcome = .ok result → result.value.In later

namespace Machine

variable {World : Type} {machine : Machine World}
  {alike : Heap → (Ident → Ident) → World → World → Prop} {heap : Heap} {env : Env} {code : Code}
  {id : NodeId} {func arg result : Evaluated} {stack : List Frame} {state : MachineState World}

theorem stored_error (next : heap.next = state.mint.nextIdent) (memo : state.memo.In heap)
    (settled : Settled alike heap state.world) (error : EvalError) :
    (Transition.halted (.error error) state).Stored alike heap :=
  ⟨heap, .refl heap, next, memo, settled, by rintro result ⟨⟩⟩

theorem Stored.stays {focus : Focus} (stored : Stored alike heap focus stack state) :
    (Transition.moved focus stack state).Stored alike heap :=
  ⟨heap, .refl heap, stored⟩

theorem stored_evalNode (blind : machine.host.Blind alike)
    (stored : Stored alike heap (.node env code id) stack state) :
    (evalNode env code id stack state).Stored alike heap := by
  obtain ⟨next, ⟨envInside, codeBelow⟩, each, memo, settled⟩ := stored
  cases node : code.arena.node? id with
  | none =>
      simp only [evalNode, node]
      exact stored_error next memo settled _
  | some term =>
      cases term with
      | var name =>
          simp only [evalNode, node]
          cases bound : env.lookup name with
          | none => exact stored_error next memo settled _
          | some value =>
              exact Stored.stays ⟨next, ⟨envInside, Env.Within.lookup envInside bound⟩, each, memo,
                settled⟩
      | lambda param body =>
          simp only [evalNode, node]
          let made := state.mint.closure env param body code
          have inside : made.1.cell.Within heap.next heap.cells := ⟨codeBelow, envInside⟩
          have grows : heap.Grows (heap.add made.1.cell inside) := Heap.grows_add
          exact ⟨_, grows, congrArg (· + 1) next, ⟨Env.In.mono grows envInside,
            Value.within_closure.mpr (Heap.in_addClosure next.symm inside)⟩,
            fun frame among => (each frame among).mono grows, memo.mono grows,
            blind.grows grows settled⟩
      | apply operator operand =>
          simp only [evalNode, node]
          exact Stored.stays ⟨next, ⟨envInside, codeBelow⟩,
            List.forall_mem_cons.mpr ⟨⟨envInside, codeBelow⟩, each⟩, memo, settled⟩

/-- The body of a closure is entered with one more binding. -/
theorem stored_enter (blind : machine.host.Blind alike) {callee : Closure} {value : Value}
    (next : heap.next = state.mint.nextIdent) (calleeInside : callee.In heap)
    (valueInside : value.In heap) (each : ∀ frame ∈ stack, frame.Stored heap)
    (memo : state.memo.In heap) (settled : Settled alike heap state.world) :
    (enter callee value stack state).Stored alike heap := by
  obtain ⟨_, codeBelow, envInside⟩ := Closure.within_iff.mp calleeInside
  obtain ⟨⟨names, ident⟩, tables, counters, world⟩ := state
  obtain rfl : heap.next = ident := next
  have inside : (Cell.binding callee.param value callee.env).Within heap.next heap.cells :=
    ⟨valueInside, envInside⟩
  have grows : heap.Grows (heap.add _ inside) := Heap.grows_add
  exact ⟨_, grows, rfl, ⟨Heap.in_addBinding inside, Nat.lt_of_lt_of_le codeBelow grows.le⟩,
    fun frame among => (each frame among).mono grows, memo.mono grows, blind.grows grows settled⟩

theorem stored_callBuiltin (blind : machine.host.Blind alike) {function : Builtin} {value : Value}
    (next : heap.next = state.mint.nextIdent) (envInside : env.In heap)
    (functionInside : (Value.builtin function).In heap) (valueInside : value.In heap)
    (cacheable : Bool) (each : ∀ frame ∈ stack, frame.Stored heap) (memo : state.memo.In heap)
    (settled : Settled alike heap state.world) :
    (machine.callBuiltin env function value cacheable stack state).Stored alike heap := by
  obtain ⟨later, grows, laterNext, inside, settledThen⟩ :=
    blind.settles next (Value.within_builtin.mp functionInside) valueInside settled
  rw [callBuiltin]
  split
  · rename_i result answered
    exact ⟨later, grows, laterNext, ⟨Env.In.mono grows envInside, inside result answered⟩,
      fun frame among => (each frame among).mono grows, memo.mono grows, settledThen⟩
  · exact ⟨later, grows, laterNext, memo.mono grows, settledThen, by rintro result ⟨⟩⟩

theorem stored_apply (blind : machine.host.Blind alike) (next : heap.next = state.mint.nextIdent)
    (envInside : env.In heap) (funcInside : func.value.In heap) (argInside : arg.value.In heap)
    (each : ∀ frame ∈ stack, frame.Stored heap) (memo : state.memo.In heap)
    (settled : Settled alike heap state.world) :
    (machine.apply env func arg stack state).Stored alike heap := by
  rw [apply]
  split
  · exact stored_error next memo settled _
  · rename_i function called
    exact stored_callBuiltin blind next envInside (called ▸ funcInside) argInside _ each memo
      settled
  · rename_i callee called
    have calleeInside : callee.In heap := Value.within_closure.mp (called ▸ funcInside)
    split
    · split
      · rename_i key passed
        have keyInside : key.In heap := Value.within_closure.mp (passed ▸ argInside)
        split
        · rename_i hit recorded
          exact Stored.stays ⟨next, ⟨envInside, memo.results _ _ hit recorded⟩, each, memo, settled⟩
        · exact stored_enter blind next calleeInside argInside
            (List.forall_mem_cons.mpr ⟨⟨calleeInside, keyInside⟩, each⟩) memo settled
      · exact stored_enter blind next calleeInside argInside each memo settled
    · exact stored_enter blind next calleeInside argInside
        (List.forall_mem_cons.mpr ⟨trivial, each⟩) memo settled

theorem stored_deliver (blind : machine.host.Blind alike)
    (stored : Stored alike heap (.value env result) stack state) :
    (machine.deliver env result stack state).Stored alike heap := by
  obtain ⟨next, ⟨envInside, resultInside⟩, each, memo, settled⟩ := stored
  cases stack with
  | nil => exact ⟨heap, .refl heap, next, memo, settled, by rintro _ ⟨⟩; exact resultInside⟩
  | cons frame rest =>
      obtain ⟨inside, eachRest⟩ := List.forall_mem_cons.mp each
      cases frame with
      | argument outer code arg =>
          exact Stored.stays ⟨next, inside,
            List.forall_mem_cons.mpr ⟨⟨inside.1, resultInside⟩, eachRest⟩, memo, settled⟩
      | call outer func =>
          exact stored_apply blind next inside.1 inside.2 resultInside eachRest memo settled
      | taint => exact Stored.stays ⟨next, ⟨envInside, resultInside⟩, eachRest, memo, settled⟩
      | memoize func arg =>
          rw [deliver]
          split
          · exact Stored.stays ⟨next, ⟨envInside, resultInside⟩, eachRest,
              memo.record inside.1 inside.2 resultInside fun memo =>
                memo.alive (machine.reachRoots env result (.memoize func arg :: rest) state.world)
                  state.mint.nextIdent, settled⟩
          · exact Stored.stays ⟨next, ⟨envInside, resultInside⟩, eachRest, memo, settled⟩

/-- A step of the machine leads to a heap that has grown. -/
theorem stored_step (blind : machine.host.Blind alike) {focus : Focus}
    (stored : Stored alike heap focus stack state) :
    (machine.step focus stack state).Stored alike heap := by
  cases focus with
  | value env result => exact stored_deliver blind stored
  | node env code id =>
      have counted : Stored alike heap (.node env code id) stack state.countStep :=
        ⟨stored.next, stored.focus, stored.stack, stored.memo, stored.world⟩
      rw [step]
      split
      · exact stored_error counted.next counted.memo counted.world _
      · exact stored_evalNode blind counted

end Machine

end LambdaMachine
