import LambdaMachine.Machine.Basic
import LambdaMachine.Proofs.Memo.Catalog
import LambdaMachine.Proofs.Value.Anchored

/-!
Steps stay inside arenas. The machine changes arenas whenever it enters a closure and changes back
when it comes to an argument that waits. A node that waits stands beside its own code, and values
are anchored wherever they are held, so every node that the machine comes to lies in the arena it is
looked up in.
-/

namespace LambdaMachine

namespace Memo

def Anchored (memo : Memo) : Prop :=
  ∀ owner key value, memo.entry owner key = some value → value.Anchored

theorem anchored_empty : Memo.empty.Anchored := by
  intro owner key value found
  rw [entry_empty] at found
  cases found

theorem Anchored.record {memo : Memo} {value : Value} (anchored : memo.Anchored)
    (valueAnchored : value.Anchored) (func arg : Closure) (alive : Memo → IdentSet) :
    (memo.record func arg value alive).Anchored := by
  intro owner key other found
  rcases entry_of_entry_record found with ⟨_, _, rfl⟩ | earlier
  · exact valueAnchored
  · exact anchored owner key other earlier

end Memo

def Frame.Anchored : Frame → Prop
  | .argument env code arg => env.Anchored ∧ code.arena.Anchors arg
  | .call env func => env.Anchored ∧ func.value.Anchored
  | .memoize func arg => (Value.closure func).Anchored ∧ (Value.closure arg).Anchored
  | .taint => True

def Focus.Anchored : Focus → Prop
  | .node env code id => env.Anchored ∧ code.arena.Anchors id
  | .value env result => env.Anchored ∧ result.value.Anchored

def AnchoredOutcome : Except EvalError Evaluated → Prop
  | .ok result => result.value.Anchored
  | .error error => ∀ id, error ≠ .dangling id

variable {World : Type}

def MachineState.Anchored (host : Host World) (state : MachineState World) : Prop :=
  state.memo.Anchored ∧ host.KeepsAnchored state.world

structure Machine.Anchored (host : Host World) (focus : Focus) (stack : List Frame)
    (state : MachineState World) : Prop where
  focus : focus.Anchored
  stack : ∀ frame ∈ stack, frame.Anchored
  state : state.Anchored host

def Transition.Anchored (host : Host World) : Transition World → Prop
  | .moved focus stack state => Machine.Anchored host focus stack state
  | .halted outcome state => AnchoredOutcome outcome ∧ state.Anchored host

namespace Machine

variable {machine : Machine World} {env : Env} {code : Code} {id : NodeId}
  {func arg result : Evaluated} {stack : List Frame} {state : MachineState World}

theorem anchored_evalNode (envAnchored : env.Anchored) (anchors : code.arena.Anchors id)
    (each : ∀ frame ∈ stack, frame.Anchored) (held : state.Anchored machine.host) :
    (evalNode env code id stack state).Anchored machine.host := by
  obtain ⟨node, found⟩ := anchors.exists_node
  cases node with
  | var name =>
      simp only [evalNode, found]
      split
      · rename_i value bound
        exact ⟨⟨envAnchored, envAnchored.of_lookup bound⟩, each, held⟩
      · exact ⟨(by rintro other ⟨⟩), held⟩
  | lambda param body =>
      simp only [evalNode, found]
      exact ⟨⟨envAnchored, Value.anchored_closure.mpr ⟨anchors.body found, envAnchored⟩⟩, each, held⟩
  | apply operator operand =>
      obtain ⟨operatorAnchors, operandAnchors⟩ := anchors.apply found
      simp only [evalNode, found]
      exact ⟨⟨envAnchored, operatorAnchors⟩,
        List.forall_mem_cons.mpr ⟨⟨envAnchored, operandAnchors⟩, each⟩, held⟩

/-- The body of a closure belongs to the code of the closure, whatever code called it. -/
theorem anchored_enter {callee : Closure} {value : Value}
    (calleeAnchored : (Value.closure callee).Anchored) (valueAnchored : value.Anchored)
    (each : ∀ frame ∈ stack, frame.Anchored) (held : state.Anchored machine.host) :
    (enter callee value stack state).Anchored machine.host := by
  obtain ⟨anchors, envAnchored⟩ := Value.anchored_closure.mp calleeAnchored
  exact ⟨⟨envAnchored.extend valueAnchored _ _, anchors⟩, each, held⟩

theorem anchored_callBuiltin {function : Builtin} {value : Value} (host : machine.host.Anchored)
    (envAnchored : env.Anchored) (functionAnchored : (Value.builtin function).Anchored)
    (valueAnchored : value.Anchored) (cacheable : Bool)
    (each : ∀ frame ∈ stack, frame.Anchored) (held : state.Anchored machine.host) :
    (machine.callBuiltin env function value cacheable stack state).Anchored machine.host := by
  have heldThen : MachineState.Anchored machine.host { state.countCall with
      mint := (machine.host.apply function value state.mint state.world).mint,
      world := (machine.host.apply function value state.mint state.world).world } :=
    ⟨held.1, host.keeps _ _ _ _ functionAnchored valueAnchored held.2⟩
  rw [callBuiltin]
  split
  · rename_i result answered
    have valueAnchored := host.answers _ _ _ _ result functionAnchored valueAnchored held.2 answered
    exact ⟨⟨envAnchored, valueAnchored⟩, each, heldThen⟩
  · rename_i error answered
    refine ⟨fun id => ?_, heldThen⟩
    cases error <;> rintro ⟨⟩

theorem anchored_apply (host : machine.host.Anchored) (envAnchored : env.Anchored)
    (funcAnchored : func.value.Anchored) (argAnchored : arg.value.Anchored)
    (each : ∀ frame ∈ stack, frame.Anchored) (held : state.Anchored machine.host) :
    (machine.apply env func arg stack state).Anchored machine.host := by
  rw [apply]
  split
  · exact ⟨(by rintro other ⟨⟩), held⟩
  · rename_i function called
    exact anchored_callBuiltin host envAnchored (called ▸ funcAnchored) argAnchored _ each held
  · rename_i callee called
    have calleeAnchored : (Value.closure callee).Anchored := called ▸ funcAnchored
    split
    · split
      · rename_i key passed
        split
        · rename_i hit recorded
          exact ⟨⟨envAnchored, held.1 _ _ hit recorded⟩, each, held⟩
        · exact anchored_enter calleeAnchored argAnchored
            (List.forall_mem_cons.mpr ⟨⟨calleeAnchored, passed ▸ argAnchored⟩, each⟩) held
      · exact anchored_enter calleeAnchored argAnchored each held
    · exact anchored_enter calleeAnchored argAnchored (List.forall_mem_cons.mpr ⟨trivial, each⟩) held

theorem anchored_deliver (host : machine.host.Anchored) (envAnchored : env.Anchored)
    (resultAnchored : result.value.Anchored) (each : ∀ frame ∈ stack, frame.Anchored)
    (held : state.Anchored machine.host) :
    (machine.deliver env result stack state).Anchored machine.host := by
  cases stack with
  | nil => exact ⟨resultAnchored, held⟩
  | cons frame rest =>
      obtain ⟨frameAnchored, eachRest⟩ := List.forall_mem_cons.mp each
      cases frame with
      | argument outer code arg =>
          exact ⟨frameAnchored, List.forall_mem_cons.mpr ⟨⟨frameAnchored.1, resultAnchored⟩, eachRest⟩,
            held⟩
      | call outer func =>
          exact anchored_apply host frameAnchored.1 frameAnchored.2 resultAnchored eachRest held
      | taint => exact ⟨⟨envAnchored, resultAnchored⟩, eachRest, held⟩
      | memoize func arg =>
          rw [deliver]
          split
          · have recorded := held.1.record resultAnchored func arg fun memo =>
              memo.alive (machine.reachRoots env result (.memoize func arg :: rest) state.world)
                state.mint.nextIdent
            exact ⟨⟨envAnchored, resultAnchored⟩, eachRest, recorded, held.2⟩
          · exact ⟨⟨envAnchored, resultAnchored⟩, eachRest, held⟩

theorem anchored_step {focus : Focus} (host : machine.host.Anchored)
    (anchored : Anchored machine.host focus stack state) :
    (machine.step focus stack state).Anchored machine.host := by
  obtain ⟨inFocus, each, held⟩ := anchored
  cases focus with
  | value env result => exact anchored_deliver host inFocus.1 inFocus.2 each held
  | node env code id =>
      rw [step]
      split
      · exact ⟨(by rintro other ⟨⟩), held⟩
      · exact anchored_evalNode inFocus.1 inFocus.2 each held

/-- However long it takes, a run ends with an anchored value or with an error of another kind. -/
theorem anchored_run {fuel : Nat} {focus : Focus} {outcome : Except EvalError Evaluated}
    {after : MachineState World} (host : machine.host.Anchored)
    (anchored : Anchored machine.host focus stack state)
    (ended : machine.run fuel focus stack state = some (outcome, after)) :
    AnchoredOutcome outcome ∧ after.Anchored machine.host := by
  induction fuel generalizing focus stack state with
  | zero => cases ended
  | succ fuel ih =>
      have stepped := anchored_step host anchored
      rw [run] at ended
      cases next : machine.step focus stack state with
      | moved focus' stack' state' =>
          rw [next] at ended stepped
          exact ih stepped ended
      | halted last state' =>
          rw [next] at ended stepped
          cases ended
          exact stepped

end Machine

end LambdaMachine
