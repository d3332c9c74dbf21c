import LambdaMachine.Proofs.Machine.Assignments
import LambdaMachine.Proofs.Machine.Stored
import LambdaMachine.Proofs.Prelude.Blindness
import LambdaMachine.Proofs.Session.Ledger

/-!
Sessions never give an identity to two instances. Whatever a driver does with a session, all that
the session has is in one heap, also after evaluations that failed on the way.
-/

namespace LambdaMachine

def Reply.scene {World : Type} (reply : Reply World) : Scene World :=
  ⟨reply.mint.names, reply.world⟩

namespace Machine

section Steps

variable {World : Type} (machine : Machine World) (stack : List Frame) (state : MachineState World)

theorem scene_evalNode (env : Env) (code : Code) (id : NodeId) :
    (evalNode env code id stack state).state.scene = state.scene := by
  rw [evalNode]
  split
  · rfl
  · split <;> rfl
  · rfl
  · rfl

theorem scene_callBuiltin (env : Env) (function : Builtin) (arg : Value) (cacheable : Bool) :
    (machine.callBuiltin env function arg cacheable stack state).state.scene =
      (machine.host.apply function arg state.mint state.world).scene := by
  rw [callBuiltin]
  split <;> rfl

theorem scene_apply (env : Env) (func arg : Evaluated) :
    (machine.apply env func arg stack state).state.scene = state.scene ∨
      ∃ function, func.value = .builtin function ∧
        (machine.apply env func arg stack state).state.scene =
          (machine.host.apply function arg.value state.mint state.world).scene := by
  rw [apply]
  split
  · exact .inl rfl
  · rename_i function callee
    exact .inr ⟨function, callee, machine.scene_callBuiltin stack state env function arg.value _⟩
  · refine .inl ?_
    split
    · split
      · split <;> rfl
      · rfl
    · rfl

/-- A step leaves names and the world as they are, or it calls a function of the host. -/
theorem scene_step (focus : Focus) :
    (machine.step focus stack state).state.scene = state.scene ∨
      ∃ function arg, (machine.step focus stack state).state.scene =
        (machine.host.apply function arg state.mint state.world).scene := by
  cases focus with
  | node env code id =>
      refine .inl ?_
      rw [step]
      split
      · rfl
      · exact scene_evalNode stack state.countStep env code id
  | value env result =>
      rw [step]
      cases stack with
      | nil => exact .inl rfl
      | cons frame rest =>
          cases frame with
          | argument outer code arg => exact .inl rfl
          | call outer func =>
              rcases machine.scene_apply rest state outer func result with
                same | ⟨function, _, called⟩
              · exact .inl same
              · exact .inr ⟨function, result.value, called⟩
          | taint => exact .inl rfl
          | memoize func arg =>
              refine .inl ?_
              rw [deliver]
              split <;> rfl

end Steps

/-- Names are only ever numbered. -/
theorem interns_step {World : Type} {machine : Machine World} {stack : List Frame}
    {state : MachineState World} (interns : machine.host.Interns) (focus : Focus) :
    state.mint.names.Interns (machine.step focus stack state).state.mint.names := by
  change state.scene.names.Interns (machine.step focus stack state).state.scene.names
  rcases machine.scene_step stack state focus with same | ⟨function, arg, called⟩
  · rw [same]
    exact .refl
  · rw [called]
    exact interns function arg state.mint state.world

end Machine

def StaysSettled {World : Type} (alike : Heap → (Ident → Ident) → World → World → Prop)
    (world later : World) : Prop :=
  ∀ heap, Settled alike heap world → Settled alike heap later

structure MachineState.Stored {World : Type}
    (alike : Heap → (Ident → Ident) → World → World → Prop) (heap : Heap)
    (state : MachineState World) : Prop where
  next : heap.next = state.mint.nextIdent
  memo : state.memo.In heap
  world : Settled alike heap state.world
  coherent : state.mint.names.Coherent

namespace Ledger

variable {World : Type} {host : Host World}
  {alike : Heap → (Ident → Ident) → World → World → Prop}

def storing (blind : host.Blind alike) (interns : host.Interns) :
    Ledger host (StaysSettled alike) Heap where
  fits heap next := heap.next = next
  grows heap _ later last := heap.Grows later ∧ later.next = last
  value heap value := value.In heap
  env heap env := env.In heap
  state := MachineState.Stored alike
  refl next := ⟨.refl _, next⟩
  trans first second := ⟨first.1.trans second.1, second.2⟩
  after grows := grows.2
  growsValue grows := Value.In.mono grows.1
  growsEnv grows := Env.In.mono grows.1
  empty _ := Env.within_empty _ _
  found := Env.Within.lookup
  datum data next := by
    obtain ⟨later, grows, last, inside⟩ := Mint.makes_datum next data
    exact ⟨later, ⟨grows, last⟩, inside⟩
  builtin {heap _ _} name operation next kept := by
    refine ⟨heap.skip 1, ⟨heap.grows_skip 1, congrArg (· + 1) next⟩, ?_⟩
    exact Value.within_builtin.mpr (Builtin.within_iff.mpr
      ⟨Nat.lt_succ_of_le (Nat.le_of_eq next.symm), Env.In.mono (heap.grows_skip 1) kept⟩)
  extend name next outer value := by
    obtain ⟨later, grows, last, inside⟩ := Mint.makes_extend next name outer value
    exact ⟨later, ⟨grows, last⟩, inside⟩
  closureOver param body arena next outer := by
    obtain ⟨later, grows, last, inside⟩ := Mint.makes_closureOver next param body arena outer
    exact ⟨later, ⟨grows, last⟩, Value.within_closure.mpr inside⟩
  fitsState stored := stored.next
  growsState stored grows sameMemo sameWorld numbers :=
    ⟨grows.2, sameMemo ▸ stored.memo.mono grows.1, sameWorld ▸ blind.grows grows.1 stored.world,
      numbers.coherent stored.coherent⟩
  reply stored function arg := by
    obtain ⟨later, grows, last, _, settled⟩ :=
      blind.settles stored.next (Value.within_builtin.mp function) arg stored.world
    exact ⟨later, ⟨grows, last⟩, last, stored.memo.mono grows, settled,
      (interns _ _ _ _).coherent stored.coherent⟩
  attended stored stays := { stored with world := stays _ stored.world }

theorem storing_takesResults (blind : host.Blind alike) (interns : host.Interns) :
    (storing blind interns).TakesResults :=
  fun alive stored func arg value =>
    { stored with
      memo := stored.memo.record (Value.within_closure.mp func) (Value.within_closure.mp arg) value
        alive }

end Ledger

namespace Host.Stage

variable {World : Type} {host : Host World}
  {alike : Heap → (Ident → Ident) → World → World → Prop} {stage later : host.Stage}

def Stored (blind : host.Blind alike) (interns : host.Interns) : host.Stage → Prop
  | .idle session => ∃ heap, (Ledger.storing blind interns).Covers heap session
  | .running session _ focus stack state => ∃ heap,
      (Ledger.storing blind interns).Covers heap { session with state } ∧
        Machine.Stored alike heap focus stack state

theorem stored_fresh (blind : host.Blind alike) (interns : host.Interns) {world : World}
    (settled : Settled alike .empty world) (limit : Option Nat) :
    Stored blind interns (.idle (Session.fresh world limit)) :=
  ⟨.empty, ⟨rfl, Memo.in_empty _, settled, NameTable.coherent_empty⟩, Ledger.empty _ _,
    List.forall_mem_nil _, List.forall_mem_nil _⟩

theorem Next.stored {blind : host.Blind alike} {interns : host.Interns} (next : stage.Next later)
    (stored : stage.Stored blind interns) : later.Stored blind interns := by
  cases next with
  | limited limit =>
      obtain ⟨heap, covers⟩ := stored
      have state := covers.state
      exact ⟨heap, ⟨state.next, state.memo, state.world, state.coherent⟩, covers.env, covers.slots,
        covers.kept⟩
  | @entered session =>
      obtain ⟨heap, covers⟩ := stored
      obtain ⟨later, _, kept, _⟩ := Ledger.keeps_enterPrelude [] covers
      rw [Session.after, Session.enterPrelude_nil] at kept
      exact ⟨later, kept⟩
  | @rejected session source error names parsed =>
      obtain ⟨heap, covers⟩ := stored
      have numbers := Program.interns_parse source session.names
      rw [parsed] at numbers
      exact ⟨heap, covers.remint numbers covers.refl⟩
  | @started session source program names parsed bindAs =>
      obtain ⟨heap, covers⟩ := stored
      have numbers := Program.interns_parse source session.names
      rw [parsed] at numbers
      have state := covers.state
      have grows := heap.grows_skip 1
      have next : (heap.skip 1).next = (session.withNames names).loaded.mint.nextIdent :=
        congrArg (· + 1) covers.fits
      have settled := blind.grows grows state.world
      have loaded := covers.withState ⟨grows, next⟩
        ⟨next, state.memo.mono grows, settled, numbers.coherent state.coherent⟩
      have begun : Machine.Stored alike (heap.skip 1)
          (.node session.env ⟨session.state.mint.nextIdent, program.arena⟩ program.root) []
          (session.withNames names).loaded :=
        ⟨next, ⟨loaded.env, Nat.lt_succ_of_le (Nat.le_of_eq covers.fits.symm)⟩,
          List.forall_mem_nil _, loaded.state.memo, settled⟩
      exact ⟨_, loaded, begun⟩
  | @moved session _ focus focus' stack stack' state state' step =>
      obtain ⟨heap, covers, stored⟩ := stored
      have stepped := @Machine.stored_step _ session.machine _ _ _ _ blind _ stored
      have numbers := @Machine.interns_step _ session.machine stack state interns focus
      rw [step] at stepped numbers
      obtain ⟨later, grows, stored⟩ := stepped
      exact ⟨later, covers.withState ⟨grows, stored.next⟩
        ⟨stored.next, stored.memo, stored.world, numbers.coherent covers.state.coherent⟩, stored⟩
  | @halted session bindAs focus stack state state' outcome step =>
      obtain ⟨heap, covers, stored⟩ := stored
      have stepped := @Machine.stored_step _ session.machine _ _ _ _ blind _ stored
      have numbers := @Machine.interns_step _ session.machine stack state interns focus
      rw [step] at stepped numbers
      obtain ⟨later, grows, next, memo, settled, inside⟩ := stepped
      have ended := covers.withState ⟨grows, next⟩
        ⟨next, memo, settled, numbers.coherent covers.state.coherent⟩
      cases outcome with
      | error error => exact ⟨later, ended⟩
      | ok result =>
          cases bindAs with
          | none => exact ⟨later, ended⟩
          | some name =>
              obtain ⟨last, _, bound⟩ := ended.withBinding (inside result rfl) name
              exact ⟨last, bound⟩

theorem Driven.stored (blind : host.Blind alike) (interns : host.Interns)
    (driven : stage.Driven (Settled alike .empty) (StaysSettled alike)) :
    stage.Stored blind interns := by
  obtain ⟨world, limit, settled, drives⟩ := driven
  induction drives with
  | refl => exact stored_fresh blind interns settled limit
  | tail _ drives ih =>
      cases drives with
      | acts acts =>
          obtain ⟨heap, covers⟩ := ih
          exact covers.acts (Ledger.storing_takesResults blind interns) acts
      | evaluates next => exact next.stored ih

/-- Whatever a driver has done with a session, no identity that it holds belongs to two instances,
and no two names have the same number. -/
theorem Driven.consistent (blind : host.Blind alike) (interns : host.Interns)
    {session : host.Session}
    (driven : Driven (Settled alike .empty) (StaysSettled alike) (.idle session)) :
    session.machine.Consistent alike session.env session.state ∧ session.names.Coherent := by
  obtain ⟨heap, covers⟩ := driven.stored blind interns
  obtain ⟨next, memo, settled, coherent⟩ := covers.state
  refine ⟨⟨heap, next, ⟨?_, covers.kept, List.forall_mem_nil _⟩, covers.env, memo, settled⟩,
    coherent⟩
  refine List.forall_mem_cons.mpr ⟨covers.env, fun env among => ?_⟩
  obtain ⟨slot, saved, rfl⟩ := List.mem_map.mp among
  exact covers.slots slot saved

end Host.Stage

end LambdaMachine
