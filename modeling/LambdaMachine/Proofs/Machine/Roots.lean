import LambdaMachine.Proofs.Machine.Direct
import LambdaMachine.Proofs.Memo.Liveness

/-!
What a machine holds while an evaluation is under way: what is held outside its stack, what its host
keeps, and what the frames on the stack hold. A result is recorded, and the tables are swept, while
all this is held.
-/

namespace LambdaMachine

namespace Frame

def links : Frame → List Ident
  | .argument env _ _ => env.link
  | .call env func => env.link ++ func.value.link
  | .memoize func arg => [func.ident, arg.ident]
  | .taint => []

def In (heap : Heap) : Frame → Prop
  | .argument env _ _ => env.In heap
  | .call env func => env.In heap ∧ func.value.In heap
  | .memoize func arg => func.In heap ∧ arg.In heap
  | .taint => True

variable {heap later : Heap} {frame : Frame}

theorem In.mono (grows : heap.Grows later) (inside : frame.In heap) : frame.In later := by
  cases frame with
  | argument env code arg => exact Env.In.mono grows inside
  | call env func => exact ⟨Env.In.mono grows inside.1, Value.In.mono grows inside.2⟩
  | memoize func arg => exact ⟨Closure.In.mono grows inside.1, Closure.In.mono grows inside.2⟩
  | taint => trivial

theorem covers (owners : IdentSet) (inside : frame.In heap) (reached : Reached) :
    reached.Covers heap owners (frame.reach owners reached) ∧
      ∀ link ∈ frame.links, (frame.reach owners reached).seen.contains link = true := by
  cases frame with
  | argument env code arg => exact Reached.covers_env env reached inside
  | call env func =>
      obtain ⟨toEnv, envHeld⟩ := @Reached.covers_env heap owners env reached inside.1
      obtain ⟨toFunc, funcHeld⟩ :=
        @Reached.covers_value heap owners func.value (env.reach owners reached) inside.2
      refine ⟨toEnv.trans toFunc, fun link among => ?_⟩
      rcases List.mem_append.mp among with inEnv | inFunc
      · exact toFunc.keeps link (envHeld link inEnv)
      · exact funcHeld link inFunc
  | memoize func arg =>
      obtain ⟨toFunc, funcSeen⟩ := @Reached.covers_closure heap owners func reached inside.1
      obtain ⟨toArg, argSeen⟩ :=
        @Reached.covers_closure heap owners arg (func.reach owners reached) inside.2
      refine ⟨toFunc.trans toArg, fun link among => ?_⟩
      rcases List.mem_cons.mp among with rfl | second
      · exact toArg.keeps _ funcSeen
      · exact List.mem_singleton.mp second ▸ argSeen
  | taint => exact ⟨.refl _, fun _ among => (List.not_mem_nil among).elim⟩

end Frame

namespace Host

variable {World : Type} (host : Host World)

def KeepsIn (heap : Heap) (world : World) : Prop :=
  ∀ value ∈ host.kept world, value.In heap

def keptLinks (world : World) : List Ident :=
  (host.kept world).flatMap Value.link

variable {host}

theorem KeepsIn.mono {heap later : Heap} {world : World} (keeps : host.KeepsIn heap world)
    (grows : heap.Grows later) : host.KeepsIn later world :=
  fun value among => Value.In.mono grows (keeps value among)

end Host

namespace Machine

variable {World : Type} (machine : Machine World)

def Holds (waiting : List Frame) (ident : Ident) : Prop :=
  (∃ env ∈ machine.held.envs, ident ∈ env.link) ∨
    (∃ value ∈ machine.held.values, ident ∈ value.link) ∨ ∃ frame ∈ waiting, ident ∈ frame.links

structure Rests (heap : Heap) (waiting : List Frame) : Prop where
  envs : ∀ env ∈ machine.held.envs, env.In heap
  values : ∀ value ∈ machine.held.values, value.In heap
  frames : ∀ frame ∈ waiting, frame.In heap

variable {machine} {heap later : Heap} {waiting : List Frame} {frame : Frame} {ident : Ident}

theorem Holds.push (holds : machine.Holds waiting ident) :
    machine.Holds (frame :: waiting) ident := by
  obtain env | value | ⟨other, among, linked⟩ := holds
  · exact .inl env
  · exact .inr (.inl value)
  · exact .inr (.inr ⟨other, List.mem_cons_of_mem _ among, linked⟩)

theorem holds_frame (linked : ident ∈ frame.links) : machine.Holds (frame :: waiting) ident :=
  .inr (.inr ⟨frame, List.mem_cons_self, linked⟩)

theorem Rests.mono (rests : machine.Rests heap waiting) (grows : heap.Grows later) :
    machine.Rests later waiting :=
  ⟨fun env among => Env.In.mono grows (rests.envs env among),
    fun value among => Value.In.mono grows (rests.values value among),
    fun frame among => (rests.frames frame among).mono grows⟩

theorem Rests.push (rests : machine.Rests heap waiting) (inside : frame.In heap) :
    machine.Rests heap (frame :: waiting) := by
  refine ⟨rests.envs, rests.values, fun other among => ?_⟩
  rcases List.mem_cons.mp among with rfl | before
  · exact inside
  · exact rests.frames other before

theorem Rests.append (rests : machine.Rests heap waiting) {frames : List Frame}
    (inside : ∀ frame ∈ frames, frame.In heap) : machine.Rests heap (frames ++ waiting) :=
  ⟨rests.envs, rests.values, fun other among =>
    (List.mem_append.mp among).elim (inside other) (rests.frames other)⟩

theorem Rests.covers (rests : machine.Rests heap waiting) (owners : IdentSet) {found : Found}
    (env : found.env.In heap) (value : found.result.value.In heap) {world : World}
    (keeps : machine.host.KeepsIn heap world) (reached : Reached) :
    let after := machine.reachRoots found.env found.result waiting world owners reached
    reached.Covers heap owners after ∧
      (∀ ident, machine.Holds waiting ident → after.seen.contains ident = true) ∧
        (∀ link ∈ machine.host.keptLinks world, after.seen.contains link = true) ∧
          ∀ link ∈ found.result.value.link, after.seen.contains link = true := by
  intro after
  let kept : Roots := ⟨[], machine.host.kept world⟩
  let afterHeld := machine.reachHeld world owners reached
  let afterFrames := waiting.foldl (Frame.reach owners) afterHeld
  obtain ⟨toKept, _, keptHeld⟩ := @Reached.covers_roots heap owners kept
    (fun _ among => (List.not_mem_nil among).elim) keeps reached
  obtain ⟨toHeld, envsHeld, valuesHeld⟩ := @Reached.covers_roots heap owners machine.held
    rests.envs rests.values (kept.reach owners reached)
  obtain ⟨toFrames, framesHeld⟩ := Reached.covers_foldl (fun frame among reached =>
    Frame.covers owners (rests.frames frame among) reached) afterHeld
  obtain ⟨toEnv, _⟩ := @Reached.covers_env heap owners found.env afterFrames env
  obtain ⟨toValue, valueHeld⟩ := @Reached.covers_value heap owners found.result.value
    (found.env.reach owners afterFrames) value
  have fromHeld := toFrames.trans (toEnv.trans toValue)
  refine ⟨toKept.trans (toHeld.trans fromHeld), fun ident holds => ?_, fun link among => ?_,
    valueHeld⟩
  · obtain ⟨env, among, linked⟩ | ⟨value, among, linked⟩ | ⟨frame, among, linked⟩ := holds
    · exact fromHeld.keeps _ (envsHeld env among _ linked)
    · exact fromHeld.keeps _ (valuesHeld value among _ linked)
    · exact (toEnv.trans toValue).keeps _ (framesHeld frame among _ linked)
  · obtain ⟨value, inside, linked⟩ := List.mem_flatMap.mp among
    exact (toHeld.trans fromHeld).keeps _ (keptHeld value inside _ linked)

/-- When a result is recorded, what evaluation can come to is alive. -/
theorem Rests.contains_aliveAt {callee key : Closure}
    (rests : machine.Rests heap (.memoize callee key :: waiting)) {found : Found}
    (env : found.env.In heap) (value : found.result.value.In heap) {memo : Memo}
    (inside : memo.In heap) {state : MachineState World}
    (keeps : machine.host.KeepsIn heap state.world) {roots : Ident → Prop}
    (held : ∀ root, roots root → machine.Holds (.memoize callee key :: waiting) root ∨
      root ∈ found.result.value.link ∨ root ∈ machine.host.keptLinks state.world)
    (reaches : memo.Reaches heap roots ident) :
    (machine.aliveAt waiting callee key found state memo).contains ident = true := by
  obtain ⟨covers, holdsSeen, keptSeen, valueSeen⟩ := rests.covers
    (memo.owners state.mint.nextIdent) env value keeps ⟨.withRoom state.mint.nextIdent, [], none⟩
  refine Memo.alive_of_reaches inside covers (fun root isRoot => ?_) reaches
  rcases held root isRoot with holds | linked | kept
  · exact holdsSeen root holds
  · exact valueSeen root linked
  · exact keptSeen root kept

end Machine

end LambdaMachine
