import LambdaMachine.Proofs.Machine.Image
import LambdaMachine.Proofs.Machine.Trampoline
import LambdaMachine.Proofs.Value.Restriction

/-!
An evaluation and its image under other identities. The image may hold more, it may have instances
and results of its own, and it may have counted more steps before; still it does the same, as far as
the host tells no identities apart. Only a limit on the steps can end one of them sooner.
-/

namespace LambdaMachine

variable {World : Type}

namespace Machine

structure Waits (machine image : Machine World) (label : Ident → Ident) (heap copy : Heap)
    (roots : Ident → Prop) (waiting imageWaiting : List Frame) : Prop where
  rests : machine.Rests heap waiting
  imageRests : image.Rests copy imageWaiting
  holds : ∀ ident, roots ident → machine.Holds waiting ident
  imageHolds : ∀ ident, roots ident → image.Holds imageWaiting (label ident)

inductive Mirrored (machine image : Machine World)
    (alike : Heap → (Ident → Ident) → World → World → Prop) (label : Ident → Ident) (ahead : Nat)
    (heap copy : Heap) (roots : Ident → Prop) :
    Option (Outcome × MachineState World) → Option (Outcome × MachineState World) → Prop
  | endless : Mirrored machine image alike label ahead heap copy roots none none
  | stopped {ending bound imageState} (limited : image.limit = some bound)
      (overtaken : ∀ outcome state, ending = some (outcome, state) →
        state.Overtaken machine.host (AlikeSomehow alike) ahead bound imageState) :
      Mirrored machine image alike label ahead heap copy roots ending
        (some (.error (.stepLimit bound), imageState))
  | outlasted {imageEnding bound state} (limited : machine.limit = some bound)
      (differ : image.limit ≠ machine.limit)
      (precedes : ∀ outcome imageState, imageEnding = some (outcome, imageState) →
        state.Precedes image.host (AlikeSomehow alike) imageState) :
      Mirrored machine image alike label ahead heap copy roots
        (some (.error (.stepLimit bound), state)) imageEnding
  | failed {error state imageState}
      (states : state.Alike (AlikeSomehow alike) ahead imageState) :
      Mirrored machine image alike label ahead heap copy roots (some (.error error, state))
        (some (.error error, imageState))
  | passed {found state imageState later laterCopy} (grows : heap.Grows later)
      (copyGrows : copy.Grows laterCopy) (env : found.env.In later)
      (value : found.result.value.In later)
      (states : state.Mirrors machine.host alike label ahead later laterCopy
        (Rooted roots found.result.value.link) imageState) :
      Mirrored machine image alike label ahead heap copy roots (some (.ok found, state))
        (some (.ok (found.relabel label), imageState))

end Machine

variable {alike : Heap → (Ident → Ident) → World → World → Prop} {label : Ident → Ident}
  {ahead : Nat} {heap copy later laterCopy : Heap} {roots laterRoots : Ident → Prop}

namespace Machine

variable {machine image : Machine World} {waiting imageWaiting : List Frame}

theorem limit_of_overLimit {steps bound : Nat} (exceeded : machine.overLimit steps = some bound) :
    machine.limit = some bound := by
  unfold overLimit at exceeded
  split at exceeded
  · rename_i limit limited
    split at exceeded
    · rw [limited, exceeded]
    · cases exceeded
  · cases exceeded

theorem lt_of_overLimit {steps bound : Nat} (exceeded : machine.overLimit steps = some bound) :
    bound < steps := by
  unfold overLimit at exceeded
  split at exceeded
  · split at exceeded
    · rename_i beyond
      cases exceeded
      exact beyond
    · cases exceeded
  · cases exceeded

theorem overtaken_of_overLimit {state imageState : MachineState World} {bound : Nat}
    {host : Host World} (states : state.Alike (AlikeSomehow alike) ahead imageState)
    (exceeded : machine.overLimit imageState.counters.steps = some bound) :
    state.Overtaken host (AlikeSomehow alike) ahead bound imageState :=
  ⟨states.steps ▸ lt_of_overLimit exceeded, state.world, states.worlds, .refl⟩

/-- The image has counted more steps, so it is over the same limit first. -/
theorem within_of_le (same : image.limit = machine.limit) {steps imageSteps : Nat}
    (le : steps ≤ imageSteps) (within : image.overLimit imageSteps = none) :
    machine.overLimit steps = none := by
  unfold overLimit at within ⊢
  rw [same] at within
  split
  · rename_i limit limited
    rw [limited] at within
    dsimp only at within
    split at within
    · cases within
    · rename_i notOver
      exact if_neg fun beyond => notOver (Nat.lt_of_lt_of_le beyond le)
  · rfl

theorem Waits.mono (waits : machine.Waits image label heap copy roots waiting imageWaiting)
    (grows : heap.Grows later) (copyGrows : copy.Grows laterCopy) :
    machine.Waits image label later laterCopy roots waiting imageWaiting :=
  { waits with rests := waits.rests.mono grows, imageRests := waits.imageRests.mono copyGrows }

theorem Waits.push (waits : machine.Waits image label heap copy roots waiting imageWaiting)
    (copied : heap.Copied label copy) {frame : Frame} (inside : frame.In heap) :
    machine.Waits image label heap copy (Rooted roots frame.links) (frame :: waiting)
      (frame.relabel label :: imageWaiting) := by
  refine ⟨waits.rests.push inside, waits.imageRests.push (inside.relabel copied), ?_, ?_⟩
  · rintro ident (root | linked)
    · exact (waits.holds ident root).push
    · exact holds_frame linked
  · rintro ident (root | linked)
    · exact (waits.imageHolds ident root).push
    · refine holds_frame ?_
      rw [frame.links_relabel]
      exact List.mem_map_of_mem linked

theorem Mirrored.mono {ending imageEnding : Option (Outcome × MachineState World)}
    (mirrored : machine.Mirrored image alike label ahead later laterCopy roots ending imageEnding)
    (grows : heap.Grows later) (copyGrows : copy.Grows laterCopy)
    (fewer : ∀ root, laterRoots root → roots root) :
    machine.Mirrored image alike label ahead heap copy laterRoots ending imageEnding := by
  cases mirrored with
  | endless => exact .endless
  | stopped limited overtaken => exact .stopped limited overtaken
  | outlasted limited differ precedes => exact .outlasted limited differ precedes
  | failed states => exact .failed states
  | passed moreGrows moreCopyGrows env value states =>
      exact .passed (grows.trans moreGrows) (copyGrows.trans moreCopyGrows) env value
        (states.fewer fun root isRoot => isRoot.imp_left (fewer root))

/-- One thing after another. -/
theorem Mirrored.bind {first imageFirst : Computation World Found}
    {second imageSecond : Found → Computation World Found}
    {state imageState : MachineState World}
    (mirrored : machine.Mirrored image alike label ahead heap copy roots (first state)
      (imageFirst imageState)) (proceeds : ∀ found, (second found).Proceeds machine.host)
    (imageProceeds : ∀ found, (imageSecond found).Proceeds image.host)
    (andThen : ∀ found after imageAfter later laterCopy, heap.Grows later →
      copy.Grows laterCopy → found.env.In later → found.result.value.In later →
      after.Mirrors machine.host alike label ahead later laterCopy (Rooted roots found.result.value.link)
        imageAfter →
      machine.Mirrored image alike label ahead later laterCopy laterRoots (second found after)
        (imageSecond (found.relabel label) imageAfter)) :
    machine.Mirrored image alike label ahead heap copy laterRoots ((first >>= second) state)
      ((imageFirst >>= imageSecond) imageState) := by
  change machine.Mirrored image _ _ _ _ _ _ (Computation.bind first second state)
    (Computation.bind imageFirst imageSecond imageState)
  unfold Computation.bind
  generalize first state = ending at mirrored
  generalize imageFirst imageState = imageEnding at mirrored
  cases mirrored with
  | endless => exact .endless
  | stopped limited overtaken =>
      refine .stopped limited fun outcome final ended => ?_
      split at ended
      · cases ended
      · cases ended
        exact overtaken _ _ rfl
      · rename_i found after
        exact (overtaken _ _ rfl).mono (Nat.le_refl ahead)
          (proceeds found after outcome final ended)
  | outlasted limited differ precedes =>
      refine .outlasted limited differ fun outcome final ended => ?_
      split at ended
      · cases ended
      · cases ended
        exact precedes _ _ rfl
      · rename_i found after
        exact (precedes _ _ rfl).mono (imageProceeds found after outcome final ended)
  | failed states => exact .failed states
  | passed grows copyGrows env value states =>
      exact (andThen _ _ _ _ _ grows copyGrows env value states).mono grows copyGrows
        fun _ root => root

section Steps

variable {state imageState : MachineState World} {allRoots : Ident → Prop}

/-- What the host makes of what can be come to can be come to, or is new. -/
theorem mirrored_callDirect (sameHost : image.host = machine.host)
    (blind : machine.host.Blind alike)
    (states : state.Mirrors machine.host alike label ahead heap copy allRoots imageState)
    (fewer : ∀ root, roots root → allRoots root) {env : Env} {function : Builtin} {arg : Value}
    {cacheable : Bool} (envInside : env.In heap)
    (functionInside : function.Within heap.next heap.cells) (argInside : arg.In heap)
    (functionRooted : ∀ link ∈ function.kept.link, allRoots link)
    (argRooted : ∀ link ∈ arg.link, allRoots link) :
    machine.Mirrored image alike label ahead heap copy roots
      (machine.callDirect env function arg cacheable state)
      (image.callDirect (env.relabel label) (function.relabel label) (arg.relabel label) cacheable
        imageState) := by
  have keeps := blind.keeps states.alike.worlds
  have closes : heap.cells.Closes (state.Reaches machine.host heap allRoots) :=
    fun _ _ _ reached found among => .part reached found among
  have keepsPart : machine.host.KeepsIn (heap.restrict _ closes) state.world := fun value kept =>
    Value.Within.restrict closes (keeps value kept) fun link among =>
      Memo.Reaches.root (.inr (List.mem_flatMap.mpr ⟨value, kept, among⟩))
  obtain ⟨part, partGrows, partNext, values, keepsAfter⟩ := blind.within
    (heap.restrict _ closes) function arg state.mint state.world states.next
    (functionInside.restrict closes fun link among => .root (functionRooted link among))
    (Value.Within.restrict closes argInside fun link among => .root (argRooted link among))
    keepsPart
  have grows := Heap.grows_rejoin partGrows
  have keepsLater : machine.host.KeepsIn (Heap.rejoin partGrows) _ := fun value kept =>
    Value.Within.mono (Heap.grown_rejoinCells partGrows) (keepsAfter value kept)
  obtain ⟨laterCopy, copyGrows, copied⟩ := states.copied.grow grows
  have relabels := states.copied.relabels
  rw [states.next, states.imageNext] at relabels
  have answer := blind.relabel heap (Heap.rejoin partGrows) label function arg state.mint
    imageState.mint state.world imageState.world states.next relabels states.names functionInside
    argInside states.alike.worlds grows partNext keepsLater
  have imageNext : laterCopy.next = (machine.host.apply (function.relabel label)
      (arg.relabel label) imageState.mint imageState.world).mint.nextIdent := by
    rw [answer.next, ← partNext]
    exact copied.relabels.label_next.symm
  have held (ident : Ident) (cell : Cell) (link : Ident) (new : heap.next ≤ ident)
      (found : (Heap.rejoin partGrows).cells ident = some cell) (among : link ∈ cell.links) :
      state.Reaches machine.host heap allRoots link ∨ heap.next ≤ link := by
    rw [Heap.cells_rejoin partGrows new] at found
    obtain ⟨other, inPart⟩ := (part.within ident cell found).linked among
    exact Heap.kept_of_cells partGrows inPart
  have keptLinks (link : Ident) (among : link ∈ machine.host.keptLinks
      (machine.host.apply function arg state.mint state.world).world) :
      state.Reaches machine.host heap allRoots link ∨ heap.next ≤ link := by
    obtain ⟨value, kept, linked⟩ := List.mem_flatMap.mp among
    obtain ⟨cell, found⟩ := (keepsAfter value kept).linked linked
    exact Heap.kept_of_cells partGrows found
  simp only [callDirect, sameHost, MachineState.countCall]
  have calls := congrArg Counters.bump states.alike.calls
  have named : (function.relabel label).name = function.name := by rw [function.relabel_eq]
  cases replied : (machine.host.apply function arg state.mint state.world).result with
  | error error =>
      rw [answer.result, replied, named]
      exact .failed ⟨states.alike.steps, states.alike.hits, calls, ⟨_, _, answer.worlds⟩⟩
  | ok result =>
      have inPart := values result replied
      rw [answer.result, replied]
      let found : Found := ⟨env, result.value, result.cacheable && cacheable⟩
      change machine.Mirrored image _ _ _ _ _ _ (some (.ok found, _))
        (some (.ok (found.relabel label), _))
      refine .passed grows copyGrows (Env.In.mono grows envInside)
        (Value.Within.mono (Heap.grown_rejoinCells partGrows) inPart)
        ⟨copied, partNext, imageNext, answer.names, ?_,
          ⟨states.alike.steps, states.alike.hits, calls, answer.worlds⟩⟩
      refine states.memo.grow states.copied grows copyGrows ?_ held
      rintro root ((isRoot | linked) | kept)
      · exact .inl (.root (.inl (fewer root isRoot)))
      · obtain ⟨cell, found⟩ := inPart.linked linked
        exact Heap.kept_of_cells partGrows found
      · exact keptLinks root kept

/-- Both sides find the same binding, or none. -/
theorem mirrored_variable {env : Env}
    (states : state.Mirrors machine.host alike label ahead heap copy (Rooted roots env.link) imageState)
    (envInside : env.In heap) (name : NameId) :
    machine.Mirrored image alike label ahead heap copy roots
      (match env.lookup name with
        | some value => some (.ok ⟨env, value, true⟩, state)
        | none => Computation.fail (.unbound (state.mint.names.text name)) state)
      (match (env.relabel label).lookup name with
        | some value => some (.ok ⟨env.relabel label, value, true⟩, imageState)
        | none => Computation.fail (.unbound (imageState.mint.names.text name)) imageState) := by
  rw [env.lookup_relabel, states.names]
  cases bound : env.lookup name with
  | none => exact .failed states.alike.somehow
  | some value =>
      refine Mirrored.passed (.refl _) (.refl _) envInside (Env.Within.lookup envInside bound)
        (states.reroot ?_)
      rintro root (isRoot | linked)
      · exact .root (.inl isRoot)
      · exact Memo.Reaches.lookup envInside (fun link among => .root (.inl (.inr among))) bound root
          linked

/-- Both sides make the same closure. -/
theorem mirrored_abstraction (blind : machine.host.Blind alike)
    (states : state.Mirrors machine.host alike label ahead heap copy allRoots imageState)
    (fewer : ∀ root, roots root → allRoots root) {env : Env} {code : Code} (param : NameId)
    (body : NodeId) (envInside : env.In heap) (codeBelow : code.ident < heap.next)
    (envRooted : ∀ link ∈ env.link, allRoots link) :
    let made := state.mint.closure env param body code
    let imageMade := imageState.mint.closure (env.relabel label) param body (code.relabel label)
    machine.Mirrored image alike label ahead heap copy roots
      (some (.ok ⟨env, ⟨.closure made.1, true⟩⟩, { state with mint := made.2 }))
      (some (.ok ⟨env.relabel label, ⟨.closure imageMade.1, true⟩⟩,
        { imageState with mint := imageMade.2 })) := by
  intro made imageMade
  have inside : (Cell.closure env param body code).Within heap.next heap.cells :=
    ⟨codeBelow, envInside⟩
  have rooted (root : Ident) (isRoot : Rooted roots [heap.next] root) :
      state.Reaches machine.host heap allRoots root ∨ root = heap.next :=
    isRoot.imp (fun old => .root (fewer root old)) List.mem_singleton.mp
  obtain ⟨laterCopy, copyGrows, entered⟩ :=
    states.add blind inside (fun link among => .root (envRooted link among)) rooted
  have grows := @Heap.grows_add heap _ inside
  let found : Found := ⟨env, ⟨.closure made.1, true⟩⟩
  have same : found.relabel label = ⟨env.relabel label, ⟨.closure imageMade.1, true⟩⟩ := by
    have next : imageState.mint.nextIdent = label state.mint.nextIdent := by
      rw [← states.imageNext, ← states.copied.relabels.label_next, states.next]
    rw [Found.relabel, Evaluated.relabel, Value.relabel_closure, Closure.relabel_eq]
    exact congrArg (fun ident => Found.mk _ ⟨.closure ⟨ident, _, _, _, _⟩, true⟩) next.symm
  rw [← same]
  have self : made.1.ident = heap.next := states.next.symm
  rw [← self] at entered
  exact .passed grows copyGrows (Env.In.mono grows envInside)
    (Value.within_closure.mpr (Heap.in_addClosure self inside)) entered

/-- A result is recorded on both sides while what waits for it holds the roots. -/
theorem Waits.remember {callee key : Closure} {found : Found}
    (sameHost : image.host = machine.host) (blind : machine.host.Blind alike)
    (waits : machine.Waits image label heap copy roots (.memoize callee key :: waiting)
      ((Frame.memoize callee key).relabel label :: imageWaiting))
    (states : state.Mirrors machine.host alike label ahead heap copy
      (Rooted roots found.result.value.link) imageState)
    (env : found.env.In heap) (value : found.result.value.In heap) :
    (machine.remember true waiting callee key found state).Mirrors machine.host alike label ahead
      heap copy (Rooted roots found.result.value.link)
      (image.remember true imageWaiting (callee.relabel label) (key.relabel label)
        (found.relabel label) imageState) := by
  obtain ⟨calleeInside, keyInside⟩ : callee.In heap ∧ key.In heap :=
    waits.rests.frames (.memoize callee key) List.mem_cons_self
  have copied := states.copied
  have worlds := states.alike.worlds
  have rooted (link : Ident) (among : link ∈ found.result.value.link) :
      Rooted (Rooted roots found.result.value.link) (machine.host.keptLinks state.world) link :=
    .inl (.inr among)
  have inserted := states.memo.insert copied calleeInside keyInside value rooted
  have same : (found.relabel label).result.cacheable = found.result.cacheable := rfl
  simp only [Machine.remember, Bool.true_and, same]
  split
  · refine ⟨copied, states.next, states.imageNext, states.names, states.memo.record copied
      calleeInside keyInside value rooted ?_ ?_,
      ⟨states.alike.steps, states.alike.hits, states.alike.calls, worlds⟩⟩
    · refine fun ident reaches => waits.rests.contains_aliveAt env value inserted.inside
        (blind.keeps worlds) ?_ reaches
      rintro root ((isRoot | linked) | kept)
      · exact .inl (waits.holds root isRoot)
      · exact .inr (.inl linked)
      · exact .inr (.inr kept)
    · refine fun ident reaches => waits.imageRests.contains_aliveAt (copied.env env)
        (copied.value value) inserted.imageInside (sameHost ▸ blind.keeps_image worlds copied) ?_
        reaches
      rintro _ ⟨root, (isRoot | linked) | kept, rfl⟩
      · exact .inl (waits.imageHolds root isRoot)
      · refine .inr (.inl ?_)
        rw [Found.relabel, Evaluated.relabel, Value.link_relabel]
        exact List.mem_map_of_mem linked
      · refine .inr (.inr ?_)
        rw [sameHost, blind.keptLinks_eq worlds]
        exact List.mem_map_of_mem kept
  · exact states

end Steps

def BodiesMirrored (machine image : Machine World)
    (alike : Heap → (Ident → Ident) → World → World → Prop) (label : Ident → Ident) (ahead : Nat)
    (body imageBody : List Frame → Env → Code → NodeId → Computation World Found) : Prop :=
  ∀ {waiting imageWaiting : List Frame} {env : Env} {code : Code} {id : NodeId}
    {state imageState : MachineState World} {heap copy : Heap} {roots : Ident → Prop},
    machine.Waits image label heap copy roots waiting imageWaiting →
      state.Mirrors machine.host alike label ahead heap copy (Rooted roots env.link) imageState →
        env.In heap → code.ident < heap.next →
          machine.Mirrored image alike label ahead heap copy roots
            (body waiting env code id state)
            (imageBody imageWaiting (env.relabel label) (code.relabel label) id imageState)

section Bodies

variable {body imageBody : List Frame → Env → Code → NodeId → Computation World Found}
  {state imageState : MachineState World} {allRoots : Ident → Prop}

theorem BodiesMirrored.enterDirect (blind : machine.host.Blind alike)
    (bodies : BodiesMirrored machine image alike label ahead body imageBody)
    (waits : machine.Waits image label heap copy roots waiting imageWaiting)
    (states : state.Mirrors machine.host alike label ahead heap copy allRoots imageState)
    (fewer : ∀ root, roots root → allRoots root) {callee : Closure} {arg : Value}
    (calleeInside : callee.In heap) (argInside : arg.In heap) (calleeRooted : allRoots callee.ident)
    (argRooted : ∀ link ∈ arg.link, allRoots link) :
    machine.Mirrored image alike label ahead heap copy roots
      (enterDirect (body waiting) callee arg state)
      (enterDirect (imageBody imageWaiting) (callee.relabel label) (arg.relabel label)
        imageState) := by
  obtain ⟨found, codeBelow, envInside⟩ := Closure.within_iff.mp calleeInside
  obtain ⟨later, laterCopy, grows, copyGrows, extendedInside, same, entered⟩ :=
    states.extend blind callee.param envInside argInside
      (fun link among => .part (.root (.inl calleeRooted)) found among)
      (fun link among => .root (argRooted link among)) fewer
  rw [callee.relabel_eq]
  change machine.Mirrored image _ _ _ _ _ _ _ (imageBody imageWaiting
    (imageState.mint.extend (callee.env.relabel label) callee.param (arg.relabel label)).1 _ _ _)
  rw [same]
  exact (bodies (waits.mono grows copyGrows) entered extendedInside
    (Nat.lt_of_lt_of_le codeBelow grows.le)).mono grows copyGrows fun _ root => root

/-- A recorded result is found on both sides, and a new one is recorded on both. -/
theorem BodiesMirrored.applyCacheable (sameHost : image.host = machine.host)
    (blind : machine.host.Blind alike)
    (bodies : BodiesMirrored machine image alike label ahead body imageBody)
    (waits : machine.Waits image label heap copy roots waiting imageWaiting)
    (states : state.Mirrors machine.host alike label ahead heap copy allRoots imageState)
    (fewer : ∀ root, roots root → allRoots root) {env : Env} {callee key : Closure}
    (envInside : env.In heap) (calleeInside : callee.In heap) (keyInside : key.In heap)
    (calleeRooted : allRoots callee.ident) (keyRooted : allRoots key.ident) :
    machine.Mirrored image alike label ahead heap copy roots
      (machine.applyDirect true body waiting env ⟨.closure callee, true⟩ ⟨.closure key, true⟩ state)
      (image.applyDirect true imageBody imageWaiting (env.relabel label)
        ⟨.closure (callee.relabel label), true⟩ ⟨.closure (key.relabel label), true⟩
        imageState) := by
  have closure := (Closure.within_iff.mp calleeInside).1
  have recalled : recollect true (callee.relabel label) (key.relabel label) imageState =
      (recollect true callee key state).map (Value.relabel label) := by
    rw [callee.relabel_eq, key.relabel_eq]
    exact states.memo.results _ _ _ _ _ _ (.root (.inl calleeRooted)) closure
      (.root (.inl keyRooted))
  simp only [Machine.applyDirect, Bool.and_self, if_true, recalled]
  cases recollected : recollect true callee key state with
  | some hit =>
      refine Mirrored.passed (.refl _) (.refl _) envInside
        (states.memo.inside.results _ _ _ recollected) (states.countHit.reroot ?_)
      rintro root (isRoot | linked)
      · exact .root (fewer root isRoot)
      · exact .result (.root (.inl calleeRooted)) closure (.root (.inl keyRooted)) recollected
          linked
  | none =>
      have pushed := waits.push states.copied
        (show (Frame.memoize callee key).In heap from ⟨calleeInside, keyInside⟩)
      have stillFewer (root : Ident)
          (isRoot : Rooted roots (Frame.memoize callee key).links root) : allRoots root := by
        rcases isRoot with isRoot | linked
        · exact fewer root isRoot
        · rcases List.mem_cons.mp linked with rfl | second
          · exact calleeRooted
          · exact List.mem_singleton.mp second ▸ keyRooted
      have argRooted (link : Ident) (among : link ∈ (Value.closure key).link) : allRoots link :=
        List.mem_singleton.mp among ▸ keyRooted
      have entered := bodies.enterDirect blind pushed states stillFewer calleeInside
        (Value.within_closure.mpr keyInside) calleeRooted argRooted
      simp only [Value.relabel_closure] at entered
      refine entered.bind ?_ ?_ ?_
      · rintro found state outcome after ⟨⟩
        exact proceeds_rememberOutcome waiting callee key (.ok found) state
      · rintro found state outcome after ⟨⟩
        exact proceeds_rememberOutcome imageWaiting (callee.relabel label) (key.relabel label)
          (.ok found) state
      · intro found after imageAfter later laterCopy grows copyGrows env value states
        exact .passed (.refl _) (.refl _) env value
          (((pushed.mono grows copyGrows).remember sameHost blind states env value).fewer
            fun root isRoot => isRoot.imp_left .inl)

theorem BodiesMirrored.applyDirect (sameHost : image.host = machine.host)
    (blind : machine.host.Blind alike)
    (bodies : BodiesMirrored machine image alike label ahead body imageBody)
    (waits : machine.Waits image label heap copy roots waiting imageWaiting)
    (states : state.Mirrors machine.host alike label ahead heap copy allRoots imageState)
    (fewer : ∀ root, roots root → allRoots root) {env : Env} {func arg : Evaluated}
    (envInside : env.In heap) (funcInside : func.value.In heap) (argInside : arg.value.In heap)
    (funcRooted : ∀ link ∈ func.value.link, allRoots link)
    (argRooted : ∀ link ∈ arg.value.link, allRoots link) :
    machine.Mirrored image alike label ahead heap copy roots
      (machine.applyDirect true body waiting env func arg state)
      (image.applyDirect true imageBody imageWaiting (env.relabel label) (func.relabel label)
        (arg.relabel label) imageState) := by
  obtain ⟨func, funcCacheable⟩ := func
  obtain ⟨arg, argCacheable⟩ := arg
  cases func with
  | datum ident datum =>
      simp only [Machine.applyDirect, Evaluated.relabel, Value.relabel]
      exact .failed states.alike.somehow
  | builtin function =>
      simp only [Machine.applyDirect, Evaluated.relabel, Value.relabel]
      exact mirrored_callDirect sameHost blind states fewer envInside
        (Value.within_builtin.mp funcInside) argInside funcRooted argRooted
  | closure callee =>
      have calleeInside : callee.In heap := Value.within_closure.mp funcInside
      have calleeRooted : allRoots callee.ident := funcRooted _ (List.mem_singleton.mpr rfl)
      cases both : funcCacheable && argCacheable with
      | false =>
          simp only [Machine.applyDirect, Evaluated.relabel, Value.relabel_closure, both]
          have pushed := waits.push states.copied (show Frame.taint.In heap from trivial)
          refine .bind (bodies.enterDirect blind pushed states ?_ calleeInside argInside calleeRooted
            argRooted) ?_ ?_ ?_
          · rintro root (isRoot | nothing)
            · exact fewer root isRoot
            · exact (List.not_mem_nil nothing).elim
          · rintro found state outcome after ⟨⟩
            exact .refl _
          · rintro found state outcome after ⟨⟩
            exact .refl _
          · intro found after imageAfter later laterCopy _ _ env value entered
            exact .passed (.refl _) (.refl _) env value
              (entered.fewer fun root isRoot => isRoot.imp_left .inl)
      | true =>
          obtain ⟨rfl, rfl⟩ := Bool.and_eq_true_iff.mp both
          cases arg with
          | closure key =>
              exact bodies.applyCacheable sameHost blind waits states fewer envInside calleeInside
                (Value.within_closure.mp argInside) calleeRooted
                (argRooted _ (List.mem_singleton.mpr rfl))
          | _ =>
              have entered := bodies.enterDirect blind waits states fewer calleeInside argInside
                calleeRooted argRooted
              simp only [Value.relabel] at entered
              simp only [Machine.applyDirect, Evaluated.relabel, Value.relabel]
              exact entered

/-- The operator is evaluated first, then the operand, and the one is applied to the other. -/
theorem mirrored_application (sameHost : image.host = machine.host)
    (blind : machine.host.Blind alike)
    {depth : Nat} (bodies : BodiesMirrored machine image alike label ahead
      (machine.evalDirect true depth) (image.evalDirect true depth))
    (waits : machine.Waits image label heap copy roots waiting imageWaiting) {env : Env}
    {code : Code} (func arg : NodeId)
    (states : state.Mirrors machine.host alike label ahead heap copy (Rooted roots env.link) imageState)
    (envInside : env.In heap) (codeBelow : code.ident < heap.next) :
    machine.Mirrored image alike label ahead heap copy roots
      ((machine.evalDirect true depth (.argument env code arg :: waiting) env code func >>=
        fun called =>
          machine.evalDirect true depth (.call env called.result :: waiting) env code arg >>=
            fun passed => machine.applyDirect true (machine.evalDirect true depth) waiting env
              called.result passed.result) state)
      ((image.evalDirect true depth
          (.argument (env.relabel label) (code.relabel label) arg :: imageWaiting)
          (env.relabel label) (code.relabel label) func >>=
        fun called =>
          image.evalDirect true depth (.call (env.relabel label) called.result :: imageWaiting)
              (env.relabel label) (code.relabel label) arg >>=
            fun passed => image.applyDirect true (image.evalDirect true depth) imageWaiting
              (env.relabel label) called.result passed.result) imageState) := by
  have argument : (Frame.argument env code arg).In heap := envInside
  refine .bind (bodies (waits.push states.copied argument)
    (states.fewer fun _ isRoot => isRoot.elim (·) .inr) envInside codeBelow)
    (fun called => (proceeds_evalDirect _ _ _ _ _).bind fun passed =>
      proceeds_applyDirect _ _ _ _ _)
    (fun called => (proceeds_evalDirect _ _ _ _ _).bind fun passed =>
      proceeds_applyDirect _ _ _ _ _) ?_
  intro called middle imageMiddle later laterCopy grows copyGrows _ calledInside states
  have envInside := Env.In.mono grows envInside
  have waits := waits.mono grows copyGrows
  have call : (Frame.call env called.result).In later := ⟨envInside, calledInside⟩
  have fewer (root : Ident)
      (isRoot : Rooted (Rooted roots (Frame.call env called.result).links) env.link root) :
      Rooted (Rooted roots env.link) called.result.value.link root := by
    rcases isRoot with (old | linked) | inEnv
    · exact .inl (.inl old)
    · rcases List.mem_append.mp linked with inEnv | inCalled
      · exact .inl (.inr inEnv)
      · exact .inr inCalled
    · exact .inl (.inr inEnv)
  refine .bind (bodies (waits.push states.copied call) (states.fewer fewer) envInside
    (Nat.lt_of_lt_of_le codeBelow grows.le)) (fun passed => proceeds_applyDirect _ _ _ _ _)
    (fun passed => proceeds_applyDirect _ _ _ _ _) ?_
  intro passed ready imageReady later laterCopy grows copyGrows _ passedInside states
  exact bodies.applyDirect sameHost blind (waits.mono grows copyGrows) states
    (fun _ isRoot => .inl (.inl isRoot)) (Env.In.mono grows envInside)
    (Value.In.mono grows calledInside) passedInside
    (fun link among => .inl (.inr (List.mem_append_right _ among))) (fun link among => .inr among)

theorem mirrored_evalDirect (sameHost : image.host = machine.host)
    (blind : machine.host.Blind alike) (depth : Nat) :
    BodiesMirrored machine image alike label ahead (machine.evalDirect true depth)
      (image.evalDirect true depth) := by
  induction depth with
  | zero =>
      intro waiting imageWaiting env code id state imageState heap copy roots _ _ _ _
      exact .endless
  | succ depth ih =>
      intro waiting imageWaiting env code id state imageState heap copy roots waits states
        envInside codeBelow
      have counted := states.countStep
      cases imageOver : image.overLimit imageState.countStep.counters.steps with
      | some bound =>
          have ends : image.evalDirect true (depth + 1) imageWaiting (env.relabel label)
              (code.relabel label) id imageState =
                some (.error (.stepLimit bound), imageState.countStep) := by
            simp only [evalDirect, imageOver, Computation.fail]
          rw [ends]
          exact .stopped (limit_of_overLimit imageOver) fun outcome final ended =>
            (overtaken_of_overLimit counted.alike.somehow imageOver).mono (Nat.le_refl ahead)
              (evaluates_of_evalDirect ended).proceeds
      | none =>
          cases exceeded : machine.overLimit state.countStep.counters.steps with
          | some bound =>
              have ends : machine.evalDirect true (depth + 1) waiting env code id state =
                  some (.error (.stepLimit bound), state.countStep) := by
                simp only [evalDirect, exceeded, Computation.fail]
              have differ (same : image.limit = machine.limit) : False := by
                have le := counted.alike.steps ▸ Counters.le_iterate_bump ahead _
                cases (within_of_le same le imageOver).symm.trans exceeded
              have precedes :
                  state.countStep.Precedes image.host (AlikeSomehow alike) imageState.countStep :=
                ⟨_, counted.alike.somehow.worlds, .refl⟩
              rw [ends]
              exact .outlasted (limit_of_overLimit exceeded) differ fun outcome final ended =>
                precedes.mono (evaluates_of_evalDirect ended).proceeds
          | none =>
              rw [evalDirect, evalDirect]
              dsimp only
              rw [exceeded, imageOver]
              dsimp only [Code.relabel]
              cases node : code.arena.node? id with
              | none => exact .failed counted.alike.somehow
              | some term =>
                  cases term with
                  | var name => exact mirrored_variable counted envInside name
                  | lambda param body =>
                      exact mirrored_abstraction blind counted (fun _ isRoot => .inl isRoot) param body
                        envInside codeBelow fun _ among => .inr among
                  | apply func arg =>
                      exact mirrored_application sameHost blind ih waits func arg counted envInside
                        codeBelow

end Bodies

/-- With calls nested deep enough, to evaluate directly is to evaluate. -/
theorem exists_enough (machine : Machine World) (waiting : List Frame) (task : Task)
    (state : MachineState World) :
    ∃ enough, ∀ depth, enough ≤ depth → ∀ outcome after,
      machine.Evaluates true waiting task state outcome after ↔
        machine.taskDirect true depth waiting task state = some (outcome, after) := by
  by_cases ends : ∃ outcome after, machine.Evaluates true waiting task state outcome after
  · obtain ⟨outcome, after, ended⟩ := ends
    obtain ⟨enough, direct⟩ := ended.taskDirect
    refine ⟨enough, fun depth le other otherAfter =>
      ⟨fun otherEnded => ?_, evaluates_of_taskDirect⟩⟩
    cases ended.unique otherEnded
    exact direct depth le
  · exact ⟨0, fun _ _ outcome after => ⟨fun ended => (ends ⟨outcome, after, ended⟩).elim,
      evaluates_of_taskDirect⟩⟩

inductive Compared (machine image : Machine World)
    (alike : Heap → (Ident → Ident) → World → World → Prop) (label : Ident → Ident) (ahead : Nat)
    (heap copy : Heap) (roots : Ident → Prop)
    (ends imageEnds : Outcome → MachineState World → Prop) : Prop
  | endless (never : ∀ outcome after, ¬ends outcome after)
      (imageNever : ∀ outcome after, ¬imageEnds outcome after)
  | stopped {bound imageState} (limited : image.limit = some bound)
      (imageEnded : imageEnds (.error (.stepLimit bound)) imageState)
      (overtaken : ∀ outcome state, ends outcome state →
        state.Overtaken machine.host (AlikeSomehow alike) ahead bound imageState)
  | outlasted {bound state} (limited : machine.limit = some bound)
      (differ : image.limit ≠ machine.limit) (ended : ends (.error (.stepLimit bound)) state)
      (precedes : ∀ outcome imageState, imageEnds outcome imageState →
        state.Precedes image.host (AlikeSomehow alike) imageState)
  | failed {error state imageState} (ended : ends (.error error) state)
      (imageEnded : imageEnds (.error error) imageState)
      (states : state.Alike (AlikeSomehow alike) ahead imageState)
  | passed {found state imageState later laterCopy} (ended : ends (.ok found) state)
      (imageEnded : imageEnds (.ok (found.relabel label)) imageState) (grows : heap.Grows later)
      (copyGrows : copy.Grows laterCopy) (value : found.result.value.In later)
      (states : state.Mirrors machine.host alike label ahead later laterCopy
        (Rooted roots found.result.value.link) imageState)

theorem compared_of_mirrored {task imageTask : Task} {state imageState : MachineState World}
    (mirrored : ∀ depth, machine.Mirrored image alike label ahead heap copy roots
      (machine.taskDirect true depth waiting task state)
      (image.taskDirect true depth imageWaiting imageTask imageState)) :
    machine.Compared image alike label ahead heap copy roots
      (machine.Evaluates true waiting task state)
      (image.Evaluates true imageWaiting imageTask imageState) := by
  obtain ⟨enough, direct⟩ := machine.exists_enough waiting task state
  obtain ⟨imageEnough, imageDirect⟩ := image.exists_enough imageWaiting imageTask imageState
  have ends := direct _ (Nat.le_max_left enough imageEnough)
  have imageEnds := imageDirect _ (Nat.le_max_right enough imageEnough)
  replace mirrored := mirrored (max enough imageEnough)
  generalize machine.taskDirect true (max enough imageEnough) waiting task state = ending
    at ends mirrored
  generalize image.taskDirect true (max enough imageEnough) imageWaiting imageTask imageState =
    imageEnding at imageEnds mirrored
  cases mirrored with
  | endless =>
      exact .endless (fun _ _ ended => by cases (ends _ _).mp ended) fun _ _ imageEnded => by
        cases (imageEnds _ _).mp imageEnded
  | stopped limited overtaken =>
      exact .stopped limited ((imageEnds _ _).mpr rfl) fun outcome after ended =>
        overtaken outcome after ((ends _ _).mp ended)
  | outlasted limited differ precedes =>
      exact .outlasted limited differ ((ends _ _).mpr rfl) fun outcome after imageEnded =>
        precedes outcome after ((imageEnds _ _).mp imageEnded)
  | failed states => exact .failed ((ends _ _).mpr rfl) ((imageEnds _ _).mpr rfl) states
  | passed grows copyGrows _ value states =>
      exact .passed ((ends _ _).mpr rfl) ((imageEnds _ _).mpr rfl) grows copyGrows value states

theorem compared_evaluates (sameHost : image.host = machine.host)
    (blind : machine.host.Blind alike) {env : Env} {code : Code} (id : NodeId)
    {state imageState : MachineState World}
    (waits : machine.Waits image label heap copy roots waiting imageWaiting)
    (states : state.Mirrors machine.host alike label ahead heap copy (Rooted roots env.link) imageState)
    (envInside : env.In heap) (codeBelow : code.ident < heap.next) :
    machine.Compared image alike label ahead heap copy roots
      (machine.Evaluates true waiting (.node env code id) state)
      (image.Evaluates true imageWaiting (.node (env.relabel label) (code.relabel label) id)
        imageState) :=
  compared_of_mirrored fun depth =>
    mirrored_evalDirect sameHost blind depth waits states envInside codeBelow

theorem compared_application (sameHost : image.host = machine.host)
    (blind : machine.host.Blind alike) {allRoots : Ident → Prop} {func arg : Evaluated}
    {state imageState : MachineState World}
    (waits : machine.Waits image label heap copy roots waiting imageWaiting)
    (states : state.Mirrors machine.host alike label ahead heap copy allRoots imageState)
    (fewer : ∀ root, roots root → allRoots root) (funcInside : func.value.In heap)
    (argInside : arg.value.In heap) (funcRooted : ∀ link ∈ func.value.link, allRoots link)
    (argRooted : ∀ link ∈ arg.value.link, allRoots link) :
    machine.Compared image alike label ahead heap copy roots
      (machine.Evaluates true waiting (.application .empty func arg) state)
      (image.Evaluates true imageWaiting
        (.application .empty (func.relabel label) (arg.relabel label)) imageState) := by
  refine compared_of_mirrored fun depth => ?_
  have bodies := @mirrored_evalDirect _ _ label ahead _ _ sameHost blind depth
  have applied := bodies.applyDirect sameHost blind waits states fewer (Env.within_empty _ _)
    funcInside argInside funcRooted argRooted
  rw [Env.relabel] at applied
  exact applied

end Machine

end LambdaMachine
