import LambdaMachine.Proofs.Machine.Counting
import LambdaMachine.Proofs.Machine.Roots
import LambdaMachine.Proofs.Memo.Mirroring

/-!
The state of a machine and its image under other identities. The image may have instances and
results of its own, and it may have counted more steps.
-/

namespace LambdaMachine

def Found.relabel (label : Ident → Ident) (found : Found) : Found :=
  ⟨found.env.relabel label, found.result.relabel label⟩

def Frame.relabel (label : Ident → Ident) : Frame → Frame
  | .argument env code arg => .argument (env.relabel label) (code.relabel label) arg
  | .call env func => .call (env.relabel label) (func.relabel label)
  | .memoize func arg => .memoize (func.relabel label) (arg.relabel label)
  | .taint => .taint

section Frame

variable {heap copy : Heap} {label : Ident → Ident} {frame : Frame}

theorem Frame.In.relabel (copied : heap.Copied label copy) (inside : frame.In heap) :
    (frame.relabel label).In copy := by
  cases frame with
  | argument env code arg => exact copied.env inside
  | call env func => exact ⟨copied.env inside.1, copied.value inside.2⟩
  | memoize func arg => exact ⟨copied.closure inside.1, copied.closure inside.2⟩
  | taint => trivial

theorem Frame.links_relabel (frame : Frame) :
    (frame.relabel label).links = frame.links.map label := by
  cases frame with
  | argument env code arg => exact env.link_relabel
  | call env func =>
      rw [Frame.relabel, Frame.links, env.link_relabel, Evaluated.relabel, func.value.link_relabel,
        Frame.links, List.map_append]
  | memoize func arg =>
      rw [Frame.relabel, func.relabel_eq, arg.relabel_eq]
      rfl
  | taint => rfl

end Frame

variable {World : Type}

structure Reply.Mirrors (label : Ident → Ident) (alike : World → World → Prop)
    (reply image : Reply World) : Prop where
  result : image.result = reply.result.map (Evaluated.relabel label)
  names : image.mint.names = reply.mint.names
  next : image.mint.nextIdent = label reply.mint.nextIdent
  worlds : alike reply.world image.world

/-- The host tells instances from one another at most. It answers with what it was given, what it
kept and what it makes, and keeps nothing else, whatever the identities are. Which worlds are alike
may depend on the heap that all this is in and on the identities it has in the other world. -/
structure Host.Blind (host : Host World)
    (alike : Heap → (Ident → Ident) → World → World → Prop) : Prop where
  keeps : ∀ {heap label world image}, alike heap label world image → host.KeepsIn heap world
  kept : ∀ {heap label world image}, alike heap label world image →
    host.kept image = (host.kept world).map (Value.relabel label)
  grows : ∀ {heap later : Heap} {label world image}, heap.Grows later →
    alike heap label world image → alike later label world image
  agrees : ∀ {heap : Heap} {label other : Ident → Ident} {world image},
    (∀ ident < heap.next, label ident = other ident) → alike heap label world image →
      alike heap other world image
  within : ∀ (heap : Heap) (function : Builtin) (arg : Value) (mint : Mint) (world : World),
    heap.next = mint.nextIdent → function.Within heap.next heap.cells → arg.In heap →
      host.KeepsIn heap world → ∃ later, heap.Grows later ∧
        later.next = (host.apply function arg mint world).mint.nextIdent ∧
        (∀ result, (host.apply function arg mint world).result = .ok result →
          result.value.In later) ∧
        host.KeepsIn later (host.apply function arg mint world).world
  relabel : ∀ (heap later : Heap) (label : Ident → Ident) (function : Builtin) (arg : Value)
    (mint image : Mint) (world imageWorld : World), heap.next = mint.nextIdent →
      Relabels label mint.nextIdent image.nextIdent → image.names = mint.names →
      function.Within heap.next heap.cells → arg.In heap → alike heap label world imageWorld →
      heap.Grows later → later.next = (host.apply function arg mint world).mint.nextIdent →
      host.KeepsIn later (host.apply function arg mint world).world →
        (host.apply function arg mint world).Mirrors label (alike later label)
          (host.apply (function.relabel label) (arg.relabel label) image imageWorld)

def Settled (alike : Heap → (Ident → Ident) → World → World → Prop) (heap : Heap) (world : World) :
    Prop :=
  alike heap id world world

def AlikeSomehow (alike : Heap → (Ident → Ident) → World → World → Prop) (world image : World) :
    Prop :=
  ∃ heap label, alike heap label world image

def Rooted (roots : Ident → Prop) (links : List Ident) (ident : Ident) : Prop :=
  roots ident ∨ ident ∈ links

namespace MachineState

/-- The image has made the same calls and has been answered as often from the tables. It is `ahead`
by so many steps. -/
structure Alike (alike : World → World → Prop) (ahead : Nat) (state image : MachineState World) :
    Prop where
  steps : image.counters.steps = Counters.bump^[ahead] state.counters.steps
  hits : image.counters.hits = state.counters.hits
  calls : image.counters.calls = state.counters.calls
  worlds : alike state.world image.world

/-- The image has been stopped by the limit on the way: the calls that it has made are the first
ones made here, and the steps counted here do not fit into the limit with those that it is ahead. -/
structure Overtaken (host : Host World) (alike : World → World → Prop) (ahead bound : Nat)
    (state image : MachineState World) : Prop where
  late : bound < Counters.bump^[ahead] state.counters.steps
  early : ∃ world, alike world image.world ∧ host.Leads world state.world

theorem Overtaken.mono {host : Host World} {alike : World → World → Prop} {ahead most bound : Nat}
    {state after image : MachineState World}
    (overtaken : state.Overtaken host alike ahead bound image) (le : ahead ≤ most)
    (proceeds : state.Proceeds host after) : after.Overtaken host alike most bound image := by
  obtain ⟨world, worlds, leads⟩ := overtaken.early
  refine ⟨Nat.lt_of_lt_of_le overtaken.late ?_, world, worlds, leads.trans proceeds.world⟩
  exact Nat.le_trans (Counters.iterate_bump_mono ahead proceeds.steps)
    (Counters.iterate_bump_le le _)

def Precedes (host : Host World) (alike : World → World → Prop) (state image : MachineState World) :
    Prop :=
  ∃ world, alike state.world world ∧ host.Leads world image.world

theorem Precedes.mono {host : Host World} {alike : World → World → Prop}
    {state image after : MachineState World} (precedes : state.Precedes host alike image)
    (proceeds : image.Proceeds host after) : state.Precedes host alike after := by
  obtain ⟨world, worlds, leads⟩ := precedes
  exact ⟨world, worlds, leads.trans proceeds.world⟩

def Reaches (host : Host World) (heap : Heap) (roots : Ident → Prop) (state : MachineState World) :
    Ident → Prop :=
  state.memo.Reaches heap (Rooted roots (host.keptLinks state.world))

structure Mirrors (host : Host World) (alike : Heap → (Ident → Ident) → World → World → Prop)
    (label : Ident → Ident) (ahead : Nat) (heap copy : Heap) (roots : Ident → Prop)
    (state image : MachineState World) : Prop where
  copied : heap.Copied label copy
  next : heap.next = state.mint.nextIdent
  imageNext : copy.next = image.mint.nextIdent
  names : image.mint.names = state.mint.names
  memo : state.memo.Mirrors label heap copy (Rooted roots (host.keptLinks state.world)) image.memo
  alike : state.Alike (alike heap label) ahead image

end MachineState

variable {host : Host World} {alike : Heap → (Ident → Ident) → World → World → Prop}
  {label : Ident → Ident} {ahead : Nat}
  {heap copy later laterCopy : Heap} {roots laterRoots : Ident → Prop}

namespace Host.Blind

variable {world imageWorld : World}

theorem keptLinks_eq (blind : host.Blind alike) (worlds : alike heap label world imageWorld) :
    host.keptLinks imageWorld = (host.keptLinks world).map label := by
  rw [keptLinks, keptLinks, blind.kept worlds, List.flatMap_map, List.map_flatMap]
  exact congrArg (List.flatMap · _) (funext Value.link_relabel)

theorem keeps_image (blind : host.Blind alike) (worlds : alike heap label world imageWorld)
    (copied : heap.Copied label copy) : host.KeepsIn copy imageWorld := by
  intro value among
  rw [blind.kept worlds] at among
  obtain ⟨original, kept, rfl⟩ := List.mem_map.mp among
  exact copied.value (blind.keeps worlds original kept)

/-- A call answers with what is in a later heap, and what is kept then is there, too. -/
theorem settles {function : Builtin} {arg : Value} {mint : Mint} (blind : host.Blind alike)
    (next : heap.next = mint.nextIdent) (functionInside : function.Within heap.next heap.cells)
    (argInside : arg.In heap) (settled : Settled alike heap world) :
    let reply := host.apply function arg mint world
    ∃ later, heap.Grows later ∧ later.next = reply.mint.nextIdent ∧
      (∀ result, reply.result = .ok result → result.value.In later) ∧
        Settled alike later reply.world := by
  obtain ⟨later, grows, laterNext, inside, keeps⟩ :=
    blind.within heap function arg mint world next functionInside argInside (blind.keeps settled)
  have mirrors := blind.relabel heap later id function arg mint mint world world next (.refl _) rfl
    functionInside argInside settled grows laterNext keeps
  rw [function.relabel_id, arg.relabel_id] at mirrors
  exact ⟨later, grows, laterNext, inside, mirrors.worlds⟩

end Host.Blind

namespace MachineState

variable {state image : MachineState World}

theorem Alike.somehow (states : state.Alike (alike heap label) ahead image) :
    state.Alike (AlikeSomehow alike) ahead image :=
  { states with worlds := ⟨heap, label, states.worlds⟩ }

theorem Reaches.root {root : Ident} (isRoot : roots root) : state.Reaches host heap roots root :=
  Memo.Reaches.root (.inl isRoot)

theorem Mirrors.countStep (mirrors : state.Mirrors host alike label ahead heap copy roots image) :
    state.countStep.Mirrors host alike label ahead heap copy roots image.countStep := by
  have steps : image.countStep.counters.steps =
      Counters.bump^[ahead] state.countStep.counters.steps := by
    rw [MachineState.countStep, MachineState.countStep, mirrors.alike.steps]
    exact Counters.bump_iterate ahead state.counters.steps
  exact { mirrors with alike := { mirrors.alike with steps := steps } }

theorem Mirrors.countHit (mirrors : state.Mirrors host alike label ahead heap copy roots image) :
    state.countHit.Mirrors host alike label ahead heap copy roots image.countHit :=
  { mirrors with alike := { mirrors.alike with hits := congrArg Counters.bump mirrors.alike.hits } }

theorem Mirrors.reroot (mirrors : state.Mirrors host alike label ahead heap copy roots image)
    (rooted : ∀ root, laterRoots root → state.Reaches host heap roots root) :
    state.Mirrors host alike label ahead heap copy laterRoots image :=
  { mirrors with
    memo := mirrors.memo.reroot fun root isRoot => isRoot.elim (rooted root) fun kept =>
      .root (.inr kept) }

/-- Both sides make the same instance. -/
theorem Mirrors.add (blind : host.Blind alike)
    (mirrors : state.Mirrors host alike label ahead heap copy roots image) {cell : Cell}
    (inside : cell.Within heap.next heap.cells)
    (held : ∀ link ∈ cell.links, state.Reaches host heap roots link)
    (rooted : ∀ root, laterRoots root → state.Reaches host heap roots root ∨ root = heap.next) :
    ∃ laterCopy, copy.Grows laterCopy ∧
      MachineState.Mirrors host alike label ahead (heap.add cell inside) laterCopy laterRoots
        { state with mint := state.mint.issue.2 } { image with mint := image.mint.issue.2 } := by
  obtain ⟨laterCopy, copyGrows, copied⟩ := mirrors.copied.grow (@Heap.grows_add heap cell inside)
  refine ⟨laterCopy, copyGrows, copied, congrArg Nat.succ mirrors.next, ?_, mirrors.names, ?_,
    ⟨mirrors.alike.steps, mirrors.alike.hits, mirrors.alike.calls,
      blind.grows Heap.grows_add mirrors.alike.worlds⟩⟩
  · rw [← copied.relabels.label_next]
    refine (mirrors.copied.relabels.shifts 1).trans ?_
    rw [mirrors.imageNext]
    rfl
  · refine mirrors.memo.grow mirrors.copied Heap.grows_add copyGrows
      (fun root isRoot => isRoot.elim
        (fun old => (rooted root old).imp_right fun same => Nat.le_of_eq same.symm)
        fun kept => .inl (.root (.inr kept))) ?_
    intro ident other link new found among
    rcases Nat.eq_or_lt_of_le new with rfl | beyond
    · cases Heap.cells_add.symm.trans found
      exact .inl (held link among)
    · exact (Nat.not_lt.mpr beyond ((heap.add cell inside).bounded ident other found)).elim

/-- Both sides bind the same value. -/
theorem Mirrors.extend (blind : host.Blind alike)
    (mirrors : state.Mirrors host alike label ahead heap copy roots image)
    (name : NameId) {env : Env} {value : Value} (envInside : env.In heap)
    (valueInside : value.In heap)
    (envRooted : ∀ link ∈ env.link, state.Reaches host heap roots link)
    (valueRooted : ∀ link ∈ value.link, state.Reaches host heap roots link)
    (fewer : ∀ root, laterRoots root → roots root) :
    let extended := state.mint.extend env name value
    let imageExtended := image.mint.extend (env.relabel label) name (value.relabel label)
    ∃ later laterCopy, heap.Grows later ∧ copy.Grows laterCopy ∧ extended.1.In later ∧
      imageExtended.1 = extended.1.relabel label ∧
      MachineState.Mirrors host alike label ahead later laterCopy (Rooted laterRoots extended.1.link)
        { state with mint := extended.2 } { image with mint := imageExtended.2 } := by
  intro extended imageExtended
  have inside : (Cell.binding name value env).Within heap.next heap.cells :=
    ⟨valueInside, envInside⟩
  have held (link : Ident) (among : link ∈ (Cell.binding name value env).links) :
      state.Reaches host heap roots link :=
    (List.mem_append.mp among).elim (valueRooted link) (envRooted link)
  have rooted (root : Ident) (isRoot : Rooted laterRoots [heap.next] root) :
      state.Reaches host heap roots root ∨ root = heap.next :=
    isRoot.imp (fun old => .root (fewer root old)) List.mem_singleton.mp
  obtain ⟨laterCopy, copyGrows, entered⟩ := mirrors.add blind inside held rooted
  have within := Heap.in_addBinding inside
  rw [mirrors.next] at within entered
  refine ⟨_, laterCopy, Heap.grows_add, copyGrows, within, ?_, entered⟩
  have same : image.mint.nextIdent = label state.mint.nextIdent := by
    rw [← mirrors.next, ← mirrors.imageNext, mirrors.copied.relabels.label_next]
  exact (congrArg (Env.bind · name _ _) same).trans (env.relabel_extend _ name value).symm

/-- The image gives out an identity of its own. -/
theorem Mirrors.aside (blind : host.Blind alike)
    (mirrors : state.Mirrors host alike label ahead heap copy roots image)
    (copyGrows : copy.Grows laterCopy) (one : laterCopy.next = copy.next + 1) :
    MachineState.Mirrors host alike (labelPast label heap.next) ahead heap laterCopy roots state
      { image with mint := image.mint.issue.2 } :=
  ⟨mirrors.copied.past copyGrows one, mirrors.next,
    one.trans (congrArg Nat.succ mirrors.imageNext), mirrors.names,
    mirrors.memo.past mirrors.copied copyGrows,
    ⟨mirrors.alike.steps, mirrors.alike.hits, mirrors.alike.calls,
      blind.agrees (fun _ below => (labelPast_of_lt below).symm) mirrors.alike.worlds⟩⟩

/-- The image counts a step more. -/
theorem Mirrors.stepAside (mirrors : state.Mirrors host alike label ahead heap copy roots image) :
    state.Mirrors host alike label (ahead + 1) heap copy roots image.countStep := by
  have steps : image.countStep.counters.steps = Counters.bump^[ahead + 1] state.counters.steps := by
    rw [Function.iterate_succ_apply', ← mirrors.alike.steps]
    rfl
  exact { mirrors with alike := { mirrors.alike with steps := steps } }

/-- The image makes an instance of its own and counts two steps more. -/
theorem Mirrors.past (blind : host.Blind alike)
    (mirrors : state.Mirrors host alike label ahead heap copy roots image) {cell : Cell}
    (inside : cell.Within copy.next copy.cells) :
    MachineState.Mirrors host alike (labelPast label heap.next) (ahead + 2) heap (copy.add cell inside)
      roots state { image.countStep.countStep with mint := image.mint.issue.2 } :=
  mirrors.stepAside.stepAside.aside blind Heap.grows_add rfl

theorem Mirrors.fewer (mirrors : state.Mirrors host alike label ahead heap copy roots image)
    (fewer : ∀ root, laterRoots root → roots root) :
    state.Mirrors host alike label ahead heap copy laterRoots image :=
  mirrors.reroot fun root isRoot => .root (fewer root isRoot)

end MachineState

/-- What is bound in an environment that can be come to can be come to. -/
theorem Memo.Reaches.lookup {memo : Memo} : ∀ {env : Env} {name : NameId} {value : Value},
    env.In heap → (∀ link ∈ env.link, memo.Reaches heap roots link) →
      env.lookup name = some value → ∀ link ∈ value.link, memo.Reaches heap roots link
  | .empty, name, value, _, _, found => by cases found
  | .bind ident bound held outer, name, value, inside, reached, found => by
      have self := reached ident (List.mem_singleton.mpr rfl)
      rw [Env.In, Env.Within] at inside
      rw [Env.lookup] at found
      split at found
      · cases found
        exact fun link among => .part self inside.1 (List.mem_append_left _ among)
      · exact Reaches.lookup inside.2.2
          (fun link among => .part self inside.1 (List.mem_append_right _ among)) found

end LambdaMachine
