import LambdaMachine.Proofs.Command.Silence
import LambdaMachine.Proofs.Machine.Anchored
import LambdaMachine.Proofs.Session.Scope
import LambdaMachine.Proofs.Session.Stages

/-!
No lookup leaves its arena. Whatever a driver does with a session, each value that the session holds
and each node that waits to be evaluated is anchored in an arena of its own, so evaluating goes on
inside of arenas and values can be shown.
-/

namespace LambdaMachine

def Roots.Anchored (roots : Roots) : Prop :=
  (∀ env ∈ roots.envs, env.Anchored) ∧ ∀ value ∈ roots.values, value.Anchored

namespace Host.Session

variable {World : Type} {host : Host World}

structure Anchored (session : host.Session) : Prop where
  roots : session.roots.Anchored
  state : session.state.Anchored host

def after {α : Type} (action : host.SessionM α) (session : host.Session) : host.Session :=
  match action session with
  | .ok _ after => after
  | .error _ after => after

def Anchors (host : Host World) {α : Type} (action : host.SessionM α) (post : α → Prop) : Prop :=
  ∀ session : host.Session, session.Anchored → match action session with
    | .ok value after => after.Anchored ∧ post value
    | .error _ after => after.Anchored

section Anchors

variable {α β : Type} {session : host.Session}

theorem Anchored.env (anchored : session.Anchored) : session.env.Anchored :=
  anchored.roots.1 _ List.mem_cons_self

theorem Anchored.withEnv {env : Env} (anchored : session.Anchored) (envAnchored : env.Anchored) :
    ({ session with env } : host.Session).Anchored := by
  refine ⟨⟨?_, anchored.roots.2⟩, anchored.state⟩
  intro other among
  rcases List.mem_cons.mp among with rfl | saved
  · exact envAnchored
  · exact anchored.roots.1 other (List.mem_cons_of_mem _ saved)

theorem Anchored.withState {state : MachineState World} (anchored : session.Anchored)
    (held : state.Anchored host) : ({ session with state } : host.Session).Anchored :=
  ⟨anchored.roots, held⟩

theorem Anchored.withBinding {value : Value} (anchored : session.Anchored)
    (valueAnchored : value.Anchored) (name : String) :
    (session.withBinding name value).Anchored :=
  (anchored.withEnv (anchored.env.extend valueAnchored _ _)).withState anchored.state

theorem Anchors.after {action : host.SessionM α} {post : α → Prop}
    (anchors : Anchors host action post)
    (anchored : session.Anchored) : (session.after action).Anchored := by
  have ended := anchors session anchored
  unfold Session.after
  cases ran : action session with
  | ok value after =>
      rw [ran] at ended
      exact ended.1
  | error error after =>
      rw [ran] at ended
      exact ended

theorem Anchors.bind {action : host.SessionM α} {next : α → host.SessionM β} {middle : α → Prop}
    {post : β → Prop} (first : Anchors host action middle)
    (rest : ∀ value, middle value → Anchors host (next value) post) : Anchors host
    (action >>= next) post := by
  intro session anchored
  have ended := first session anchored
  rw [bind_eq]
  cases ran : action session with
  | error error after =>
      rw [ran] at ended
      exact ended
  | ok value after =>
      rw [ran] at ended
      exact rest value ended.2 after ended.1

theorem Anchors.pure {value : α} {post : α → Prop} (held : post value) :
    Anchors host (Pure.pure value) post :=
  fun _ anchored => ⟨anchored, held⟩

theorem Anchors.throw (error : SessionError) (post : α → Prop) : Anchors host (throw error) post :=
  fun _ anchored => anchored

theorem anchors_get : Anchors host get Session.Anchored :=
  fun _ anchored => ⟨anchored, anchored⟩

theorem anchors_modifyGet {change : host.Session → α × host.Session} {post : α → Prop}
    (keeps : ∀ session : host.Session, session.Anchored →
      (change session).2.Anchored ∧ post
      (change session).1) : Anchors host (modifyGet change) post :=
  fun session anchored => keeps session anchored

theorem anchors_withMint {action : Mint → α × Mint} {post : α → Prop}
    (held : ∀ mint, post (action mint).1) : Anchors host (withMint action) post :=
  anchors_modifyGet fun session anchored =>
    ⟨anchored.withState anchored.state, held session.state.mint⟩

theorem anchors_resolve (name : String) : Anchors host (resolve name) Value.Anchored := by
  unfold resolve
  refine (anchors_withMint fun _ => trivial).bind fun number (_ : True) => ?_
  refine anchors_get.bind fun found anchored => ?_
  split
  · rename_i value bound
    exact .pure (anchored.env.of_lookup bound)
  · exact .throw _ _

theorem anchors_resolveClosure (name : String) :
    Anchors host (resolveClosure name) fun closure => (Value.closure closure).Anchored := by
  unfold resolveClosure
  refine (anchors_resolve name).bind fun value anchored => ?_
  split
  · exact .pure anchored
  · exact .throw _ _

theorem anchors_build (recipe : Recipe) : Anchors host (build recipe) Value.Anchored := by
  induction recipe with
  | datum data => exact anchors_withMint fun _ => Value.anchored_datum _ _
  | numeral count => exact anchors_withMint fun mint => Church.anchored_numeral count mint
  | truth value => exact anchors_withMint fun mint => Church.anchored_truth value mint
  | pair first second firstIh secondIh =>
      rw [build]
      refine firstIh.bind fun first firstAnchored => ?_
      refine secondIh.bind fun second secondAnchored => ?_
      exact anchors_withMint fun mint => Church.anchored_pair firstAnchored secondAnchored mint
  | function name operation =>
      exact anchors_withMint fun _ => Value.anchored_builtin.mpr Env.anchored_empty
  | constant name cacheable value valueIh =>
      rw [build]
      refine valueIh.bind fun value anchored => ?_
      have kept : Anchors host (withMint (·.extend .empty 0 value)) Env.Anchored :=
        anchors_withMint fun _ => Env.anchored_empty.extend anchored _ _
      exact kept.bind fun env envAnchored =>
        anchors_withMint fun _ => Value.anchored_builtin.mpr envAnchored
  | identity =>
      rw [build]
      have made : Anchors host (withMint Church.identity) fun closure =>
          (Value.closure closure).Anchored := anchors_withMint Church.anchored_identity
      exact made.bind fun closure anchored => .pure anchored
  | reference name => exact anchors_resolve name

theorem anchors_bind (name : String) (recipe : Recipe) :
    Anchors host (bind name recipe) fun _ => True := by
  unfold Host.Session.bind
  refine (anchors_build recipe).bind fun value valueAnchored => ?_
  exact anchors_modifyGet fun session anchored =>
    ⟨anchored.withBinding valueAnchored name, trivial⟩

theorem anchors_builds (extra : List (String × Recipe)) :
    Anchors host (extra.mapM fun (name, recipe) => do
        let value ← build recipe
        return (name, value))
      fun values => ∀ binding ∈ values, binding.2.Anchored := by
  induction extra with
  | nil =>
      rw [List.mapM_nil]
      exact .pure (List.forall_mem_nil _)
  | cons binding rest ih =>
      rw [List.mapM_cons]
      have first : Anchors host (do
          let value ← build binding.2
          return (binding.1, value)) fun built => built.2.Anchored :=
        (anchors_build binding.2).bind fun value anchored => .pure anchored
      refine first.bind fun built anchored => ih.bind fun values each => .pure ?_
      exact List.forall_mem_cons.mpr ⟨anchored, each⟩

theorem anchors_enterPrelude (extra : List (String × Recipe)) :
    Anchors host (enterPrelude extra) fun _ => True := by
  unfold enterPrelude
  refine (anchors_builds extra).bind fun values each => ?_
  have entered : Anchors host (withMint (Prelude.environment values)) Env.Anchored :=
    anchors_withMint fun mint => Prelude.anchored_environment mint each
  refine entered.bind fun env envAnchored => ?_
  exact anchors_modifyGet fun session anchored => ⟨anchored.withEnv envAnchored, trivial⟩

theorem Anchored.recordResult {func arg : Closure} {value : Value} (anchored : session.Anchored)
    (valueAnchored : value.Anchored) : (session.recordResult func arg value).Anchored := by
  have held (alive : Memo → IdentSet) : MachineState.Anchored host
      { session.state with memo := session.state.memo.record func arg value alive } :=
    ⟨anchored.state.1.record valueAnchored func arg alive, anchored.state.2⟩
  exact anchored.withState (held _)

theorem anchors_memoize (func arg : String) (recipe : Recipe) :
    Anchors host (memoize func arg recipe) fun _ => True := by
  unfold memoize
  refine (anchors_resolveClosure func).bind fun func _ => ?_
  refine (anchors_build recipe).bind fun value valueAnchored => ?_
  refine (anchors_resolveClosure arg).bind fun arg _ => ?_
  have recorded : Anchors host (modify (recordResult func arg value)) fun _ => True :=
    anchors_modifyGet fun session anchored => ⟨anchored.recordResult valueAnchored, trivial⟩
  exact recorded.bind fun _ _ => anchors_get.bind fun _ _ => .pure trivial

theorem anchors_fillWith (func : Closure) (live : Bool) (count : Nat) :
    Anchors host (fillWith func live count) fun _ => True := by
  induction count with
  | zero => exact .pure trivial
  | succ count ih =>
      rw [fillWith]
      have made : Anchors host (withMint Church.identity) fun closure =>
          (Value.closure closure).Anchored := anchors_withMint Church.anchored_identity
      refine made.bind fun arg argAnchored => ?_
      have counted : Anchors host (withMint (·.datum (.count 0))) Value.Anchored :=
        anchors_withMint fun _ => Value.anchored_datum _ _
      refine counted.bind fun value valueAnchored => ?_
      have recorded : Anchors host (modify (recordResult func arg value)) fun _ => True :=
        anchors_modifyGet fun session anchored => ⟨anchored.recordResult valueAnchored, trivial⟩
      refine recorded.bind fun _ _ => ?_
      have kept : Anchors host (modify fun session : host.Session =>
          { session with kept := .closure arg :: session.kept }) fun _ => True :=
        anchors_modifyGet fun session anchored =>
          ⟨⟨⟨anchored.roots.1, List.forall_mem_cons.mpr ⟨argAnchored, anchored.roots.2⟩⟩,
            anchored.state⟩, trivial⟩
      cases live with
      | false => exact ih
      | true => exact kept.bind fun _ _ => ih

theorem anchors_fill (func : String) (count : Nat) (live : Bool) :
    Anchors host (fill func count live) fun _ => True := by
  unfold fill
  refine (anchors_resolveClosure func).bind fun func _ => ?_
  exact (anchors_fillWith func live count).bind fun _ _ => anchors_get.bind fun _ _ => .pure trivial

theorem anchors_recorded (func : String) (arg : Option String) :
    Anchors host (recorded func arg) fun found =>
      ∀ value, found.2 = some value → value.Anchored := by
  unfold recorded
  refine (anchors_resolveClosure func).bind fun func _ => ?_
  cases arg with
  | none => exact anchors_get.bind fun _ _ => .pure (by rintro value ⟨⟩)
  | some arg =>
      refine (anchors_resolveClosure arg).bind fun arg _ => anchors_get.bind fun session anchored => ?_
      exact .pure fun value found => anchored.state.1 _ _ value found

theorem anchors_compare (left right : String) :
    Anchors host (compare left right) fun _ => True := by
  unfold compare
  refine (anchors_resolve left).bind fun left _ => ?_
  exact (anchors_resolve right).bind fun right _ => .pure trivial

theorem anchors_call (hostAnchored : host.Anchored) (func : String) (recipe : Recipe) :
    Anchors host (call func recipe) fun answer =>
      ∀ result, answer = .ok result → result.value.Anchored := by
  unfold call
  refine (anchors_resolve func).bind fun func funcAnchored => ?_
  split
  · rename_i function
    refine (anchors_build recipe).bind fun arg argAnchored => ?_
    refine anchors_modifyGet fun session anchored => ⟨anchored.withState ⟨anchored.state.1, ?_⟩, ?_⟩
    · exact hostAnchored.keeps function arg _ _ funcAnchored argAnchored anchored.state.2
    · intro result answered
      exact hostAnchored.answers function arg _ _ result funcAnchored argAnchored anchored.state.2
        answered
  · exact .throw _ _

theorem Anchored.load (anchored : session.Anchored) (slot : String) :
    (session.load slot).Anchored := by
  refine anchored.withEnv ?_
  cases saved : session.slots.lookup slot with
  | none => exact Env.anchored_empty
  | some env =>
      obtain ⟨newer, older, same, _⟩ := List.lookup_eq_some_iff.mp saved
      have among : (slot, env) ∈ session.slots := by simp [same]
      exact anchored.roots.1 env (List.mem_cons_of_mem _ (List.mem_map.mpr ⟨_, among, rfl⟩))

theorem Anchored.save (anchored : session.Anchored) (slot : String) :
    (session.save slot).Anchored := by
  refine ⟨⟨?_, anchored.roots.2⟩, anchored.state⟩
  refine List.forall_mem_cons.mpr ⟨anchored.env, List.forall_mem_cons.mpr ⟨anchored.env, ?_⟩⟩
  intro env among
  obtain ⟨entry, kept, rfl⟩ := List.mem_map.mp among
  have among := (List.mem_filter.mp kept).1
  exact anchored.roots.1 _ (List.mem_cons_of_mem _ (List.mem_map.mpr ⟨entry, among, rfl⟩))

end Anchors

end Host.Session

inductive Host.Session.Acts {World : Type} {host : Host World} (attends : World → World → Prop)
    (session : host.Session) : host.Session → Prop
  | enters (extra : List (String × Recipe)) :
      Acts attends session (session.after (enterPrelude extra))
  | binds (name : String) (recipe : Recipe) :
      Acts attends session (session.after (Session.bind name recipe))
  | records (func arg : String) (recipe : Recipe) :
      Acts attends session (session.after (memoize func arg recipe))
  | fills (func : String) (count : Nat) (live : Bool) :
      Acts attends session (session.after (fill func count live))
  | asks (func : String) (arg : Option String) :
      Acts attends session (session.after (recorded func arg))
  | compares (left right : String) : Acts attends session (session.after (compare left right))
  | calls (func : String) (recipe : Recipe) : Acts attends session (session.after (call func recipe))
  | releases : Acts attends session session.release.2
  | saves (slot : String) : Acts attends session (session.save slot)
  | loads (slot : String) : Acts attends session (session.load slot)
  | changes (world : World) (attended : attends session.state.world world) :
      Acts attends session (session.withWorld world)

theorem Host.Session.Acts.anchored {World : Type} {host : Host World} {session later : host.Session}
    (acts : session.Acts host.Sheds later) (hostAnchored : host.Anchored)
    (anchored : session.Anchored) : later.Anchored := by
  cases acts with
  | enters extra => exact (anchors_enterPrelude extra).after anchored
  | binds name recipe => exact (anchors_bind name recipe).after anchored
  | records func arg recipe => exact (anchors_memoize func arg recipe).after anchored
  | fills func count live => exact (anchors_fill func count live).after anchored
  | asks func arg => exact (anchors_recorded func arg).after anchored
  | compares left right => exact (anchors_compare left right).after anchored
  | calls func recipe => exact (anchors_call hostAnchored func recipe).after anchored
  | releases => exact ⟨⟨anchored.roots.1, List.forall_mem_nil _⟩, anchored.state⟩
  | saves slot => exact anchored.save slot
  | loads slot => exact anchored.load slot
  | changes world sheds =>
      exact anchored.withState ⟨anchored.state.1, fun value among =>
        anchored.state.2 value (sheds among)⟩

def Focus.roots : Focus → Roots
  | .node env _ _ => ⟨[env], []⟩
  | .value env result => ⟨[env], [result.value]⟩

def Frame.roots : Frame → Roots
  | .argument env _ _ => ⟨[env], []⟩
  | .call env func => ⟨[env], [func.value]⟩
  | .memoize func arg => ⟨[], [.closure func, .closure arg]⟩
  | .taint => ⟨[], []⟩

theorem Focus.Anchored.roots {focus : Focus} (anchored : focus.Anchored) :
    focus.roots.Anchored := by
  cases focus with
  | node env code id => exact ⟨List.forall_mem_singleton.mpr anchored.1, List.forall_mem_nil _⟩
  | value env result =>
      exact ⟨List.forall_mem_singleton.mpr anchored.1, List.forall_mem_singleton.mpr anchored.2⟩

theorem Frame.Anchored.roots {frame : Frame} (anchored : frame.Anchored) :
    frame.roots.Anchored := by
  cases frame with
  | argument env code arg =>
      exact ⟨List.forall_mem_singleton.mpr anchored.1, List.forall_mem_nil _⟩
  | call env func =>
      exact ⟨List.forall_mem_singleton.mpr anchored.1, List.forall_mem_singleton.mpr anchored.2⟩
  | memoize func arg =>
      exact ⟨List.forall_mem_nil _, List.forall_mem_cons.mpr
        ⟨anchored.1, List.forall_mem_singleton.mpr anchored.2⟩⟩
  | taint => exact ⟨List.forall_mem_nil _, List.forall_mem_nil _⟩

namespace Host.Stage

variable {World : Type} {host : Host World}

def roots : host.Stage → List Roots
  | .idle session => [session.roots]
  | .running session _ focus stack _ => session.roots :: focus.roots :: stack.map Frame.roots

inductive Holds (stage : host.Stage) : Value → Prop
  | bound {roots env name value} (among : roots ∈ stage.roots) (rooted : env ∈ roots.envs)
      (found : env.lookup name = some value) : Holds stage value
  | held {roots value} (among : roots ∈ stage.roots) (rooted : value ∈ roots.values) :
      Holds stage value
  | recorded {func arg value} (found : stage.state.memo.lookup func arg = some value) :
      Holds stage value
  | retained {value} (among : value ∈ host.kept stage.state.world) : Holds stage value
  | captured {closure name value} (holds : Holds stage (.closure closure))
      (found : closure.env.lookup name = some value) : Holds stage value
  | kept {function name value} (holds : Holds stage (.builtin function))
      (found : function.kept.lookup name = some value) : Holds stage value

inductive Drives (attends : World → World → Prop) : host.Stage → host.Stage → Prop
  | acts {session later : host.Session} (acts : session.Acts attends later) :
      Drives attends (.idle session) (.idle later)
  | evaluates {stage later : host.Stage} (next : stage.Next later) : Drives attends stage later

/-- The stages that a driver can bring about, beginning with a new session. -/
def Driven (starts : World → Prop) (attends : World → World → Prop) (stage : host.Stage) : Prop :=
  ∃ world limit, starts world ∧
    Relation.ReflTransGen (Drives attends) (.idle (Session.fresh world limit)) stage

section Driven

variable {starts : World → Prop} {attends : World → World → Prop}

theorem Driven.acts {session later : host.Session} (driven : Driven starts attends (.idle session))
    (acts : session.Acts attends later) : Driven starts attends (.idle later) := by
  obtain ⟨world, limit, begins, drives⟩ := driven
  exact ⟨world, limit, begins, drives.tail (.acts acts)⟩

theorem Driven.leads {stage later : host.Stage} (driven : stage.Driven starts attends)
    (leads : stage.Leads later) : later.Driven starts attends := by
  obtain ⟨world, limit, begins, drives⟩ := driven
  refine ⟨world, limit, begins, drives.trans ?_⟩
  induction leads with
  | refl => exact .refl
  | tail _ next ih => exact ih.tail (.evaluates next)

end Driven

/-- Evaluation looks up no node outside an arena, and the values that the stage holds can be
shown. -/
structure Inside (stage : host.Stage) : Prop where
  evaluates : ∀ session bindAs env code id stack state,
    stage = .running session bindAs (.node env code id) stack state → code.arena.Legible id
  goesOn : ∀ session bindAs focus stack state after id,
    stage = .running session bindAs focus stack state →
      session.machine.step focus stack state ≠ .halted (.error (.dangling id)) after
  legible : ∀ closure, stage.Holds (.closure closure) → closure.code.arena.Legible closure.body

def Anchored : host.Stage → Prop
  | .idle session => session.Anchored
  | .running session _ focus stack state =>
      session.roots.Anchored ∧ Machine.Anchored host focus stack state

theorem Anchored.state {stage : host.Stage} (anchored : stage.Anchored) :
    stage.state.Anchored host := by
  cases stage with
  | idle session => exact Session.Anchored.state anchored
  | running session bindAs focus stack state => exact anchored.2.state

theorem Anchored.roots {stage : host.Stage} (anchored : stage.Anchored) :
    ∀ roots ∈ stage.roots, roots.Anchored := by
  cases stage with
  | idle session => exact List.forall_mem_singleton.mpr (Session.Anchored.roots anchored)
  | running session bindAs focus stack state =>
      obtain ⟨sessionAnchored, machineAnchored⟩ := anchored
      refine List.forall_mem_cons.mpr ⟨sessionAnchored, List.forall_mem_cons.mpr
        ⟨machineAnchored.focus.roots, ?_⟩⟩
      intro roots among
      obtain ⟨frame, inStack, rfl⟩ := List.mem_map.mp among
      exact (machineAnchored.stack frame inStack).roots

theorem Anchored.holds {stage : host.Stage} {value : Value} (anchored : stage.Anchored)
    (holds : stage.Holds value) : value.Anchored := by
  induction holds with
  | bound among rooted found => exact ((anchored.roots _ among).1 _ rooted).of_lookup found
  | held among rooted => exact (anchored.roots _ among).2 _ rooted
  | recorded found => exact anchored.state.1 _ _ _ found
  | retained among => exact anchored.state.2 _ among
  | captured _ found ih => exact (Value.anchored_closure.mp ih).2.of_lookup found
  | kept _ found ih => exact (Value.anchored_builtin.mp ih).of_lookup found

theorem Anchored.step {session : host.Session} {bindAs : Option String} {focus : Focus}
    {stack : List Frame} {state : MachineState World} (hostAnchored : host.Anchored)
    (anchored : Anchored (.running session bindAs focus stack state)) :
    (session.machine.step focus stack state).Anchored host :=
  Machine.anchored_step hostAnchored anchored.2

theorem Anchored.inside {stage : host.Stage} (hostAnchored : host.Anchored)
    (anchored : stage.Anchored) : stage.Inside := by
  constructor
  · rintro session bindAs env code id stack state rfl
    exact anchored.2.focus.2.legible
  · rintro session bindAs focus stack state after id rfl halted
    have stepped := Anchored.step hostAnchored anchored
    rw [halted] at stepped
    exact stepped.1 id rfl
  · intro closure holds
    exact (Value.anchored_closure.mp (anchored.holds holds)).1.legible

theorem anchored_fresh {world : World} (nothing : host.KeepsNothing world) (limit : Option Nat) :
    Anchored (.idle (Session.fresh world limit) : host.Stage) := by
  refine ⟨⟨List.forall_mem_singleton.mpr Env.anchored_empty, List.forall_mem_nil _⟩,
    Memo.anchored_empty, ?_⟩
  rw [Host.KeepsAnchored, Session.fresh, nothing]
  exact List.forall_mem_nil _

theorem Next.anchored {stage later : host.Stage} (next : stage.Next later)
    (hostAnchored : host.Anchored) (anchored : stage.Anchored) : later.Anchored := by
  cases next with
  | @limited session limit =>
      have anchored : session.Anchored := anchored
      exact ⟨anchored.roots, anchored.state⟩
  | @entered session =>
      have entered := (Session.anchors_enterPrelude []).after anchored
      rw [Session.after, Session.enterPrelude_nil] at entered
      exact entered
  | @rejected session source error names parsed =>
      have anchored : session.Anchored := anchored
      exact anchored.withState anchored.state
  | @started session source program names parsed bindAs =>
      have anchored : session.Anchored := anchored
      exact ⟨anchored.roots, ⟨anchored.env, Program.anchors_parse parsed⟩, List.forall_mem_nil _,
        anchored.state⟩
  | @moved session bindAs focus focus' stack stack' state state' step =>
      have stepped := Anchored.step hostAnchored anchored
      rw [step] at stepped
      exact ⟨anchored.1, stepped⟩
  | @halted session bindAs focus stack state state' outcome step =>
      have stepped := Anchored.step hostAnchored anchored
      rw [step] at stepped
      have kept : ({ session with state := state' } : host.Session).Anchored := ⟨anchored.1, stepped.2⟩
      cases outcome with
      | error error => exact kept
      | ok result =>
          cases bindAs with
          | none => exact kept
          | some name => exact kept.withBinding stepped.1 name

theorem Drives.anchored {stage later : host.Stage} (drives : stage.Drives host.Sheds later)
    (hostAnchored : host.Anchored) (anchored : stage.Anchored) : later.Anchored := by
  cases drives with
  | acts acts => exact acts.anchored hostAnchored anchored
  | evaluates next => exact next.anchored hostAnchored anchored

theorem Driven.anchored {stage : host.Stage} (driven : stage.Driven host.KeepsNothing host.Sheds)
    (hostAnchored : host.Anchored) : stage.Anchored := by
  obtain ⟨world, limit, nothing, drives⟩ := driven
  induction drives with
  | refl => exact anchored_fresh nothing limit
  | tail _ next ih => exact next.anchored hostAnchored ih

end Host.Stage

namespace Command

theorem anchored_launch {options : Options} {program : Program} {names : NameTable} {io : ByteIo}
    (anchors : program.arena.Anchors program.root) :
    Machine.Anchored Surroundings.host (launch options program names io).focus []
      (launch options program names io).state :=
  ⟨⟨Prelude.anchored_environment _ (List.forall_mem_nil _), anchors⟩, List.forall_mem_nil _,
    Memo.anchored_empty, List.forall_mem_nil _⟩

theorem anchored_prepare {source : Feed} {options : Options} {io : ByteIo} {sink : Sink}
    {start : Launch} (prepared : prepare source options io sink = .inr start) :
    start.machine.host = Surroundings.host ∧
      Machine.Anchored Surroundings.host start.focus [] start.state := by
  obtain ⟨program, names, parsed, rfl⟩ := exists_launch_of_prepare prepared
  exact ⟨rfl, anchored_launch (Program.anchors_parse parsed)⟩

end Command

/-- Whatever a driver does, with any functions that hand out and keep anchored values, evaluation
looks up nothing outside an arena, and whatever can be got at can be shown. Every program that was
parsed can be split and shown. A command ends with a value that can be shown, or with an error of
another kind than that of a lookup outside an arena. -/
theorem lookups_stay_inside :
    (∀ (World : Type) (host : Host World) (stage : host.Stage), host.Anchored →
      stage.Driven host.KeepsNothing host.Sheds → stage.Inside) ∧
    (∀ source names program later, Program.parse source names = (.ok program, later) →
      program.Legible) ∧
    ∀ source options io sink start fuel outcome after,
      Command.prepare source options io sink = .inr start →
      start.machine.run fuel start.focus [] start.state = some (outcome, after) →
      (∀ id, outcome ≠ .error (.dangling id)) ∧
      ∀ closure cacheable, outcome = .ok ⟨.closure closure, cacheable⟩ →
        closure.code.arena.Legible closure.body := by
  refine ⟨fun World host stage hostAnchored driven =>
    (driven.anchored hostAnchored).inside hostAnchored, ?_, ?_⟩
  · intro source names program later parsed
    exact Program.legible_of_anchors (Program.anchors_parse parsed)
  · intro source options io sink start fuel outcome after prepared ended
    obtain ⟨host, anchored⟩ := Command.anchored_prepare prepared
    rw [← host] at anchored
    have ending := (Machine.anchored_run (host ▸ Surroundings.anchored_host) anchored ended).1
    constructor
    · rintro id rfl
      exact ending id rfl
    · rintro closure cacheable rfl
      exact (Value.anchored_closure.mp ending).1.legible

def Value.isClosure : Value → Bool
  | .closure _ => true
  | .builtin _ => false
  | .datum _ _ => false

/-- A session in the middle of a program that calls a function which keeps what it is called with, a
program with an assignment, and a command that ends with a pair made by the host. -/
theorem pair_of_byte_stays_inside :
    (Host.Stage.advance^[12] (Host.Stage.start
      ((Host.Session.fresh (⟨⟨.silent, .buffer [7]⟩, #[]⟩, []) none :
          (Surroundings.hostWith Keeper.host).Session).after
        (Host.Session.enterPrelude [("two", .numeral 2), ("keep", .function "keep" (.echo true))]))
      (.ofString "((two keep) READ_BYTE)") none)).Inside ∧
    (∃ program names, Program.parse (.ofString "x = y (x x)") .empty = (.ok program, names) ∧
      program.Legible) ∧
    ∃ start closure cacheable after,
      Command.prepare (.ofString "(READ_BYTE READ_BYTE)") { mode := .result }
        ⟨.silent, .buffer [7]⟩ {} = .inr start ∧
      start.machine.run 40 start.focus [] start.state =
        some (.ok ⟨.closure closure, cacheable⟩, after) ∧
      closure.code.arena.Legible closure.body := by
  refine ⟨?_, ?_, ?_⟩
  · have anchored := Surroundings.anchored_hostWith Keeper.anchored_host
    let session : (Surroundings.hostWith Keeper.host).Session :=
      .fresh (⟨⟨.silent, .buffer [7]⟩, #[]⟩, []) none
    have fresh : Host.Stage.Driven (Surroundings.hostWith Keeper.host).KeepsNothing
        (Surroundings.hostWith Keeper.host).Sheds (.idle session) :=
      ⟨session.state.world, none, rfl, .refl⟩
    have entered := fresh.acts
      (.enters [("two", .numeral 2), ("keep", .function "keep" (.echo true))])
    have started := entered.leads
      (.single (Host.Stage.next_start _ (.ofString "((two keep) READ_BYTE)") none))
    exact lookups_stay_inside.1 _ _ _ anchored (started.leads (Host.Stage.leads_advance _ 12))
  · have parses : (Program.parse (.ofString "x = y (x x)") .empty).1.isOk = true := by
      decide +kernel
    cases parsed : Program.parse (.ofString "x = y (x x)") .empty with
    | mk result names =>
        rw [parsed] at parses
        cases result with
        | error error => cases parses
        | ok program =>
            exact ⟨program, names, rfl, lookups_stay_inside.2.1 _ _ _ _ parsed⟩
  · have ends : ((Command.prepare (.ofString "(READ_BYTE READ_BYTE)") { mode := .result }
        ⟨.silent, .buffer [7]⟩ {}).elim (fun _ => none) fun start =>
          start.machine.run 40 start.focus [] start.state).any
            (fun ending => ending.1.toOption.any fun result => result.value.isClosure) = true := by
      decide +kernel
    cases prepared : Command.prepare (.ofString "(READ_BYTE READ_BYTE)") { mode := .result }
        ⟨.silent, .buffer [7]⟩ {} with
    | inl report => rw [prepared] at ends; cases ends
    | inr start =>
        rw [prepared] at ends
        obtain ⟨⟨outcome, after⟩, ended, shows⟩ := (Option.any_eq_true _ _).mp ends
        rcases outcome with error | ⟨value, cacheable⟩
        · cases shows
        · cases value with
          | closure closure =>
              have inside := lookups_stay_inside.2.2 _ _ _ _ _ _ _ _ prepared ended
              exact ⟨start, closure, cacheable, after, rfl, ended, inside.2 _ _ rfl⟩
          | builtin function => cases shows
          | datum ident data => cases shows

end LambdaMachine
