import LambdaMachine.Proofs.Session.Ledger

/-!
Sessions whose tables obey a law. A host may build and bind values, look at tables and call
functions between evaluations; the tables are left to evaluation. Then the law that is obeyed by
whatever evaluation records holds at every moment, whatever the limits and the outcomes.
-/

namespace LambdaMachine

open Machine

/-- The host lists the closures of its functions, and neither they nor what happens between two calls
change whether this holds of its world. -/
structure Host.Steadies {World : Type} (host : Host World) (attends : World → World → Prop)
    (steady : World → Prop) : Prop where
  lists : host.Lists
  stays : host.Stays steady
  attended : ∀ {world later}, attends world later → steady world → steady later
  sheds : ∀ {world later}, attends world later → host.Sheds world later

namespace Ledger

def listing {World : Type} {host : Host World} {attends : World → World → Prop}
    {steady : World → Prop} (steadies : host.Steadies attends steady)
    (law : Closure → Closure → Value → Prop) : Ledger host attends Catalog where
  fits := Catalog.Bounded
  grows := Catalog.Grows
  value catalog value := value.Listed catalog
  env catalog env := env.Listed catalog
  state := Orderly host law steady
  refl := .refl
  trans := .trans
  after grows := grows.after
  growsValue grows := grows.value
  growsEnv grows := grows.env
  empty _ := Env.throughout_empty _ _
  found := Env.Throughout.of_lookup
  datum _ bounded := ⟨_, .skip bounded (Nat.le_succ _), Value.listed_datum _ _ _⟩
  builtin _ _ bounded kept := ⟨_, .skip bounded (Nat.le_succ _),
    Value.throughout_builtin.mpr ⟨trivial, kept⟩⟩
  extend _ bounded outer value := ⟨_, .skip bounded (Nat.le_succ _),
    Env.Throughout.extend outer value _ _⟩
  closureOver param body arena bounded outer :=
    Mint.forms_closureOver bounded outer param body arena
  fitsState orderly := orderly.bounded
  growsState orderly grows sameMemo sameWorld interns :=
    orderly.remint sameMemo sameWorld grows interns
  reply orderly function arg :=
    have ⟨later, grows, answered, _⟩ :=
      orderly.answered steadies.lists steadies.stays function arg _
    ⟨later, grows, answered⟩
  attended orderly attended :=
    { orderly with
      kept := fun value among => orderly.kept value (steadies.sheds attended among)
      steady := steadies.attended attended orderly.steady }

end Ledger

namespace Host.Stage

variable {World : Type} {host : Host World} {law : Closure → Closure → Value → Prop}
  {starts steady : World → Prop} {attends : World → World → Prop} {stage later : host.Stage}

inductive Continues (attends : World → World → Prop) : host.Stage → host.Stage → Prop
  | uses {session later : host.Session} (uses : session.Uses attends later) :
      Continues attends (.idle session) (.idle later)
  | evaluates {stage later : host.Stage} (next : stage.Next later) : Continues attends stage later

def Used (starts : World → Prop) (attends : World → World → Prop) (stage : host.Stage) : Prop :=
  ∃ world limit, starts world ∧
    Relation.ReflTransGen (Continues attends) (.idle (Session.fresh world limit)) stage

theorem Used.tail (used : stage.Used starts attends) (step : stage.Continues attends later) :
    later.Used starts attends := by
  obtain ⟨world, limit, begins, steps⟩ := used
  exact ⟨world, limit, begins, steps.tail step⟩

def Ordered (steadies : host.Steadies attends steady) (law : Closure → Closure → Value → Prop) :
    host.Stage → Prop
  | .idle session => ∃ catalog, (Ledger.listing steadies law).Covers catalog session
  | .running session _ focus stack state => ∃ catalog code id start,
      (Ledger.listing steadies law).Covers catalog { session with state := start } ∧
      session.machine.Underway [] (.node session.env code id) start focus stack state

theorem ordered_fresh (steadies : host.Steadies attends steady)
    (law : Closure → Closure → Value → Prop) {world : World} (nothing : host.KeepsNothing world)
    (holds : steady world) (limit : Option Nat) :
    Ordered steadies law (.idle (Session.fresh world limit)) := by
  have orderly : Orderly host law steady (fun _ => none)
      (Session.fresh world limit : host.Session).state := by
    refine ⟨(by rintro ident closure ⟨⟩), Memo.lawful_empty _ _ _, ?_, holds,
      NameTable.coherent_empty⟩
    rw [Host.KeepsListed, Session.fresh, nothing]
    exact List.forall_mem_nil _
  exact ⟨_, orderly, Ledger.empty _ _, List.forall_mem_nil _, List.forall_mem_nil _⟩

theorem Next.ordered
    (obeys : ∀ machine : Machine World, machine.host = host → machine.Obeys law steady)
    (steadies : host.Steadies attends steady) (next : stage.Next later)
    (ordered : stage.Ordered steadies law) : later.Ordered steadies law := by
  cases next with
  | limited limit =>
      obtain ⟨catalog, covers⟩ := ordered
      exact ⟨catalog, Orderly.recount covers.state {}, covers.env, covers.slots, covers.kept⟩
  | @entered session =>
      obtain ⟨catalog, covers⟩ := ordered
      obtain ⟨later, _, kept, _⟩ := Ledger.keeps_enterPrelude [] covers
      rw [Session.after, Session.enterPrelude_nil] at kept
      exact ⟨later, kept⟩
  | @rejected session source error names parsed =>
      obtain ⟨catalog, covers⟩ := ordered
      have interns := Program.interns_parse source session.names
      rw [parsed] at interns
      exact ⟨catalog, covers.remint interns covers.refl⟩
  | @started session source program names parsed bindAs =>
      obtain ⟨catalog, covers⟩ := ordered
      have interns := Program.interns_parse source session.names
      rw [parsed] at interns
      have loaded : catalog.Grows session.state.mint.nextIdent catalog
          (session.withNames names).loaded.mint.nextIdent := .skip covers.fits (Nat.le_succ _)
      exact ⟨catalog, _, _, _,
        covers.withState loaded (Orderly.remint covers.state rfl rfl loaded interns), .begun⟩
  | moved step =>
      obtain ⟨catalog, code, id, start, covers, underway⟩ := ordered
      exact ⟨catalog, code, id, start, covers, underway.moved step⟩
  | @halted session bindAs focus stack state state' outcome step =>
      obtain ⟨catalog, code, id, start, covers, underway⟩ := ordered
      obtain ⟨ending, rfl, evaluated⟩ := underway.halted step
      obtain ⟨later, kept⟩ := evaluated.keepsOrder steadies.lists steadies.stays (obeys _ rfl)
        covers.state covers.env
      have ended := covers.withState kept.grows kept.orderly
      cases ending with
      | error error => exact ⟨later, ended⟩
      | ok found =>
          cases bindAs with
          | none => exact ⟨later, ended⟩
          | some name =>
              obtain ⟨last, _, bound⟩ := ended.withBinding (kept.listed found rfl) name
              exact ⟨last, bound⟩

theorem Used.ordered
    (obeys : ∀ machine : Machine World, machine.host = host → machine.Obeys law steady)
    (steadies : host.Steadies attends steady)
    (begins : ∀ world, starts world → host.KeepsNothing world ∧ steady world)
    (used : stage.Used starts attends) : stage.Ordered steadies law := by
  obtain ⟨world, limit, started, steps⟩ := used
  induction steps with
  | refl => exact ordered_fresh steadies law (begins world started).1 (begins world started).2 limit
  | tail _ step ih =>
      cases step with
      | uses uses =>
          obtain ⟨catalog, covers⟩ := ih
          exact covers.uses uses
      | evaluates next => exact next.ordered obeys steadies ih

/-- At any moment of an evaluation the tables are in order, and what the machine works on is
listed. -/
theorem Used.orderly
    (obeys : ∀ machine : Machine World, machine.host = host → machine.Obeys law steady)
    (steadies : host.Steadies attends steady)
    (begins : ∀ world, starts world → host.KeepsNothing world ∧ steady world)
    {session : host.Session} {bindAs : Option String} {focus : Focus} {stack : List Frame}
    {state : MachineState World}
    (used : Used starts attends (.running session bindAs focus stack state)) :
    ∃ catalog, Orderly host law steady catalog state ∧ focus.Listed catalog ∧
      ∀ frame ∈ stack, frame.Listed catalog := by
  obtain ⟨catalog, code, id, start, covers, underway⟩ := used.ordered obeys steadies begins
  exact underway.orderly steadies.lists steadies.stays (obeys _ rfl) covers.state covers.env
    (List.forall_mem_nil _)

end Host.Stage

end LambdaMachine
