import LambdaMachine.Proofs.Machine.Numeral
import LambdaMachine.Proofs.Machine.Selection
import LambdaMachine.Proofs.Program.Assignments
import LambdaMachine.Proofs.Session.Consistent
import LambdaMachine.Proofs.Session.Orderly

/-!
The values that a host encodes decode to what was encoded: a numeral applies a function as often as
it counts, a truth value chooses, and a pair hands its components back.
-/

namespace LambdaMachine

namespace Machine

/-- The evaluation of the program that applies a new numeral to a function and to an argument, and
the applications of the function one after the other, which begin with the argument and end with the
first that fails. -/
structure Iterates {World : Type} (machine : Machine World)
    (alike : Heap → (Ident → Ident) → World → World → Prop) (name : NameId) (outer : Env)
    (func arg : Value) (program : Program) (state : MachineState World)
    (calls : List (Builtin × Value)) (count : Nat) : Prop where
  /-- They make the same calls of host functions in the same order, even if they go on for ever, and
  come to the same error, or to the same value up to identities. -/
  runs :
    let begun := bindNumeral count name outer (withLog state calls)
    machine.RunsInOrder alike (2 * count + 7)
      (fun machine fuel => machine.evaluateProgram fuel begun.1 program begun.2)
      (fun machine fuel => machine.iterate fuel ⟨func, true⟩ count ⟨arg, true⟩ begun.2)
  /-- Neither depends on the notes that are taken of the calls. -/
  unlogged : ∀ fuel,
    let begun := bindNumeral count name outer state
    let noting := bindNumeral count name outer (withLog state calls)
    (machine.logged.evaluateProgram fuel noting.1 program noting.2).map
        (fun ending => (ending.1, withoutLog ending.2)) =
      machine.evaluateProgram fuel begun.1 program begun.2 ∧
    (machine.logged.iterate fuel ⟨func, true⟩ count ⟨arg, true⟩ noting.2).map
        (fun ending => (ending.1, withoutLog ending.2)) =
      machine.iterate fuel ⟨func, true⟩ count ⟨arg, true⟩ begun.2
  /-- Without an application the argument itself is handed back. -/
  zero : count = 0 →
    let begun := bindNumeral count name outer state
    ∃ after, Settles (fun fuel => machine.evaluateProgram fuel begun.1 program begun.2)
      (.ok arg, after)

theorem iterates {World : Type} {machine base : Machine World}
    {alike : Heap → (Ident → Ident) → World → World → Prop} (blind : machine.host.Blind alike)
    (unlimited : machine.limit = none) {outer : Env} {state : MachineState World}
    (consistent : base.Consistent alike outer state) (coherent : state.mint.names.Coherent)
    {count : Nat} {name : NameId}
    (retains : machine.Retains base (bindNumeral count name outer state).1)
    {func arg : Value} {program : Program} (applies : program.Applies name outer func arg)
    (calls : List (Builtin × Value)) :
    machine.Iterates alike name outer func arg program state calls count where
  runs := by
    have logged := consistent.withLog calls
    have agrees := numeral_agrees (blind_logged blind) unlimited logged coherent count
      ⟨retains.envs, retains.values⟩ applies
    exact agrees.runsInOrder (numeral_keeps_up (blind_logged blind) logged coherent count
      ⟨retains.envs, retains.values⟩ applies)
  unlogged fuel := ⟨(machine.projects_logged.evaluate fuel _ _ _ _).symm,
    (machine.projects_logged.iterate fuel _ _ _ _).symm⟩
  zero := by
    rintro rfl
    exact zero_returns blind unlimited consistent coherent retains applies

end Machine

/-- Nothing but the closures matters to some laws. -/
theorem Host.Lists.steadies {World : Type} {host : Host World} (lists : host.Lists) :
    host.Steadies host.Sheds fun _ => True where
  lists := lists
  stays _ _ _ _ holds := holds
  attended _ holds := holds
  sheds := id

namespace Host.Session

section Numeral

variable {World : Type} {host : Host World} {session : host.Session} {source : Feed}
  {program : Program} {names : NameTable}

/-- What has been bound in the session is the numeral, and that is held. -/
theorem exists_bindNumeral (text : String) (count : Nat)
    (interns : (session.after (Session.bind text (.numeral count))).names.Interns names) :
    let bound := session.after (Session.bind text (.numeral count))
    ∃ name, names.numbers[text]? = some name ∧
      Machine.bindNumeral count name session.env (session.withNames names).state =
        (bound.env, (bound.withNames names).state) ∧
      bound.machine.Retains session.machine bound.env := by
  intro bound
  let made := Church.numeral count session.state.mint
  have known := interns.extends text _ (made.2.names.numbers_intern text)
  have grown := interns.extends.trans (NameTable.extends_intern made.2.names text)
  refine ⟨_, known, ?_, ?_, fun _ among => among⟩
  · rw [Machine.bindNumeral]
    dsimp only [withNames]
    rw [Church.numeral_of_extends count grown]
    rfl
  · rintro env among
    exact (List.mem_cons.mp among).imp_right fun saved => List.mem_cons_of_mem _ saved

theorem iterates_of_driven {alike : Heap → (Ident → Ident) → World → World → Prop}
    (blind : host.Blind alike) (interns : host.Interns)
    (driven : Stage.Driven (Settled alike .empty) (StaysSettled alike) (.idle session))
    (unlimited : session.limit = none) (text : String) (count : Nat)
    (parsed : Program.parse source (session.after (Session.bind text (.numeral count))).names =
      (.ok program, names)) :
    let bound := session.after (Session.bind text (.numeral count))
    ∃ name, names.numbers[text]? = some name ∧
      Machine.bindNumeral count name session.env (session.withNames names).state =
        (bound.env, (bound.withNames names).state) ∧
      ∀ func arg, program.Applies name session.env func arg → ∀ calls,
        bound.machine.Iterates alike name session.env func arg program
          (session.withNames names).state calls count := by
  intro bound
  have numbers : bound.names.Interns names := by
    have numbers := Program.interns_parse source bound.names
    rw [parsed] at numbers
    exact numbers
  obtain ⟨name, known, same, retains⟩ := exists_bindNumeral text count numbers
  have bounds := (driven.acts (.binds text (.numeral count))).consistent blind interns
  have consistent : session.machine.Consistent alike session.env (session.withNames names).state :=
    (driven.consistent blind interns).1
  exact ⟨name, known, same, fun func arg applies calls => Machine.iterates blind unlimited
    consistent (numbers.coherent bounds.2) (same ▸ retains) applies calls⟩

end Numeral

end Host.Session

namespace Session

open Host.Session

/-- A new numeral that is applied to a function and to an argument does what so many applications
do, with any functions of a host that only tell instances from one another, and in every session
that a driver brings about, where it is bound to a name that a program applies. The truth values
choose and the pairs are pairs, whatever names there are. In every session in which the tables are
left to evaluation, with whatever limits and outcomes on the way, an expression that selects from
pairs and by choices comes to the very instance that was put in, without a call of a host function,
if there is no limit. -/
theorem church_values_decode :
    (∀ {World : Type} (machine base : Machine World)
      (alike : Heap → (Ident → Ident) → World → World → Prop), machine.host.Blind alike →
      machine.limit = none → ∀ outer state, base.Consistent alike outer state →
      state.mint.names.Coherent → ∀ count name,
      machine.Retains base (Machine.bindNumeral count name outer state).1 → ∀ func arg program,
      Program.Applies program name outer func arg → ∀ calls,
        machine.Iterates alike name outer func arg program state calls count) ∧
    (∀ {World : Type} (host : Host World)
      (alike : Heap → (Ident → Ident) → World → World → Prop), host.Blind alike → host.Interns →
      ∀ session : host.Session,
      Host.Stage.Driven (Settled alike .empty) (StaysSettled alike) (.idle session) →
      session.limit = none → ∀ text count source program names,
      Program.parse source (session.after (Host.Session.bind text (.numeral count))).names =
        (.ok program, names) →
      let bound := session.after (Host.Session.bind text (.numeral count))
      ∃ name, names.numbers[text]? = some name ∧
        Machine.bindNumeral count name session.env (session.withNames names).state =
          (bound.env, (bound.withNames names).state) ∧
        ∀ func arg, program.Applies name session.env func arg → ∀ calls,
          bound.machine.Iterates alike name session.env func arg program
            (session.withNames names).state calls count) ∧
    (∀ (value : Bool) (mint : Mint), mint.names.Coherent →
      (Church.truth value mint).1.Chooses value) ∧
    (∀ (first second : Value) (mint : Mint), mint.names.Coherent →
      (Church.pair first second mint).1.Pairs first second) ∧
    ∀ {World : Type} (host : Host World), host.Lists →
      ∀ (session : host.Session) bindAs env code id stack state,
      Host.Stage.Used host.KeepsNothing host.Sheds
        (.running session bindAs (.node env code id) stack state) →
      session.limit = none → ∀ value, Selects env code.arena id (· = value) →
      ∃ steps origin cacheable after,
        (∀ fuel, session.machine.run (fuel + steps) (.node env code id) stack state =
          session.machine.run fuel (.value origin ⟨value, cacheable⟩) stack after) ∧
        after.world = state.world ∧
        (session.machine.effort steps (.node env code id) stack state).calls = 0 := by
  refine ⟨fun machine base alike blind unlimited outer state consistent coherent count name
    retains func arg program applies => Machine.iterates blind unlimited consistent coherent
      retains applies,
    fun host alike blind interns session driven unlimited text count source program names =>
      iterates_of_driven blind interns driven unlimited text count,
    fun value mint => Church.exists_isChoice value,
    fun first second mint => Church.exists_isPair first second, ?_⟩
  intro World host lists session bindAs env code id stack state used unlimited value selects
  obtain ⟨catalog, orderly, listed, _⟩ := used.orderly
    (fun _ same => Machine.obeys_selectionLaw (same ▸ lists) fun _ _ _ _ holds => holds)
    lists.steadies fun _ nothing => ⟨nothing, trivial⟩
  have comes : session.machine.ComesTo Machine.SelectionLaw (fun _ => True) env code id (· = value) :=
    Machine.comesTo_of_selects unlimited lists lists.steadies.stays selects
  obtain ⟨origin, ⟨_, cacheable⟩, after, effort, costs, rfl, world, none⟩ :=
    comes stack state catalog orderly listed
  obtain ⟨steps, runs⟩ := (costs.passes .empty).runFrom
  have spent := (runs 0).2
  rw [Nat.zero_add] at spent
  exact ⟨steps, origin, cacheable, after, fun fuel => (runs fuel).1, world,
    (congrArg Effort.calls spent).trans none⟩

/-- A function that keeps what it is called with is applied three times over. A pair that is bound to
the name which it has for its own argument is applied three times over, too, and it is taken apart. -/
theorem pair_named_p_is_taken_apart :
    let known := (Program.parse (.ofString "a = \\x.x  b = (say a)  (b a)") .empty).2
    let names := (Program.parse (.ofString "((n say) say)") known).2
    let say : Value := .builtin ⟨0, "say", .echo false, .empty⟩
    let world : Surroundings × List Value := ⟨⟨⟨.silent, .empty⟩, #[]⟩, []⟩
    let session := (Host.Session.fresh world none : Machine.sayMachine.host.Session).inPrelude.after
      (Host.Session.bind "p" (.pair (.truth true) (.datum (.count 3))))
    let bound := session.after (Host.Session.bind "n" (.numeral 3))
    let later := (Program.parse (.ofString "((n p) p)") bound.names).2
    Machine.sayMachine.Iterates Machine.SayAlike 5 Machine.sayEnv say say
        ⟨⟨#[.var 5, .var 4, .apply 0 1, .var 4, .apply 2 3]⟩, 4, 0⟩
        ⟨⟨names, 2⟩, .empty, {}, world⟩ [] 3 ∧
      (∃ pair : Closure, bound.machine.Iterates Machine.SayAlike 6 session.env (.closure pair)
        (.closure pair) ⟨⟨#[.var 6, .var 13, .apply 0 1, .var 13, .apply 2 3]⟩, 4, 0⟩
        (session.withNames later).state [] 3) ∧
      ∃ next code id ident cacheable fuel after,
        Host.Stage.start session (.ofString "(p \\p.\\first.first)") none =
          .running next none (.node session.env code id) [] next.loaded ∧
        next.machine.run fuel (.node session.env code id) [] next.loaded =
          some (.ok ⟨.datum ident (.count 3), cacheable⟩, after) := by
  intro known names say world session bound later
  obtain ⟨numerals, inSession, _, pairs, selects⟩ := church_values_decode
  have interns : NameTable.empty.Interns names :=
    (Program.interns_parse _ .empty).trans (Program.interns_parse _ _)
  have said := numerals Machine.sayMachine Machine.sayMachine Machine.SayAlike
    Machine.blind_sayMachine rfl Machine.sayEnv ⟨⟨names, 2⟩, .empty, {}, world⟩
    (Machine.consistent_sayEnv names _) (interns.coherent NameTable.coherent_empty) 3 5
    ⟨fun _ => .inr, fun _ => id⟩ say say
    ⟨⟨#[.var 5, .var 4, .apply 0 1, .var 4, .apply 2 3]⟩, 4, 0⟩
    ⟨4, 4, by decide, by decide, rfl, rfl, by decide⟩ []
  let entered : Machine.sayMachine.host.Session := (Host.Session.fresh world none).inPrelude
  let first := Church.truth true entered.state.mint
  let second := first.2.datum (.count 3)
  have toPrelude := (@Prelude.environment_offers .new NameTable.coherent_empty).1
  have toFirst : entered.names.Interns first.2.names := Church.truth_interns _ _
  have coherent : second.2.names.Coherent :=
    (toPrelude.trans toFirst).coherent NameTable.coherent_empty
  obtain ⟨pair, made, isPair⟩ := pairs first.1 second.1 second.2 coherent
  let paired := (Church.pair first.1 second.1 second.2).2
  let built : Machine.sayMachine.host.Session :=
    { entered with state := { entered.state with mint := paired } }
  have same : session = built.withBinding "p" (.closure pair) := by
    rw [← made]
    rfl
  have finds : session.env.Finds session.names "p" (.closure pair) := by
    rw [same]
    exact Env.finds_extend (paired.names.numbers_intern "p") _ _ _
  have numbered : session.names.numbers["p"]? = some 13 := by decide +kernel
  obtain ⟨_, number, pairBound⟩ := finds
  cases number.symm.trans numbered
  have driven : Host.Stage.Driven (Settled Machine.SayAlike .empty)
      (StaysSettled Machine.SayAlike) (.idle session) :=
    ⟨world, none, ⟨rfl, List.forall_mem_nil _, rfl⟩,
      .tail (.single (.evaluates .entered)) (.acts (.binds "p" _))⟩
  have applied : (Program.parse (.ofString "((n p) p)") bound.names).1 =
      .ok ⟨⟨#[.var 6, .var 13, .apply 0 1, .var 13, .apply 2 3]⟩, 4, 0⟩ := by decide +kernel
  have isSix : later.numbers["n"]? = some 6 := by decide +kernel
  have lists : Machine.sayMachine.host.Lists := Surroundings.lists_hostWith Keeper.lists_host
  obtain ⟨name, known, _, iterates⟩ := inSession _ _ Machine.blind_sayMachine lists.interns session
    driven rfl "n" 3 _ _ later (Prod.ext applied rfl)
  cases known.symm.trans isSix
  refine ⟨said, ⟨pair, iterates _ _ ⟨13, 13, by decide, by decide, pairBound, pairBound,
    by decide⟩ []⟩, ?_⟩
  have used : Host.Stage.Used Machine.sayMachine.host.KeepsNothing Machine.sayMachine.host.Sheds
      (.idle session) :=
    ⟨world, none, rfl, .tail (.single (.evaluates .entered)) (.uses (.binds "p" _))⟩
  let arena : Arena := ⟨#[.var 13, .var 14, .lambda 14 1, .lambda 13 2, .apply 0 3]⟩
  have taken : (Program.parse (.ofString "(p \\p.\\first.first)") session.names).1 =
      .ok ⟨arena, 4, 0⟩ := by decide +kernel
  have started : Program.parse (.ofString "(p \\p.\\first.first)") session.names = (.ok _, _) :=
    Prod.ext taken rfl
  have selector : Selects session.env arena 3 (·.Chooses false) := .choice rfl rfl rfl nofun
  have component : Selects session.env arena 4 (· = second.1) :=
    .component rfl (.name rfl pairBound) ⟨pair, rfl, isPair⟩ selector fun _ chooses => chooses
  obtain ⟨steps, env, cacheable, after, runs, _⟩ := selects _ lists _ _ _ _ _ _ _
    (used.tail (.evaluates (.started started none))) rfl second.1 component
  refine ⟨_, _, _, _, cacheable, 1 + steps, after, ?_, runs 1⟩
  rw [Host.Stage.start, started]

end Session

end LambdaMachine
