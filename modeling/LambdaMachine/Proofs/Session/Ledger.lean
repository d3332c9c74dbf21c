import LambdaMachine.Proofs.Machine.Orderly
import LambdaMachine.Proofs.Session.Arenas

/-!
Ledgers. A host builds and binds values, looks at tables and calls functions between evaluations. If
what a mint makes can be entered in an account, and what has been entered stays there, then all that
such a host brings about can be entered, whether or not its actions fail.
-/

namespace LambdaMachine

structure Entries (World Account : Type) where
  fits : Account → Ident → Prop
  grows : Account → Ident → Account → Ident → Prop
  value : Account → Value → Prop
  env : Account → Env → Prop
  state : Account → MachineState World → Prop

def Entries.Makes {World Account α : Type} (entries : Entries World Account)
    (entered : Account → α → Prop)
    (account : Account) (next : Ident) (made : α × Mint) : Prop :=
  ∃ later, entries.grows account next later made.2.nextIdent ∧ entered later made.1

/-- Entries that last, and that can be made for all that is made out of what has been entered, also by
functions of the host and where its world changes between two of their calls. -/
structure Ledger {World : Type} (host : Host World) (attends : World → World → Prop)
    (Account : Type) extends Entries World Account where
  refl : ∀ {account next}, fits account next → grows account next account next
  trans : ∀ {first second third next middle last}, grows first next second middle →
    grows second middle third last → grows first next third last
  after : ∀ {account later next last}, grows account next later last → fits later last
  growsValue : ∀ {account later next last held}, grows account next later last →
    value account held → value later held
  growsEnv : ∀ {account later next last held}, grows account next later last →
    env account held → env later held
  empty : ∀ account, env account .empty
  found : ∀ {account} {outer : Env} {name held}, env account outer →
    outer.lookup name = some held → value account held
  datum : ∀ {account} {mint : Mint} data, fits account mint.nextIdent →
    toEntries.Makes value account mint.nextIdent (mint.datum data)
  builtin : ∀ {account} {mint : Mint} {kept} name operation, fits account mint.nextIdent →
    env account kept →
      toEntries.Makes value account mint.nextIdent (mint.builtin name operation kept)
  extend : ∀ {account} {mint : Mint} {outer held} name, fits account mint.nextIdent →
    env account outer → value account held →
      toEntries.Makes env account mint.nextIdent (mint.extend outer name held)
  closureOver : ∀ {account} {mint : Mint} {outer} param body arena, fits account mint.nextIdent →
    env account outer →
      toEntries.Makes (fun later closure => value later (.closure closure)) account mint.nextIdent
        (mint.closureOver outer param body arena)
  fitsState : ∀ {account before}, state account before → fits account before.mint.nextIdent
  growsState : ∀ {account later} {before after : MachineState World},
    state account before → grows account before.mint.nextIdent later after.mint.nextIdent →
    after.memo = before.memo → after.world = before.world →
    before.mint.names.Interns after.mint.names → state later after
  reply : ∀ {account function arg} {before : MachineState World}, state account before →
    value account (.builtin function) → value account arg →
      let reply := host.apply function arg before.mint before.world
      ∃ later, grows account before.mint.nextIdent later reply.mint.nextIdent ∧
        state later { before with mint := reply.mint, world := reply.world }
  attended : ∀ {account world} {before : MachineState World}, state account before →
    attends before.world world → state account { before with world }

namespace Ledger

variable {World Account α β : Type} {host : Host World} {attends : World → World → Prop}
  {ledger : Ledger host attends Account} {account later : Account} {mint : Mint}

section Makes

variable (ledger)

/-- Something is made, and out of that something else. -/
theorem bind {entered : Account → α → Prop} {alsoEntered : Account → β → Prop} {next : Ident}
    {made : α × Mint} {more : β × Mint}
    (first : ledger.Makes entered account next made)
    (rest : ∀ later, ledger.grows account next later made.2.nextIdent →
      ledger.fits later made.2.nextIdent → entered later made.1 →
        ledger.Makes alsoEntered later made.2.nextIdent more) :
    ledger.Makes alsoEntered account next more := by
  obtain ⟨middle, toMiddle, held⟩ := first
  obtain ⟨last, toLast, heldLast⟩ := rest middle toMiddle (ledger.after toMiddle) held
  exact ⟨last, ledger.trans toMiddle toLast, heldLast⟩

theorem truth (fits : ledger.fits account mint.nextIdent) (value : Bool) :
    ledger.Makes ledger.value account mint.nextIdent (Church.truth value mint) := by
  unfold Church.truth
  obtain ⟨later, grows, held⟩ := @closureOver _ _ _ _ ledger account
    ((mint.intern "t").2.intern "f").2 .empty (mint.intern "t").1 _ _ fits (ledger.empty account)
  exact ⟨later, grows, held⟩

theorem numeral (fits : ledger.fits account mint.nextIdent) (count : Nat) :
    ledger.Makes ledger.value account mint.nextIdent (Church.numeral count mint) := by
  unfold Church.numeral
  obtain ⟨later, grows, held⟩ := @closureOver _ _ _ _ ledger account
    ((mint.intern "f").2.intern "x").2 .empty (mint.intern "f").1 _ _ fits (ledger.empty account)
  exact ⟨later, grows, held⟩

theorem pair (fits : ledger.fits account mint.nextIdent) {first second : Value}
    (firstEntered : ledger.value account first) (secondEntered : ledger.value account second) :
    ledger.Makes ledger.value account mint.nextIdent (Church.pair first second mint) := by
  unfold Church.pair
  let named := ((mint.intern "p").2.intern "first").2.intern "second"
  refine ledger.bind (@extend _ _ _ _ ledger account named.2 .empty first
    ((mint.intern "p").2.intern "first").1 fits (ledger.empty account) firstEntered)
    fun _ grows fits inner => ?_
  refine ledger.bind (ledger.extend named.1 fits inner (ledger.growsValue grows secondEntered))
    fun _ _ fits outer => ?_
  obtain ⟨later, grows, held⟩ := ledger.closureOver (mint.intern "p").1 _ _ fits outer
  exact ⟨later, grows, held⟩

theorem identity (fits : ledger.fits account mint.nextIdent) :
    ledger.Makes (fun later closure => ledger.value later (.closure closure)) account mint.nextIdent
      (Church.identity mint) := by
  unfold Church.identity
  exact @closureOver _ _ _ _ ledger account (mint.intern "x").2 .empty _ _ _ fits (ledger.empty account)

theorem abstraction (fits : ledger.fits account mint.nextIdent) {env : Env}
    (entered : ledger.env account env) (param : String) (body : Tree String) :
    ledger.Makes (fun later closure => ledger.value later (.closure closure)) account mint.nextIdent
      (mint.abstraction env param body) :=
  @closureOver _ _ _ _ ledger account { mint with names := _ } env _ _ _ fits entered

theorem printEnv (fits : ledger.fits account mint.nextIdent) :
    ledger.Makes ledger.env account mint.nextIdent (Prelude.printEnv mint) := by
  let nullName := mint.intern "null"
  let zero := nullName.2.datum (.byte 0)
  let printName := zero.2.intern "print"
  let printer := printName.2.builtin "print" .print .empty
  let nextName := printer.2.intern "next"
  let counter := nextName.2.builtin "next" .next .empty
  let inner := counter.2.extend .empty nullName.1 zero.1
  let outer := inner.2.extend inner.1 printName.1 printer.1
  change ledger.Makes ledger.env account mint.nextIdent
    (outer.2.extend outer.1 nextName.1 counter.1)
  refine ledger.bind (@datum _ _ _ _ ledger account nullName.2 (.byte 0) fits) fun _ _ fits zero => ?_
  refine ledger.bind (@builtin _ _ _ _ ledger _ printName.2 _ "print" .print fits (ledger.empty _))
    fun _ toPrinter fits printer => ?_
  refine ledger.bind (@builtin _ _ _ _ ledger _ nextName.2 _ "next" .next fits (ledger.empty _))
    fun _ toCounter fits counter => ?_
  have zero := ledger.growsValue toCounter (ledger.growsValue toPrinter zero)
  refine ledger.bind (ledger.extend nullName.1 fits (ledger.empty _) zero)
    fun _ toInner fits inner => ?_
  have printer := ledger.growsValue toInner (ledger.growsValue toCounter printer)
  refine ledger.bind (ledger.extend printName.1 fits inner printer)
    fun _ toOuter fits outer => ?_
  have counter := ledger.growsValue toOuter (ledger.growsValue toInner counter)
  exact ledger.extend nextName.1 fits outer counter

theorem readEnv (fits : ledger.fits account mint.nextIdent) :
    ledger.Makes ledger.env account mint.nextIdent (Prelude.readEnv mint) := by
  refine ledger.bind (@builtin _ _ _ _ ledger account (mint.intern "read").2 _ "read" .read fits
    (ledger.empty account)) fun _ _ fits reader => ?_
  exact ledger.extend (mint.intern "read").1 fits (ledger.empty _) reader

theorem extendAll (fits : ledger.fits account mint.nextIdent) {env : Env}
    (entered : ledger.env account env) {extra : List (String × Value)}
    (each : ∀ binding ∈ extra, ledger.value account binding.2) :
    ledger.Makes ledger.env account mint.nextIdent (Prelude.extendAll env extra mint) := by
  induction extra generalizing account env mint with
  | nil => exact ⟨account, ledger.refl fits, entered⟩
  | cons binding rest ih =>
      obtain ⟨value, eachRest⟩ := List.forall_mem_cons.mp each
      refine ledger.bind (@extend _ _ _ _ ledger account (mint.intern binding.1).2 env binding.2
        (mint.intern binding.1).1 fits entered value) fun _ grows fits extended => ?_
      exact ih fits extended fun other among => ledger.growsValue grows (eachRest other among)

theorem environment (fits : ledger.fits account mint.nextIdent)
    {extra : List (String × Value)} (each : ∀ binding ∈ extra, ledger.value account binding.2) :
    ledger.Makes ledger.env account mint.nextIdent (Prelude.environment extra mint) := by
  -- each part is named before it is used, so that no body is laid out on the way
  unfold Prelude.environment
  have made := @printEnv _ _ _ _ _ _ mint fits
  generalize Prelude.printEnv mint = printing at made ⊢
  obtain ⟨printEnv, afterPrintEnv⟩ := printing
  dsimp only
  refine ledger.bind made fun _ toPrintEnv fits printEntered => ?_
  have made := @readEnv _ _ _ _ _ _ afterPrintEnv fits
  generalize Prelude.readEnv afterPrintEnv = reading at made ⊢
  obtain ⟨readEnv, afterReadEnv⟩ := reading
  dsimp only
  refine ledger.bind made fun _ toReadEnv fits readEntered => ?_
  have made := @abstraction _ _ _ _ _ _ (afterReadEnv.intern "PRINT_BYTE").2 fits _
    (ledger.growsEnv toReadEnv printEntered) "n" Prelude.printBody
  generalize (afterReadEnv.intern "PRINT_BYTE").2.abstraction printEnv "n" Prelude.printBody =
    printing at made ⊢
  obtain ⟨printByte, afterPrint⟩ := printing
  dsimp only
  refine ledger.bind made fun _ toPrint fits printEntered => ?_
  have made := @abstraction _ _ _ _ _ _ (afterPrint.intern "READ_BYTE").2 fits _
    (ledger.growsEnv toPrint readEntered) "x" Prelude.readBody
  generalize (afterPrint.intern "READ_BYTE").2.abstraction readEnv "x" Prelude.readBody = reading
    at made ⊢
  obtain ⟨readByte, afterRead⟩ := reading
  dsimp only
  refine ledger.bind made fun _ toRead fits readEntered => ?_
  have printEntered := ledger.growsValue toRead printEntered
  refine ledger.bind (@extend _ _ _ _ ledger _ afterRead .empty _
    (afterReadEnv.intern "PRINT_BYTE").1 fits (ledger.empty _) printEntered)
    fun _ toInner fits inner => ?_
  refine ledger.bind (ledger.extend (afterPrint.intern "READ_BYTE").1 fits inner
    (ledger.growsValue toInner readEntered)) fun _ toOuter fits outer => ?_
  refine ledger.extendAll fits outer fun binding among => ?_
  exact ledger.growsValue toOuter (ledger.growsValue toInner (ledger.growsValue toRead
    (ledger.growsValue toPrint (ledger.growsValue toReadEnv
      (ledger.growsValue toPrintEnv (each binding among))))))

end Makes

end Ledger

inductive Host.Session.Uses {World : Type} {host : Host World} (attends : World → World → Prop)
    (session : host.Session) : host.Session → Prop
  | enters (extra : List (String × Recipe)) : Uses attends session (session.after (enterPrelude extra))
  | binds (name : String) (recipe : Recipe) :
      Uses attends session (session.after (Host.Session.bind name recipe))
  | asks (func : String) (arg : Option String) : Uses attends session (session.after (recorded func arg))
  | compares (left right : String) : Uses attends session (session.after (compare left right))
  | calls (func : String) (recipe : Recipe) : Uses attends session (session.after (call func recipe))
  | releases : Uses attends session session.release.2
  | saves (slot : String) : Uses attends session (session.save slot)
  | loads (slot : String) : Uses attends session (session.load slot)
  | changes (world : World) (attended : attends session.state.world world) :
      Uses attends session (session.withWorld world)

namespace Ledger

variable {World Account α β : Type} {host : Host World} {attends : World → World → Prop}
  {ledger : Ledger host attends Account} {account later : Account}

structure Covers (ledger : Ledger host attends Account) (account : Account)
    (session : host.Session) : Prop where
  state : ledger.state account session.state
  env : ledger.env account session.env
  slots : ∀ slot ∈ session.slots, ledger.env account slot.2
  kept : ∀ value ∈ session.kept, ledger.value account value

def Keeps (ledger : Ledger host attends Account) (account : Account) (action : host.SessionM α)
    (session : host.Session)
    (post : Account → α → Prop) : Prop :=
  ∃ later, ledger.grows account session.state.mint.nextIdent later
      (session.after action).state.mint.nextIdent ∧
    ledger.Covers later (session.after action) ∧
    ∀ value last, action session = .ok value last → post later value

section Actions

open Host.Session

variable {session : host.Session}

theorem Covers.fits (covers : ledger.Covers account session) :
    ledger.fits account session.state.mint.nextIdent :=
  ledger.fitsState covers.state

theorem Covers.refl (covers : ledger.Covers account session) :
    ledger.grows account session.state.mint.nextIdent account session.state.mint.nextIdent :=
  ledger.refl covers.fits

theorem Covers.withState {state : MachineState World}
    (covers : ledger.Covers account session)
    (grows : ledger.grows account session.state.mint.nextIdent later state.mint.nextIdent)
    (entered : ledger.state later state) : ledger.Covers later { session with state } :=
  ⟨entered, ledger.growsEnv grows covers.env,
    fun slot among => ledger.growsEnv grows (covers.slots slot among),
    fun value among => ledger.growsValue grows (covers.kept value among)⟩

theorem Covers.remint {mint : Mint} (covers : ledger.Covers account session)
    (interns : session.names.Interns mint.names)
    (grows : ledger.grows account session.state.mint.nextIdent later mint.nextIdent) :
    ledger.Covers later { session with state := { session.state with mint } } :=
  covers.withState grows (ledger.growsState covers.state grows rfl rfl interns)

theorem Covers.withEnv {env : Env} (covers : ledger.Covers account session)
    (entered : ledger.env account env) : ledger.Covers account { session with env } :=
  ⟨covers.state, entered, covers.slots, covers.kept⟩

theorem Covers.withBinding {value : Value} (covers : ledger.Covers account session)
    (entered : ledger.value account value) (name : String) :
    ∃ later, ledger.grows account session.state.mint.nextIdent later
        (session.withBinding name value).state.mint.nextIdent ∧
      ledger.Covers later (session.withBinding name value) := by
  obtain ⟨later, grows, extended⟩ := @extend _ _ _ _ ledger account
    (session.state.mint.intern name).2 session.env value (session.state.mint.intern name).1
    covers.fits covers.env entered
  exact ⟨later, grows, (covers.remint (.intern .refl name) grows).withEnv extended⟩

theorem Covers.load (covers : ledger.Covers account session)
    (slot : String) : ledger.Covers account (session.load slot) := by
  refine covers.withEnv ?_
  cases saved : session.slots.lookup slot with
  | none => exact ledger.empty account
  | some env =>
      obtain ⟨newer, older, same, _⟩ := List.lookup_eq_some_iff.mp saved
      exact covers.slots (slot, env) (by simp [same])

theorem Covers.save (covers : ledger.Covers account session) (slot : String) :
    ledger.Covers account (session.save slot) := by
  refine ⟨covers.state, covers.env, List.forall_mem_cons.mpr ⟨covers.env, ?_⟩, covers.kept⟩
  exact fun entry among => covers.slots entry (List.mem_filter.mp among).1

theorem Keeps.bind {action : host.SessionM α} {next : α → host.SessionM β}
    {middle : Account → α → Prop}
    {post : Account → β → Prop} (first : ledger.Keeps account action session middle)
    (rest : ∀ {value after later},
      ledger.grows account session.state.mint.nextIdent later after.state.mint.nextIdent →
      ledger.Covers later after → middle later value →
        ledger.Keeps later (next value) after post) :
    ledger.Keeps account (action >>= next) session post := by
  obtain ⟨later, grows, covers, held⟩ := first
  unfold Host.Session.after at grows covers
  unfold Keeps Host.Session.after
  rw [bind_eq]
  cases ran : action session with
  | error error after =>
      rw [ran] at grows covers
      exact ⟨later, grows, covers, by rintro value last ⟨⟩⟩
  | ok value after =>
      rw [ran] at grows covers
      obtain ⟨final, toFinal, coversLast, heldLast⟩ := rest grows covers (held value after ran)
      exact ⟨final, ledger.trans grows toFinal, coversLast, heldLast⟩

theorem Keeps.pure {value : α} {post : Account → α → Prop} (covers : ledger.Covers account session)
    (held : post account value) :
    ledger.Keeps account (Pure.pure value) session post :=
  ⟨account, covers.refl, covers, by rintro _ _ ⟨⟩; exact held⟩

theorem Keeps.throw {post : Account → α → Prop} (covers : ledger.Covers account session)
    (error : SessionError) :
    ledger.Keeps account (throw error) session post :=
  ⟨account, covers.refl, covers, by rintro _ _ ⟨⟩⟩

theorem keeps_get (covers : ledger.Covers account session) :
    ledger.Keeps account get session fun account found => ledger.Covers account found :=
  ⟨account, covers.refl, covers, by rintro _ _ ⟨⟩; exact covers⟩

theorem keeps_modifyGet {change : host.Session → α × host.Session} {post : Account → α → Prop}
    (kept : ∃ later, ledger.grows account session.state.mint.nextIdent later
        (change session).2.state.mint.nextIdent ∧ ledger.Covers later (change session).2 ∧
      post later (change session).1) :
    ledger.Keeps account (modifyGet change) session post := by
  obtain ⟨later, grows, covers, held⟩ := kept
  exact ⟨later, grows, covers, by rintro _ _ ⟨⟩; exact held⟩

theorem keeps_withMint {action : Mint → α × Mint} {post : Account → α → Prop}
    (covers : ledger.Covers account session)
    (interns : session.names.Interns (action session.state.mint).2.names)
    (makes : ledger.Makes post account session.state.mint.nextIdent (action session.state.mint)) :
    ledger.Keeps account (withMint action) session post := by
  obtain ⟨later, grows, held⟩ := makes
  exact ⟨later, grows, covers.remint interns grows, by rintro _ _ ⟨⟩; exact held⟩

theorem keeps_resolve (covers : ledger.Covers account session)
    (name : String) : ledger.Keeps account (resolve name) session ledger.value := by
  unfold resolve
  have numbered : ledger.Keeps account (withMint (·.intern name)) session fun _ _ => True :=
    keeps_withMint covers (.intern .refl name) ⟨account, covers.refl, trivial⟩
  refine numbered.bind fun _ covers _ => ?_
  refine (keeps_get covers).bind fun _ covers found => ?_
  split
  · rename_i value bound
    exact .pure covers (ledger.found found.env bound)
  · exact .throw covers _

theorem keeps_resolveClosure (covers : ledger.Covers account session)
    (name : String) :
    ledger.Keeps account (resolveClosure name) session fun account closure =>
      ledger.value account (.closure closure) := by
  unfold resolveClosure
  refine (keeps_resolve covers name).bind fun {value _ _} _ covers entered => ?_
  cases value with
  | closure closure => exact .pure covers entered
  | builtin function => exact .throw covers _
  | datum ident data => exact .throw covers _

theorem keeps_identity (covers : ledger.Covers account session) :
    ledger.Keeps account (withMint Church.identity) session fun account closure =>
      ledger.value account (.closure closure) :=
  keeps_withMint covers (Church.identity_interns _) (ledger.identity covers.fits)

theorem keeps_datum (covers : ledger.Covers account session)
    (data : Datum) :
    ledger.Keeps account (withMint (·.datum data)) session ledger.value :=
  keeps_withMint covers .refl (ledger.datum data covers.fits)

theorem keeps_build (recipe : Recipe) (covers : ledger.Covers account session) :
    ledger.Keeps account (build recipe) session ledger.value := by
  induction recipe generalizing session account with
  | datum data => exact keeps_datum covers data
  | numeral count =>
      exact keeps_withMint covers (Church.numeral_interns _ _)
        (ledger.numeral covers.fits count)
  | truth value =>
      exact keeps_withMint covers (Church.truth_interns _ _)
        (ledger.truth covers.fits value)
  | pair first second firstIh secondIh =>
      rw [build]
      refine (firstIh covers).bind fun _ covers firstEntered => ?_
      refine (secondIh covers).bind fun grows covers secondEntered => ?_
      exact keeps_withMint covers (Church.pair_interns _ _ _)
        (ledger.pair covers.fits (ledger.growsValue grows firstEntered)
          secondEntered)
  | function name operation =>
      exact keeps_withMint covers .refl
        (ledger.builtin name operation covers.fits (ledger.empty account))
  | constant name cacheable value valueIh =>
      rw [build]
      refine (valueIh covers).bind fun _ covers entered => ?_
      have kept : ledger.Keeps _ (withMint (·.extend .empty 0 _)) _ ledger.env :=
        keeps_withMint covers .refl
          (ledger.extend 0 covers.fits (ledger.empty _) entered)
      exact kept.bind fun _ covers entered => keeps_withMint covers .refl
        (ledger.builtin name (.constant cacheable) covers.fits entered)
  | identity =>
      rw [build]
      exact (keeps_identity covers).bind fun _ covers entered =>
        .pure covers entered
  | reference name => exact keeps_resolve covers name

theorem keeps_builds (extra : List (String × Recipe)) (covers : ledger.Covers account session) :
    ledger.Keeps account (extra.mapM fun (name, recipe) => do
        let value ← build recipe
        return (name, value)) session
      fun account values => ∀ binding ∈ values, ledger.value account binding.2 := by
  induction extra generalizing session account with
  | nil =>
      rw [List.mapM_nil]
      exact .pure covers (List.forall_mem_nil _)
  | cons binding rest ih =>
      rw [List.mapM_cons]
      have first : ledger.Keeps account (do
          let value ← build binding.2
          return (binding.1, value)) session
          fun account built => ledger.value account built.2 :=
        (keeps_build binding.2 covers).bind fun _ covers entered =>
          .pure covers entered
      refine first.bind fun _ covers entered => ?_
      refine (ih covers).bind fun grows covers each => .pure covers ?_
      exact List.forall_mem_cons.mpr ⟨ledger.growsValue grows entered, each⟩

theorem keeps_enterPrelude (extra : List (String × Recipe))
    (covers : ledger.Covers account session) :
    ledger.Keeps account (enterPrelude extra) session fun _ _ => True := by
  unfold enterPrelude
  refine (keeps_builds extra covers).bind fun {values after _} _ covers each => ?_
  have interns : after.names.Interns (Prelude.environment values after.state.mint).2.names := by
    obtain ⟨names, ident, _, _, _, _, interns, _, same, _⟩ := Prelude.exists_base after.state.mint
    rw [same]
    exact interns.trans (Prelude.interns_extendAll _ values ⟨names, ident + 2⟩)
  have entered : ledger.Keeps _ (withMint (Prelude.environment values)) after ledger.env :=
    keeps_withMint covers interns (ledger.environment covers.fits each)
  refine entered.bind fun _ covers entered => ?_
  exact keeps_modifyGet ⟨_, covers.refl, covers.withEnv entered, trivial⟩

theorem keeps_bind (name : String) (recipe : Recipe) (covers : ledger.Covers account session) :
    ledger.Keeps account (Host.Session.bind name recipe) session fun _ _ => True := by
  unfold Host.Session.bind
  refine (keeps_build recipe covers).bind fun _ covers entered => ?_
  obtain ⟨later, grows, bound⟩ := covers.withBinding entered name
  exact keeps_modifyGet ⟨later, grows, bound, trivial⟩

theorem keeps_recorded (func : String) (arg : Option String)
    (covers : ledger.Covers account session) :
    ledger.Keeps account (recorded func arg) session fun _ _ => True := by
  unfold recorded
  refine (keeps_resolveClosure covers func).bind fun _ covers _ => ?_
  cases arg with
  | none =>
      exact (keeps_get covers).bind fun _ covers _ => .pure covers trivial
  | some arg =>
      refine (keeps_resolveClosure covers arg).bind fun _ covers _ => ?_
      exact (keeps_get covers).bind fun _ covers _ => .pure covers trivial

theorem keeps_compare (left right : String) (covers : ledger.Covers account session) :
    ledger.Keeps account (Host.Session.compare left right) session fun _ _ => True := by
  unfold Host.Session.compare
  refine (keeps_resolve covers left).bind fun _ covers _ => ?_
  exact (keeps_resolve covers right).bind fun _ covers _ =>
    .pure covers trivial

theorem keeps_call (func : String) (recipe : Recipe) (covers : ledger.Covers account session) :
    ledger.Keeps account (call func recipe) session fun _ _ => True := by
  unfold call
  refine (keeps_resolve covers func).bind fun {value _ _} _ covers entered => ?_
  cases value with
  | closure closure => exact .throw covers _
  | datum ident data => exact .throw covers _
  | builtin function =>
      refine (keeps_build recipe covers).bind
        fun {arg after _} grows covers argEntered => ?_
      obtain ⟨later, toLater, replied⟩ :=
        ledger.reply covers.state (ledger.growsValue grows entered) argEntered
      exact keeps_modifyGet ⟨later, toLater, covers.withState toLater replied, trivial⟩

theorem Covers.uses {after : host.Session} (covers : ledger.Covers account session)
    (uses : session.Uses attends after) : ∃ later, ledger.Covers later after := by
  cases uses with
  | enters extra =>
      obtain ⟨later, _, kept, _⟩ := keeps_enterPrelude extra covers
      exact ⟨later, kept⟩
  | binds name recipe =>
      obtain ⟨later, _, kept, _⟩ := keeps_bind name recipe covers
      exact ⟨later, kept⟩
  | asks func arg =>
      obtain ⟨later, _, kept, _⟩ := keeps_recorded func arg covers
      exact ⟨later, kept⟩
  | compares left right =>
      obtain ⟨later, _, kept, _⟩ := keeps_compare left right covers
      exact ⟨later, kept⟩
  | calls func recipe =>
      obtain ⟨later, _, kept, _⟩ := keeps_call func recipe covers
      exact ⟨later, kept⟩
  | releases => exact ⟨account, covers.state, covers.env, covers.slots, List.forall_mem_nil _⟩
  | saves slot => exact ⟨account, covers.save slot⟩
  | loads slot => exact ⟨account, covers.load slot⟩
  | changes world attended =>
      exact ⟨account, covers.withState covers.refl (ledger.attended covers.state attended)⟩

def TakesResults (ledger : Ledger host attends Account) : Prop :=
  ∀ {account : Account} {state : MachineState World} {func arg : Closure} {value : Value}
    (alive : Memo → IdentSet), ledger.state account state → ledger.value account (.closure func) →
    ledger.value account (.closure arg) → ledger.value account value →
      ledger.state account { state with memo := state.memo.record func arg value alive }

section Results

theorem keeps_recordResult {func arg : Closure} {value : Value} (takes : ledger.TakesResults)
    (covers : ledger.Covers account session) (funcEntered : ledger.value account (.closure func))
    (argEntered : ledger.value account (.closure arg)) (entered : ledger.value account value) :
    ledger.Keeps account (modify (recordResult func arg value)) session fun _ _ => True := by
  have recorded (alive : Memo → IdentSet) : ledger.Covers account { session with
      state := { session.state with memo := session.state.memo.record func arg value alive } } :=
    covers.withState covers.refl (takes alive covers.state funcEntered argEntered entered)
  exact keeps_modifyGet ⟨account, covers.refl, recorded _, trivial⟩

theorem keeps_memoize (func arg : String) (recipe : Recipe) (takes : ledger.TakesResults)
    (covers : ledger.Covers account session) :
    ledger.Keeps account (Host.Session.memoize func arg recipe) session fun _ _ => True := by
  unfold Host.Session.memoize
  refine (keeps_resolveClosure covers func).bind fun _ covers funcEntered => ?_
  refine (keeps_build recipe covers).bind fun toBuilt covers entered => ?_
  refine (keeps_resolveClosure covers arg).bind fun toArg covers argEntered => ?_
  have funcEntered := ledger.growsValue toArg (ledger.growsValue toBuilt funcEntered)
  refine (keeps_recordResult takes covers funcEntered argEntered
    (ledger.growsValue toArg entered)).bind fun _ covers _ => ?_
  exact (keeps_get covers).bind fun _ covers _ => .pure covers trivial

theorem keeps_fillWith (func : Closure) (live : Bool) (count : Nat) (takes : ledger.TakesResults)
    (covers : ledger.Covers account session) (entered : ledger.value account (.closure func)) :
    ledger.Keeps account (Host.Session.fillWith func live count) session fun _ _ => True := by
  induction count generalizing session account with
  | zero => exact .pure covers trivial
  | succ count ih =>
      rw [Host.Session.fillWith]
      refine (keeps_identity covers).bind fun {arg _ _} toArg covers argEntered => ?_
      refine (keeps_datum covers _).bind fun toValue covers valueEntered => ?_
      have entered := ledger.growsValue toValue (ledger.growsValue toArg entered)
      have argEntered := ledger.growsValue toValue argEntered
      refine (keeps_recordResult takes covers entered argEntered valueEntered).bind
        fun {_ after later} toRecorded covers _ => ?_
      have entered := ledger.growsValue toRecorded entered
      have argEntered := ledger.growsValue toRecorded argEntered
      have held : ledger.Keeps later (modify fun session : host.Session =>
          { session with kept := .closure arg :: session.kept }) after fun _ _ => True :=
        keeps_modifyGet ⟨later, covers.refl, ⟨covers.state, covers.env, covers.slots,
          List.forall_mem_cons.mpr ⟨argEntered, covers.kept⟩⟩, trivial⟩
      cases live with
      | false => exact ih covers entered
      | true => exact held.bind fun grows covers _ => ih covers (ledger.growsValue grows entered)

theorem keeps_fill (func : String) (count : Nat) (live : Bool) (takes : ledger.TakesResults)
    (covers : ledger.Covers account session) :
    ledger.Keeps account (Host.Session.fill func count live) session fun _ _ => True := by
  unfold Host.Session.fill
  refine (keeps_resolveClosure covers func).bind fun {func _ _} _ covers entered => ?_
  refine (keeps_fillWith func live count takes covers entered).bind fun _ covers _ => ?_
  exact (keeps_get covers).bind fun _ covers _ => .pure covers trivial

theorem Covers.acts {after : host.Session} (covers : ledger.Covers account session)
    (takes : ledger.TakesResults) (acts : session.Acts attends after) :
    ∃ later, ledger.Covers later after := by
  cases acts with
  | records func arg recipe =>
      obtain ⟨later, _, kept, _⟩ := keeps_memoize func arg recipe takes covers
      exact ⟨later, kept⟩
  | fills func count live =>
      obtain ⟨later, _, kept, _⟩ := keeps_fill func count live takes covers
      exact ⟨later, kept⟩
  | enters extra => exact covers.uses (.enters extra)
  | binds name recipe => exact covers.uses (.binds name recipe)
  | asks func arg => exact covers.uses (.asks func arg)
  | compares left right => exact covers.uses (.compares left right)
  | calls func recipe => exact covers.uses (.calls func recipe)
  | releases => exact covers.uses .releases
  | saves slot => exact covers.uses (.saves slot)
  | loads slot => exact covers.uses (.loads slot)
  | changes world attended => exact covers.uses (.changes world attended)

end Results

end Actions

end Ledger

end LambdaMachine
