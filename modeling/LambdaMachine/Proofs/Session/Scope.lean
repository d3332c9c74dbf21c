import LambdaMachine.Proofs.Prelude.Foreign
import LambdaMachine.Proofs.Program.RoundTrip
import LambdaMachine.Proofs.Session.Transparency

/-!
Lexical scope over a whole session. Values that a host makes have no missing names, and neither have
the results of programs whose names are all bound. So whatever was evaluated before, a variable is
only found unbound if the program leaves it free and the environment does not bind it.
-/

namespace LambdaMachine

def Value.Fits (value : Value) (catalog : Catalog) : Prop :=
  value.Listed catalog ∧ value.Enclosed nothingMissing

theorem Value.Fits.grow {value : Value} {catalog later : Catalog} {next nextLater : Ident}
    (fits : value.Fits catalog) (grows : catalog.Grows next later nextLater) : value.Fits later :=
  ⟨grows.value fits.1, fits.2⟩

namespace Host.Session

variable {World : Type} {host : Host World}

structure InScope (session : host.Session) (catalog : Catalog) : Prop where
  lexical : Machine.Lexical host catalog session.state
  tables : ∀ missing, Machine.Scoped host missing catalog session.state
  coherent : session.names.Coherent
  listed : session.env.Listed catalog
  enclosed : session.env.Enclosed nothingMissing

section Keeps

variable {α β : Type} {session after : host.Session} {catalog later : Catalog}

theorem bind_eq (action : host.SessionM α) (next : α → host.SessionM β) (session : host.Session) :
    (action >>= next) session = match action session with
      | .ok value after => next value after
      | .error error after => .error error after := by
  change EStateM.bind action next session = _
  unfold EStateM.bind
  cases action session <;> rfl

theorem resolve_eq (name : String) (session : host.Session) :
    resolve name session =
      let after := { session with
        state := { session.state with mint := (session.state.mint.intern name).2 } }
      match session.env.lookup (session.state.mint.intern name).1 with
      | some value => .ok value after
      | none => .error (.missing name) after := by
  unfold resolve
  rw [bind_eq]
  dsimp only [withMint, modifyGet, MonadStateOf.modifyGet, EStateM.modifyGet]
  rw [bind_eq]
  dsimp only [get, getThe, MonadStateOf.get, EStateM.get]
  cases session.env.lookup (session.state.mint.intern name).1 <;> rfl

def Leads (session : host.Session) (catalog : Catalog) (after : host.Session) (later : Catalog) :
    Prop :=
  catalog.Grows session.state.mint.nextIdent later after.state.mint.nextIdent ∧ after.InScope later

def Keeps (action : host.SessionM α) (session : host.Session) (catalog : Catalog)
    (post : α → Catalog → Prop) : Prop :=
  match action session with
  | .ok value after => ∃ later, session.Leads catalog after later ∧ post value later
  | .error _ after => ∃ later, session.Leads catalog after later

theorem Keeps.bind {action : host.SessionM α} {next : α → host.SessionM β}
    {middle : α → Catalog → Prop}
    {post : β → Catalog → Prop} (first : Keeps action session catalog middle)
    (rest : ∀ {value after later},
      catalog.Grows session.state.mint.nextIdent later after.state.mint.nextIdent →
      after.InScope later → middle value later → Keeps (next value) after later post) :
    Keeps (action >>= next) session catalog post := by
  unfold Keeps at first ⊢
  rw [bind_eq]
  cases ran : action session with
  | error error after =>
      rw [ran] at first
      exact first
  | ok value after =>
      rw [ran] at first
      obtain ⟨later, ⟨grows, inScope⟩, held⟩ := first
      have second := rest grows inScope held
      unfold Keeps at second
      dsimp only
      cases again : next value after with
      | error error last =>
          rw [again] at second
          obtain ⟨final, toFinal, inScopeLast⟩ := second
          exact ⟨final, grows.trans toFinal, inScopeLast⟩
      | ok other last =>
          rw [again] at second
          obtain ⟨final, ⟨toFinal, inScopeLast⟩, heldLast⟩ := second
          exact ⟨final, ⟨grows.trans toFinal, inScopeLast⟩, heldLast⟩

theorem Keeps.pure {value : α} {post : α → Catalog → Prop} (inScope : session.InScope catalog)
    (held : post value catalog) : Keeps (Pure.pure value) session catalog post :=
  ⟨catalog, ⟨.refl inScope.lexical.bounded, inScope⟩, held⟩

theorem InScope.remint (inScope : session.InScope catalog) (mint : Mint)
    (interns : session.names.Interns mint.names)
    (grows : catalog.Grows session.state.mint.nextIdent later mint.nextIdent) :
    ({ session with state := { session.state with mint } } : host.Session).InScope later :=
  ⟨inScope.lexical.grow rfl grows (inScope.lexical.kept.grow grows),
    fun missing => (inScope.tables missing).grow rfl grows (inScope.tables missing).2,
    interns.coherent inScope.coherent, grows.env inScope.listed, inScope.enclosed⟩

theorem keeps_withMint {action : Mint → α × Mint} {post : α → Catalog → Prop}
    (inScope : session.InScope catalog)
    (interns : session.names.Interns (action session.state.mint).2.names)
    (formed : ∃ later, catalog.Grows session.state.mint.nextIdent later
        (action session.state.mint).2.nextIdent ∧ post (action session.state.mint).1 later) :
    Keeps (withMint action) session catalog post := by
  obtain ⟨later, grows, held⟩ := formed
  exact ⟨later, ⟨grows, inScope.remint _ interns grows⟩, held⟩

theorem keeps_resolve (inScope : session.InScope catalog) (name : String) :
    Keeps (resolve name) session catalog Value.Fits := by
  have stays := Catalog.Grows.refl inScope.lexical.bounded
  have interned := inScope.remint (session.state.mint.intern name).2 (.intern .refl name) stays
  unfold Keeps
  rw [resolve_eq]
  dsimp only
  cases found : session.env.lookup (session.state.mint.intern name).1 with
  | none => exact ⟨catalog, stays, interned⟩
  | some value =>
      exact ⟨catalog, ⟨stays, interned⟩, Env.Throughout.of_lookup inScope.listed found,
        Env.Throughout.of_lookup inScope.enclosed found⟩

theorem keeps_builtin {name : String} {operation : Operation} {kept : Env}
    (inScope : session.InScope catalog) (listed : kept.Listed catalog)
    (enclosed : kept.Enclosed nothingMissing) :
    Keeps (withMint (·.builtin name operation kept)) session catalog Value.Fits :=
  keeps_withMint inScope .refl ⟨catalog, .skip inScope.lexical.bounded (Nat.le_succ _),
    Value.throughout_builtin.mpr ⟨trivial, listed⟩, Value.enclosed_builtin.mpr enclosed⟩

/-- Values that are built have no missing names. -/
theorem keeps_build (recipe : Recipe) (inScope : session.InScope catalog) :
    Keeps (build recipe) session catalog Value.Fits := by
  induction recipe generalizing session catalog with
  | datum data =>
      rw [build]
      exact keeps_withMint inScope .refl ⟨catalog, .skip inScope.lexical.bounded (Nat.le_succ _),
        Value.listed_datum _ _ _, Value.enclosed_datum _ _ _⟩
  | numeral count =>
      rw [build]
      obtain ⟨later, grows, listed⟩ :=
        Church.forms_numeral (fun _ => True) inScope.lexical.bounded count
      exact keeps_withMint inScope (Church.numeral_interns _ _)
        ⟨later, grows, listed, Church.enclosed_numeral _ _⟩
  | truth value =>
      rw [build]
      obtain ⟨later, grows, listed⟩ :=
        Church.forms_truth (fun _ => True) inScope.lexical.bounded value
      exact keeps_withMint inScope (Church.truth_interns _ _)
        ⟨later, grows, listed, Church.enclosed_truth _ _⟩
  | pair first second firstIh secondIh =>
      rw [build]
      refine (firstIh inScope).bind fun _ inScope firstFits => ?_
      refine (secondIh inScope).bind fun grows inScope secondFits => ?_
      obtain ⟨later, toLater, listed⟩ := Church.forms_pair inScope.lexical.bounded
        (firstFits.grow grows).1 secondFits.1
      exact keeps_withMint inScope (Church.pair_interns _ _ _)
        ⟨later, toLater, listed, Church.enclosed_pair firstFits.2 secondFits.2 _⟩
  | function name operation =>
      rw [build]
      exact keeps_builtin inScope (Env.throughout_empty _ _) (Env.enclosed_empty _)
  | constant name cacheable value valueIh =>
      rw [build]
      refine (valueIh inScope).bind fun _ inScope fits => ?_
      have kept : Keeps (withMint (·.extend .empty 0 _)) _ _ fun (env : Env) catalog =>
          env.Listed catalog ∧ env.Enclosed nothingMissing :=
        keeps_withMint inScope .refl ⟨_, .skip inScope.lexical.bounded (Nat.le_succ _),
          Env.Throughout.extend (Env.throughout_empty _ _) fits.1 _ _,
          (Env.enclosed_empty _).extend fits.2 _ _⟩
      exact kept.bind fun _ inScope held => keeps_builtin inScope held.1 held.2
  | identity =>
      rw [build]
      obtain ⟨later, grows, listed⟩ :=
        Church.forms_identity (fun _ => True) inScope.lexical.bounded
      have made : Keeps (withMint Church.identity) session catalog
          fun closure catalog => (Value.closure closure).Fits catalog :=
        keeps_withMint inScope (Church.identity_interns _)
          ⟨later, grows, listed, Church.enclosed_identity _⟩
      exact made.bind fun _ inScope fits => .pure inScope fits
  | reference name =>
      rw [build]
      exact keeps_resolve inScope name

theorem keeps_builds (extra : List (String × Recipe)) (inScope : session.InScope catalog) :
    Keeps (extra.mapM fun (name, recipe) => do
        let value ← build recipe
        return (name, value)) session catalog
      fun values catalog => ∀ binding ∈ values, binding.2.Fits catalog := by
  induction extra generalizing session catalog with
  | nil =>
      rw [List.mapM_nil]
      exact .pure inScope (List.forall_mem_nil _)
  | cons binding rest ih =>
      rw [List.mapM_cons]
      have first : Keeps (do
          let value ← build binding.2
          return (binding.1, value)) session catalog fun built catalog => built.2.Fits catalog :=
        (keeps_build binding.2 inScope).bind fun _ inScope fits => .pure inScope fits
      refine first.bind fun _ inScope fits => ?_
      refine (ih inScope).bind fun grows inScope each => .pure inScope ?_
      exact List.forall_mem_cons.mpr ⟨fits.grow grows, each⟩

theorem InScope.withBinding {value : Value} (inScope : session.InScope catalog)
    (fits : value.Fits catalog) (name : String) :
    (session.withBinding name value).InScope catalog := by
  have issued : catalog.Grows session.state.mint.nextIdent catalog
      (session.withBinding name value).state.mint.nextIdent :=
    .skip inScope.lexical.bounded (Nat.le_succ _)
  have minted := inScope.remint (session.withBinding name value).state.mint
    (.intern .refl name) issued
  exact ⟨minted.lexical, minted.tables, minted.coherent,
    Env.Throughout.extend inScope.listed fits.1 _ _, inScope.enclosed.extend fits.2 _ _⟩

theorem InScope.bound {name : String} {recipe : Recipe} (inScope : session.InScope catalog)
    (ran : bind name recipe session = .ok () after) : ∃ later, after.InScope later := by
  have built := keeps_build recipe inScope
  unfold Keeps at built
  rw [Session.bind, bind_eq] at ran
  cases made : build recipe session with
  | error error middle => rw [made] at ran; cases ran
  | ok value middle =>
      rw [made] at ran built
      obtain ⟨later, ⟨_, inScopeMiddle⟩, fits⟩ := built
      cases ran
      exact ⟨later, inScopeMiddle.withBinding fits name⟩

theorem InScope.entered {extra : List (String × Recipe)} (inScope : session.InScope catalog)
    (ran : enterPrelude extra session = .ok () after) : ∃ later, after.InScope later := by
  have entered : Keeps (do
      let values ← extra.mapM fun (name, recipe) => do
        let value ← build recipe
        return (name, value)
      withMint (Prelude.environment values)) session catalog
      fun env catalog => env.Listed catalog ∧ env.Enclosed nothingMissing := by
    refine (keeps_builds extra inScope).bind fun {values middle later} _ inScope each => ?_
    obtain ⟨final, grows, listed⟩ := @Prelude.forms_environment (fun _ => True) _ _
      inScope.lexical.bounded (fun _ _ => trivial) _ fun binding among => (each binding among).1
    obtain ⟨interns, enclosed⟩ := Prelude.enclosed_environment middle.state.mint
      fun binding among => (each binding among).2
    exact keeps_withMint inScope interns ⟨final, grows, listed, enclosed⟩
  have same : enterPrelude extra = ((do
      let values ← extra.mapM fun (name, recipe) => do
        let value ← build recipe
        return (name, value)
      withMint (Prelude.environment values)) : host.SessionM Env) >>= fun env =>
        modify fun session => { session with env } := by
    rw [bind_assoc]
    rfl
  rw [same, bind_eq] at ran
  unfold Keeps at entered
  split at entered
  · rename_i env middle made
    rw [made] at ran
    obtain ⟨later, ⟨_, inScopeMiddle⟩, listed, enclosed⟩ := entered
    cases ran
    exact ⟨later, inScopeMiddle.lexical, inScopeMiddle.tables, inScopeMiddle.coherent, listed,
      enclosed⟩
  · rename_i error middle made
    rw [made] at ran
    cases ran

end Keeps

section Turns

variable {session after : host.Session} {catalog : Catalog} {turn : Turn} {program : Program}
  {names : NameTable} {outcome : Outcome} {state : MachineState World}

def Closes (session : host.Session) (source : Feed) : Prop :=
  ∀ program names tree name, Program.parse source session.names = (.ok program, names) →
    program.arena.tree? program.root = some tree → tree.Occurs name →
      ∃ value, session.env.lookup name = some value

theorem InScope.withNames (inScope : session.InScope catalog)
    (interns : session.names.Interns names) : (session.withNames names).InScope catalog :=
  inScope.remint _ interns (.refl inScope.lexical.bounded)

/-- Code is given an identity, and nothing else changes. -/
theorem InScope.loaded (inScope : session.InScope catalog) :
    Machine.Lexical host catalog session.loaded ∧
      ∀ missing, Machine.Scoped host missing catalog session.loaded := by
  have issued : catalog.Grows session.state.mint.nextIdent catalog
      session.loaded.mint.nextIdent := .skip inScope.lexical.bounded (Nat.le_succ _)
  exact ⟨inScope.lexical.grow rfl issued inScope.lexical.kept,
    fun missing => (inScope.tables missing).grow rfl issued (inScope.tables missing).2⟩

theorem Closes.enclosed (inScope : session.InScope catalog)
    (parsed : Program.parse turn.source session.names = (.ok program, names))
    (closes : session.Closes turn.source) (missing : NameId → Prop) :
    ((session.withNames names).task program).Enclosed missing := by
  obtain ⟨inside, tidy, _⟩ := Program.tidy_parse parsed
  obtain ⟨tree, denoted, _⟩ := tidy.exists_tree? inside
  exact ⟨inScope.enclosed.of_nothing, tree, denoted, fun name occurs =>
    Or.inl (closes program names tree name parsed denoted occurs)⟩

theorem InScope.evaluated (keeps : host.KeepsScope) (inScope : session.InScope catalog)
    (parsed : Program.parse turn.source session.names = (.ok program, names))
    (ended : session.machine.Evaluates true [] ((session.withNames names).task program)
      (session.withNames names).loaded outcome state) :
    (session.withNames names).InScope catalog ∧ ∃ later,
      Machine.KeepsScope host catalog ((session.withNames names).task program)
        (session.withNames names).loaded outcome state later := by
  have interns := Program.interns_parse turn.source session.names
  rw [parsed] at interns
  have named := inScope.withNames interns
  exact ⟨named, ended.keepsScope keeps named.loaded.1 named.listed⟩

/-- An evaluation keeps scope if the program leaves no name unbound, or else if the host secludes
what it keeps. -/
theorem InScope.left {later : Catalog} (inScope : session.InScope catalog)
    (named : (session.withNames names).InScope catalog)
    (parsed : Program.parse turn.source session.names = (.ok program, names))
    (kept : Machine.KeepsScope host catalog ((session.withNames names).task program)
      (session.withNames names).loaded outcome state later)
    (either : host.Secludes ∨ session.Closes turn.source) :
    ({ session with state } : host.Session).InScope later := by
  refine ⟨kept.lexical, fun missing => ?_, kept.interns.coherent named.coherent,
    kept.grows.env named.listed, named.enclosed⟩
  exact kept.keeps missing (named.loaded.2 missing)
    (either.imp_right fun closes => closes.enclosed inScope parsed missing)

/-- What may be done with the program: if it leaves a name unbound, its value is not bound, and the
host keeps nothing that it is called with. -/
def Admits (session : host.Session) (turn : Turn) : Prop :=
  session.Closes turn.source ∨ turn.bindAs = none ∧ host.Secludes

theorem Takes.inScope {answer : Evaluation} (takes : Takes true session turn answer after)
    (keeps : host.KeepsScope) (inScope : session.InScope catalog)
    (admits : session.Admits turn) : ∃ later, after.InScope later := by
  have either : host.Secludes ∨ session.Closes turn.source := admits.symm.imp_left And.right
  cases takes with
  | rejected parsed =>
      have interns := Program.interns_parse turn.source session.names
      rw [parsed] at interns
      exact ⟨catalog, inScope.withNames interns⟩
  | failed parsed ended =>
      obtain ⟨named, later, kept⟩ := inScope.evaluated keeps parsed ended
      exact ⟨later, inScope.left named parsed kept either⟩
  | @finished program names found state parsed ended =>
      obtain ⟨named, later, kept⟩ := inScope.evaluated keeps parsed ended
      have inScopeAfter := inScope.left named parsed kept either
      rcases admits with closes | ⟨bindAs, _⟩
      · have fits : found.result.value.Fits later :=
          ⟨kept.listed found rfl,
            kept.safe _ (named.loaded.2 _) (closes.enclosed inScope parsed nothingMissing)⟩
        cases turn.bindAs with
        | none => exact ⟨later, inScopeAfter⟩
        | some name => exact ⟨later, inScopeAfter.withBinding fits name⟩
      · rw [bindAs]
        exact ⟨later, inScopeAfter⟩

/-- A name that is found unbound is free in the program, and the environment does not bind it. -/
theorem Takes.unbound {text : String}
    (takes : Takes true session turn (.failed (.unbound text)) after) (keeps : host.KeepsScope)
    (inScope : session.InScope catalog) :
    ∃ program names tree name, Program.parse turn.source session.names = (.ok program, names) ∧
      program.arena.tree? program.root = some tree ∧ names.numbers[text]? = some name ∧
      tree.Occurs name ∧ session.env.lookup name = none := by
  cases takes with
  | @failed program names _ state parsed ended =>
      obtain ⟨inside, tidy, _⟩ := Program.tidy_parse parsed
      obtain ⟨tree, denoted, spelled⟩ := tidy.exists_tree? inside
      obtain ⟨named, later, kept⟩ := inScope.evaluated keeps parsed ended
      let missing (name : NameId) : Prop := tree.Occurs name ∧ session.env.lookup name = none
      have enclosed : ((session.withNames names).task program).Enclosed missing := by
        refine ⟨inScope.enclosed.of_nothing, tree, denoted, fun name occurs => ?_⟩
        cases bound : session.env.lookup name with
        | none => exact Or.inr ⟨occurs, bound⟩
        | some value => exact Or.inl ⟨value, bound⟩
      obtain ⟨name, ⟨occurs, absent⟩, same⟩ :=
        kept.safe missing (named.loaded.2 missing) enclosed
      -- the number had this text when the program was parsed, and it still has
      obtain ⟨written, _, known⟩ := spelled.of_occurs occurs
      have read := (kept.interns.coherent named.coherent).text_eq (kept.interns.extends _ _ known)
      obtain rfl : text = written := same.trans read
      exact ⟨program, names, tree, name, parsed, denoted, known, occurs, absent⟩

end Turns

/-- The sessions that a host and programs can bring about: values that are made are bound at any time,
between two turns the world may change as long as the host keeps nothing new, and programs are
evaluated with any outcome. -/
inductive Reached : host.Session → Prop
  | new (world : World) (limit : Option Nat) (nothing : host.KeepsNothing world) :
      Reached (fresh world limit)
  | attended {session : host.Session} (reached : Reached session) (world : World)
      (sheds : host.Sheds session.state.world world) :
      Reached (session.withWorld world)
  | entered {session after : host.Session} (reached : Reached session)
      (extra : List (String × Recipe)) (ran : enterPrelude extra session = .ok () after) :
      Reached after
  | bound {session after : host.Session} (reached : Reached session) (name : String)
      (recipe : Recipe) (ran : bind name recipe session = .ok () after) : Reached after
  | limited {session : host.Session} (reached : Reached session) (limit : Option Nat) :
      Reached (session.resetCounters limit)
  | evaluated {session after : host.Session} {answer : Evaluation} (reached : Reached session)
      (fuel : Nat) (source : Feed) (bindAs : Option String)
      (admits : session.Admits ⟨source, bindAs⟩)
      (ran : session.evaluate fuel source bindAs = (answer, after)) : Reached after

theorem Reached.inScope {session : host.Session} (keeps : host.KeepsScope)
    (reached : session.Reached) : ∃ catalog, session.InScope catalog := by
  induction reached with
  | new world limit nothing =>
      refine ⟨fun _ => none, ⟨?_, Memo.lawful_empty _ _ _, ?_⟩,
        fun missing => ⟨Memo.lawful_empty _ _ _, ?_⟩, NameTable.coherent_empty,
        Env.throughout_empty _ _, Env.enclosed_empty _⟩
      · intro ident closure listed
        cases listed
      · rw [Host.KeepsListed, fresh, nothing]
        exact List.forall_mem_nil _
      · rw [Host.KeepsEnclosed, fresh, nothing]
        exact List.forall_mem_nil _
  | attended _ world sheds ih =>
      obtain ⟨catalog, inScope⟩ := ih
      refine ⟨catalog, ⟨inScope.lexical.bounded, inScope.lexical.lawful, fun value among => ?_⟩,
        fun missing => ⟨(inScope.tables missing).1, fun value among => ?_⟩, inScope.coherent,
        inScope.listed, inScope.enclosed⟩
      · exact inScope.lexical.kept value (sheds among)
      · exact (inScope.tables missing).2 value (sheds among)
  | entered _ _ ran ih =>
      obtain ⟨catalog, inScope⟩ := ih
      exact inScope.entered ran
  | bound _ _ _ ran ih =>
      obtain ⟨catalog, inScope⟩ := ih
      exact inScope.bound ran
  | limited _ _ ih =>
      obtain ⟨catalog, inScope⟩ := ih
      exact ⟨catalog, ⟨inScope.lexical.bounded, inScope.lexical.lawful, inScope.lexical.kept⟩,
        inScope.tables, inScope.coherent, inScope.listed, inScope.enclosed⟩
  | @evaluated session _ _ _ _ source _ admits ran ih =>
      obtain ⟨catalog, inScope⟩ := ih
      rcases evaluate_cases ran with takes | ⟨_, rfl⟩
      · exact takes.inScope keeps inScope admits
      · exact ⟨catalog, inScope.withNames (Program.interns_parse source session.names)⟩

end Host.Session

namespace Session

open Host.Session

variable {World : Type} {host : Host World}

end Session

end LambdaMachine
