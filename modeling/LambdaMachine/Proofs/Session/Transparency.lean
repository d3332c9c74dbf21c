import LambdaMachine.Proofs.Prelude.Environment
import LambdaMachine.Proofs.Prelude.Simulation
import LambdaMachine.Proofs.Program.Parsing
import LambdaMachine.Proofs.Session.Turns

/-!
Tables make no difference to a session. A session with tables and one without start alike; a turn
that ends in one of them ends in the other, the answers are equal once identities are left out, and
the same bytes have been printed and read.
-/

namespace LambdaMachine

def Evaluation.erase : Evaluation → Evaluation
  | .finished value => .finished value.erase
  | other => other

namespace Host.Session

section Prelude

variable {World : Type} {host : Host World}

def inPrelude (session : host.Session) : host.Session :=
  let (env, mint) := Prelude.environment [] session.state.mint
  { session with env, state := { session.state with mint } }

theorem enterPrelude_nil (session : host.Session) :
    Session.enterPrelude [] session = .ok () session.inPrelude := by
  unfold inPrelude enterPrelude withMint
  rw [List.mapM_nil]
  rfl

theorem memo_inPrelude (session : host.Session) :
    session.inPrelude.state.memo = session.state.memo := by
  unfold inPrelude
  generalize Prelude.environment [] session.state.mint = made
  rfl

end Prelude

def opened (io : ByteIo) : Surroundings.Session :=
  (Session.new io none).inPrelude

theorem enterPrelude_new (io : ByteIo) :
    Session.enterPrelude [] (Session.new io none) = .ok () (opened io) := by
  rw [opened]
  exact enterPrelude_nil _

theorem memo_opened (io : ByteIo) : (opened io).state.memo = .empty := by
  rw [opened, memo_inPrelude]
  rfl

structure View where
  env : Env
  scene : Scene Surroundings

def view (session : Surroundings.Session) : View :=
  ⟨session.env.erase, session.state.scene⟩

def View.withResult (view : View) (bindAs : Option String) (value : Value) : View :=
  bindAs.elim view fun name =>
    ⟨view.env.extend 0 (view.scene.names.intern name).1 value,
      (view.scene.names.intern name).2, view.scene.world⟩

inductive PlainTurn (view : View) (turn : Turn) : Evaluation → View → Prop
  | rejected {error names}
      (parsed : Program.parse turn.source view.scene.names = (.error error, names)) :
      PlainTurn view turn (.rejected error) ⟨view.env, names, view.scene.world⟩
  | failed {program names error after}
      (parsed : Program.parse turn.source view.scene.names = (.ok program, names))
      (plain : Machine.Plain Surroundings.host (.node view.env ⟨0, program.arena⟩ program.root)
        ⟨names, view.scene.world⟩ (.error error) after) :
      PlainTurn view turn (.failed error) ⟨view.env, after⟩
  | finished {program names result after}
      (parsed : Program.parse turn.source view.scene.names = (.ok program, names))
      (plain : Machine.Plain Surroundings.host (.node view.env ⟨0, program.arena⟩ program.root)
        ⟨names, view.scene.world⟩ (.ok result) after) :
      PlainTurn view turn (.finished result.value)
        (View.withResult ⟨view.env, after⟩ turn.bindAs result.value)

theorem PlainTurn.deterministic {view left right : View} {turn : Turn}
    {leftAnswer rightAnswer : Evaluation} (toLeft : PlainTurn view turn leftAnswer left)
    (toRight : PlainTurn view turn rightAnswer right) :
    leftAnswer = rightAnswer ∧ left = right := by
  cases toLeft with
  | rejected parsed =>
      cases toRight with
      | rejected again => cases parsed.symm.trans again; exact ⟨rfl, rfl⟩
      | failed again _ => cases parsed.symm.trans again
      | finished again _ => cases parsed.symm.trans again
  | failed parsed plain =>
      cases toRight with
      | rejected again => cases parsed.symm.trans again
      | failed again plainAgain =>
          cases parsed.symm.trans again
          obtain ⟨same, rfl⟩ := plain.deterministic plainAgain
          cases same
          exact ⟨rfl, rfl⟩
      | finished again plainAgain =>
          cases parsed.symm.trans again
          cases (plain.deterministic plainAgain).1
  | finished parsed plain =>
      cases toRight with
      | rejected again => cases parsed.symm.trans again
      | failed again plainAgain =>
          cases parsed.symm.trans again
          cases (plain.deterministic plainAgain).1
      | finished again plainAgain =>
          cases parsed.symm.trans again
          obtain ⟨same, rfl⟩ := plain.deterministic plainAgain
          cases same
          exact ⟨rfl, rfl⟩

structure Trusted (session : Surroundings.Session) (catalog : Catalog) : Prop where
  unlimited : session.limit = none
  sound : Machine.Sound catalog session.state
  known : session.env.Known catalog

theorem exists_trusted_inPrelude {session : Surroundings.Session} (unlimited : session.limit = none)
    (fresh : session.state.memo = .empty) : ∃ catalog, session.inPrelude.Trusted catalog := by
  have made := Prelude.exists_catalog_environment session.state.mint
  unfold inPrelude
  generalize Prelude.environment [] session.state.mint = environment at made ⊢
  obtain ⟨env, mint⟩ := environment
  obtain ⟨catalog, bounded, known⟩ := made
  exact ⟨catalog, unlimited, ⟨bounded, fresh ▸ Memo.lawful_empty _ _ _⟩, known⟩

theorem exists_trusted_opened (io : ByteIo) : ∃ catalog, (opened io).Trusted catalog :=
  exists_trusted_inPrelude rfl rfl

theorem Trusted.withNames {session : Surroundings.Session} {catalog : Catalog} {names : NameTable}
    (trusted : session.Trusted catalog) (interns : session.names.Interns names) :
    (session.withNames names).Trusted catalog :=
  ⟨trusted.unlimited,
    trusted.sound.grow rfl ⟨interns.extends, rfl, id⟩ (.refl trusted.sound.bounded), trusted.known⟩

theorem Trusted.loaded {session : Surroundings.Session} {catalog : Catalog}
    (trusted : session.Trusted catalog) :
    Machine.Sound catalog session.loaded :=
  trusted.sound.grow rfl (.refl _) (.skip trusted.sound.bounded (Nat.le_succ _))

theorem Trusted.withResult {session : Surroundings.Session} {catalog : Catalog} {value : Value}
    (trusted : session.Trusted catalog) (known : value.Known catalog) (bindAs : Option String) :
    (session.withResult bindAs value).Trusted catalog := by
  cases bindAs with
  | none => exact trusted
  | some name =>
      have before : session.state.scene.Before (session.withBinding name value).state.scene :=
        ⟨NameTable.extends_intern _ _, rfl, id⟩
      refine ⟨trusted.unlimited, trusted.sound.grow rfl before ?_, trusted.known.extend known _ _⟩
      exact .skip trusted.sound.bounded (Nat.le_succ _)

theorem view_withResult (session : Surroundings.Session) (bindAs : Option String) (value : Value) :
    (session.withResult bindAs value).view = session.view.withResult bindAs value.erase := by
  cases bindAs with
  | none => rfl
  | some name =>
      have bound : (session.withBinding name value).env.erase =
          session.env.erase.extend 0 (session.names.intern name).1 value.erase :=
        Env.erase_extend _ _ _ _
      exact congrArg (View.mk · _) bound

/-- A turn agrees with the reduction rules, and the tables stay right. -/
theorem Takes.plain {memoizing : Bool} {session after : Surroundings.Session} {turn : Turn}
    {answer : Evaluation} {catalog : Catalog} (trusted : session.Trusted catalog)
    (takes : Takes memoizing session turn answer after) :
    PlainTurn session.view turn answer.erase after.view ∧ ∃ later, after.Trusted later := by
  cases takes with
  | rejected parsed =>
      have interns : session.names.Interns _ := Program.interns_parse turn.source session.names
      rw [parsed] at interns
      exact ⟨.rejected parsed, catalog, trusted.withNames interns⟩
  | failed parsed ended =>
      have interns := Program.interns_parse turn.source session.names
      rw [parsed] at interns
      have named := trusted.withNames interns
      have faithful := ended.faithful rfl trusted.unlimited named.loaded named.known
      obtain ⟨later, grows, sound, _⟩ := faithful.leaves
      exact ⟨.failed parsed faithful.steady.plain, later, trusted.unlimited, sound,
        named.known.mono grows⟩
  | @finished program names found state parsed ended =>
      have interns := Program.interns_parse turn.source session.names
      rw [parsed] at interns
      have named := trusted.withNames interns
      have faithful := ended.faithful rfl trusted.unlimited named.loaded named.known
      obtain ⟨later, grows, sound, resultKnown⟩ := faithful.leaves
      have plain := @PlainTurn.finished session.view turn program names found.result.erase
        state.scene parsed faithful.steady.plain
      rw [view_withResult]
      have trustedAfter : ({ session with state } : Surroundings.Session).Trusted later :=
        ⟨trusted.unlimited, sound, named.known.mono grows⟩
      exact ⟨plain, later, trustedAfter.withResult (resultKnown found rfl) turn.bindAs⟩

/-- A turn that ends by the reduction rules ends, with tables as without. -/
theorem PlainTurn.exists_takes {session : Surroundings.Session} {turn : Turn} {answer : Evaluation}
    {view : View}
    {catalog : Catalog} (plain : PlainTurn session.view turn answer view)
    (trusted : session.Trusted catalog) (memoizing : Bool) :
    ∃ answer after, Takes memoizing session turn answer after := by
  have evaluated {program : Program} {names : NameTable} {expected : Except EvalError Evaluated}
      {scene : Scene Surroundings}
      (parsed : Program.parse turn.source session.names = (.ok program, names))
      (ended : Machine.Plain Surroundings.host
        (.node session.env.erase ⟨0, program.arena⟩ program.root)
        ⟨names, session.state.world⟩ expected scene) :
      ∃ answer after, Takes memoizing session turn answer after := by
    have interns := Program.interns_parse turn.source session.names
    rw [parsed] at interns
    have named := trusted.withNames interns
    have sameTask : ((session.withNames names).task program).erase =
        .node session.env.erase ⟨0, program.arena⟩ program.root := rfl
    have sameScene : (session.withNames names).loaded.scene = ⟨names, session.state.world⟩ := rfl
    have realized := @Machine.Plain.realized session.machine _ _ _ memoizing rfl
      trusted.unlimited _ ended
    obtain ⟨outcome, state, derived⟩ := realized [] sameTask sameScene named.loaded named.known
    cases outcome with
    | error error => exact ⟨_, _, .failed parsed derived⟩
    | ok found => exact ⟨_, _, .finished parsed derived⟩
  cases plain with
  | rejected parsed => exact ⟨_, _, .rejected parsed⟩
  | failed parsed ended => exact evaluated parsed ended
  | finished parsed ended => exact evaluated parsed ended

structure Alike (left right : Surroundings.Session) : Prop where
  view : left.view = right.view
  left : ∃ catalog, left.Trusted catalog
  right : ∃ catalog, right.Trusted catalog

theorem Alike.symm {left right : Surroundings.Session} (alike : left.Alike right) :
    right.Alike left :=
  ⟨alike.view.symm, alike.right, alike.left⟩

section Evaluators

variable {evaluator other : Evaluator Surroundings} {memoizing otherMemoizing : Bool}
  {left right leftAfter rightAfter : Surroundings.Session} {turn : Turn}
  {leftAnswer rightAnswer : Evaluation}

theorem Alike.ends (computes : evaluator.Computes memoizing)
    (otherComputes : other.Computes otherMemoizing) (alike : left.Alike right)
    (leftEnds : Ends (evaluateBy evaluator) left turn leftAnswer leftAfter)
    (rightEnds : Ends (evaluateBy other) right turn rightAnswer rightAfter) :
    leftAnswer.erase = rightAnswer.erase ∧ leftAfter.Alike rightAfter := by
  obtain ⟨catalog, trusted⟩ := alike.left
  obtain ⟨otherCatalog, otherTrusted⟩ := alike.right
  obtain ⟨leftPlain, leftLater⟩ := ((ends_iff_takes computes).mp leftEnds).plain trusted
  obtain ⟨rightPlain, rightLater⟩ :=
    ((ends_iff_takes otherComputes).mp rightEnds).plain otherTrusted
  rw [← alike.view] at rightPlain
  obtain ⟨sameAnswer, sameView⟩ := leftPlain.deterministic rightPlain
  exact ⟨sameAnswer, sameView, leftLater, rightLater⟩

theorem Alike.exists_ends (computes : evaluator.Computes memoizing)
    (otherComputes : other.Computes otherMemoizing) (alike : left.Alike right)
    (leftEnds : Ends (evaluateBy evaluator) left turn leftAnswer leftAfter) :
    ∃ answer after, Ends (evaluateBy other) right turn answer after := by
  obtain ⟨catalog, trusted⟩ := alike.left
  obtain ⟨otherCatalog, otherTrusted⟩ := alike.right
  have plain := (((ends_iff_takes computes).mp leftEnds).plain trusted).1
  rw [alike.view] at plain
  obtain ⟨answer, after, takes⟩ := plain.exists_takes otherTrusted otherMemoizing
  exact ⟨answer, after, (ends_iff_takes otherComputes).mpr takes⟩

def eraseAnswer (answer : Evaluation × ByteIo) : Evaluation × ByteIo :=
  (answer.1.erase, answer.2)

theorem Alike.plays (computes : evaluator.Computes memoizing)
    (otherComputes : other.Computes otherMemoizing) {turns : List Turn}
    {leftAnswers rightAnswers : List (Evaluation × ByteIo)} (alike : left.Alike right)
    (leftPlays : Plays (evaluateBy evaluator) left turns leftAnswers leftAfter)
    (rightPlays : Plays (evaluateBy other) right turns rightAnswers rightAfter) :
    leftAnswers.map eraseAnswer = rightAnswers.map eraseAnswer ∧ leftAfter.Alike rightAfter := by
  induction leftPlays generalizing right rightAnswers rightAfter with
  | done =>
      cases rightPlays
      exact ⟨rfl, alike⟩
  | turn leftEnds _ ih =>
      cases rightPlays with
      | turn rightEnds rightRest =>
          obtain ⟨sameAnswer, alikeMiddle⟩ := alike.ends computes otherComputes leftEnds rightEnds
          obtain ⟨sameRest, alikeLast⟩ := ih alikeMiddle rightRest
          have sameIo := congrArg (fun view => view.scene.world.io) alikeMiddle.view
          refine ⟨?_, alikeLast⟩
          rw [List.map_cons, List.map_cons, sameRest, eraseAnswer, eraseAnswer, sameAnswer]
          exact congrArg (fun io => (_, io) :: _) sameIo

theorem Alike.exists_plays (computes : evaluator.Computes memoizing)
    (otherComputes : other.Computes otherMemoizing) {turns : List Turn}
    {leftAnswers : List (Evaluation × ByteIo)} (alike : left.Alike right)
    (leftPlays : Plays (evaluateBy evaluator) left turns leftAnswers leftAfter) :
    ∃ answers last, Plays (evaluateBy other) right turns answers last := by
  induction leftPlays generalizing right with
  | done => exact ⟨_, _, .done⟩
  | turn leftEnds _ ih =>
      obtain ⟨answer, middle, rightEnds⟩ := alike.exists_ends computes otherComputes leftEnds
      obtain ⟨_, alikeMiddle⟩ := alike.ends computes otherComputes leftEnds rightEnds
      obtain ⟨answers, last, rest⟩ := ih alikeMiddle
      exact ⟨_, last, .turn rightEnds rest⟩

end Evaluators

theorem alike_opened (io : ByteIo) : (opened io).Alike (opened io) :=
  ⟨rfl, exists_trusted_opened io, exists_trusted_opened io⟩

end Host.Session

namespace Session

open Host.Session

/-- Whatever is evaluated in a session, in whatever order and whether or not it fails: with tables
and without, the same turns end, with the same answers apart from identities, and with the same
bytes printed and left to read. -/
theorem evaluations_ignore_tables (io : ByteIo) (turns : List Turn) :
    Session.enterPrelude [] (Session.new io none) = .ok () (opened io) ∧
    (∀ expected,
      (∃ answers last, Plays Host.Session.evaluate (opened io) turns answers last ∧
        answers.map eraseAnswer = expected) ↔
      ∃ answers last, Plays (evaluateBy .memoFree) (opened io) turns answers last ∧
        answers.map eraseAnswer = expected) ∧
    ∀ answers last freeAnswers freeLast,
      Plays Host.Session.evaluate (opened io) turns answers last →
      Plays (evaluateBy .memoFree) (opened io) turns freeAnswers freeLast →
        answers.map eraseAnswer = freeAnswers.map eraseAnswer ∧
        freeLast.state.memo = .empty ∧
        ∀ next, (∃ answer after, Ends Host.Session.evaluate last next answer after) ↔
          ∃ answer after, Ends (evaluateBy .memoFree) freeLast next answer after := by
  have memoized := @Evaluator.memoized_computes Surroundings
  have memoFree := @Evaluator.memoFree_computes Surroundings
  have start := alike_opened io
  rw [evaluate_eq_evaluateBy]
  refine ⟨enterPrelude_new io, ?_, ?_⟩
  · intro expected
    constructor
    · rintro ⟨answers, last, plays, rfl⟩
      obtain ⟨freeAnswers, freeLast, playsFree⟩ := start.exists_plays memoized memoFree plays
      exact ⟨freeAnswers, freeLast, playsFree, (start.plays memoFree memoized playsFree plays).1⟩
    · rintro ⟨freeAnswers, freeLast, playsFree, rfl⟩
      obtain ⟨answers, last, plays⟩ := start.exists_plays memoFree memoized playsFree
      exact ⟨answers, last, plays, (start.plays memoized memoFree plays playsFree).1⟩
  · intro answers last freeAnswers freeLast plays playsFree
    obtain ⟨sameAnswers, alike⟩ := start.plays memoized memoFree plays playsFree
    refine ⟨sameAnswers, playsFree.memo_eq.trans (memo_opened io), fun next => ⟨?_, ?_⟩⟩
    · rintro ⟨answer, after, ends⟩
      exact alike.exists_ends memoized memoFree ends
    · rintro ⟨answer, after, ends⟩
      exact alike.symm.exists_ends memoFree memoized ends

end Session

end LambdaMachine
