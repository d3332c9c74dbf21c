import LambdaMachine.Proofs.Program.Allowance
import LambdaMachine.Proofs.Source.Places

/-!
Parsing a source as it comes. What the parser does depends on its cursor only through the tape that
the cursor shows, and the tape only on the bytes that are delivered before the first end. So it
makes no difference how the bytes are cut into pieces, how often reading is interrupted, or what the
reader would deliver later.
-/

namespace LambdaMachine

/-- Deliveries that hand over these bytes, in pieces that are not empty and with interruptions
anywhere, before an end is first reported. Anything may come after that end. -/
inductive Delivery.AmountTo : List Delivery → List UInt8 → Prop
  | nothing : AmountTo [] []
  | finish (later : List Delivery) : AmountTo (.bytes [] :: later) []
  | interruption {rest : List Delivery} {bytes : List UInt8} (amount : AmountTo rest bytes) :
      AmountTo (.interruption :: rest) bytes
  | piece {rest : List Delivery} {bytes : List UInt8} (first : UInt8) (others : List UInt8)
      (amount : AmountTo rest bytes) :
      AmountTo (.bytes (first :: others) :: rest) (first :: others ++ bytes)

namespace Feed

variable {feed other : Feed} {bytes : List UInt8}

theorem Carries.append (piece : List UInt8) (carries : feed.Carries bytes) :
    Carries (ofBytes piece ++ feed) (piece ++ bytes) := by
  induction piece with
  | nil => exact carries
  | cons byte piece ih => exact .byte byte ih

theorem carries_ofDeliveries {deliveries : List Delivery}
    (amount : Delivery.AmountTo deliveries bytes) : (ofDeliveries deliveries).Carries bytes := by
  induction amount with
  | nothing => exact .nothing
  | finish later => exact .finish _
  | interruption _ ih => exact .interruption ih
  | piece first others _ ih => exact ih.append (first :: others)

/-- Feeds that carry the same text show the same items. -/
theorem Carries.decodeAll_eq {chars : List Char} (carries : feed.Carries (Utf8.encode chars))
    (carriesToo : other.Carries (Utf8.encode chars)) (start : Nat) :
    feed.decodeAll start = other.decodeAll start := by
  induction chars generalizing feed other start with
  | nil =>
      obtain ⟨_, decoded⟩ := carries.decode_nil start
      obtain ⟨_, decodedToo⟩ := carriesToo.decode_nil start
      rw [decodeAll_of_decode decoded, decodeAll_of_decode decodedToo, if_pos rfl, if_pos rfl]
  | cons char chars ih =>
      rw [Utf8.encode_cons] at carries carriesToo
      obtain ⟨_, decoded, carriesOn⟩ := carries.decode_char start
      obtain ⟨_, decodedToo, carriesOnToo⟩ := carriesToo.decode_char start
      rw [decodeAll_of_decode decoded, decodeAll_of_decode decodedToo, ih carriesOn carriesOnToo]

end Feed

namespace Cursor

def Tells {ε α : Type} (action : EStateM ε Cursor α) : Prop :=
  ∀ one other : Cursor, one.view = other.view → viewResult (action one) = viewResult (action other)

theorem tells_of_view {ε α : Type} {action : EStateM ε Cursor α} (onTape : EStateM ε Tape α)
    (shown : ∀ cursor, onTape cursor.view = viewResult (action cursor)) : Tells action := by
  intro one other same
  rw [← shown, ← shown, same]

theorem tells_takeWhile (accepts : Char → Bool) : Tells (takeWhile accepts) := by
  intro one other same
  obtain ⟨text, result⟩ := gather_view accepts "" one
  obtain ⟨textToo, resultToo⟩ := gather_view accepts "" other
  rw [same] at text result
  have texts := text.trans textToo.symm
  have results := result.symm.trans resultToo
  unfold takeWhile
  generalize gather accepts "" one = gathered at texts results
  generalize gather accepts "" other = gatheredToo at texts results
  obtain ⟨text, result⟩ := gathered
  obtain ⟨textToo, resultToo⟩ := gatheredToo
  cases texts
  cases result with
  | ok _ after =>
      cases resultToo with
      | ok _ afterToo => exact congrArg (EStateM.Result.ok text) (EStateM.Result.ok.inj results).2
      | error _ _ => cases results
  | error error after =>
      cases resultToo with
      | ok _ _ => cases results
      | error errorToo afterToo =>
          obtain ⟨rfl, view⟩ := EStateM.Result.error.inj results
          exact congrArg (EStateM.Result.error error) view

end Cursor

def ParserState.shown (state : ParserState) : Tape × Arena × NameTable :=
  (state.cursor.view, state.arena, state.names)

namespace Parser

variable {α β : Type}

def shownResult : EStateM.Result ParseError ParserState α →
    EStateM.Result ParseError (Tape × Arena × NameTable) α
  | .ok value after => .ok value after.shown
  | .error error after => .error error after.shown

def Tells (action : Parser α) : Prop :=
  ∀ one other : ParserState, one.shown = other.shown →
    shownResult (action one) = shownResult (action other)

theorem Tells.bind {action : Parser α} {next : α → Parser β} (first : Tells action)
    (second : ∀ value, Tells (next value)) : Tells (action >>= next) := by
  intro one other same
  have results := first one other same
  simp only [Bind.bind, EStateM.bind]
  cases ran : action one with
  | ok value after =>
      cases ranToo : action other with
      | ok valueToo afterToo =>
          rw [ran, ranToo] at results
          obtain ⟨rfl, same⟩ := EStateM.Result.ok.inj results
          exact second value after afterToo same
      | error _ _ => rw [ran, ranToo] at results; cases results
  | error error after =>
      cases ranToo : action other with
      | ok _ _ => rw [ran, ranToo] at results; cases results
      | error errorToo afterToo =>
          rw [ran, ranToo] at results
          obtain ⟨rfl, same⟩ := EStateM.Result.error.inj results
          exact congrArg (EStateM.Result.error error) same

theorem tells_pure (value : α) : Tells (pure value : Parser α) :=
  fun _ _ same => congrArg (EStateM.Result.ok value) same

theorem tells_throw (error : ParseError) : Tells (throw error : Parser α) :=
  fun _ _ same => congrArg (EStateM.Result.error error) same

theorem tells_fail (error : SyntaxError) : Tells (fail error : Parser α) :=
  tells_throw (.malformed error)

theorem tells_scan {action : Scan α} (tells : Cursor.Tells action) : Tells (scan action) := by
  intro one other same
  have results := tells one.cursor other.cursor (congrArg (fun shown => shown.1) same)
  have rest := congrArg (fun shown => shown.2) same
  unfold scan
  cases ran : action one.cursor with
  | ok value after =>
      cases ranToo : action other.cursor with
      | ok valueToo afterToo =>
          rw [ran, ranToo] at results
          obtain ⟨rfl, view⟩ := EStateM.Result.ok.inj results
          exact congrArg (EStateM.Result.ok value) (Prod.ext view rest)
      | error _ _ => rw [ran, ranToo] at results; cases results
  | error error after =>
      cases ranToo : action other.cursor with
      | ok _ _ => rw [ran, ranToo] at results; cases results
      | error errorToo afterToo =>
          rw [ran, ranToo] at results
          obtain ⟨rfl, view⟩ := EStateM.Result.error.inj results
          exact congrArg (EStateM.Result.error _) (Prod.ext view rest)

theorem tells_peek : Tells (scan Cursor.peek) :=
  tells_scan (Cursor.tells_of_view Tape.peek Cursor.peek_view)

theorem tells_atEnd : Tells (scan Cursor.atEnd) :=
  tells_scan (Cursor.tells_of_view Tape.atEnd Cursor.atEnd_view)

theorem tells_skipBlanks : Tells (scan Cursor.skipBlanks) :=
  tells_scan (Cursor.tells_of_view Tape.skipBlanks Cursor.skipBlanks_view)

theorem tells_expect (expected : List Char) : Tells (expect expected) := by
  intro one other same
  have results := Cursor.tells_of_view _ (Cursor.expectOneOf_view expected) one.cursor other.cursor
    (congrArg (fun shown => shown.1) same)
  have rest := congrArg (fun shown => shown.2) same
  unfold expect
  cases ran : Cursor.expectOneOf expected one.cursor with
  | ok rune after =>
      cases ranToo : Cursor.expectOneOf expected other.cursor with
      | ok runeToo afterToo =>
          rw [ran, ranToo] at results
          obtain ⟨_, view⟩ := EStateM.Result.ok.inj results
          exact congrArg (EStateM.Result.ok ()) (Prod.ext view rest)
      | error _ _ => rw [ran, ranToo] at results; cases results
  | error error after =>
      cases ranToo : Cursor.expectOneOf expected other.cursor with
      | ok _ _ => rw [ran, ranToo] at results; cases results
      | error errorToo afterToo =>
          rw [ran, ranToo] at results
          obtain ⟨rfl, view⟩ := EStateM.Result.error.inj results
          cases error with
          | stream error => exact congrArg (EStateM.Result.error _) (Prod.ext view rest)
          | mismatch error => exact congrArg (EStateM.Result.error _) (Prod.ext view rest)

theorem tells_position : Tells position := by
  intro one other same
  have offsets : one.cursor.position = other.cursor.position := by
    rw [← Cursor.position_view, ← Cursor.position_view]
    exact congrArg (fun shown => shown.1.position) same
  have given (state : ParserState) :
      shownResult (position state) = .ok state.cursor.position state.shown := rfl
  rw [given, given, same, offsets]

theorem tells_advance : Tells advance := by
  intro one other same
  have views : one.cursor.advance.view = other.cursor.advance.view := by
    rw [← Cursor.advance_view, ← Cursor.advance_view]
    exact congrArg (fun shown => shown.1.advance) same
  exact congrArg (EStateM.Result.ok ()) (Prod.ext views (congrArg (fun shown => shown.2) same))

theorem tells_addNode (node : Node) : Tells (addNode node) := by
  intro one other same
  exact congrArg (fun shown => EStateM.Result.ok (shown.2.1.add node).1
    (shown.1, (shown.2.1.add node).2, shown.2.2)) same

theorem tells_intern (text : String) : Tells (intern text) := by
  intro one other same
  exact congrArg (fun shown => EStateM.Result.ok (shown.2.2.intern text).1
    (shown.1, shown.2.1, (shown.2.2.intern text).2)) same

/-- Of the state itself no more than its arena may be read. -/
theorem tells_get_bind {next : ParserState → Parser α}
    (reads : ∀ one other : ParserState, one.arena = other.arena → next one = next other)
    (tells : ∀ state, Tells (next state)) : Tells (get >>= next) := by
  intro one other same
  have reading : (get >>= next) other = next one other :=
    congrFun (reads other one (congrArg (fun shown => shown.2.1) same.symm)) other
  rw [reading]
  exact tells one one other same

theorem tells_name : Tells name := by
  refine (tells_scan (Cursor.tells_takeWhile _)).bind fun text => ?_
  split
  · exact tells_peek.bind fun found => tells_position.bind fun offset => tells_fail _
  · exact tells_skipBlanks.bind fun _ => tells_intern text

theorem tells_expression (fuel : Nat) :
    Tells (expression fuel) ∧ ∀ opening func, Tells (arguments fuel opening func) := by
  induction fuel with
  | zero =>
      refine ⟨?_, fun opening func => ?_⟩
      · rw [expression]
        exact tells_throw _
      · rw [arguments]
        exact tells_throw _
  | succ fuel ih =>
      obtain ⟨parts, rest⟩ := ih
      refine ⟨?_, fun opening func => ?_⟩
      · rw [expression]
        refine tells_peek.bind fun found => ?_
        split
        · exact tells_position.bind fun offset => tells_fail _
        · split
          · refine (tells_expect _).bind fun _ => tells_name.bind fun param => ?_
            exact (tells_expect _).bind fun _ => parts.bind fun body => tells_addNode _
          · split
            · refine tells_position.bind fun opening => (tells_expect _).bind fun _ => ?_
              refine tells_atEnd.bind fun ended => ?_
              split
              · exact tells_fail _
              · exact parts.bind fun func => rest opening func
            · split
              · exact tells_name.bind fun reference => tells_addNode _
              · exact tells_position.bind fun offset => tells_fail _
      · rw [arguments]
        refine tells_peek.bind fun found => ?_
        split
        · exact tells_fail _
        · split
          · exact tells_advance.bind fun _ => tells_skipBlanks.bind fun _ => tells_pure func
          · exact parts.bind fun arg => (tells_addNode _).bind fun func => rest opening func

theorem tells_bindAll (root : NodeId) (bindings : List (NameId × NodeId)) :
    Tells (bindAll root bindings) := by
  induction bindings generalizing root with
  | nil => exact tells_pure root
  | cons binding earlier ih =>
      exact (tells_addNode _).bind fun binder => (tells_addNode _).bind fun root => ih root

theorem tells_statements (fuel : Nat) (bindings : List (NameId × NodeId)) :
    Tells (statements fuel bindings) := by
  induction fuel generalizing bindings with
  | zero =>
      rw [statements]
      exact tells_throw _
  | succ fuel ih =>
      have parts := (tells_expression fuel).1
      rw [statements]
      refine tells_position.bind fun offset => parts.bind fun id => tells_atEnd.bind fun ended => ?_
      split
      · exact (tells_bindAll id bindings).bind fun root => tells_pure _
      · refine tells_get_bind (fun one other same => by rw [same]) fun state => ?_
        split
        · exact (tells_expect _).bind fun _ => parts.bind fun side => ih _
        · exact tells_fail _

theorem tells_whole (allowance : Nat) : Tells (whole allowance) :=
  tells_skipBlanks.bind fun _ => tells_statements allowance []

end Parser

namespace Program

theorem ofResult_eq {one other : EStateM.Result ParseError ParserState (NodeId × Nat)}
    (same : Parser.shownResult one = Parser.shownResult other) : ofResult one = ofResult other := by
  cases one with
  | ok value after =>
      cases other with
      | ok valueToo afterToo =>
          obtain ⟨rfl, shown⟩ := EStateM.Result.ok.inj same
          have arenas : after.arena = afterToo.arena := congrArg (fun shown => shown.2.1) shown
          have names : after.names = afterToo.names := congrArg (fun shown => shown.2.2) shown
          rw [ofResult, ofResult, arenas, names]
      | error _ _ => cases same
  | error error after =>
      cases other with
      | ok _ _ => cases same
      | error errorToo afterToo =>
          obtain ⟨rfl, shown⟩ := EStateM.Result.error.inj same
          have names : after.names = afterToo.names := congrArg (fun shown => shown.2.2) shown
          rw [ofResult, ofResult, names]

theorem parse_eq_of_scan {feed other : Feed} (same : feed.scan 0 = other.scan 0)
    (names : NameTable) : parse feed names = parse other names := by
  have most : feed.supply + 2 ≤ feed.supply + other.supply + 2 := by omega
  have mostToo : other.supply + 2 ≤ feed.supply + other.supply + 2 := by omega
  rw [parse_of_allowance most, parse_of_allowance mostToo]
  refine ofResult_eq (Parser.tells_whole _ _ _ ?_)
  rw [ParserState.shown, ParserState.shown, Cursor.view_start, Cursor.view_start, same]

theorem parse_of_carries {feed : Feed} {text : String} (carries : feed.Carries text.toUTF8.toList)
    (names : NameTable) : parse feed names = parse (.ofString text) names := by
  rw [toList_toUTF8] at carries
  refine parse_eq_of_scan ?_ names
  exact congrArg (Feed.withoutComments false)
    (carries.decodeAll_eq (Feed.carries_ofString text) 0)

/-- However a reader delivers a text, it parses as the text does: to the same arena, root and
number of assignments or to the same error, and with the same names numbered. -/
theorem parse_ofDeliveries (text : String) {deliveries : List Delivery}
    (amount : Delivery.AmountTo deliveries text.toUTF8.toList) (names : NameTable) :
    parse (.ofDeliveries deliveries) names = parse (.ofString text) names := by
  have carries := Feed.carries_ofDeliveries amount
  exact parse_of_carries carries names

/-- A lambda cut in two, interruptions, and a reader that comes back with more after the end. -/
theorem parse_ofDeliveries_cut :
    Delivery.AmountTo [.bytes [0xCE], .interruption, .bytes [0xBB, 0x78], .interruption,
      .interruption, .bytes [0x2E, 0x78], .bytes [], .failure "gone", .bytes [0x29]]
      "λx.x".toUTF8.toList ∧
    ∀ names, parse (.ofDeliveries [.bytes [0xCE], .interruption, .bytes [0xBB, 0x78], .interruption,
      .interruption, .bytes [0x2E, 0x78], .bytes [], .failure "gone", .bytes [0x29]]) names =
        parse (.ofString "λx.x") names := by
  have bytes : "λx.x".toUTF8.toList = [0xCE] ++ ([0xBB, 0x78] ++ ([0x2E, 0x78] ++ [])) := by
    rw [toList_toUTF8]
    decide
  have amount := bytes ▸ Delivery.AmountTo.piece 0xCE [] (.interruption
    (.piece 0xBB [0x78] (.interruption (.interruption (.piece 0x2E [0x78] (.finish
      [.failure "gone", .bytes [0x29]]))))))
  exact ⟨amount, fun names => parse_ofDeliveries "λx.x" amount names⟩

end Program

end LambdaMachine
