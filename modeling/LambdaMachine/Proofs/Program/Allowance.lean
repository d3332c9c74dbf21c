import LambdaMachine.Program.Parser
import LambdaMachine.Proofs.Source.Supply

/-!
What parsing uses up. A character costs at least one of the bytes that are still to come, so an
expression that has been read leaves fewer of them than there were, and an allowance above their
number is never spent. An allowance that is not spent might as well have been larger.
-/

namespace LambdaMachine

namespace Parser

variable {α β : Type} {state : ParserState}

def Affords (action : Parser α) (state : ParserState) (post : α → ParserState → Prop) : Prop :=
  match action state with
  | .ok value after => post value after
  | .error error _ => error ≠ .exhausted

section Affords

variable {action : Parser α} {middle : α → ParserState → Prop} {post : β → ParserState → Prop}

theorem Affords.bind {next : α → Parser β} (first : Affords action state middle)
    (second : ∀ value between, middle value between → Affords (next value) between post) :
    Affords (action >>= next) state post := by
  unfold Affords at first ⊢
  simp only [Bind.bind, EStateM.bind]
  cases ran : action state with
  | ok value between =>
      rw [ran] at first
      exact second value between first
  | error error after =>
      rw [ran] at first
      exact first

theorem Affords.mono {weaker : α → ParserState → Prop} (affords : Affords action state middle)
    (implies : ∀ value after, middle value after → weaker value after) :
    Affords action state weaker := by
  unfold Affords at affords ⊢
  split
  · rename_i value after ran
    rw [ran] at affords
    exact implies value after affords
  · rename_i error after ran
    rw [ran] at affords
    exact affords

theorem Affords.fail (error : SyntaxError) : Affords (Parser.fail error) state post := by
  intro same
  cases same

theorem affords_scan {scanned : Scan α}
    (reached : ∀ value cursor, scanned state.cursor = .ok value cursor →
      middle value { state with cursor }) : Affords (scan scanned) state middle := by
  unfold Affords scan
  cases ran : scanned state.cursor with
  | ok value cursor => exact reached value cursor ran
  | error error cursor => exact fun same => by cases same

theorem affords_position : Affords position state fun _ after => after = state :=
  rfl

end Affords

def Within (bound : Nat) (after : ParserState) : Prop :=
  after.cursor.supply ≤ bound

def Below (bound : Nat) (after : ParserState) : Prop :=
  after.cursor.supply < bound

theorem affords_peek : Affords (scan Cursor.peek) state fun found after =>
    Within state.cursor.supply after ∧
      (found.isSome → after.cursor.advance.supply < state.cursor.supply) :=
  affords_scan fun _ _ peeked => Cursor.supply_peek peeked

theorem affords_skipBlanks :
    Affords (scan Cursor.skipBlanks) state fun _ after => Within state.cursor.supply after :=
  affords_scan fun _ _ skipped => Cursor.supply_skipBlanks skipped

theorem affords_atEnd :
    Affords (scan Cursor.atEnd) state fun _ after => Within state.cursor.supply after :=
  affords_scan fun _ _ asked => Cursor.supply_atEnd asked

theorem affords_expect (expected : List Char) :
    Affords (expect expected) state fun _ after => Below state.cursor.supply after := by
  unfold Affords expect
  cases ran : Cursor.expectOneOf expected state.cursor with
  | ok rune cursor => exact Cursor.supply_expectOneOf ran
  | error error cursor => cases error <;> exact fun same => by cases same

theorem affords_name : Affords name state fun _ after => Below state.cursor.supply after := by
  have taken : Affords (scan (Cursor.takeWhile Rune.isNameRune)) state fun text after =>
      text ≠ "" → Below state.cursor.supply after :=
    affords_scan fun _ _ taken => (Cursor.supply_takeWhile taken).2
  refine taken.bind fun text between fewer => ?_
  split
  · exact affords_peek.bind fun found _ _ => affords_position.bind fun _ _ _ => .fail _
  · rename_i nonempty
    refine affords_skipBlanks.bind fun _ after within => ?_
    exact Nat.lt_of_le_of_lt within (fewer fun empty => nonempty (empty ▸ rfl))

def ExpressionAffords (fuel : Nat) : Prop :=
  ∀ state : ParserState, state.cursor.supply < fuel →
    Affords (expression fuel) state fun _ after => Below state.cursor.supply after

def ArgumentsAfford (fuel : Nat) : Prop :=
  ∀ (state : ParserState) (opening : Nat) (func : NodeId), state.cursor.supply + 1 < fuel →
    Affords (arguments fuel opening func) state fun _ after => Below state.cursor.supply after

theorem ExpressionAffords.succ {fuel : Nat} (parts : ExpressionAffords fuel)
    (rest : ArgumentsAfford fuel) : ExpressionAffords (fuel + 1) := by
  intro start enough
  rw [expression]
  refine affords_peek.bind fun found state looked => ?_
  obtain ⟨within, _⟩ := looked
  unfold Within at within
  split
  · exact affords_position.bind fun _ _ _ => .fail _
  · split
    · refine (affords_expect _).bind fun _ atName toName => ?_
      refine affords_name.bind fun param atDot toDot => ?_
      refine (affords_expect _).bind fun _ atBody toBody => ?_
      unfold Below at toName toDot toBody
      refine (parts atBody (by omega)).bind fun body behind toEnd => ?_
      unfold Below at toEnd
      have fewer : behind.cursor.supply < start.cursor.supply := by omega
      exact fewer
    · split
      · refine affords_position.bind fun opening _ same => ?_
        subst same
        refine (affords_expect _).bind fun _ inside toInside => ?_
        refine affords_atEnd.bind fun ended atFirst toFirst => ?_
        unfold Below at toInside
        unfold Within at toFirst
        split
        · exact .fail _
        · refine (parts atFirst (by omega)).bind fun func atSecond toSecond => ?_
          unfold Below at toSecond
          exact (rest atSecond opening func (by omega)).mono fun _ after below =>
            Nat.lt_of_lt_of_le below (by omega)
      · split
        · refine affords_name.bind fun reference behind toEnd => ?_
          have fewer := Nat.lt_of_lt_of_le toEnd within
          exact fewer
        · exact affords_position.bind fun _ _ _ => .fail _

theorem ArgumentsAfford.succ {fuel : Nat} (parts : ExpressionAffords fuel)
    (rest : ArgumentsAfford fuel) : ArgumentsAfford (fuel + 1) := by
  intro start opening func enough
  rw [arguments]
  refine affords_peek.bind fun found state looked => ?_
  obtain ⟨within, fewer⟩ := looked
  unfold Within at within
  split
  · exact .fail _
  · split
    · have advanced : Affords advance state fun _ after => Below start.cursor.supply after :=
        fewer rfl
      refine advanced.bind fun _ between below => ?_
      refine affords_skipBlanks.bind fun _ after skipped => ?_
      have fewer := Nat.lt_of_le_of_lt skipped below
      exact fewer
    · refine (parts state (by omega)).bind fun arg behind toEnd => ?_
      unfold Below at toEnd
      have applied : Affords (addNode (.apply func arg)) behind fun _ after =>
          after.cursor = behind.cursor := rfl
      refine applied.bind fun func between same => ?_
      rw [← same] at toEnd
      exact (rest between opening func (by omega)).mono fun _ after below =>
        Nat.lt_of_lt_of_le below (by omega)

/-- An expression is never had for free, and an allowance above the bytes that are still to come
suffices for it. -/
theorem affords_expression (fuel : Nat) : ExpressionAffords fuel ∧ ArgumentsAfford fuel := by
  induction fuel with
  | zero => exact ⟨fun _ enough => by omega, fun _ _ _ enough => by omega⟩
  | succ fuel ih => exact ⟨ih.1.succ ih.2, .succ ih.1 ih.2⟩

theorem affords_bindAll (root : NodeId) (bindings : List (NameId × NodeId)) :
    Affords (bindAll root bindings) state fun _ after => after.cursor = state.cursor := by
  induction bindings generalizing root state with
  | nil => exact rfl
  | cons binding earlier ih => exact ih _

theorem affords_statements {fuel : Nat} (bindings : List (NameId × NodeId))
    (enough : state.cursor.supply + 1 < fuel) :
    Affords (statements fuel bindings) state fun _ after => Below state.cursor.supply after := by
  induction fuel generalizing state bindings with
  | zero => omega
  | succ fuel ih =>
      rw [statements]
      refine affords_position.bind fun offset start same => ?_
      subst same
      refine ((affords_expression fuel).1 start (by omega)).bind fun id behind toEnd => ?_
      refine affords_atEnd.bind fun ended between within => ?_
      unfold Below at toEnd
      unfold Within at within
      split
      · refine (affords_bindAll id bindings).bind fun root after same => ?_
        have fewer : after.cursor.supply < start.cursor.supply := by rw [same]; omega
        exact fewer
      · have got : Affords get between fun found after => found = after ∧ after = between :=
          ⟨rfl, rfl⟩
        refine got.bind fun found _ same => ?_
        obtain ⟨rfl, rfl⟩ := same
        split
        · refine (affords_expect _).bind fun _ atSide toSide => ?_
          unfold Below at toSide
          refine ((affords_expression fuel).1 atSide (by omega)).bind fun side behind toEnd => ?_
          unfold Below at toEnd
          exact (ih _ (by omega)).mono fun _ after below => Nat.lt_of_lt_of_le below (by omega)
        · exact .fail _

def Outlasts (longer action : Parser α) : Prop :=
  ∀ state, (∀ after, action state ≠ .error .exhausted after) → longer state = action state

section Outlasts

variable {longer action : Parser α}

theorem Outlasts.refl (action : Parser α) : Outlasts action action :=
  fun _ _ => rfl

theorem Outlasts.exhausted (longer : Parser α) : Outlasts longer (throw .exhausted) :=
  fun state unspent => (unspent state rfl).elim

theorem Outlasts.bind {next goOn : α → Parser β} (first : Outlasts longer action)
    (second : ∀ value, Outlasts (goOn value) (next value)) :
    Outlasts (longer >>= goOn) (action >>= next) := by
  intro state unspent
  simp only [Bind.bind, EStateM.bind] at unspent ⊢
  have same : longer state = action state := by
    refine first state fun after spent => ?_
    rw [spent] at unspent
    exact unspent after rfl
  rw [same]
  cases ran : action state with
  | error error after => rfl
  | ok value between =>
      rw [ran] at unspent
      exact second value between unspent

theorem Outlasts.affords {post : α → ParserState → Prop} (outlasts : Outlasts longer action)
    (affords : Affords action state post) : longer state = action state := by
  refine outlasts state fun after spent => ?_
  unfold Affords at affords
  rw [spent] at affords
  exact affords rfl

end Outlasts

theorem outlasts_expression (fuel : Nat) :
    Outlasts (expression (fuel + 1)) (expression fuel) ∧
      ∀ opening func, Outlasts (arguments (fuel + 1) opening func) (arguments fuel opening func) := by
  induction fuel with
  | zero =>
      refine ⟨?_, fun opening func => ?_⟩
      · rw [expression.eq_1]
        exact .exhausted _
      · rw [arguments.eq_1]
        exact .exhausted _
  | succ fuel ih =>
      obtain ⟨parts, rest⟩ := ih
      refine ⟨?_, fun opening func => ?_⟩
      · rw [expression, expression]
        refine (Outlasts.refl _).bind fun found => ?_
        cases found with
        | none => exact .refl _
        | some rune =>
            dsimp only
            split
            · refine (Outlasts.refl _).bind fun _ => (Outlasts.refl _).bind fun param => ?_
              exact (Outlasts.refl _).bind fun _ => parts.bind fun body => .refl _
            · split
              · refine (Outlasts.refl _).bind fun opening => (Outlasts.refl _).bind fun _ => ?_
                refine (Outlasts.refl _).bind fun ended => ?_
                split
                · exact .refl _
                · exact parts.bind fun func => rest opening func
              · exact .refl _
      · rw [arguments, arguments]
        refine (Outlasts.refl _).bind fun found => ?_
        cases found with
        | none => exact .refl _
        | some rune =>
            dsimp only
            split
            · exact .refl _
            · exact parts.bind fun arg => (Outlasts.refl _).bind fun func => rest opening func

theorem outlasts_statements (fuel : Nat) (bindings : List (NameId × NodeId)) :
    Outlasts (statements (fuel + 1) bindings) (statements fuel bindings) := by
  induction fuel generalizing bindings with
  | zero =>
      rw [statements.eq_1]
      exact .exhausted _
  | succ fuel ih =>
      have parts := (outlasts_expression fuel).1
      rw [statements, statements]
      refine (Outlasts.refl _).bind fun offset => parts.bind fun id => ?_
      refine (Outlasts.refl _).bind fun ended => ?_
      split
      · exact .refl _
      · refine (Outlasts.refl _).bind fun found => ?_
        split
        · exact (Outlasts.refl _).bind fun _ => parts.bind fun side => ih _
        · exact .refl _

def whole (allowance : Nat) : Parser (NodeId × Nat) := do
  scan Cursor.skipBlanks
  statements allowance []

theorem affords_whole {allowance : Nat} (enough : state.cursor.supply + 2 ≤ allowance) :
    Affords (whole allowance) state fun _ after => Below state.cursor.supply after := by
  refine affords_skipBlanks.bind fun _ between within => ?_
  unfold Within at within
  exact (affords_statements [] (by omega)).mono fun _ after below =>
    Nat.lt_of_lt_of_le below within

/-- Any allowance of two more than there are bytes to come gives the same result. -/
theorem whole_add {allowance : Nat} (enough : state.cursor.supply + 2 ≤ allowance) (more : Nat) :
    whole (allowance + more) state = whole allowance state := by
  induction more with
  | zero => rfl
  | succ more ih =>
      have affords : Affords (whole (allowance + more)) state _ := affords_whole (by omega)
      have outlasts := (Outlasts.refl (scan Cursor.skipBlanks)).bind
        fun _ => outlasts_statements (allowance + more) []
      rw [← ih]
      exact outlasts.affords affords

end Parser

namespace Program

def ofResult : EStateM.Result ParseError ParserState (NodeId × Nat) →
    Except ParseError Program × NameTable
  | .ok (root, assignments) state => (.ok ⟨state.arena, root, assignments⟩, state.names)
  | .error error state => (.error error, state.names)

theorem parse_of_allowance {allowance : Nat} {feed : Feed} (enough : feed.supply + 2 ≤ allowance)
    (names : NameTable) :
    parse feed names = ofResult (Parser.whole allowance ⟨{ feed }, .empty, names⟩) := by
  have supply : ({ feed } : Cursor).supply = feed.supply := Nat.add_zero _
  have least : feed.supply + 2 ≤ feed.length + 2 := Nat.add_le_add_right feed.supply_le_length 2
  have given : parse feed names =
      ofResult (Parser.whole (feed.length + 2) ⟨{ feed }, .empty, names⟩) := rfl
  obtain ⟨more, rfl⟩ := Nat.exists_eq_add_of_le enough
  obtain ⟨spare, spared⟩ := Nat.exists_eq_add_of_le least
  rw [given, spared, Parser.whole_add (Nat.le_of_eq (congrArg (· + 2) supply)),
    Parser.whole_add (Nat.le_of_eq (congrArg (· + 2) supply))]

end Program

end LambdaMachine
