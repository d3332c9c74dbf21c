import LambdaMachine.Proofs.Program.Tally

/-!
Every round that parsing begins is paid for by a byte, and so is every expression that one lies
inside of: what has been counted and what can still be read together never exceed the bytes of the
source. Whatever ends the parser keeps within that.
-/

namespace LambdaMachine

/-- The bytes cover what has been counted and what can still be read. Being inside of `depth`
expressions has used up as many characters, and `spare` characters that were read have not been
charged for a round yet. An expression inside of others has a byte to itself, and so has the round
that follows an assignment. -/
structure Solvent (bytes depth spare : Nat) (cursor : Cursor) (tally : Tally) : Prop where
  room : depth + cursor.supply ≤ bytes
  nesting : tally.nesting + cursor.supply ≤ bytes
  paid : tally.groups + tally.assignments + cursor.supply + spare ≤ bytes
  names : tally.names + cursor.nameable ≤ bytes
  blanks : tally.blanks + cursor.unread ≤ bytes
  comments : tally.comments + cursor.supply ≤ bytes
  inside : tally.nesting = 0 ∨ tally.nesting + cursor.unread < bytes
  again : tally.assignments = 0 ∨ tally.assignments + cursor.unread < bytes

namespace Solvent

variable {bytes depth spare : Nat} {cursor after : Cursor} {tally : Tally}

theorem start (feed : Feed) : Solvent feed.supply 0 0 { feed } {} := by
  have none : 0 + feed.supply ≤ feed.supply := Nat.le_of_eq (Nat.zero_add _)
  exact ⟨none, none, none, none, none, none, .inl rfl, .inl rfl⟩

theorem mono {outer fewer : Nat} (solvent : Solvent bytes depth spare cursor tally)
    (shallower : outer ≤ depth) (less : fewer ≤ spare) : Solvent bytes outer fewer cursor tally :=
    by
  obtain ⟨room, nesting, paid, names, blanks, comments, inside, again⟩ := solvent
  exact ⟨by omega, nesting, by omega, names, blanks, comments, inside, again⟩

/-- Where nothing more is done, nothing needs to be spared. -/
theorem done (solvent : Solvent bytes depth spare cursor tally) : Solvent bytes 0 0 cursor tally :=
  solvent.mono (Nat.zero_le _) (Nat.zero_le _)

theorem reach (solvent : Solvent bytes depth spare cursor tally)
    (entered : depth = 0 ∨ depth + cursor.unread < bytes) :
    Solvent bytes depth spare cursor (tally.reach depth) := by
  obtain ⟨room, nesting, paid, names, blanks, comments, inside, again⟩ := solvent
  refine ⟨room, ?_, paid, names, blanks, comments, ?_, again⟩ <;>
    simp only [Tally.reach] <;> omega

theorem group (solvent : Solvent bytes depth (spare + 1) cursor tally) :
    Solvent bytes depth spare cursor tally.group := by
  obtain ⟨room, nesting, paid, names, blanks, comments, inside, again⟩ := solvent
  refine ⟨room, nesting, ?_, names, blanks, comments, inside, again⟩
  simp only [Tally.group]
  omega

theorem assignment (solvent : Solvent bytes depth (spare + 2) cursor tally) :
    Solvent bytes depth spare cursor tally.assignment := by
  obtain ⟨room, nesting, paid, names, blanks, comments, inside, again⟩ := solvent
  have less := Nat.le_trans cursor.unread_le_nameable cursor.nameable_le_supply
  refine ⟨room, nesting, ?_, names, blanks, comments, inside, ?_⟩ <;>
    simp only [Tally.assignment] <;> omega

theorem look (solvent : Solvent bytes depth spare cursor tally) (looks : cursor.Looks after) :
    Solvent bytes depth spare after (cursor.tallyPeek tally) := by
  obtain ⟨room, nesting, paid, names, blanks, comments, inside, again⟩ := solvent
  have used := looks.comments
  have unread := looks.unread
  have nameable := looks.nameable
  refine ⟨by omega, ?_, ?_, ?_, ?_, ?_, ?_, ?_⟩ <;>
    simp only [Cursor.tallyPeek, Tally.addComments] <;> omega

/-- A character that is passed may be charged for a round, and for being inside of one more
expression. -/
theorem advance {rune : Char} (solvent : Solvent bytes depth spare cursor tally)
    (found : cursor.lookahead.map Prod.fst = some rune) :
    Solvent bytes (depth + 1) (spare + 1) cursor.advance tally := by
  obtain ⟨room, nesting, paid, names, blanks, comments, inside, again⟩ := solvent
  have total := Cursor.supply_of_found found
  have left := cursor.supply_advance
  have nameable := cursor.nameable_advance
  have unread : cursor.advance.unread = cursor.unread := rfl
  have enough := cursor.unread_le_nameable
  constructor <;> omega

theorem skipBlanks (solvent : Solvent bytes depth spare cursor tally)
    (covered : tally.blanks + cursor.supply ≤ bytes) (passes : cursor.Passes Rune.isBlank after) :
    Solvent bytes depth spare after (cursor.tallySkipBlanks tally) := by
  obtain ⟨room, nesting, paid, names, blanks, comments, inside, again⟩ := solvent
  obtain ⟨rounds, used, unread, nameable, _⟩ := passes
  refine ⟨by omega, ?_, ?_, ?_, ?_, ?_, ?_, ?_⟩ <;>
    simp only [Cursor.tallySkipBlanks, Tally.addComments, Tally.addBlanks] <;> omega

theorem nameRunes (solvent : Solvent bytes depth spare cursor tally)
    (covered : tally.names + cursor.supply ≤ bytes) (passes : cursor.Passes Rune.isNameRune after)
    (passed : Nat) (shorter : after.supply + passed ≤ cursor.supply) :
    Solvent bytes (depth + passed) (spare + passed) after (cursor.tallyNameRunes tally) := by
  obtain ⟨room, nesting, paid, names, blanks, comments, inside, again⟩ := solvent
  obtain ⟨rounds, used, unread, _, stopped⟩ := passes
  have nameable := Cursor.nameable_of_stopped stopped
  refine ⟨by omega, ?_, ?_, ?_, ?_, ?_, ?_, ?_⟩ <;>
    simp only [Cursor.tallyNameRunes, Tally.addComments, Tally.addNames] <;> omega

/-- An expected character pays for a look at each of the bytes behind it, and for the blanks that
follow it. -/
theorem expect (solvent : Solvent bytes depth spare cursor tally) (expected : List Char) :
    match Cursor.expectOneOf expected cursor with
    | .ok _ after =>
        Solvent bytes (depth + 1) (spare + 1) after (cursor.tallyExpect expected tally) ∧
          (cursor.tallyExpect expected tally).names + after.supply ≤ bytes
    | .error _ after => Solvent bytes 0 0 after (cursor.tallyExpect expected tally) := by
  have looks := Cursor.looks_peek cursor
  unfold Cursor.tallyExpect
  rw [Cursor.expectOneOf_eq]
  cases peeked : Cursor.peek cursor with
  | error error after =>
      rw [peeked] at looks
      exact (solvent.look looks).done
  | ok found middle =>
      rw [peeked] at looks
      have looked := solvent.look looks
      cases found with
      | none => exact looked.done
      | some rune =>
          dsimp only
          by_cases member : expected.contains rune = true
          · simp only [member, if_true]
            have advanced := looked.advance (Cursor.lookahead_peek peeked)
            have left := middle.supply_advance
            have blanks : (cursor.tallyPeek tally).blanks + middle.advance.supply ≤ bytes :=
              left ▸ looked.blanks
            have passes := Cursor.passes_skipBlanks middle.advance
            cases skipped : Cursor.skipBlanks middle.advance with
            | ok value after =>
                rw [skipped] at passes
                refine ⟨advanced.skipBlanks blanks passes, ?_⟩
                have names := looked.names
                have nameable := middle.unread_le_nameable
                have fewer := passes.comments
                simp only [Cursor.tallySkipBlanks, Tally.addComments, Tally.addBlanks]
                omega
            | error error after =>
                rw [skipped] at passes
                exact (advanced.skipBlanks blanks passes).done
          · simp only [member]
            exact looked.done

/-- An expression that is not at the end of the input has a byte to itself. -/
theorem entered_of_found {rune : Char} (solvent : Solvent bytes depth spare cursor tally)
    (found : cursor.lookahead.map Prod.fst = some rune) : depth + cursor.unread < bytes := by
  have room := solvent.room
  have total := Cursor.supply_of_found found
  omega

theorem entered_of_passed (solvent : Solvent bytes (depth + 1) spare cursor tally) :
    depth + cursor.unread < bytes := by
  have room := solvent.room
  have less := Nat.le_trans cursor.unread_le_nameable cursor.nameable_le_supply
  omega

/-- The bytes that have been taken cover what has been counted. -/
theorem atMost (solvent : Solvent bytes depth spare cursor tally) :
    tally.AtMost (bytes - cursor.unread) := by
  obtain ⟨room, nesting, paid, names, blanks, comments, inside, again⟩ := solvent
  have unread := cursor.unread_le_nameable
  have nameable := cursor.nameable_le_supply
  constructor <;> omega

end Solvent

namespace Parser

def Still {α : Type} (action : Parser α) : Prop :=
  ∀ state, ∃ value after, action state = .ok value after ∧ after.cursor = state.cursor

theorem still_position : Still position :=
  fun state => ⟨_, state, rfl, rfl⟩

theorem still_get : Still get :=
  fun state => ⟨state, state, rfl, rfl⟩

theorem still_addNode (node : Node) : Still (addNode node) :=
  fun _ => ⟨_, _, rfl, rfl⟩

theorem still_intern (text : String) : Still (intern text) :=
  fun _ => ⟨_, _, rfl, rfl⟩

theorem still_bindAll (root : NodeId) (bindings : List (NameId × NodeId)) :
    Still (bindAll root bindings) := by
  induction bindings generalizing root with
  | nil => exact fun state => ⟨root, state, rfl, rfl⟩
  | cons binding earlier ih => exact fun state => ih _ _

end Parser

def Counted.Within (bytes depth spare : Nat) (counted : Counted) : Prop :=
  Solvent bytes depth spare counted.state.cursor counted.tally

namespace Counting

variable {α β : Type} {bytes depth spare : Nat} {start : Counted}

def Covers (bytes : Nat) (action : Counting α) (start : Counted) (post : α → Counted → Prop) :
    Prop :=
  match action start with
  | .ok value after => post value after
  | .error _ after => after.Within bytes 0 0

section Covers

variable {action : Counting α} {middle : α → Counted → Prop} {post : β → Counted → Prop}

theorem Covers.bind {next : α → Counting β} (first : Covers bytes action start middle)
    (second : ∀ value between, middle value between → Covers bytes (next value) between post) :
    Covers bytes (action >>= next) start post := by
  unfold Covers at first ⊢
  simp only [Bind.bind, EStateM.bind]
  cases ran : action start with
  | ok value between =>
      rw [ran] at first
      exact second value between first
  | error error after =>
      rw [ran] at first
      exact first

theorem Covers.mono {weaker : α → Counted → Prop} (covers : Covers bytes action start middle)
    (implies : ∀ value after, middle value after → weaker value after) :
    Covers bytes action start weaker := by
  unfold Covers at covers ⊢
  cases ran : action start with
  | ok value after =>
      rw [ran] at covers
      exact implies value after covers
  | error error after =>
      rw [ran] at covers
      exact covers

theorem Covers.throw (within : start.Within bytes depth spare) (error : ParseError) :
    Covers bytes (throw error : Counting α) start middle :=
  Solvent.done within

theorem Covers.count {change : Tally → Tally}
    (covers : Covers bytes action ⟨start.state, change start.tally⟩ middle) :
    Covers bytes (do count change; action) start middle :=
  covers

theorem covers_free {action : Parser α} (still : Parser.Still action)
    (within : start.Within bytes depth spare) :
    Covers bytes (free action) start fun _ after => after.Within bytes depth spare := by
  obtain ⟨value, after, ran, same⟩ := still start.state
  have kept : Solvent bytes depth spare after.cursor start.tally := same ▸ within
  unfold Covers free act
  rw [ran]
  exact kept

theorem covers_scan {scanned : Scan α} {tally : Cursor → Tally → Tally}
    (within : Cursor.Leaves
      (Solvent bytes depth spare · (tally start.state.cursor start.tally))
      (scanned start.state.cursor)) :
    Covers bytes (act (Parser.scan scanned) fun state => tally state.cursor) start
      fun value after =>
        after.Within bytes depth spare ∧ scanned start.state.cursor = .ok value after.state.cursor ∧
          after.tally = tally start.state.cursor start.tally := by
  unfold Covers act Parser.scan
  cases ran : scanned start.state.cursor with
  | ok value after =>
      rw [ran] at within
      exact ⟨within, rfl, rfl⟩
  | error error after =>
      rw [ran] at within
      exact Solvent.done within

end Covers

theorem covers_peek (within : start.Within bytes depth spare) :
    Covers bytes peek start fun found after =>
      after.Within bytes depth spare ∧ after.state.cursor.lookahead.map Prod.fst = found := by
  have looks := Cursor.looks_peek start.state.cursor
  refine (covers_scan (looks.mono fun _ looks => within.look looks)).mono fun _ _ ended => ?_
  exact ⟨ended.1, Cursor.lookahead_peek ended.2.1⟩

theorem covers_atEnd (within : start.Within bytes depth spare) :
    Covers bytes atEnd start fun ended after =>
      after.Within bytes depth spare ∧
        (ended = false → ∃ rune, after.state.cursor.lookahead.map Prod.fst = some rune) := by
  have looks := Cursor.looks_atEnd start.state.cursor
  refine (covers_scan (looks.mono fun _ looks => within.look looks)).mono fun ended after ran => ?_
  refine ⟨ran.1, fun goesOn => ?_⟩
  obtain ⟨found, peeked, same⟩ := Cursor.atEnd_eq_ok.mp ran.2.1
  rw [Cursor.lookahead_peek peeked]
  exact Option.ne_none_iff_exists'.mp fun none => by simp [none, goesOn] at same

theorem covers_skipBlanks (within : start.Within bytes depth spare)
    (covered : start.tally.blanks + start.state.cursor.supply ≤ bytes) :
    Covers bytes skipBlanks start fun _ after => after.Within bytes depth spare := by
  have passes := Cursor.passes_skipBlanks start.state.cursor
  exact (covers_scan (passes.mono fun _ passes => within.skipBlanks covered passes)).mono
    fun _ _ ended => ended.1

/-- The bytes cover a name wherever they cover a look at each of the bytes left. -/
theorem covers_nameRunes (within : start.Within bytes depth spare)
    (covered : start.tally.names + start.state.cursor.supply ≤ bytes) :
    Covers bytes nameRunes start fun text after =>
      after.Within bytes depth spare ∧
        (text ≠ "" → after.Within bytes (depth + 1) (spare + 1) ∧
          after.tally.blanks + after.state.cursor.supply ≤ bytes) := by
  have passes := Cursor.passes_takeWhile Rune.isNameRune start.state.cursor
  have kept := passes.mono fun _ passes => within.nameRunes covered passes 0 passes.supply_le
  refine (covers_scan kept).mono fun text after ended => ?_
  obtain ⟨kept, taken, counted⟩ := ended
  refine ⟨kept, fun nonempty => ?_⟩
  rw [taken] at passes
  have fewer := (Cursor.supply_takeWhile taken).2 nonempty
  have blanks := within.blanks
  have most := start.state.cursor.supply_le_unread_succ
  unfold Counted.Within
  rw [counted]
  refine ⟨within.nameRunes covered passes 1 fewer, ?_⟩
  simp only [Cursor.tallyNameRunes, Tally.addComments, Tally.addNames]
  omega

theorem covers_advance {rune : Char} (within : start.Within bytes depth spare)
    (found : start.state.cursor.lookahead.map Prod.fst = some rune) :
    Covers bytes (free Parser.advance) start fun _ after =>
      after.Within bytes (depth + 1) (spare + 1) ∧
        after.tally.blanks + after.state.cursor.supply ≤ bytes :=
  ⟨within.advance found, within.blanks⟩

theorem covers_expect (within : start.Within bytes depth spare) (expected : List Char) :
    Covers bytes (expect expected) start fun _ after =>
      after.Within bytes (depth + 1) (spare + 1) ∧
        after.tally.names + after.state.cursor.supply ≤ bytes := by
  have covered := within.expect expected
  unfold Covers expect act Parser.expect
  cases ran : Cursor.expectOneOf expected start.state.cursor with
  | ok rune after =>
      rw [ran] at covered
      exact covered
  | error error after =>
      rw [ran] at covered
      cases error <;> exact covered

theorem covers_name (within : start.Within bytes depth spare)
    (covered : start.tally.names + start.state.cursor.supply ≤ bytes) :
    Covers bytes name start fun _ after => after.Within bytes (depth + 1) (spare + 1) := by
  refine (covers_nameRunes within covered).bind fun text between found => ?_
  obtain ⟨kept, passed⟩ := found
  split
  · refine (covers_peek kept).bind fun found looked here => ?_
    exact (covers_free Parser.still_position here.1).bind fun offset after there => .throw there _
  · rename_i nonempty
    obtain ⟨advanced, blanks⟩ := passed fun empty => nonempty (empty ▸ rfl)
    refine (covers_skipBlanks advanced blanks).bind fun _ after there => ?_
    exact covers_free (Parser.still_intern text) there

def ExpressionCovered (bytes fuel : Nat) : Prop :=
  ∀ (depth spare : Nat) (start : Counted), start.Within bytes depth spare →
    (depth = 0 ∨ depth + start.state.cursor.unread < bytes) →
      Covers bytes (expression depth fuel) start fun _ after =>
        after.Within bytes (depth + 1) (spare + 1)

def ArgumentsCovered (bytes fuel : Nat) : Prop :=
  ∀ (depth spare opening : Nat) (func : NodeId) (start : Counted),
    start.Within bytes depth (spare + 1) →
      Covers bytes (arguments depth fuel opening func) start fun _ after =>
        after.Within bytes depth (spare + 1)

theorem ExpressionCovered.succ {fuel : Nat} (parts : ExpressionCovered bytes fuel)
    (rest : ArgumentsCovered bytes fuel) : ExpressionCovered bytes (fuel + 1) := by
  intro depth spare start within entered
  rw [expression]
  have reached := within.reach entered
  refine Covers.count (Covers.bind (covers_peek reached) fun found state looked => ?_)
  obtain ⟨here, found⟩ := looked
  split
  · exact (covers_free Parser.still_position here).bind fun offset after there => .throw there _
  · rename_i rune
    split
    · refine (covers_expect here _).bind fun _ atName toName => ?_
      refine (covers_name toName.1 toName.2).bind fun param atDot toDot => ?_
      refine (covers_expect toDot _).bind fun _ atBody toBody => ?_
      have inside : atBody.Within bytes (depth + 1 + 1) (spare + 1) :=
        toBody.1.mono (by omega) (by omega)
      refine (parts _ _ atBody (inside.mono (Nat.le_succ _) (Nat.le_refl _))
        (.inr inside.entered_of_passed)).bind fun body behind toEnd => ?_
      exact (covers_free (Parser.still_addNode _) toEnd).mono fun _ _ reached =>
        reached.mono (by omega) (by omega)
    · split
      · refine (covers_free Parser.still_position here).bind fun opening state there => ?_
        refine (covers_expect there _).bind fun _ inside toInside => ?_
        refine (covers_atEnd toInside.1).bind fun ended atFirst toFirst => ?_
        split
        · exact .throw toFirst.1 _
        · rename_i goesOn
          obtain ⟨rune, ahead⟩ := toFirst.2 (Bool.eq_false_iff.mpr goesOn)
          refine (parts _ _ atFirst toFirst.1 (.inr (toFirst.1.entered_of_found ahead))).bind
            fun func atSecond toSecond => ?_
          -- the parenthesis pays for this group, its first expression for the next round
          have opened : atSecond.Within bytes (depth + 1) (spare + 1 + 1) :=
            toSecond.mono (by omega) (by omega)
          exact (rest _ _ opening func atSecond opened).mono fun _ _ reached =>
            reached.mono (by omega) (by omega)
      · split
        · rename_i isName
          -- what has been looked at belongs to the name, so no byte left is kept back from it
          have covered := here.names
          rw [Cursor.nameable_of_found found isName] at covered
          refine (covers_name here covered).bind fun reference behind toEnd => ?_
          exact covers_free (Parser.still_addNode _) toEnd
        · exact (covers_free Parser.still_position here).bind fun offset after there => .throw there _

theorem ArgumentsCovered.succ {fuel : Nat} (parts : ExpressionCovered bytes fuel)
    (rest : ArgumentsCovered bytes fuel) : ArgumentsCovered bytes (fuel + 1) := by
  intro depth spare opening func start within
  rw [arguments]
  refine Covers.count (Covers.bind (covers_peek within.group) fun found state looked => ?_)
  obtain ⟨here, found⟩ := looked
  split
  · exact .throw here _
  · split
    · refine (covers_advance here found).bind fun _ between there => ?_
      refine (covers_skipBlanks there.1 there.2).bind fun _ after skipped => ?_
      exact Solvent.mono skipped (by omega) (by omega)
    · refine (parts _ _ state here (.inr (here.entered_of_found found))).bind
        fun arg behind toEnd => ?_
      refine (covers_free (Parser.still_addNode _) toEnd).bind fun func between applied => ?_
      exact rest depth spare opening func between (applied.mono (by omega) (by omega))

theorem covers_expression (bytes fuel : Nat) :
    ExpressionCovered bytes fuel ∧ ArgumentsCovered bytes fuel := by
  induction fuel with
  | zero =>
      refine ⟨fun _ _ start within _ => ?_, fun depth spare opening func start within => ?_⟩
      · rw [expression]
        exact .throw within _
      · rw [arguments]
        exact .throw within _
  | succ fuel ih => exact ⟨ih.1.succ ih.2, .succ ih.1 ih.2⟩

theorem covers_statements (fuel : Nat) (bindings : List (NameId × NodeId))
    (within : start.Within bytes 0 spare) :
    Covers bytes (statements fuel bindings) start fun _ after => after.Within bytes 0 0 := by
  induction fuel generalizing start bindings with
  | zero =>
      rw [statements]
      exact .throw within _
  | succ fuel ih =>
      have part := (covers_expression bytes fuel).1
      rw [statements]
      refine (covers_free Parser.still_position within).bind fun offset state here => ?_
      refine (part 0 spare state here (.inl rfl)).bind fun id behind toEnd => ?_
      refine (covers_atEnd toEnd).bind fun ended between asked => ?_
      have there := asked.1
      split
      · refine (covers_free (Parser.still_bindAll id bindings) there).bind fun root after reached => ?_
        exact Solvent.mono reached (by omega) (by omega)
      · refine (covers_free Parser.still_get there).bind fun found state got => ?_
        split
        · refine (covers_expect got _).bind fun _ atSide toSide => ?_
          have here : atSide.Within bytes 0 (spare + 1) := toSide.1.mono (by omega) (by omega)
          refine (part 0 _ atSide here (.inl rfl)).bind fun side behind toEnd => ?_
          exact Covers.count (ih _ (toEnd.mono (Nat.zero_le _) (Nat.le_refl _)).assignment)
        · exact .throw got _

theorem covers_whole (allowance : Nat) (within : start.Within bytes 0 spare)
    (covered : start.tally.blanks + start.state.cursor.supply ≤ bytes) :
    Covers bytes (whole allowance) start fun _ after => after.Within bytes 0 0 :=
  (covers_skipBlanks within covered).bind fun _ _ skipped => covers_statements allowance [] skipped

/-- Whether a program is read or parsing fails, the bytes taken from the feed cover the rounds. -/
theorem atMost_whole (feed : Feed) (names : NameTable) (allowance : Nat) :
    let ended := last (whole allowance ⟨⟨{ feed }, .empty, names⟩, {}⟩)
    ended.tally.AtMost (feed.supply - ended.state.cursor.unread) := by
  have within : Counted.Within feed.supply 0 0 ⟨⟨{ feed }, .empty, names⟩, {}⟩ := .start feed
  have covers := covers_whole allowance within (Nat.le_of_eq (Nat.zero_add _))
  unfold Covers at covers
  cases ran : whole allowance ⟨⟨{ feed }, .empty, names⟩, {}⟩ with
  | ok program after =>
      rw [ran] at covers
      exact covers.atMost
  | error error after =>
      rw [ran] at covers
      exact covers.atMost

end Counting

end LambdaMachine
