import LambdaMachine.Proofs.Program.Reading
import LambdaMachine.Proofs.Term.Spelled
import LambdaMachine.Value.Church
import LambdaMachine.Value.Layout

/-!
A tree that is laid out is spelled by the node it is laid out under, whatever was in the arena
before. The closures that are made without a program, those of abstractions and of numerals, truth
values and pairs, each display one abstraction of texts.
-/

namespace LambdaMachine

structure Tree.LaidOut (tree : Tree String) (names : NameTable) (arena : Arena) (id : NodeId)
    (namesAfter : NameTable) (arenaAfter : Arena) : Prop where
  interns : names.Interns namesAfter
  grown : arenaAfter.Extends arena
  spells : arenaAfter.Spells namesAfter id tree
  tidy : arena.Tidy names.Holds → arenaAfter.Tidy namesAfter.Holds

theorem Tree.laidOut {tree : Tree String} (named : tree.Named IsName) (names : NameTable)
    (arena : Arena) :
    tree.LaidOut names arena (tree.layOut names arena).1 (tree.layOut names arena).2.1
      (tree.layOut names arena).2.2 := by
  induction tree generalizing names arena with
  | var text =>
      have interns : names.Interns (names.intern text).2 := .intern .refl text
      refine ⟨interns, arena.extends_add _, ?_, fun tidy => ?_⟩
      · exact ⟨_, arena.node?_add_size _, names.numbers_intern text⟩
      · exact (tidy.mono fun _ holds => holds.mono interns).add_var (NameTable.holds_intern named)
  | lambda text body ih =>
      have toParam : names.Interns (names.intern text).2 := .intern .refl text
      have laid := ih named.2 (names.intern text).2 arena
      rw [layOut]
      dsimp only
      generalize body.layOut (names.intern text).2 arena = made at laid ⊢
      obtain ⟨bodyId, namesAfter, arenaAfter⟩ := made
      dsimp only at laid ⊢
      have grown := arenaAfter.extends_add (.lambda (names.intern text).1 bodyId)
      refine ⟨toParam.trans laid.interns, grown.trans laid.grown, ?_, fun tidy => ?_⟩
      · exact ⟨_, bodyId, arenaAfter.node?_add_size _,
          laid.interns.extends _ _ (names.numbers_intern text), laid.spells.mono grown (.refl _)⟩
      · have tidyAfter := laid.tidy (tidy.mono fun _ holds => holds.mono toParam)
        exact tidyAfter.add_lambda ((NameTable.holds_intern named.1).mono laid.interns)
          laid.spells.lt_size
  | apply func arg funcIh argIh =>
      have funcLaid := funcIh named.1 names arena
      rw [layOut]
      dsimp only
      generalize func.layOut names arena = made at funcLaid ⊢
      obtain ⟨funcId, middle, arenaMiddle⟩ := made
      have argLaid := argIh named.2 middle arenaMiddle
      dsimp only at funcLaid ⊢
      generalize arg.layOut middle arenaMiddle = made at argLaid ⊢
      obtain ⟨argId, namesAfter, arenaAfter⟩ := made
      dsimp only at argLaid ⊢
      have grown := arenaAfter.extends_add (.apply funcId argId)
      have funcSpells := funcLaid.spells.mono argLaid.grown argLaid.interns.extends
      refine ⟨funcLaid.interns.trans argLaid.interns,
        grown.trans (argLaid.grown.trans funcLaid.grown), ?_, fun tidy => ?_⟩
      · exact ⟨funcId, argId, arenaAfter.node?_add_size _, funcSpells.mono grown (.refl _),
          argLaid.spells.mono grown (.refl _)⟩
      · exact (argLaid.tidy (funcLaid.tidy tidy)).add_apply funcSpells.lt_size argLaid.spells.lt_size

def Env.Finds (env : Env) (names : NameTable) (text : String) (value : Value) : Prop :=
  ∃ name, names.numbers[text]? = some name ∧ env.lookup name = some value

structure Closure.Spells (closure : Closure) (names : NameTable) (env : Env) (param : String)
    (body : Tree String) : Prop where
  env : closure.env = env
  param : names.numbers[param]? = some closure.param
  body : closure.code.arena.Spells names closure.body body

section Finds

variable {env : Env} {names later : NameTable} {text : String} {value : Value}

theorem Env.Finds.mono (finds : env.Finds names text value) (grown : later.Extends names) :
    env.Finds later text value := by
  obtain ⟨name, known, bound⟩ := finds
  exact ⟨name, grown _ _ known, bound⟩

theorem Env.finds_extend {name : NameId} (known : names.numbers[text]? = some name) (env : Env)
    (ident : Ident) (value : Value) : (env.extend ident name value).Finds names text value :=
  ⟨name, known, if_pos rfl⟩

theorem Env.Finds.extend (finds : env.Finds names text value) (coherent : names.Coherent)
    {bound : String} (different : text ≠ bound) {name : NameId}
    (known : names.numbers[bound]? = some name) (ident : Ident) (other : Value) :
    (env.extend ident name other).Finds names text value := by
  obtain ⟨number, numbered, found⟩ := finds
  refine ⟨number, numbered, ?_⟩
  rw [Env.lookup_extend, if_neg (coherent.ne_of_ne numbered known different).symm, found]

theorem Closure.Spells.mono {closure : Closure} {param : String} {body : Tree String}
    (spells : closure.Spells names env param body) (grown : later.Extends names) :
    closure.Spells later env param body :=
  ⟨spells.env, grown _ _ spells.param, spells.body.mono (.refl _) grown⟩

end Finds

structure Closure.Displays (closure : Closure) (names : NameTable) (param : String)
    (body : Tree String) : Prop where
  isName : IsName param
  param : names.numbers[param]? = some closure.param
  spells : closure.code.arena.Spells names closure.body body
  tidy : closure.code.arena.Tidy names.Holds

theorem Closure.Displays.mono {closure : Closure} {names later : NameTable} {param : String}
    {body : Tree String} (displays : closure.Displays names param body)
    (interns : names.Interns later) : closure.Displays later param body :=
  ⟨displays.isName, interns.extends _ _ displays.param,
    displays.spells.mono (.refl _) interns.extends,
    displays.tidy.mono fun _ holds => holds.mono interns⟩

theorem Closure.Displays.holds {closure : Closure} {names : NameTable} {param : String}
    {body : Tree String} (displays : closure.Displays names param body) :
    names.Holds closure.param :=
  ⟨param, displays.isName, displays.param⟩

structure Mint.Abstracts (mint : Mint) (env : Env) (param : String) (body : Tree String)
    (closure : Closure) (after : Mint) : Prop where
  interns : mint.names.Interns after.names
  env : closure.env = env
  displays : closure.Displays after.names param body

theorem Mint.abstracts {param : String} {body : Tree String} (isName : IsName param)
    (named : body.Named IsName) (mint : Mint) (env : Env) :
    mint.Abstracts env param body (mint.abstraction env param body).1
      (mint.abstraction env param body).2 := by
  have toParam : mint.names.Interns (mint.names.intern param).2 := .intern .refl param
  have known := mint.names.numbers_intern param
  have laid := Tree.laidOut named (mint.names.intern param).2 .empty
  rw [abstraction]
  dsimp only
  generalize body.layOut (mint.names.intern param).2 .empty = made at laid ⊢
  obtain ⟨id, names, arena⟩ := made
  dsimp only at laid ⊢
  have paramHolds := (NameTable.holds_intern isName).mono laid.interns
  refine ⟨toParam.trans laid.interns, rfl, isName, laid.interns.extends _ _ known, ?_, ?_⟩
  · exact laid.spells.mono (arena.extends_add _) (.refl _)
  · exact (laid.tidy (Arena.tidy_empty _)).add_lambda paramHolds laid.spells.lt_size

namespace Church

def iterated (func : String) : Nat → Tree String → Tree String
  | 0, body => body
  | count + 1, body => iterated func count (.apply (.var func) body)

def truthBody (value : Bool) : Tree String :=
  .lambda "f" (.var (if value then "t" else "f"))

def numeralBody (count : Nat) : Tree String :=
  .lambda "x" (iterated "f" count (.var "x"))

def pairBody : Tree String :=
  .apply (.apply (.var "p") (.var "first")) (.var "second")

section Iterate

variable {names : NameTable} {func : NameId} {text : String}

theorem iterate_spells (known : names.numbers[text]? = some func) (count : Nat) {arena : Arena}
    {body : NodeId} {tree : Tree String} (spells : arena.Spells names body tree) :
    (iterate func count arena body).2.Spells names (iterate func count arena body).1
      (iterated text count tree) := by
  induction count generalizing arena body tree with
  | zero => exact spells
  | succ count ih =>
      have head := arena.node?_add_size (.var func)
      have toHead := arena.extends_add (.var func)
      have toBody := (arena.add (.var func)).2.extends_add (.apply arena.size body)
      refine ih ⟨_, _, Arena.node?_add_size _ _, ?_, ?_⟩
      · exact ⟨func, toBody _ _ head, known⟩
      · exact spells.mono (toBody.trans toHead) (.refl _)

theorem iterate_tidy (holds : names.Holds func) (count : Nat) {arena : Arena} {body : NodeId}
    (inside : body < arena.size) (tidy : arena.Tidy names.Holds) :
    (iterate func count arena body).2.Tidy names.Holds := by
  induction count generalizing arena body with
  | zero => exact tidy
  | succ count ih =>
      have headSize := arena.size_add (.var func)
      have headInside := Nat.lt_of_lt_of_eq (Nat.lt_succ_self arena.size) headSize.symm
      have bodyInside := Nat.lt_of_lt_of_eq (Nat.lt_succ_of_lt inside) headSize.symm
      refine ih ?_ ((tidy.add_var holds).add_apply headInside bodyInside)
      exact Nat.lt_of_lt_of_eq (Nat.lt_succ_self _) (Arena.size_add _ _).symm

end Iterate

theorem truth_displays (value : Bool) (mint : Mint) :
    ∃ closure, (truth value mint).1 = .closure closure ∧ closure.env = .empty ∧
      closure.Displays (truth value mint).2.names "t" (truthBody value) := by
  unfold truth
  have toF : (mint.names.intern "t").2.Interns ((mint.names.intern "t").2.intern "f").2 :=
    .intern .refl "f"
  have t := toF.extends _ _ (mint.names.numbers_intern "t")
  have f := (mint.names.intern "t").2.numbers_intern "f"
  have tHolds : ((mint.names.intern "t").2.intern "f").2.Holds _ := ⟨"t", by decide, t⟩
  have fHolds : ((mint.names.intern "t").2.intern "f").2.Holds _ := ⟨"f", by decide, f⟩
  refine ⟨_, rfl, rfl, by decide, t, ?_, ?_⟩
  · refine ⟨_, _, rfl, f, _, rfl, ?_⟩
    cases value
    · exact f
    · exact t
  · refine ((Arena.tidy_empty _).add_var ?_).add_lambda fHolds Nat.zero_lt_one
    cases value
    · exact fHolds
    · exact tHolds

theorem numeral_displays (count : Nat) (mint : Mint) :
    ∃ closure, (numeral count mint).1 = .closure closure ∧ closure.env = .empty ∧
      closure.Displays (numeral count mint).2.names "f" (numeralBody count) := by
  unfold numeral
  have toX : (mint.names.intern "f").2.Interns ((mint.names.intern "f").2.intern "x").2 :=
    .intern .refl "x"
  have f := toX.extends _ _ (mint.names.numbers_intern "f")
  have x := (mint.names.intern "f").2.numbers_intern "x"
  have fHolds : ((mint.names.intern "f").2.intern "x").2.Holds _ := ⟨"f", by decide, f⟩
  have xHolds : ((mint.names.intern "f").2.intern "x").2.Holds _ := ⟨"x", by decide, x⟩
  have start : (Arena.empty.add (.var ((mint.names.intern "f").2.intern "x").1)).2.Spells
      ((mint.names.intern "f").2.intern "x").2 0 (.var "x") := ⟨_, rfl, x⟩
  have body := iterate_spells f count start
  have tidy := iterate_tidy fHolds count start.lt_size ((Arena.tidy_empty _).add_var xHolds)
  refine ⟨_, rfl, rfl, by decide, f, ?_, ?_⟩
  · exact ⟨_, _, Arena.node?_add_size _ _, x, body.mono (Arena.extends_add _ _) (.refl _)⟩
  · exact tidy.add_lambda xHolds body.lt_size

theorem identity_displays (mint : Mint) :
    (identity mint).1.env = .empty ∧
      (identity mint).1.Displays (identity mint).2.names "x" (.var "x") := by
  unfold identity
  have x := mint.names.numbers_intern "x"
  have xHolds : (mint.names.intern "x").2.Holds _ := ⟨"x", by decide, x⟩
  exact ⟨rfl, by decide, x, ⟨_, rfl, x⟩, (Arena.tidy_empty _).add_var xHolds⟩

theorem pair_displays (first second : Value) (mint : Mint) :
    ∃ closure firstName secondName, (pair first second mint).1 = .closure closure ∧
      (pair first second mint).2.names.numbers["first"]? = some firstName ∧
      (pair first second mint).2.names.numbers["second"]? = some secondName ∧
      closure.env = .bind (mint.nextIdent + 1) secondName second
        (.bind mint.nextIdent firstName first .empty) ∧
      closure.Displays (pair first second mint).2.names "p" pairBody := by
  unfold pair
  have toFirst : (mint.names.intern "p").2.Interns ((mint.names.intern "p").2.intern "first").2 :=
    .intern .refl "first"
  have toSecond : ((mint.names.intern "p").2.intern "first").2.Interns
      (((mint.names.intern "p").2.intern "first").2.intern "second").2 := .intern .refl "second"
  have p := toSecond.extends _ _ (toFirst.extends _ _ (mint.names.numbers_intern "p"))
  have f := toSecond.extends _ _ ((mint.names.intern "p").2.numbers_intern "first")
  have s := ((mint.names.intern "p").2.intern "first").2.numbers_intern "second"
  refine ⟨_, _, _, rfl, f, s, rfl, by decide, p, ?_, ?_⟩
  · exact ⟨_, _, rfl, ⟨_, _, rfl, ⟨_, rfl, p⟩, ⟨_, rfl, f⟩⟩, ⟨_, rfl, s⟩⟩
  · let names := (((mint.names.intern "p").2.intern "first").2.intern "second").2
    have pHolds : names.Holds _ := ⟨"p", by decide, p⟩
    have fHolds : names.Holds _ := ⟨"first", by decide, f⟩
    have sHolds : names.Holds _ := ⟨"second", by decide, s⟩
    have leaves := (((Arena.tidy_empty _).add_var pHolds).add_var fHolds).add_var sHolds
    exact (leaves.add_apply (show 0 < 3 by decide) (show 1 < 3 by decide)).add_apply
      (show 3 < 4 by decide) (show 2 < 4 by decide)

end Church

end LambdaMachine
