import LambdaMachine.Proofs.Machine.Image
import LambdaMachine.Proofs.Prelude.Host

/-!
The host functions are blind to identities: called for the same under other identities they give the
same answer under these, and they hold nothing but what they are given and what they make.
-/

namespace LambdaMachine

def Heap.Makes {α : Type} (heap : Heap) (inside : Heap → α → Prop) (made : α × Mint) : Prop :=
  ∃ later, heap.Grows later ∧ later.next = made.2.nextIdent ∧ inside later made.1

namespace Mint

variable {label : Ident → Ident} {heap : Heap} {mint image : Mint}

structure Mirrors (label : Ident → Ident) (mint image : Mint) : Prop where
  relabels : Relabels label mint.nextIdent image.nextIdent
  names : image.names = mint.names

theorem Mirrors.intern (mirrors : mint.Mirrors label image) (text : String) :
    (image.intern text).1 = (mint.intern text).1 ∧
      (mint.intern text).2.Mirrors label (image.intern text).2 := by
  refine ⟨?_, mirrors.relabels, ?_⟩ <;> simp only [Mint.intern, mirrors.names]

theorem Mirrors.issue (mirrors : mint.Mirrors label image) :
    image.issue.1 = label mint.issue.1 ∧ mint.issue.2.Mirrors label image.issue.2 :=
  ⟨mirrors.relabels.label_next.symm, mirrors.relabels.advance 1, mirrors.names⟩

theorem Mirrors.datum (mirrors : mint.Mirrors label image) (data : Datum) :
    (image.datum data).1 = (mint.datum data).1.relabel label ∧
      (mint.datum data).2.Mirrors label (image.datum data).2 := by
  obtain ⟨ident, later⟩ := mirrors.issue
  refine ⟨?_, later⟩
  rw [Mint.datum, Mint.datum, Value.relabel, ← ident]

theorem Mirrors.extend (mirrors : mint.Mirrors label image) (env : Env) (name : NameId)
    (value : Value) :
    (image.extend (env.relabel label) name (value.relabel label)).1 =
        (mint.extend env name value).1.relabel label ∧
      (mint.extend env name value).2.Mirrors label
        (image.extend (env.relabel label) name (value.relabel label)).2 := by
  obtain ⟨ident, later⟩ := mirrors.issue
  refine ⟨?_, later⟩
  rw [Mint.extend, Mint.extend, Env.relabel_extend, ← ident]

theorem Mirrors.closureOver (mirrors : mint.Mirrors label image) (env : Env) (param : NameId)
    (body : NodeId) (arena : Arena) :
    (image.closureOver (env.relabel label) param body arena).1 =
        (mint.closureOver env param body arena).1.relabel label ∧
      (mint.closureOver env param body arena).2.Mirrors label
        (image.closureOver (env.relabel label) param body arena).2 := by
  obtain ⟨code, middle⟩ := mirrors.issue
  obtain ⟨ident, later⟩ := middle.issue
  refine ⟨?_, later⟩
  rw [Closure.relabel_eq]
  exact congrArg₂ (fun ident code => Closure.mk ident (env.relabel label) param body
    ⟨code, arena⟩) ident code

theorem makes_datum (next : heap.next = mint.nextIdent) (data : Datum) :
    heap.Makes (fun later value => value.In later) (mint.datum data) :=
  ⟨heap.skip 1, heap.grows_skip 1, congrArg (· + 1) next,
    Value.within_datum.mpr (Nat.lt_succ_of_le (Nat.le_of_eq next.symm))⟩

theorem makes_extend (next : heap.next = mint.nextIdent) {env : Env} {value : Value} (name : NameId)
    (envInside : env.In heap) (valueInside : value.In heap) :
    heap.Makes (fun later env => env.In later) (mint.extend env name value) := by
  obtain ⟨names, ident⟩ := mint
  obtain rfl : heap.next = ident := next
  exact ⟨_, Heap.grows_add, rfl, Heap.in_addBinding ⟨valueInside, envInside⟩⟩

theorem makes_closureOver (next : heap.next = mint.nextIdent) {env : Env} (param : NameId)
    (body : NodeId) (arena : Arena) (envInside : env.In heap) :
    heap.Makes (fun later closure => closure.In later) (mint.closureOver env param body arena) := by
  obtain ⟨names, ident⟩ := mint
  obtain rfl : heap.next = ident := next
  exact ⟨_, (heap.grows_skip 1).trans Heap.grows_add, rfl, Heap.in_addClosure rfl
    ⟨Nat.lt_succ_self _, Env.In.mono (heap.grows_skip 1) envInside⟩⟩

end Mint

namespace Church

variable {label : Ident → Ident} {heap : Heap} {mint image : Mint}

theorem truth_mirrors (mirrors : mint.Mirrors label image) (value : Bool) :
    (truth value image).1 = (truth value mint).1.relabel label ∧
      (truth value mint).2.Mirrors label (truth value image).2 := by
  obtain ⟨t, mirrors⟩ := mirrors.intern "t"
  obtain ⟨f, mirrors⟩ := mirrors.intern "f"
  have made := mirrors.closureOver .empty
  rw [Env.relabel] at made
  simp only [truth, t, f, Value.relabel_closure, Value.closure.injEq]
  exact made _ _ _

theorem numeral_mirrors (mirrors : mint.Mirrors label image) (count : Nat) :
    (numeral count image).1 = (numeral count mint).1.relabel label ∧
      (numeral count mint).2.Mirrors label (numeral count image).2 := by
  obtain ⟨f, mirrors⟩ := mirrors.intern "f"
  obtain ⟨x, mirrors⟩ := mirrors.intern "x"
  have made := mirrors.closureOver .empty
  rw [Env.relabel] at made
  simp only [numeral, f, x, Value.relabel_closure, Value.closure.injEq]
  exact made _ _ _

theorem pair_mirrors (mirrors : mint.Mirrors label image) (first second : Value) :
    (pair (first.relabel label) (second.relabel label) image).1 =
        (pair first second mint).1.relabel label ∧
      (pair first second mint).2.Mirrors label
        (pair (first.relabel label) (second.relabel label) image).2 := by
  obtain ⟨p, mirrors⟩ := mirrors.intern "p"
  obtain ⟨firstName, mirrors⟩ := mirrors.intern "first"
  obtain ⟨secondName, mirrors⟩ := mirrors.intern "second"
  obtain ⟨inner, mirrors⟩ := mirrors.extend .empty ((mint.intern "p").2.intern "first").1 first
  rw [Env.relabel] at inner mirrors
  obtain ⟨outer, mirrors⟩ := mirrors.extend
    ((((mint.intern "p").2.intern "first").2.intern "second").2.extend .empty
      ((mint.intern "p").2.intern "first").1 first).1
    (((mint.intern "p").2.intern "first").2.intern "second").1 second
  rw [← inner] at outer mirrors
  simp only [pair, p, firstName, secondName, Value.relabel_closure, Value.closure.injEq]
  rw [outer]
  exact mirrors.closureOver _ _ _ _

theorem makes_truth (next : heap.next = mint.nextIdent) (value : Bool) :
    heap.Makes (fun later value => value.In later) (truth value mint) := by
  unfold truth
  obtain ⟨later, grows, laterNext, inside⟩ :=
    @Mint.makes_closureOver heap ((mint.intern "t").2.intern "f").2 next .empty
      (mint.intern "t").1 _ _ (Env.within_empty _ _)
  exact ⟨later, grows, laterNext, Value.within_closure.mpr inside⟩

theorem makes_numeral (next : heap.next = mint.nextIdent) (count : Nat) :
    heap.Makes (fun later value => value.In later) (numeral count mint) := by
  unfold numeral
  obtain ⟨later, grows, laterNext, inside⟩ :=
    @Mint.makes_closureOver heap ((mint.intern "f").2.intern "x").2 next .empty
      (mint.intern "f").1 _ _ (Env.within_empty _ _)
  exact ⟨later, grows, laterNext, Value.within_closure.mpr inside⟩

theorem makes_pair (next : heap.next = mint.nextIdent) {first second : Value}
    (firstInside : first.In heap) (secondInside : second.In heap) :
    heap.Makes (fun later value => value.In later) (pair first second mint) := by
  unfold pair
  obtain ⟨inner, toInner, innerNext, innerInside⟩ :=
    @Mint.makes_extend heap (((mint.intern "p").2.intern "first").2.intern "second").2 next .empty
      first ((mint.intern "p").2.intern "first").1 (Env.within_empty _ _) firstInside
  obtain ⟨outer, toOuter, outerNext, outerInside⟩ := Mint.makes_extend innerNext
    (((mint.intern "p").2.intern "first").2.intern "second").1 innerInside
    (Value.In.mono toInner secondInside)
  obtain ⟨later, grows, laterNext, inside⟩ := Mint.makes_closureOver outerNext
    (mint.intern "p").1 _ _ outerInside
  exact ⟨later, (toInner.trans toOuter).trans grows, laterNext, Value.within_closure.mpr inside⟩

end Church

namespace Surroundings

variable {label : Ident → Ident} {heap : Heap} {mint image : Mint}

theorem readPair_mirrors (mirrors : mint.Mirrors label image) (byte : Option UInt8) :
    (readPair byte image).1 = (readPair byte mint).1.relabel label ∧
      (readPair byte mint).2.Mirrors label (readPair byte image).2 := by
  rw [readPair_eq, readPair_eq]
  obtain ⟨found, mirrors⟩ := Church.truth_mirrors mirrors byte.isSome
  obtain ⟨number, mirrors⟩ := Church.numeral_mirrors mirrors (byte.getD 0).toNat
  rw [found, number]
  exact Church.pair_mirrors mirrors _ _

theorem makes_readPair (next : heap.next = mint.nextIdent) (byte : Option UInt8) :
    heap.Makes (fun later value => value.In later) (readPair byte mint) := by
  rw [readPair_eq]
  obtain ⟨middle, toMiddle, middleNext, found⟩ := Church.makes_truth next byte.isSome
  obtain ⟨ready, toReady, readyNext, number⟩ :=
    Church.makes_numeral middleNext (byte.getD 0).toNat
  obtain ⟨later, grows, laterNext, inside⟩ :=
    Church.makes_pair readyNext (Value.In.mono toReady found) number
  exact ⟨later, (toMiddle.trans toReady).trans grows, laterNext, inside⟩

theorem byte?_relabel (value : Value) : (value.relabel label).byte? = value.byte? := by
  cases value with
  | closure closure => rw [Value.relabel]; rfl
  | builtin function => rw [Value.relabel]; rfl
  | datum ident data => cases data <;> rw [Value.relabel] <;> rfl

theorem count?_relabel (value : Value) : (value.relabel label).count? = value.count? := by
  cases value with
  | closure closure => rw [Value.relabel]; rfl
  | builtin function => rw [Value.relabel]; rfl
  | datum ident data => cases data <;> rw [Value.relabel] <;> rfl

/-- Replies with what was made on either side. -/
theorem mirrors_made {made imageMade : Value × Mint} (same : imageMade.1 = made.1.relabel label)
    (mirrors : made.2.Mirrors label imageMade.2) (cacheable : Bool) (world : Surroundings) :
    Reply.Mirrors label Eq ⟨.ok ⟨made.1, cacheable⟩, made.2, world⟩
      ⟨.ok ⟨imageMade.1, cacheable⟩, imageMade.2, world⟩ :=
  ⟨congrArg (fun value => Except.ok (Evaluated.mk value cacheable)) same, mirrors.names,
    mirrors.relabels.label_next.symm, rfl⟩

theorem note_relabel (mirrors : mint.Mirrors label image) (name : String) (arg : Value)
    (world : Surroundings) :
    note name (arg.relabel label) image world = note name arg mint world := by
  rw [note, note, mirrors.names, arg.text_relabel]

def AnswersIn (heap : Heap) (reply : Reply Surroundings) : Prop :=
  ∃ later, heap.Grows later ∧ later.next = reply.mint.nextIdent ∧
    ∀ result, reply.result = .ok result → result.value.In later

theorem answers_error (next : heap.next = mint.nextIdent) (error : BuiltinError)
    (world : Surroundings) : AnswersIn heap ⟨.error error, mint, world⟩ :=
  ⟨heap, .refl heap, next, fun _ answered => by cases answered⟩

theorem answers_given (next : heap.next = mint.nextIdent) {value : Value} (inside : value.In heap)
    (cacheable : Bool) (world : Surroundings) :
    AnswersIn heap ⟨.ok ⟨value, cacheable⟩, mint, world⟩ := by
  refine ⟨heap, .refl heap, next, ?_⟩
  rintro _ ⟨⟩
  exact inside

theorem answers_made {made : Value × Mint}
    (makes : heap.Makes (fun later value => value.In later) made) (cacheable : Bool)
    (world : Surroundings) : AnswersIn heap ⟨.ok ⟨made.1, cacheable⟩, made.2, world⟩ := by
  obtain ⟨later, grows, next, inside⟩ := makes
  refine ⟨later, grows, next, ?_⟩
  rintro _ ⟨⟩
  exact inside

theorem host_answers (next : heap.next = mint.nextIdent) {function : Builtin} {arg : Value}
    (functionInside : function.Within heap.next heap.cells) (argInside : arg.In heap)
    (world : Surroundings) : AnswersIn heap (host.apply function arg mint world) := by
  cases operation : function.operation with
  | print =>
      simp only [host, operation, print]
      cases arg.byte? with
      | none => exact answers_error next _ _
      | some octet =>
          dsimp only
          split
          · exact answers_given next argInside _ _
          · cases world.io.output.failure with
            | some text => exact answers_error next _ _
            | none => exact answers_given next argInside _ _
  | next =>
      simp only [host, operation, Surroundings.next]
      cases arg.byte? with
      | none => exact answers_error next _ _
      | some octet => exact answers_made (Mint.makes_datum next _) _ _
  | read =>
      simp only [host, operation, read]
      cases (world.io.read).1 with
      | error text => exact answers_error next _ _
      | ok byte => exact answers_made (makes_readPair next byte) _ _
  | echo cacheable =>
      simp only [host, operation]
      exact answers_given next argInside _ _
  | successor cacheable =>
      simp only [host, operation]
      cases arg.count? with
      | none => exact answers_error next _ _
      | some number => exact answers_made (Mint.makes_datum next _) _ _
  | refuse text =>
      simp only [host, operation]
      exact answers_error next _ _
  | constant cacheable =>
      have keptInside := (Builtin.within_iff.mp functionInside).2
      simp only [host, operation]
      refine answers_given next ?_ _ _
      cases kept : function.kept with
      | empty => exact argInside
      | bind ident name value outer =>
          rw [kept, Env.Within] at keptInside
          exact keptInside.2.1

theorem host_mirrors (mirrors : mint.Mirrors label image) (function : Builtin) (arg : Value)
    (world : Surroundings) :
    (host.apply function arg mint world).Mirrors label Eq
      (host.apply (function.relabel label) (arg.relabel label) image world) := by
  have names := mirrors.names
  have unchanged := mirrors.relabels.label_next.symm
  rw [function.relabel_eq]
  cases operation : function.operation with
  | print =>
      simp only [host, operation, print, byte?_relabel, arg.kind_relabel]
      cases arg.byte? with
      | none => exact ⟨rfl, names, unchanged, rfl⟩
      | some octet =>
          dsimp only
          split
          · exact ⟨rfl, names, unchanged, rfl⟩
          · cases world.io.output.failure <;> exact ⟨rfl, names, unchanged, rfl⟩
  | next =>
      simp only [host, operation, next, byte?_relabel, arg.kind_relabel]
      cases arg.byte? with
      | none => exact ⟨rfl, names, unchanged, rfl⟩
      | some octet =>
          obtain ⟨value, after⟩ := mirrors.datum (.byte (octet + 1))
          exact mirrors_made value after true world
  | read =>
      simp only [host, operation, read]
      cases (world.io.read).1 with
      | error text => exact ⟨rfl, names, unchanged, rfl⟩
      | ok byte =>
          obtain ⟨value, after⟩ := readPair_mirrors mirrors byte
          exact mirrors_made value after byte.isNone _
  | echo cacheable =>
      simp only [host, operation, note_relabel mirrors]
      exact ⟨rfl, names, unchanged, rfl⟩
  | successor cacheable =>
      simp only [host, operation, note_relabel mirrors, count?_relabel, arg.kind_relabel]
      cases arg.count? with
      | none => exact ⟨rfl, names, unchanged, rfl⟩
      | some number =>
          obtain ⟨value, after⟩ := mirrors.datum (.count (number + 1))
          exact mirrors_made value after cacheable _
  | refuse text =>
      simp only [host, operation, note_relabel mirrors]
      exact ⟨rfl, names, unchanged, rfl⟩
  | constant cacheable =>
      simp only [host, operation, note_relabel mirrors]
      cases kept : function.kept with
      | empty =>
          rw [Env.relabel]
          exact ⟨rfl, names, unchanged, rfl⟩
      | bind ident name value outer =>
          rw [Env.relabel]
          exact ⟨rfl, names, unchanged, rfl⟩

/-- The host functions look at no identities, what they answer with is not made out of nothing, and
they keep nothing. -/
theorem host_blind : host.Blind fun _ _ => Eq where
  keeps _ := by rintro _ ⟨⟩
  kept _ := rfl
  grows _ same := same
  agrees _ same := same
  within heap function arg mint world next functionInside argInside _ := by
    obtain ⟨later, grows, laterNext, inside⟩ :=
      host_answers next functionInside argInside world
    exact ⟨later, grows, laterNext, inside, by rintro _ ⟨⟩⟩
  relabel := by
    rintro heap later label function arg mint image world _ _ relabels names _ _ rfl _ _ _
    exact host_mirrors ⟨relabels, names⟩ function arg world

end Surroundings

end LambdaMachine
