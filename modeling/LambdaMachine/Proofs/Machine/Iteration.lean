import LambdaMachine.Proofs.Machine.Assignments

/-!
A value that is applied some times over: to an argument, then to the result, and so on, one
application after the other. A machine on whose stack as many calls wait does the same with the
value that is delivered to it.
-/

namespace LambdaMachine

variable {World : Type}

namespace Machine

variable (machine : Machine World)

def keeping (value : Value) : Machine World :=
  { machine with held := { machine.held with values := value :: machine.held.values } }

def applyOnce (fuel : Nat) (func arg : Evaluated) (state : MachineState World) :
    Option (Except EvalError Evaluated × MachineState World) :=
  machine.run fuel (.value .empty arg) [.call .empty func] state

def applyTimes (fuel : Nat) (func : Evaluated) :
    Nat → Evaluated → MachineState World → Option (Except EvalError Evaluated × MachineState World)
  | 0, arg, state => some (.ok arg, state)
  | count + 1, arg, state =>
      match (machine.keeping func.value).applyOnce fuel func arg state with
      | some (.ok result, after) => applyTimes fuel func count result after
      | stopped => stopped

def iterate (fuel : Nat) (func : Evaluated) (count : Nat) (arg : Evaluated)
    (state : MachineState World) : Option (Except EvalError Value × MachineState World) :=
  (machine.applyTimes fuel func count arg state).map fun (outcome, after) =>
    (outcome.map (·.value), after)

def Halts (focus : Focus) (stack : List Frame) (state : MachineState World)
    (ending : Except EvalError Evaluated) (after : MachineState World) : Prop :=
  ∃ fuel, machine.run fuel focus stack state = some (ending, after)

def OnlyRecords (frames : List Frame) : Prop :=
  ∀ found state, ∃ after, machine.Halts (.value found.env found.result) frames state
    (.ok found.result) after ∧ Kept (.ok found) state (.ok found) after

section Halts

variable {machine} {focus : Focus} {stack : List Frame} {env origin : Env}
  {func arg result : Evaluated} {state after : MachineState World}
  {ending : Except EvalError Evaluated}

theorem Halts.settles (halts : machine.Halts focus stack state ending after) :
    Settles (fun fuel => machine.run fuel focus stack state) (ending, after) := by
  obtain ⟨fuel, ended⟩ := halts
  exact settles_run_of_run ended

theorem Follows.halts_iff {later : Focus} {rest : List Frame} {middle : MachineState World}
    (follows : machine.Follows (.moved focus stack state) (.moved later rest middle)) :
    machine.Halts focus stack state ending after ↔
      machine.Halts later rest middle ending after := by
  obtain ⟨steps, runs⟩ := follows.runFrom
  constructor
  · rintro ⟨fuel, ended⟩
    exact ⟨fuel, (runs fuel).symm.trans (run_mono (Nat.le_add_right fuel steps) ended)⟩
  · rintro ⟨fuel, ended⟩
    exact ⟨fuel + steps, (runs fuel).trans ended⟩

theorem halts_nil_iff : machine.Halts (.value origin result) [] state ending after ↔
    ending = .ok result ∧ after = state := by
  constructor
  · rintro ⟨fuel, ended⟩
    cases fuel with
    | zero => cases ended
    | succ fuel =>
        cases ended
        exact ⟨rfl, rfl⟩
  · rintro ⟨rfl, rfl⟩
    exact ⟨1, rfl⟩

/-- A call is made, and what it comes to is delivered to the frames below it. -/
theorem halts_call_iff : machine.Halts (.value origin arg) (.call env func :: stack) state ending
      after ↔
    (∃ error, machine.Evaluates true stack (.application env func arg) state (.error error) after ∧
      ending = .error error) ∨
    ∃ found middle,
      machine.Evaluates true stack (.application env func arg) state (.ok found) middle ∧
        machine.Halts (.value found.env found.result) stack middle ending after := by
  constructor
  · rintro ⟨fuel, ended⟩
    cases fuel with
    | zero => cases ended
    | succ fuel =>
        obtain ⟨outcome, middle, rest, _, evaluates, remaining⟩ :=
          exists_evaluates_of_apply (fun _ _ _ _ _ => exists_evaluates_of_run) ended
        cases outcome with
        | error error =>
            cases remaining
            exact .inl ⟨error, evaluates, rfl⟩
        | ok found => exact .inr ⟨found, middle, evaluates, rest, remaining⟩
  · rintro (⟨error, evaluates, rfl⟩ | ⟨found, middle, evaluates, fuel, ended⟩)
    · obtain ⟨steps, run⟩ := evaluates.start_eq_resume
      exact ⟨0 + steps + 1, run 0⟩
    · obtain ⟨steps, run⟩ := evaluates.start_eq_resume
      exact ⟨fuel + steps + 1, (run fuel).trans ended⟩

theorem step_proceeds : state.Proceeds machine.host (machine.step focus stack state).state := by
  cases focus with
  | value origin result =>
      have descends := @deliver_descends _ machine stack state origin result
      refine ⟨Nat.le_of_eq descends.steps.symm, ?_⟩
      rcases descends.world with same | ⟨function, arg, mint, called⟩
      · exact same ▸ .refl
      · exact called ▸ .call .refl function arg mint
  | node env code id =>
      refine (MachineState.Proceeds.countStep state).trans ?_
      rw [step]
      split
      · exact .refl _
      · obtain ⟨steps, world⟩ := @evalNode_keeps _ stack state.countStep env code id
        exact .of_eq steps world

theorem Halts.proceeds (halts : machine.Halts focus stack state ending after) :
    state.Proceeds machine.host after := by
  obtain ⟨fuel, ended⟩ := halts
  induction fuel generalizing focus stack state with
  | zero => cases ended
  | succ fuel ih =>
      have stepped := @step_proceeds _ machine focus stack state
      rw [run_succ] at ended
      cases next : machine.step focus stack state with
      | moved later rest middle =>
          rw [next] at ended stepped
          exact stepped.trans (ih ended)
      | halted outcome middle =>
          rw [next] at ended stepped
          cases ended
          exact stepped

theorem onlyRecords_nil : machine.OnlyRecords [] := fun _ state =>
  ⟨state, halts_nil_iff.mpr ⟨rfl, rfl⟩, .refl _ _⟩

theorem onlyRecords_memoize (callee key : Closure) : machine.OnlyRecords [.memoize callee key] := by
  intro found state
  refine ⟨_, ⟨2, ?_⟩, @kept_rememberOutcome _ machine [] callee key _ state⟩
  rw [run_memoize_succ]
  rfl

/-- The environment around an application makes no difference to what it comes to. -/
theorem Evaluates.elsewhere {waiting : List Frame} {outcome : Outcome}
    (ended : machine.Evaluates true waiting (.application env func arg) state outcome after)
    (other : Env) : ∃ otherOutcome,
      machine.Evaluates true waiting (.application other func arg) state otherOutcome after ∧
        otherOutcome.map (·.result) = outcome.map (·.result) := by
  cases ended with
  | notCallable callee => exact ⟨_, .notCallable callee, rfl⟩
  | called callee reply =>
      cases reply
      refine ⟨_, .called callee rfl, ?_⟩
      split <;> rfl
  | recalled closure cacheable argument found =>
      exact ⟨_, .recalled closure cacheable argument found, rfl⟩
  | missed closure cacheable argument absent body =>
      exact ⟨_, .missed closure cacheable argument absent body, rfl⟩
  | entered closure cacheable argument body =>
      exact ⟨_, .entered closure cacheable argument body, rfl⟩
  | tainted closure uncacheable body => exact ⟨_, .tainted closure uncacheable body, rfl⟩

/-- A call that halts has made its application, wherever that is made. -/
theorem Halts.first
    (halts : machine.Halts (.value origin arg) (.call env func :: stack) state ending after) :
    ∃ outcome middle,
      machine.Evaluates true stack (.application .empty func arg) state outcome middle ∧
        middle.Proceeds machine.host after := by
  rcases halts_call_iff.mp halts with ⟨error, failed, _⟩ | ⟨found, middle, passed, rest⟩
  · obtain ⟨outcome, evaluates, _⟩ := failed.elsewhere .empty
    exact ⟨outcome, after, evaluates, .refl _⟩
  · obtain ⟨outcome, evaluates, _⟩ := passed.elsewhere .empty
    exact ⟨outcome, middle, evaluates, rest.proceeds⟩

theorem halts_of_failed {error : EvalError}
    (failed : machine.Evaluates true stack (.application .empty func arg) state (.error error)
      after) :
    machine.Halts (.value origin arg) (.call env func :: stack) state (.error error) after := by
  obtain ⟨outcome, evaluates, same⟩ := failed.elsewhere env
  cases outcome with
  | error error =>
      cases same
      exact halts_call_iff.mpr (.inl ⟨_, evaluates, rfl⟩)
  | ok found => cases same

theorem exists_halts_iff_of_passed {found : Found} {middle : MachineState World}
    (passed : machine.Evaluates true stack (.application .empty func arg) state (.ok found)
      middle) (env origin : Env) :
    ∃ there, ∀ ending after,
      machine.Halts (.value origin arg) (.call env func :: stack) state ending after ↔
        machine.Halts (.value there found.result) stack middle ending after := by
  obtain ⟨error | other, evaluates, same⟩ := passed.elsewhere env
  · cases same
  · have result : other.result = found.result := Except.ok.inj same
    refine ⟨other.env, fun ending after => ⟨fun halts => ?_, fun halts => ?_⟩⟩
    · rcases halts_call_iff.mp halts with ⟨error, failed, _⟩ | ⟨again, last, ended, rest⟩
      · cases evaluates.unique failed
      · cases evaluates.unique ended
        exact result ▸ rest
    · exact halts_call_iff.mpr (.inr ⟨other, middle, evaluates, result ▸ halts⟩)

end Halts

section Times

variable {machine} {func arg : Evaluated} {count : Nat} {state after : MachineState World}
  {ending : Except EvalError Evaluated}

def TimesEnds (machine : Machine World) (func : Evaluated) (count : Nat) (arg : Evaluated)
    (state : MachineState World) (ending : Except EvalError Evaluated)
    (after : MachineState World) : Prop :=
  ∃ fuel, machine.applyTimes fuel func count arg state = some (ending, after)

theorem applyOnce_iff :
    (∃ fuel, machine.applyOnce fuel func arg state = some (ending, after)) ↔
      ∃ outcome : Outcome, machine.Evaluates true [] (.application .empty func arg) state outcome
        after ∧ ending = outcome.map (·.result) := by
  refine Iff.trans halts_call_iff ⟨?_, ?_⟩
  · rintro (⟨error, failed, rfl⟩ | ⟨found, middle, passed, delivered⟩)
    · exact ⟨_, failed, rfl⟩
    · obtain ⟨rfl, rfl⟩ := halts_nil_iff.mp delivered
      exact ⟨_, passed, rfl⟩
  · rintro ⟨error | found, ended, rfl⟩
    · exact .inl ⟨error, ended, rfl⟩
    · exact .inr ⟨found, after, ended, halts_nil_iff.mpr ⟨rfl, rfl⟩⟩

theorem applyTimes_mono {less more : Nat}
    {ended : Except EvalError Evaluated × MachineState World} (enough : less ≤ more)
    (applied : machine.applyTimes less func count arg state = some ended) :
    machine.applyTimes more func count arg state = some ended := by
  induction count generalizing arg state with
  | zero => exact applied
  | succ count ih =>
      rw [applyTimes] at applied ⊢
      cases once : (machine.keeping func.value).applyOnce less func arg state with
      | none =>
          rw [once] at applied
          cases applied
      | some first =>
          rw [once] at applied
          rw [applyOnce, run_mono enough once]
          obtain ⟨outcome, middle⟩ := first
          cases outcome with
          | error error => exact applied
          | ok result => exact ih applied

theorem TimesEnds.settles (ended : machine.TimesEnds func count arg state ending after) :
    Settles (fun fuel => machine.applyTimes fuel func count arg state) (ending, after) := by
  obtain ⟨fuel, applied⟩ := ended
  exact ⟨fuel, fun _ enough => applyTimes_mono enough applied⟩

theorem timesEnds_zero_iff :
    machine.TimesEnds func 0 arg state ending after ↔ ending = .ok arg ∧ after = state := by
  constructor
  · rintro ⟨fuel, applied⟩
    cases applied
    exact ⟨rfl, rfl⟩
  · rintro ⟨rfl, rfl⟩
    exact ⟨0, rfl⟩

theorem timesEnds_succ_iff : machine.TimesEnds func (count + 1) arg state ending after ↔
    (∃ error, (machine.keeping func.value).Evaluates true [] (.application .empty func arg) state
      (.error error) after ∧ ending = .error error) ∨
    ∃ found middle, (machine.keeping func.value).Evaluates true [] (.application .empty func arg)
      state (.ok found) middle ∧ machine.TimesEnds func count found.result middle ending after := by
  constructor
  · rintro ⟨fuel, applied⟩
    rw [applyTimes] at applied
    split at applied
    · rename_i result middle once
      obtain ⟨error | found, evaluates, same⟩ := applyOnce_iff.mp ⟨fuel, once⟩
      · cases same
      · cases same
        exact .inr ⟨found, middle, evaluates, fuel, applied⟩
    · rename_i other
      obtain ⟨error | found, evaluates, same⟩ := applyOnce_iff.mp ⟨fuel, applied⟩
      · exact .inl ⟨error, evaluates, same⟩
      · cases same
        exact (other _ _ applied).elim
  · rintro (⟨error, failed, rfl⟩ | ⟨found, middle, passed, fuel, applied⟩)
    · obtain ⟨fuel, once⟩ := applyOnce_iff.mpr ⟨_, failed, rfl⟩
      refine ⟨fuel, ?_⟩
      rw [applyTimes, once]
      rfl
    · obtain ⟨bound, once⟩ := applyOnce_iff.mpr ⟨_, passed, rfl⟩
      refine ⟨max fuel bound, ?_⟩
      rw [applyTimes, applyOnce, run_mono (Nat.le_max_right fuel bound) once]
      exact applyTimes_mono (Nat.le_max_left fuel bound) applied

theorem timesEnds_iff_of_passed {found : Found} {middle : MachineState World}
    (passed : (machine.keeping func.value).Evaluates true [] (.application .empty func arg) state
      (.ok found) middle) :
    machine.TimesEnds func (count + 1) arg state ending after ↔
      machine.TimesEnds func count found.result middle ending after := by
  constructor
  · intro ended
    rcases timesEnds_succ_iff.mp ended with ⟨error, failed, _⟩ | ⟨again, last, other, rest⟩
    · cases passed.unique failed
    · cases passed.unique other
      exact rest
  · exact fun rest => timesEnds_succ_iff.mpr (.inr ⟨found, middle, passed, rest⟩)

theorem TimesEnds.proceeds (ended : machine.TimesEnds func count arg state ending after) :
    state.Proceeds machine.host after := by
  induction count generalizing arg state with
  | zero =>
      obtain ⟨_, rfl⟩ := timesEnds_zero_iff.mp ended
      exact .refl _
  | succ count ih =>
      rcases timesEnds_succ_iff.mp ended with ⟨_, failed, _⟩ | ⟨_, _, passed, rest⟩
      · exact failed.proceeds
      · exact passed.proceeds.trans (ih rest)

theorem TimesEnds.first (ended : machine.TimesEnds func (count + 1) arg state ending after) :
    ∃ outcome middle, (machine.keeping func.value).Evaluates true []
        (.application .empty func arg) state outcome middle ∧
      middle.Proceeds machine.host after := by
  rcases timesEnds_succ_iff.mp ended with ⟨_, failed, _⟩ | ⟨_, _, passed, rest⟩
  · exact ⟨_, after, failed, .refl _⟩
  · exact ⟨_, _, passed, rest.proceeds⟩

end Times

section Tied

variable {machine} {image : Machine World}
  {alike : Heap → (Ident → Ident) → World → World → Prop} {label : Ident → Ident}
  {ahead : Nat} {heap copy : Heap} {func arg : Evaluated} {outer origin : Env}
  {frames : List Frame} {state imageState : MachineState World}

theorem Rests.keeping {value : Value} (rests : machine.Rests heap []) (inside : value.In heap) :
    (machine.keeping value).Rests heap [] := by
  refine ⟨rests.envs, fun other among => ?_, rests.frames⟩
  rcases List.mem_cons.mp among with rfl | before
  · exact inside
  · exact rests.values other before

def Pending (count : Nat) (func : Value) (ident : Ident) : Prop :=
  0 < count ∧ ident ∈ func.link

theorem waits_calls (copied : heap.Copied label copy) (rests : machine.Rests heap [])
    (funcInside : func.value.In heap) (outerInside : outer.In copy)
    (imageRests : image.Rests copy frames) (count : Nat) :
    (machine.keeping func.value).Waits image label heap copy (Pending count func.value) []
      (List.replicate count (.call outer (func.relabel label)) ++ frames) := by
  refine ⟨rests.keeping funcInside, imageRests.append fun frame among => ?_, ?_, ?_⟩
  · rw [List.eq_of_mem_replicate among]
    exact ⟨outerInside, copied.value funcInside⟩
  · rintro ident ⟨_, linked⟩
    exact .inr (.inl ⟨func.value, List.mem_cons_self, linked⟩)
  · rintro ident ⟨left, linked⟩
    obtain ⟨fewer, rfl⟩ := Nat.exists_eq_add_one_of_ne_zero (Nat.ne_of_gt left)
    rw [List.replicate_succ, List.cons_append]
    refine holds_frame (List.mem_append_right _ ?_)
    rw [Evaluated.relabel, Value.link_relabel]
    exact List.mem_map_of_mem linked

/-- A stack of calls does what applying the function so many times does: on the number of calls. -/
theorem tied_calls (sameHost : image.host = machine.host) (blind : machine.host.Blind alike)
    (records : image.OnlyRecords frames) {count : Nat} (funcInside : func.value.In heap)
    (argInside : arg.value.In heap) (outerInside : outer.In copy) (rests : machine.Rests heap [])
    (imageRests : image.Rests copy frames)
    (states : state.Mirrors machine.host alike label ahead heap copy
      (Rooted (Pending count func.value) arg.value.link) imageState) :
    machine.Tied image alike ahead
      (fun ending final => ∃ result, machine.TimesEnds func count arg state result final ∧
        ending = result.map (·.value))
      (fun outcome after => image.Halts (.value origin (arg.relabel label))
        (List.replicate count (.call outer (func.relabel label)) ++ frames) imageState
        (outcome.map (·.result)) after) := by
  induction count generalizing arg state imageState heap copy origin with
  | zero =>
      obtain ⟨after, halts, kept⟩ := records ⟨origin, arg.relabel label⟩ imageState
      have ends : ∃ result, machine.TimesEnds func 0 arg state result state ∧
          .ok arg.value = result.map (·.value) :=
        ⟨_, timesEnds_zero_iff.mpr ⟨rfl, rfl⟩, rfl⟩
      exact @Tied.passed _ _ _ _ _ _ _ _ _ ⟨origin, arg.relabel label⟩ _ heap label ends halts rfl
        (kept.alike states.alike)
  | succ count ih =>
      have waits := waits_calls states.copied rests funcInside outerInside imageRests count
      have keptHost : image.host = (machine.keeping func.value).host := sameHost
      have compared := compared_application keptHost blind waits states
        (fun root pending => .inl ⟨Nat.succ_pos _, pending.2⟩) funcInside argInside
        (fun link among => .inl ⟨Nat.succ_pos _, among⟩) (fun link among => .inr among)
      cases compared with
      | endless never imageNever =>
          refine .endless ?_ fun outcome after halts => ?_
          · rintro ending final ⟨result, ended, _⟩
            obtain ⟨_, _, evaluates, _⟩ := ended.first
            exact never _ _ evaluates
          · obtain ⟨_, _, evaluates, _⟩ := Halts.first halts
            exact imageNever _ _ evaluates
      | stopped limited imageEnded overtaken =>
          refine .stopped limited (halts_of_failed imageEnded) ?_
          rintro ending final ⟨result, ended, _⟩
          obtain ⟨_, _, evaluates, proceeds⟩ := ended.first
          exact (overtaken _ _ evaluates).mono (Nat.le_refl _) proceeds
      | outlasted limited differ ended precedes =>
          refine .outlasted differ ⟨_, timesEnds_succ_iff.mpr (.inl ⟨_, ended, rfl⟩), rfl⟩ ?_
          intro outcome after halts
          obtain ⟨_, _, evaluates, proceeds⟩ := Halts.first halts
          exact (precedes _ _ evaluates).mono proceeds
      | failed ended imageEnded states =>
          exact .failed ⟨_, timesEnds_succ_iff.mpr (.inl ⟨_, ended, rfl⟩), rfl⟩
            (halts_of_failed imageEnded) (Nat.le_refl _) states
      | @passed found middle imageMiddle later laterCopy ended imageEnded grows copyGrows value
          middleStates =>
          obtain ⟨there, halts⟩ := exists_halts_iff_of_passed imageEnded outer origin
          simp only [timesEnds_iff_of_passed ended, List.replicate_succ, List.cons_append, halts]
          exact ih (Value.In.mono grows funcInside) value (Env.In.mono copyGrows outerInside)
            (rests.mono grows) (imageRests.mono copyGrows) middleStates

end Tied

section Answers

theorem computes_iterate (func : Evaluated) (count : Nat) (arg : Evaluated)
    (state : MachineState World) :
    Computes (fun fuel => machine.iterate fuel func count arg state) (fun ending final =>
      ∃ result, machine.TimesEnds func count arg state result final ∧
        ending = result.map (·.value)) := by
  constructor
  · rintro ending final ⟨result, ended, rfl⟩
    exact ended.settles.map fun ending => (ending.1.map (·.value), ending.2)
  · intro fuel ending final iterated
    obtain ⟨⟨result, _⟩, applied, same⟩ := Option.map_eq_some_iff.mp iterated
    cases same
    exact ⟨result, ⟨fuel, applied⟩, rfl⟩

theorem computes_evaluate_halts (env : Env) (code : Code) (id : NodeId)
    (state : MachineState World) :
    Computes (fun fuel => machine.evaluate fuel env code id state) (Values fun outcome after =>
      machine.Halts (.node env code id) [] state (outcome.map (·.result)) after) := by
  constructor
  · rintro ending after ⟨outcome, halts, rfl⟩
    have settled := halts.settles.map fun ending => (ending.1.map (·.value), ending.2)
    cases outcome <;> exact settled
  · intro fuel ending after evaluated
    obtain ⟨⟨result, _⟩, ended, same⟩ := Option.map_eq_some_iff.mp evaluated
    cases same
    cases result with
    | error error => exact ⟨.error error, ⟨fuel, ended⟩, rfl⟩
    | ok result => exact ⟨.ok ⟨.empty, result⟩, ⟨fuel, ended⟩, rfl⟩

end Answers

section Projects

variable {Big Small : Type} {big : Machine Big} {small : Machine Small} {forget : Big → Small}

theorem Projects.keeping (projects : big.Projects small forget) (value : Value) :
    (big.keeping value).Projects (small.keeping value) forget := by
  refine ⟨projects.host, projects.kept, projects.limit, ?_⟩
  simp only [Machine.keeping, projects.held]

theorem Projects.applyTimes (projects : big.Projects small forget) (fuel : Nat) (func : Evaluated)
    (count : Nat) (arg : Evaluated) (state : MachineState Big) :
    small.applyTimes fuel func count arg (state.mapWorld forget) =
      (big.applyTimes fuel func count arg state).map fun ending =>
        (ending.1, ending.2.mapWorld forget) := by
  induction count generalizing arg state with
  | zero => rfl
  | succ count ih =>
      rw [Machine.applyTimes, Machine.applyTimes, applyOnce, applyOnce,
        (projects.keeping func.value).run]
      cases (big.keeping func.value).run fuel (.value .empty arg) [.call .empty func] state with
      | none => rfl
      | some ending =>
          obtain ⟨outcome, after⟩ := ending
          cases outcome with
          | error error => rfl
          | ok result => exact ih result after

theorem Projects.iterate (projects : big.Projects small forget) (fuel : Nat) (func : Evaluated)
    (count : Nat) (arg : Evaluated) (state : MachineState Big) :
    small.iterate fuel func count arg (state.mapWorld forget) =
      (big.iterate fuel func count arg state).map fun ending =>
        (ending.1, ending.2.mapWorld forget) := by
  rw [Machine.iterate, Machine.iterate, projects.applyTimes, Option.map_map, Option.map_map]
  rfl

end Projects

end Machine

end LambdaMachine
