import LambdaMachine.Proofs.Memo.Catalog
import Mathlib.Logic.Function.Basic

/-!
Tables over the lives of closures. Closures come to be and die, and in between results are recorded
and looked up. A sweep comes to the keys of a table one after the other, in any order, and closures
may die meanwhile: a result that is removed may be the last to hold one. A result that can still be
asked for is never among what is removed, so whoever asks gets the latest one, as from a table that
is never swept. And no table depends on what is done to others.
-/

namespace LambdaMachine

namespace Memo

def clear (memo : Memo) (ident : Ident) : Memo :=
  ⟨memo.tables.erase ident⟩

def visit (memo : Memo) (func key : Ident) (alive : IdentSet) : Memo :=
  ⟨memo.tables.modify func fun table => table.visit alive.contains key⟩

def table (memo : Memo) (func : Closure) : MemoTable :=
  (memo.tables[func.ident]?).getD (.empty func)

variable {memo : Memo} {func arg : Closure} {value : Value}

theorem tables_clear (memo : Memo) (ident owner : Ident) :
    (memo.clear ident).tables[owner]? = if ident = owner then none else memo.tables[owner]? := by
  simp only [clear, Std.TreeMap.getElem?_erase, Nat.compare_eq_eq]

theorem entry_clear (memo : Memo) (ident owner key : Ident) :
    (memo.clear ident).entry owner key = if ident = owner then none else memo.entry owner key := by
  rw [entry, tables_clear]
  split <;> rfl

theorem tables_visit (memo : Memo) (func key owner : Ident) (alive : IdentSet) :
    (memo.visit func key alive).tables[owner]? =
      if func = owner then (memo.tables[owner]?).map fun table => table.visit alive.contains key
      else memo.tables[owner]? := by
  simp only [visit, Std.TreeMap.getElem?_modify, Nat.compare_eq_eq]
  split
  · rename_i same
    rw [same]
  · rfl

theorem entry_visit (memo : Memo) (func visited owner key : Ident) (alive : IdentSet) :
    (memo.visit func visited alive).entry owner key =
      if func = owner ∧ visited = key ∧ alive.contains key = false then none
      else memo.entry owner key := by
  rw [entry, tables_visit]
  by_cases own : func = owner
  · rw [if_pos own, Option.bind_map, entry]
    cases memo.tables[owner]? with
    | none => simp
    | some table => simp only [Option.bind_some, Function.comp, table.lookup_visit, own, true_and]
  · rw [if_neg own, if_neg fun all => own all.1, entry]

theorem size_eq_size_table (memo : Memo) (func : Closure) :
    memo.size func = (memo.table func).size := by
  unfold size table
  cases memo.tables[func.ident]? with
  | none => rfl
  | some table => rfl

theorem tables_insert_self :
    (memo.insert func arg value).tables[func.ident]? =
      some ((memo.table func).insert arg.ident value) := by
  rw [insert, Std.TreeMap.getElem?_alter, if_pos Std.ReflOrd.compare_self, table]

theorem tables_insert_other {other : Ident} (different : func.ident ≠ other) :
    (memo.insert func arg value).tables[other]? = memo.tables[other]? := by
  rw [insert, Std.TreeMap.getElem?_alter, if_neg]
  exact fun same => different (Std.LawfulEqOrd.eq_of_compare same)

theorem tables_foldl_visit (keys : List Ident) (memo : Memo) (func owner : Ident)
    (alive : IdentSet) :
    (keys.foldl (fun memo key => memo.visit func key alive) memo).tables[owner]? =
      if func = owner then
        (memo.tables[owner]?).map fun table => keys.foldl (MemoTable.visit alive.contains) table
      else memo.tables[owner]? := by
  induction keys generalizing memo with
  | nil => simp
  | cons key keys ih =>
      rw [List.foldl_cons, ih, tables_visit]
      split
      · rw [Option.map_map]
        rfl
      · rfl

def dueKeys (memo : Memo) (func : Closure) : List Ident :=
  if memo.sweepDue func then (memo.table func).entries.keys else []

/-- Where only closures that are alive have tables, recording is putting the result down and coming
to the keys that are due. -/
theorem tables_record {alive : IdentSet}
    (dropped : ∀ owner : Ident, alive.contains owner = false → memo.tables[owner]? = none)
    (owner : Ident) :
    (memo.record func arg value fun _ => alive).tables[owner]? =
      (((memo.insert func arg value).dueKeys func).foldl
        (fun memo key => memo.visit func.ident key alive)
        (memo.insert func arg value)).tables[owner]? := by
  rw [tables_foldl_visit, record, dueKeys]
  by_cases due : (memo.insert func arg value).sweepDue func = true
  · simp only [due, if_true, sweep, Std.TreeMap.getElem?_modify, Nat.compare_eq_eq,
      Std.TreeMap.getElem?_filter']
    by_cases own : func.ident = owner
    · subst own
      simp [tables_insert_self, table, MemoTable.sweep]
    · rw [if_neg own, if_neg own, tables_insert_other own]
      cases lives : alive.contains owner with
      | true => cases memo.tables[owner]? <;> simp
      | false => rw [dropped owner lives]; rfl
  · simp [due]

end Memo

inductive Occurrence where
  | born (ident : Ident)
  | died (ident : Ident)
  /-- A result is put into a table. If the table is due then, a sweep of it begins. -/
  | recorded (func arg : Closure) (value : Value)
  /-- The sweep of a table comes to a key. -/
  | visited (func key : Ident)
  | askedFor (func arg : Closure)

/-- The tables, the identities of the closures that are alive, and the keys of each table that a
sweep has still to come to. -/
structure Moment where
  memo : Memo
  alive : IdentSet
  pending : Ident → List Ident

namespace Moment

def start : Moment :=
  ⟨.empty, .withRoom 0, fun _ => []⟩

def after (moment : Moment) : Occurrence → Moment
  | .born ident =>
      ⟨moment.memo.clear ident, moment.alive.insert ident, Function.update moment.pending ident []⟩
  | .died ident => ⟨moment.memo.clear ident, moment.alive.erase ident, moment.pending⟩
  | .recorded func arg value =>
      let memo := moment.memo.insert func arg value
      ⟨memo, moment.alive, Function.update moment.pending func.ident (memo.dueKeys func)⟩
  | .visited func key =>
      ⟨moment.memo.visit func key moment.alive, moment.alive,
        Function.update moment.pending func ((moment.pending func).erase key)⟩
  | .askedFor _ _ => moment

/-- Only closures that are alive take part in a call, and recording waits for the sweep of the table
to end; whoever records holds the closure until then. An identity is given to a new closure when no
closure that is alive has it and no key for it is left in the table of one. -/
def Allows (moment : Moment) : Occurrence → Prop
  | .born ident => moment.alive.contains ident = false ∧
      ∀ owner, moment.alive.contains owner = true → moment.memo.entry owner ident = none
  | .died ident => moment.pending ident = []
  | .recorded func arg _ => moment.pending func.ident = [] ∧
      moment.alive.contains func.ident = true ∧ moment.alive.contains arg.ident = true
  | .visited func key => key ∈ moment.pending func
  | .askedFor func arg =>
      moment.alive.contains func.ident = true ∧ moment.alive.contains arg.ident = true

end Moment

abbrev History := List Occurrence

namespace History

def moment : History → Moment
  | [] => .start
  | occurrence :: earlier => (moment earlier).after occurrence

def Possible : History → Prop
  | [] => True
  | occurrence :: earlier => Possible earlier ∧ (moment earlier).Allows occurrence

/-- The result recorded last for these two closures, since both of them are there. -/
def latest (func arg : Ident) : History → Option Value
  | [] => none
  | .born ident :: earlier =>
      if ident = func ∨ ident = arg then none else latest func arg earlier
  | .recorded recordedFunc recordedArg value :: earlier =>
      if recordedFunc.ident = func ∧ recordedArg.ident = arg then some value
      else latest func arg earlier
  | _ :: earlier => latest func arg earlier

/-- Calls of other closures do not concern a closure, nor do the sweeps of other tables; births and
deaths may concern any. -/
def concerns (func : Ident) : Occurrence → Bool
  | .born _ | .died _ => true
  | .recorded called _ _ | .askedFor called _ => called.ident == func
  | .visited swept _ => swept == func

variable {history : History} {func arg : Closure} {value : Value}

theorem tables_of_dead (possible : history.Possible) {owner : Ident}
    (dead : history.moment.alive.contains owner = false) :
    history.moment.memo.tables[owner]? = none := by
  induction history with
  | nil => rfl
  | cons occurrence earlier ih =>
      obtain ⟨before, allowed⟩ := possible
      cases occurrence with
      | born ident =>
          simp only [moment, Moment.after, IdentSet.contains_insert, Bool.or_eq_false_iff,
            beq_eq_false_iff_ne] at dead ⊢
          rw [Memo.tables_clear, if_neg dead.1, ih before dead.2]
      | died ident =>
          simp only [moment, Moment.after, IdentSet.contains_erase, Memo.tables_clear] at dead ⊢
          split
          · rfl
          · rename_i other
            rw [bne_iff_ne.mpr other, Bool.true_and] at dead
            exact ih before dead
      | recorded func arg value =>
          have other : func.ident ≠ owner := by
            rintro rfl
            exact Bool.noConfusion (dead.symm.trans allowed.2.1)
          rw [moment, Moment.after, Memo.tables_insert_other other]
          exact ih before dead
      | visited swept key =>
          rw [moment, Moment.after, Memo.tables_visit, ih before dead]
          split <;> rfl
      | askedFor func arg => exact ih before dead

theorem entry_eq_latest (possible : history.Possible) {owner key : Ident}
    (ownerLives : history.moment.alive.contains owner = true)
    (keyLives : history.moment.alive.contains key = true) :
    history.moment.memo.entry owner key = history.latest owner key := by
  induction history with
  | nil => exact Memo.entry_empty owner key
  | cons occurrence earlier ih =>
      obtain ⟨before, allowed⟩ := possible
      cases occurrence with
      | born ident =>
          simp only [moment, Moment.after, IdentSet.contains_insert, Bool.or_eq_true,
            beq_iff_eq] at ownerLives keyLives
          rw [moment, Moment.after, Memo.entry_clear, latest]
          by_cases newOwner : ident = owner
          · rw [if_pos newOwner, if_pos (.inl newOwner)]
          · have ownerLived := ownerLives.resolve_left newOwner
            rw [if_neg newOwner]
            by_cases newKey : ident = key
            · rw [if_pos (.inr newKey), ← newKey]
              exact allowed.2 owner ownerLived
            · rw [if_neg (not_or.mpr ⟨newOwner, newKey⟩)]
              exact ih before ownerLived (keyLives.resolve_left newKey)
      | died ident =>
          simp only [moment, Moment.after, IdentSet.contains_erase, Bool.and_eq_true, bne_iff_ne]
            at ownerLives keyLives
          rw [moment, Moment.after, Memo.entry_clear, if_neg ownerLives.1]
          exact ih before ownerLives.2 keyLives.2
      | recorded func arg value =>
          rw [moment, Moment.after, Memo.entry_insert, ih before ownerLives keyLives, latest]
      | visited swept visited =>
          -- the sweep removes the entries of keys that are dead when it comes to them
          have kept : ¬(swept = owner ∧ visited = key ∧
              (moment earlier).alive.contains key = false) :=
            fun all => Bool.noConfusion (all.2.2.symm.trans keyLives)
          rw [moment, Moment.after, Memo.entry_visit, if_neg kept]
          exact ih before ownerLives keyLives
      | askedFor func arg => exact ih before ownerLives keyLives

theorem alive_filter_concerns (history : History) (func : Ident) :
    (moment (history.filter (concerns func))).alive = history.moment.alive := by
  induction history with
  | nil => rfl
  | cons occurrence earlier ih =>
      cases occurrence with
      | born ident => exact congrArg (IdentSet.insert · ident) ih
      | died ident => exact congrArg (IdentSet.erase · ident) ih
      | recorded called _ _ =>
          rw [List.filter_cons]
          split <;> exact ih
      | visited swept _ =>
          rw [List.filter_cons]
          split <;> exact ih
      | askedFor called _ =>
          rw [List.filter_cons]
          split <;> exact ih

/-- The table of a closure that is alive is what its own calls made it. -/
theorem tables_filter_concerns {func : Ident}
    (lives : history.moment.alive.contains func = true) :
    (moment (history.filter (concerns func))).memo.tables[func]? =
      history.moment.memo.tables[func]? := by
  induction history with
  | nil => rfl
  | cons occurrence earlier ih =>
      have sameAlive := alive_filter_concerns earlier func
      cases occurrence with
      | born ident =>
          simp only [moment, Moment.after, IdentSet.contains_insert, Bool.or_eq_true,
            beq_iff_eq] at lives
          simp only [List.filter_cons, concerns, if_true, moment, Moment.after, Memo.tables_clear]
          split
          · rfl
          · rename_i other
            exact ih (lives.resolve_left other)
      | died ident =>
          simp only [moment, Moment.after, IdentSet.contains_erase, Bool.and_eq_true] at lives
          simp only [List.filter_cons, concerns, if_true, moment, Moment.after, Memo.tables_clear,
            ih lives.2]
      | recorded called arg value =>
          have lived : (moment earlier).alive.contains func = true := lives
          by_cases own : called.ident = func
          · subst own
            rw [List.filter_cons_of_pos (by simp [concerns])]
            simp only [moment, Moment.after, Memo.tables_insert_self, Memo.table, ih lived]
          · rw [List.filter_cons_of_neg (by simpa [concerns] using own), ih lived, moment,
              Moment.after, Memo.tables_insert_other own]
      | visited swept key =>
          have lived : (moment earlier).alive.contains func = true := lives
          by_cases own : swept = func
          · rw [List.filter_cons_of_pos (by simp [concerns, own])]
            simp only [moment, Moment.after, Memo.tables_visit, ih lived, sameAlive]
          · rw [List.filter_cons_of_neg (by simpa [concerns] using own), ih lived, moment,
              Moment.after, Memo.tables_visit, if_neg own]
      | askedFor called arg =>
          rw [List.filter_cons]
          split <;> exact ih lives

/-- Whoever asks for a result gets the one recorded last for the two closures, and none if there is
none, whatever has been swept on the way. And the table of a closure, dead keys included, is decided
by its own calls and by who was alive at them. -/
theorem lookups_answer_latest (possible : history.Possible) :
    (∀ func arg, history.moment.Allows (.askedFor func arg) →
      history.moment.memo.lookup func arg = history.latest func.ident arg.ident) ∧
    (∀ func, history.moment.alive.contains func = true →
      (moment (history.filter (concerns func))).memo.tables[func]? =
        history.moment.memo.tables[func]?) :=
  ⟨fun _ _ live => entry_eq_latest possible live.1 live.2, fun _ => tables_filter_concerns⟩

def bare (ident : Ident) : Closure :=
  ⟨ident, .empty, 0, 0, ⟨0, .empty⟩⟩

def overwriting : History :=
  [.recorded (bare 0) (bare 2) (.closure (bare 1)), .recorded (bare 1) (bare 2) (.closure (bare 0)),
    .died 3, .recorded (bare 0) (bare 3) (.closure (bare 3)),
    .recorded (bare 0) (bare 2) (.closure (bare 0)), .born 3, .born 2, .born 1, .born 0]

theorem overwritten_result_is_found :
    overwriting.Possible ∧
    overwriting.moment.memo.lookup (bare 0) (bare 2) = some (.closure (bare 1)) ∧
    overwriting.moment.memo.lookup (bare 1) (bare 2) = some (.closure (bare 0)) := by
  have possible : overwriting.Possible := by
    simp [overwriting, Possible, moment, Moment.Allows, Moment.after, Moment.start,
      IdentSet.contains_insert, IdentSet.contains_erase, IdentSet.contains_withRoom,
      Memo.entry_clear, Memo.entry_empty, bare]
    exact ⟨rfl, rfl⟩
  have lives (ident : Nat) (early : ident < 3) :
      overwriting.moment.alive.contains ident = true := by
    simp only [overwriting, moment, Moment.after, IdentSet.contains_insert,
      IdentSet.contains_erase, Bool.and_eq_true, Bool.or_eq_true, bne_iff_ne, beq_iff_eq]
    omega
  have answers := (lookups_answer_latest possible).1
  refine ⟨possible, ?_, ?_⟩
  · exact answers (bare 0) (bare 2) ⟨lives 0 (by decide), lives 2 (by decide)⟩
  · exact answers (bare 1) (bare 2) ⟨lives 1 (by decide), lives 2 (by decide)⟩

def recordAtOnce (func arg : Closure) (value : Value) (history : History) : History :=
  let recorded : History := .recorded func arg value :: history
  (recorded.moment.pending func.ident).foldl
    (fun earlier key => .visited func.ident key :: earlier) recorded

/-- What sweeping `keys` comes to while nothing else happens. -/
theorem moment_foldl_visited (func : Ident) (keys : List Ident) :
    ∀ {history : History} {rest : List Ident}, history.moment.pending func = keys ++ rest →
      let swept : History := keys.foldl (fun earlier key => .visited func key :: earlier) history
      swept.moment.memo = keys.foldl
        (fun memo key => memo.visit func key history.moment.alive) history.moment.memo ∧
      swept.moment.alive = history.moment.alive ∧
      swept.moment.pending = Function.update history.moment.pending func rest ∧
      (history.Possible → swept.Possible) := by
  induction keys with
  | nil =>
      intro history rest left
      refine ⟨rfl, rfl, ?_, id⟩
      rw [List.nil_append] at left
      rw [List.foldl_nil, ← left, Function.update_eq_self]
  | cons key keys ih =>
      intro history rest left
      let after : History := .visited func key :: history
      have next : after.moment.pending func = keys ++ rest := by
        simp [after, moment, Moment.after, left]
      obtain ⟨memo, alive, pending, stays⟩ := ih next
      refine ⟨memo, alive, ?_, fun possible => stays ⟨possible, ?_⟩⟩
      · rw [List.foldl_cons, pending]
        simp [after, moment, Moment.after]
      · rw [Moment.Allows, left]
        exact List.mem_append_left _ (List.mem_cons_self)

/-- While nothing dies, `Memo.record` makes of the tables what recording and sweeping make of
them. -/
theorem recordAtOnce_eq_record (possible : history.Possible)
    (allowed : history.moment.Allows (.recorded func arg value)) :
    let after : History := history.recordAtOnce func arg value
    after.Possible ∧ after.moment.alive = history.moment.alive ∧
      after.moment.pending = history.moment.pending ∧
      ∀ owner : Ident, after.moment.memo.tables[owner]? =
        (history.moment.memo.record func arg value fun _ =>
          history.moment.alive).tables[owner]? := by
  let recorded : History := .recorded func arg value :: history
  have all : recorded.moment.pending func.ident = recorded.moment.pending func.ident ++ [] :=
    (List.append_nil _).symm
  obtain ⟨memo, alive, pending, stays⟩ := moment_foldl_visited func.ident _ all
  have quiet : Function.update recorded.moment.pending func.ident [] = history.moment.pending := by
    rw [← allowed.1]
    simp [recorded, moment, Moment.after]
  have dropped (owner : Ident) (dead : history.moment.alive.contains owner = false) :
      history.moment.memo.tables[owner]? = none := tables_of_dead possible dead
  refine ⟨stays ⟨possible, allowed⟩, alive, pending.trans quiet, fun owner => ?_⟩
  rw [Memo.tables_record dropped, recordAtOnce, memo]
  simp only [recorded, moment, Moment.after, Function.update_self]

end History

end LambdaMachine
