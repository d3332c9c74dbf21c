import LambdaMachine.Proofs.Memo.History
import Mathlib.Data.List.Perm.Subperm
import Mathlib.Data.Nat.Log

/-!
How large a table can get. A sweep leaves only keys that were alive when it came to them. From there
the table grows, one entry at a time, up to the next size at which it is swept, and this is at most
twice as large. So a table that is not small is less than twice as large as the number of its keys
that were alive at one time. But a sweep may itself be what a key dies of: it may come to the key
first, and later to the entry whose result is the last to hold it.
-/

namespace LambdaMachine

namespace MemoTable

variable {table other : MemoTable} {arg : Ident} {value : Value} {alive alive' : Ident → Bool}

theorem sweepDue_iff : table.sweepDue = true ↔ 1024 ≤ table.size ∧ table.size.isPowerOfTwo := by
  rw [sweepDue, Bool.and_eq_true, decide_eq_true_eq, beq_iff_eq, sweepThreshold]
  refine and_congr_right fun _ => ⟨fun same => ⟨_, same.symm⟩, ?_⟩
  rintro ⟨exponent, power⟩
  rw [power, Nat.log2_two_pow]
  rfl

theorem size_insert_le : (table.insert arg value).size ≤ table.size + 1 :=
  Std.TreeMap.size_insert_le

theorem nodup_keys (table : MemoTable) : table.entries.keys.Nodup := by
  refine table.entries.distinct_keys.imp fun distinct same => distinct ?_
  rw [same, Nat.compare_eq_eq]

theorem mem_entries_visit {key : Ident} :
    key ∈ (table.visit alive arg).entries ↔
      key ∈ table.entries ∧ ¬(arg = key ∧ alive key = false) := by
  have found := @MemoTable.lookup_visit alive table arg key
  rw [lookup, lookup] at found
  rw [Std.TreeMap.mem_iff_isSome_getElem?, Std.TreeMap.mem_iff_isSome_getElem?, found]
  split
  · rename_i gone
    simp [gone]
  · rename_i stays
    simp [stays]

def aliveCount (table : MemoTable) (alive : Ident → Bool) : Nat :=
  table.entries.keys.countP alive

theorem aliveCount_le (covered : ∀ key ∈ table.entries, alive key = true →
    key ∈ other.entries ∧ alive' key = true) : table.aliveCount alive ≤ other.aliveCount alive' := by
  rw [aliveCount, aliveCount, List.countP_eq_length_filter, List.countP_eq_length_filter]
  refine (List.subperm_of_subset (table.nodup_keys.filter _) fun key among => ?_).length_le
  obtain ⟨key_mem, lives⟩ := List.mem_filter.mp among
  obtain ⟨mem, lives'⟩ := covered key (Std.TreeMap.mem_keys.mp key_mem) lives
  exact List.mem_filter.mpr ⟨Std.TreeMap.mem_keys.mpr mem, lives'⟩

theorem aliveCount_eq_size (all : ∀ key ∈ table.entries, alive key = true) :
    table.aliveCount alive = table.size := by
  rw [aliveCount, size, ← Std.TreeMap.length_keys, List.countP_eq_length]
  exact fun key among => all key (Std.TreeMap.mem_keys.mp among)

end MemoTable

/-- The size is below one at which a table is swept, and this one is the first of them or at most
twice the peak. -/
def BelowSweep (peak size : Nat) : Prop :=
  ∃ due : Nat, due.isPowerOfTwo ∧ 1024 ≤ due ∧ size < due ∧ (due = 1024 ∨ due ≤ 2 * peak)

namespace BelowSweep

variable {peak size : Nat}

theorem small (small : size < 1024) (peak : Nat) : BelowSweep peak size :=
  ⟨1024, ⟨10, rfl⟩, Nat.le_refl _, small, .inl rfl⟩

theorem mono {higher : Nat} (below : BelowSweep peak size) (le : peak ≤ higher) :
    BelowSweep higher size := by
  obtain ⟨due, power, large, under, near⟩ := below
  exact ⟨due, power, large, under, by omega⟩

/-- Where all keys are alive, the next power of two is at most twice their number. -/
theorem of_le (le : size ≤ peak) : BelowSweep peak size := by
  by_cases few : size < 1024
  · exact small few peak
  · have nonzero : size ≠ 0 := by omega
    have lower := Nat.log2_self_le nonzero
    have upper := Nat.lt_log2_self (n := size)
    rw [Nat.pow_succ] at upper
    exact ⟨2 ^ size.log2 * 2, ⟨size.log2 + 1, rfl⟩, by omega, by omega, .inr (by omega)⟩

/-- One more entry leads to a sweep or stays below it. -/
theorem grow {more : Nat} (below : BelowSweep peak size) (grown : more ≤ size + 1)
    (unswept : ¬(1024 ≤ more ∧ more.isPowerOfTwo)) : BelowSweep peak more := by
  obtain ⟨due, power, large, under, near⟩ := below
  have other : more ≠ due := by
    rintro rfl
    exact unswept ⟨large, power⟩
  exact ⟨due, power, large, by omega, near⟩

theorem le_max (below : BelowSweep peak size) : size ≤ max 1023 (2 * peak - 1) := by
  obtain ⟨due, _, _, under, near⟩ := below
  omega

end BelowSweep

namespace Memo

variable {memo : Memo} {called func arg : Closure} {value : Value}

theorem table_clear (ident : Ident) :
    (memo.clear ident).table func =
      if ident = func.ident then .empty func else memo.table func := by
  rw [table, tables_clear]
  split <;> rfl

theorem entries_table (same : called.ident = func.ident) :
    (memo.table called).entries = (memo.table func).entries := by
  rw [table, table, same]
  cases memo.tables[func.ident]? <;> rfl

theorem entries_insert (own : called.ident = func.ident) :
    ((memo.insert called arg value).table func).entries =
      ((memo.table func).insert arg.ident value).entries := by
  rw [table, ← own, tables_insert_self, Option.getD_some, MemoTable.insert, MemoTable.insert,
    entries_table own]

theorem table_insert_other (other : called.ident ≠ func.ident) :
    (memo.insert called arg value).table func = memo.table func := by
  rw [table, tables_insert_other other, table]

theorem table_visit (swept key : Ident) (alive : IdentSet) :
    (memo.visit swept key alive).table func =
      if swept = func.ident then (memo.table func).visit alive.contains key
      else memo.table func := by
  rw [table, tables_visit]
  split
  · rw [table]
    cases memo.tables[func.ident]? with
    | none =>
        rw [Option.map_none, Option.getD_none, MemoTable.visit]
        split <;> rfl
    | some table => rfl
  · rw [table]

theorem mem_table_iff {key : Ident} :
    key ∈ (memo.table func).entries ↔ (memo.entry func.ident key).isSome = true := by
  rw [Std.TreeMap.mem_iff_isSome_getElem?, table, entry]
  cases memo.tables[func.ident]? with
  | none => simp [MemoTable.empty]
  | some table => rfl

theorem dueKeys_congr (same : called.ident = func.ident) :
    memo.dueKeys called = memo.dueKeys func := by
  rw [dueKeys, dueKeys, sweepDue, sweepDue, same, entries_table same]

/-- A sweep that is due has to come to every key of the table. -/
theorem dueKeys_cases (memo : Memo) (func : Closure) :
    (memo.dueKeys func = [] ∧
      ¬(1024 ≤ (memo.table func).size ∧ (memo.table func).size.isPowerOfTwo)) ∨
    (memo.dueKeys func = (memo.table func).entries.keys ∧ memo.dueKeys func ≠ []) := by
  have due : memo.sweepDue func = true ↔
      1024 ≤ (memo.table func).size ∧ (memo.table func).size.isPowerOfTwo := by
    rw [← MemoTable.sweepDue_iff, sweepDue, table]
    cases memo.tables[func.ident]? with
    | none =>
        refine iff_of_false Bool.false_ne_true fun due => ?_
        exact absurd (MemoTable.sweepDue_iff.mp due).1 (show ¬1024 ≤ 0 by decide)
    | some table => rfl
  by_cases sweeps : memo.sweepDue func = true
  · have keys : memo.dueKeys func = (memo.table func).entries.keys := if_pos sweeps
    refine .inr ⟨keys, fun none => ?_⟩
    have large := (due.mp sweeps).1
    rw [MemoTable.size, ← Std.TreeMap.length_keys, ← keys, none] at large
    contradiction
  · exact .inl ⟨if_neg sweeps, fun large => sweeps (due.mpr large)⟩

end Memo

namespace Moment

def aliveKeys (moment : Moment) (func : Closure) : Nat :=
  (moment.memo.table func).aliveCount moment.alive.contains

/-- How many keys of the closure's table have outlived the sweep so far: those that it has come to,
and those that are alive. -/
def survivors (moment : Moment) (func : Closure) : Nat :=
  (moment.memo.table func).aliveCount fun key =>
    !(moment.pending func.ident).contains key || moment.alive.contains key

/-- Between sweeps, the size is below the one at which the next sweep begins. During a sweep, no
more keys are left than were alive at one time. -/
structure Bounded (moment : Moment) (func : Closure) (peak : Nat) : Prop where
  idle : moment.pending func.ident = [] → BelowSweep peak (moment.memo.table func).size
  swept : moment.pending func.ident ≠ [] →
    moment.alive.contains func.ident = true ∧ moment.survivors func ≤ peak

namespace Bounded

variable {moment after : Moment} {func : Closure} {peak higher : Nat}

theorem of_table_empty (none : moment.pending func.ident = [])
    (empty : moment.memo.table func = .empty func) (peak : Nat) : moment.Bounded func peak :=
  ⟨fun _ => empty ▸ .small (show 0 < 1024 by decide) peak, fun some => absurd none some⟩

theorem survivors_le (pending : after.pending func.ident = moment.pending func.ident)
    (entries : (after.memo.table func).entries = (moment.memo.table func).entries)
    (lives : ∀ key ∈ (moment.memo.table func).entries,
      after.alive.contains key = true → moment.alive.contains key = true) :
    after.survivors func ≤ moment.survivors func := by
  refine MemoTable.aliveCount_le fun key among stays => ?_
  rw [entries] at among
  rw [pending, Bool.or_eq_true] at stays
  exact ⟨among, Bool.or_eq_true _ _ |>.mpr (stays.imp_right (lives key among))⟩

/-- What happens elsewhere, without making a key of the table live longer. -/
theorem elsewhere (bounded : moment.Bounded func peak) (le : peak ≤ higher)
    (pending : after.pending func.ident = moment.pending func.ident)
    (entries : (after.memo.table func).entries = (moment.memo.table func).entries)
    (lives : moment.pending func.ident ≠ [] → after.alive.contains func.ident = true ∧
      ∀ key ∈ (moment.memo.table func).entries,
        after.alive.contains key = true → moment.alive.contains key = true) :
    after.Bounded func higher := by
  refine ⟨fun idle => ?_, fun under => ?_⟩
  · rw [pending] at idle
    rw [MemoTable.size, entries]
    exact (bounded.idle idle).mono le
  · rw [pending] at under
    obtain ⟨holder, fewer⟩ := lives under
    exact ⟨holder, (survivors_le pending entries fewer).trans ((bounded.swept under).2.trans le)⟩

/-- A sweep that is due has all keys before it, so those that are left are those that are alive. -/
theorem recorded {called arg : Closure} {value : Value} (bounded : moment.Bounded func peak)
    (own : called.ident = func.ident) (allowed : moment.Allows (.recorded called arg value))
    (le : peak ≤ higher)
    (now : (moment.after (.recorded called arg value)).aliveKeys func ≤ higher) :
    (moment.after (.recorded called arg value)).Bounded func higher := by
  have entries := @Memo.entries_insert moment.memo called func arg value own
  have idle := bounded.idle (own ▸ allowed.1)
  have pending : (moment.after (.recorded called arg value)).pending func.ident =
      (moment.memo.insert called arg value).dueKeys func := by
    simp only [after, own, Function.update_self, Memo.dueKeys_congr own]
  rcases (moment.memo.insert called arg value).dueKeys_cases func with
    ⟨none, unswept⟩ | ⟨all, some⟩
  · rw [← pending] at none
    refine ⟨fun _ => ?_, fun under => absurd none under⟩
    have grown : ((moment.memo.insert called arg value).table func).size ≤
        (moment.memo.table func).size + 1 := by
      rw [MemoTable.size, entries]
      exact MemoTable.size_insert_le
    exact (idle.mono le).grow grown unswept
  · rw [← pending] at all some
    refine ⟨fun none => absurd none some, fun _ => ⟨own ▸ allowed.2.1, le_trans ?_ now⟩⟩
    refine MemoTable.aliveCount_le fun key among stays => ⟨among, ?_⟩
    have waits : ((moment.after (.recorded called arg value)).pending func.ident).contains key =
        true := by
      rw [all, List.contains_iff_mem]
      exact Std.TreeMap.mem_keys.mpr among
    rwa [waits, Bool.not_true, Bool.false_or] at stays

theorem visited (bounded : moment.Bounded func peak) {key : Ident} (le : peak ≤ higher)
    (among : key ∈ moment.pending func.ident) :
    (moment.after (.visited func.ident key)).Bounded func higher := by
  obtain ⟨holder, few⟩ := bounded.swept (List.ne_nil_of_mem among)
  have table : (moment.after (.visited func.ident key)).memo.table func =
      (moment.memo.table func).visit moment.alive.contains key := by
    rw [after, Memo.table_visit, if_pos rfl]
  have pending : (moment.after (.visited func.ident key)).pending func.ident =
      (moment.pending func.ident).erase key := by
    simp only [after, Function.update_self]
  have fewer : (moment.after (.visited func.ident key)).survivors func ≤ moment.survivors func := by
    refine MemoTable.aliveCount_le fun other among stays => ?_
    rw [table] at among
    obtain ⟨among, spared⟩ := MemoTable.mem_entries_visit.mp among
    refine ⟨among, ?_⟩
    by_cases same : key = other
    · -- the sweep has just found it alive
      have lives : moment.alive.contains other = true := by
        rw [← Bool.not_eq_false]
        exact fun dead => spared ⟨same, dead⟩
      rw [lives, Bool.or_true]
    · simp only [pending, List.contains_eq_mem, List.mem_erase_of_ne (Ne.symm same)] at stays ⊢
      exact stays
  refine ⟨fun done => .of_le ?_, fun _ => ⟨holder, fewer.trans (few.trans le)⟩⟩
  rw [← MemoTable.aliveCount_eq_size]
  · exact fewer.trans (few.trans le)
  · intro other _
    rw [done]
    rfl

end Bounded

end Moment

def Occurrence.begins (func : Closure) : Occurrence → Bool
  | .born ident => ident == func.ident
  | _ => false

namespace History

variable {history : History} {func : Closure}

/-- The most keys of the closure's table that were alive at one time, since the closure is there. -/
def peak (func : Closure) : History → Nat
  | [] => 0
  | occurrence :: earlier =>
      let now := (moment (occurrence :: earlier)).aliveKeys func
      if occurrence.begins func then now else max (peak func earlier) now

theorem peak_le (func : Closure) (occurrence : Occurrence) (earlier : History)
    (goesOn : occurrence.begins func = false) :
    earlier.peak func ≤ peak func (occurrence :: earlier) := by
  rw [peak, goesOn]
  exact Nat.le_max_left _ _

theorem aliveKeys_le_peak (func : Closure) (occurrence : Occurrence) (earlier : History) :
    (moment (occurrence :: earlier)).aliveKeys func ≤ peak func (occurrence :: earlier) := by
  rw [peak]
  split
  · exact Nat.le_refl _
  · exact Nat.le_max_right _ _

theorem bounded (possible : history.Possible) (func : Closure) :
    history.moment.Bounded func (history.peak func) := by
  induction history with
  | nil => exact .of_table_empty rfl rfl 0
  | cons occurrence earlier ih =>
      obtain ⟨before, allowed⟩ := possible
      have bounded := ih before
      cases occurrence with
      | born ident =>
          by_cases new : ident = func.ident
          · refine .of_table_empty ?_ ?_ _
            · simp [moment, Moment.after, new]
            · rw [moment, Moment.after, Memo.table_clear, if_pos new]
          · have other : func.ident ≠ ident := Ne.symm new
            refine bounded.elsewhere (peak_le func _ earlier (beq_eq_false_iff_ne.mpr new)) ?_ ?_ ?_
            · exact Function.update_of_ne other _ _
            · rw [moment, Moment.after, Memo.table_clear, if_neg new]
            · intro under
              obtain ⟨holder, _⟩ := bounded.swept under
              refine ⟨?_, fun key among lives => ?_⟩
              · rw [moment, Moment.after, IdentSet.contains_insert, holder, Bool.or_true]
              · rw [moment, Moment.after, IdentSet.contains_insert, Bool.or_eq_true,
                  beq_iff_eq] at lives
                refine lives.resolve_left fun same => ?_
                rw [Memo.mem_table_iff, ← same, allowed.2 _ holder] at among
                contradiction
      | died ident =>
          by_cases own : ident = func.ident
          · refine .of_table_empty (own ▸ allowed) ?_ _
            rw [moment, Moment.after, Memo.table_clear, if_pos own]
          · refine bounded.elsewhere (peak_le func _ earlier rfl) rfl ?_ fun under => ?_
            · rw [moment, Moment.after, Memo.table_clear, if_neg own]
            · simp only [moment, Moment.after, IdentSet.contains_erase, Bool.and_eq_true]
              exact ⟨⟨bne_iff_ne.mpr own, (bounded.swept under).1⟩, fun _ _ lives => lives.2⟩
      | recorded called arg value =>
          have le := peak_le func (.recorded called arg value) earlier rfl
          by_cases own : called.ident = func.ident
          · exact bounded.recorded own allowed le (aliveKeys_le_peak func _ earlier)
          · refine bounded.elsewhere le ?_ ?_ fun under =>
              ⟨(bounded.swept under).1, fun _ _ lives => lives⟩
            · exact Function.update_of_ne (Ne.symm own) _ _
            · rw [moment, Moment.after, Memo.table_insert_other own]
      | visited swept key =>
          have le := peak_le func (.visited swept key) earlier rfl
          by_cases own : swept = func.ident
          · subst own
            exact bounded.visited le allowed
          · refine bounded.elsewhere le ?_ ?_ fun under =>
              ⟨(bounded.swept under).1, fun _ _ lives => lives⟩
            · exact Function.update_of_ne (Ne.symm own) _ _
            · rw [moment, Moment.after, Memo.table_visit, if_neg own]
      | askedFor called arg => exact bounded.elsewhere (peak_le func _ earlier rfl) rfl rfl fun under =>
          ⟨(bounded.swept under).1, fun _ _ lives => lives⟩

/-- Did the sweep that follows the last recording find this key alive when it came to it? -/
def foundAlive (func key : Ident) : History → Bool
  | [] => false
  | .recorded called _ _ :: earlier =>
      if called.ident = func then false else foundAlive func key earlier
  | .visited swept visited :: earlier =>
      if swept = func ∧ visited = key then (moment earlier).alive.contains key
      else foundAlive func key earlier
  | _ :: earlier => foundAlive func key earlier

/-- During a sweep, and after it as long as the size tells of it, every key that is left is still
before the sweep or was found alive. -/
theorem pending_or_foundAlive (possible : history.Possible) (func : Closure)
    (swept : history.moment.pending func.ident ≠ [] ∨
      1024 ≤ (history.moment.memo.table func).size ∧
        (history.moment.memo.table func).size.isPowerOfTwo) :
    ∀ key ∈ (history.moment.memo.table func).entries,
      key ∈ history.moment.pending func.ident ∨ history.foundAlive func.ident key = true := by
  have empty (key : Ident) : key ∉ (MemoTable.empty func).entries := Std.TreeMap.not_mem_emptyc
  induction history with
  | nil => exact fun key among => absurd among (empty key)
  | cons occurrence earlier ih =>
      obtain ⟨before, allowed⟩ := possible
      cases occurrence with
      | born ident =>
          by_cases new : ident = func.ident
          · intro key among
            rw [moment, Moment.after, Memo.table_clear, if_pos new] at among
            exact absurd among (empty key)
          · simp only [moment, Moment.after, foundAlive, Memo.table_clear, if_neg new,
              Function.update_of_ne (Ne.symm new)] at swept ⊢
            exact ih before swept
      | died ident =>
          by_cases own : ident = func.ident
          · intro key among
            rw [moment, Moment.after, Memo.table_clear, if_pos own] at among
            exact absurd among (empty key)
          · simp only [moment, Moment.after, foundAlive, Memo.table_clear, if_neg own] at swept ⊢
            exact ih before swept
      | recorded called arg value =>
          by_cases own : called.ident = func.ident
          · simp only [moment, Moment.after, own, Function.update_self, Memo.dueKeys_congr own]
              at swept ⊢
            intro key among
            rcases ((moment earlier).memo.insert called arg value).dueKeys_cases func with
              ⟨none, unswept⟩ | ⟨all, _⟩
            · exact absurd swept (not_or.mpr ⟨fun some => some none, unswept⟩)
            · rw [all]
              exact .inl (Std.TreeMap.mem_keys.mpr among)
          · simp only [moment, Moment.after, foundAlive, if_neg own, Memo.table_insert_other own,
              Function.update_of_ne (Ne.symm own)] at swept ⊢
            exact ih before swept
      | visited visitedTable visited =>
          by_cases own : visitedTable = func.ident
          · subst own
            have earlier := ih before (.inl (List.ne_nil_of_mem allowed))
            intro key among
            rw [moment, Moment.after, Memo.table_visit, if_pos rfl] at among
            obtain ⟨among, spared⟩ := MemoTable.mem_entries_visit.mp among
            simp only [moment, Moment.after, Function.update_self, foundAlive, true_and]
            by_cases same : visited = key
            · rw [if_pos same, ← Bool.not_eq_false]
              exact .inr fun dead => spared ⟨same, dead⟩
            · rw [if_neg same]
              exact (earlier key among).imp_left (List.mem_erase_of_ne (Ne.symm same)).mpr
          · simp only [moment, Moment.after, foundAlive, own, false_and, if_false,
              Memo.table_visit, Function.update_of_ne (Ne.symm own)] at swept ⊢
            exact ih before swept
      | askedFor called arg => exact ih before swept

/-- Between sweeps a table has at most 1023 entries, or fewer than twice as many as it had keys that
were alive at one time. And where recording leaves it at a size at which tables are swept, every key
in it was alive when the sweep came to it. -/
theorem dead_keys_are_bounded (possible : history.Possible) (func : Closure)
    (done : history.moment.pending func.ident = []) :
    history.moment.memo.size func ≤ max 1023 (2 * history.peak func - 1) ∧
    (1024 ≤ history.moment.memo.size func → (history.moment.memo.size func).isPowerOfTwo →
      ∀ key ∈ (history.moment.memo.table func).entries,
        history.foundAlive func.ident key = true) := by
  rw [Memo.size_eq_size_table]
  refine ⟨((bounded possible func).idle done).le_max, fun large power key among => ?_⟩
  refine (pending_or_foundAlive possible func (.inr ⟨large, power⟩) key among).resolve_left ?_
  rw [done]
  exact List.not_mem_nil

structure Stocked (history : History) (keys alive : Nat → Prop) (pending : List Nat) : Prop where
  possible : history.Possible
  entry : ∀ owner key : Nat, (history.moment.memo.entry owner key).isSome = true ↔ owner = 0 ∧ keys key
  alive : ∀ ident : Nat, history.moment.alive.contains ident = true ↔ alive ident
  pending : ∀ owner : Nat, history.moment.pending owner = if owner = 0 then pending else []

namespace Stocked

variable {keys alive : Nat → Prop} {pending : List Nat} {key : Nat}

theorem congr {keys' alive' : Nat → Prop} (stocked : history.Stocked keys alive pending)
    (sameKeys : ∀ key, keys key ↔ keys' key) (sameAlive : ∀ ident, alive ident ↔ alive' ident) :
    history.Stocked keys' alive' pending :=
  ⟨stocked.possible, fun owner key => (stocked.entry owner key).trans (by rw [sameKeys]),
    fun ident => (stocked.alive ident).trans (sameAlive ident), stocked.pending⟩

theorem born (stocked : history.Stocked keys alive pending) {ident : Nat} (later : ident ≠ 0)
    (unborn : ¬alive ident) (unused : ¬keys ident) :
    Stocked (.born ident :: history) keys (fun other => other = ident ∨ alive other) pending := by
  refine ⟨⟨stocked.possible, ?_, fun owner _ => ?_⟩, fun owner key => ?_, fun other => ?_,
    fun owner => ?_⟩
  · rw [← Bool.not_eq_true, stocked.alive]
    exact unborn
  · rw [← Option.not_isSome_iff_eq_none, stocked.entry]
    exact fun among => unused among.2
  · rw [moment, Moment.after, Memo.entry_clear]
    split
    · rename_i same
      simp [← same, later]
    · exact stocked.entry owner key
  · rw [moment, Moment.after, IdentSet.contains_insert, Bool.or_eq_true, beq_iff_eq, stocked.alive,
      eq_comm]
  · simp only [moment, Moment.after, Function.update_apply, stocked.pending]
    grind

theorem died (stocked : history.Stocked keys alive pending) {ident : Nat} (later : ident ≠ 0) :
    Stocked (.died ident :: history) keys (fun other => ident ≠ other ∧ alive other) pending := by
  refine ⟨⟨stocked.possible, ?_⟩, fun owner key => ?_, fun other => ?_, stocked.pending⟩
  · rw [Moment.Allows, stocked.pending, if_neg later]
  · rw [moment, Moment.after, Memo.entry_clear]
    split
    · rename_i same
      simp [← same, later]
    · exact stocked.entry owner key
  · rw [moment, Moment.after, IdentSet.contains_erase, Bool.and_eq_true, bne_iff_ne, stocked.alive]

theorem allows_recorded (stocked : history.Stocked keys alive []) (holder : alive 0)
    (lives : alive key) (value : Value) :
    history.moment.Allows (.recorded (bare 0) (bare key) value) :=
  ⟨stocked.pending 0, (stocked.alive 0).mpr holder, (stocked.alive key).mpr lives⟩

theorem entry_insert (stocked : history.Stocked keys alive pending) (key : Nat) (value : Value)
    (owner other : Nat) :
    ((history.moment.memo.insert (bare 0) (bare key) value).entry owner other).isSome = true ↔
      owner = 0 ∧ (other = key ∨ keys other) := by
  rw [Memo.entry_insert]
  split
  · rename_i same
    simp [← same.1, ← same.2, bare]
  · rename_i different
    rw [stocked.entry]
    simp only [bare] at different
    grind

/-- Where all keys are alive, a sweep changes nothing. -/
theorem recordAtOnce (stocked : history.Stocked keys alive []) (value : Value) (holder : alive 0)
    (lives : alive key) (all : ∀ other, keys other → alive other) :
    (history.recordAtOnce (bare 0) (bare key) value).Stocked
      (fun other => other = key ∨ keys other) alive [] := by
  obtain ⟨possible, sameAlive, samePending, tables⟩ := recordAtOnce_eq_record stocked.possible
    (stocked.allows_recorded holder lives value)
  refine ⟨possible, fun owner other => ?_, fun ident => sameAlive ▸ stocked.alive ident,
    fun owner => samePending ▸ stocked.pending owner⟩
  rw [Memo.entry, tables owner, ← Memo.entry]
  constructor
  · intro found
    obtain ⟨result, found⟩ := Option.isSome_iff_exists.mp found
    rw [← stocked.entry_insert key value, Memo.entry_insert_of_entry_record found, Option.isSome_some]
  · rintro ⟨rfl, among⟩
    have stays : alive other := among.elim (fun same => same ▸ lives) (all other)
    rw [Memo.entry_record ((stocked.alive 0).mpr holder) ((stocked.alive other).mpr stays)]
    exact (stocked.entry_insert key value 0 other).mpr ⟨rfl, among⟩

theorem recorded (stocked : history.Stocked keys alive []) (value : Value) (holder : alive 0)
    (lives : alive key) :
    let after : History := .recorded (bare 0) (bare key) value :: history
    after.Stocked (fun other => other = key ∨ keys other) alive
      (after.moment.memo.dueKeys (bare 0)) := by
  refine ⟨⟨stocked.possible, stocked.allows_recorded holder lives value⟩,
    stocked.entry_insert key value, stocked.alive, fun owner => ?_⟩
  simp only [moment, Moment.after, Function.update_apply, stocked.pending, bare]
  grind

theorem visited (stocked : history.Stocked keys alive pending) (among : key ∈ pending) :
    Stocked (.visited 0 key :: history) (fun other => keys other ∧ (other = key → alive key)) alive
      (pending.erase key) := by
  refine ⟨⟨stocked.possible, ?_⟩, fun owner other => ?_, stocked.alive, fun owner => ?_⟩
  · rw [Moment.Allows, stocked.pending]
    exact among
  · have dies : history.moment.alive.contains other = false ↔ ¬alive other := by
      rw [← Bool.not_eq_true, stocked.alive]
    rw [moment, Moment.after, Memo.entry_visit]
    split
    · rename_i gone
      obtain ⟨_, same, dead⟩ := gone
      exact iff_of_false Bool.false_ne_true fun stays =>
        dies.mp dead (same ▸ stays.2.2 same.symm)
    · rename_i stays
      rw [stocked.entry]
      grind
  · simp only [moment, Moment.after, Function.update_apply, stocked.pending]
    grind

theorem mem_table (stocked : history.Stocked keys alive pending) (key : Nat) :
    key ∈ (history.moment.memo.table (bare 0)).entries ↔ keys key := by
  rw [Memo.mem_table_iff, stocked.entry]
  exact and_iff_right rfl

theorem size (stocked : history.Stocked keys alive pending) {all : List Nat} (nodup : all.Nodup)
    (mem : ∀ key, key ∈ all ↔ keys key) : history.moment.memo.size (bare 0) = all.length := by
  rw [Memo.size_eq_size_table, MemoTable.size, ← Std.TreeMap.length_keys]
  refine List.Perm.length_eq ?_
  rw [List.perm_ext_iff_of_nodup (MemoTable.nodup_keys _) nodup]
  intro key
  rw [Std.TreeMap.mem_keys, stocked.mem_table, mem]

end Stocked

def resultFor (key : Nat) : Value :=
  if key < 1024 then .datum 0 (.byte 0) else .closure (bare 1)

def filled : Nat → History
  | 0 => [.born 0]
  | count + 1 => recordAtOnce (bare 0) (bare (count + 1)) (resultFor (count + 1))
      (.born (count + 1) :: filled count)

def deserted : Nat → History
  | 0 => filled 2047
  | count + 1 => .died (1024 + count) :: deserted count

def sweptTo : Nat → History
  | 0 => .recorded (bare 0) (bare 2048) (resultFor 0) :: .born 2048 :: deserted 1024
  | count + 1 => .visited 0 (count + 1) :: sweptTo count

/-- The entries from 1024 to 2047 go, and nothing else holds closure 1. But the sweep has come to
that one before. -/
def lingering : History :=
  .visited 0 2048 :: .died 1 :: sweptTo 2047

theorem stocked_filled (count : Nat) :
    (filled count).Stocked (fun key => 1 ≤ key ∧ key ≤ count) (fun ident => ident ≤ count) [] := by
  induction count with
  | zero =>
      refine ⟨⟨trivial, ?_⟩, fun owner key => ?_, fun ident => ?_, fun owner => ?_⟩
      · exact ⟨rfl, fun owner lives => rfl⟩
      · exact iff_of_false Bool.false_ne_true (by omega)
      · rw [filled, moment, moment, Moment.after, Moment.start, IdentSet.contains_insert,
          IdentSet.contains_withRoom, Bool.or_false, beq_iff_eq]
        omega
      · simp [filled, moment, Moment.after, Moment.start]
  | succ count ih =>
      have born := ih.born (Nat.succ_ne_zero count) (Nat.not_succ_le_self count)
        fun among => Nat.not_succ_le_self count among.2
      have recorded := born.recordAtOnce (resultFor (count + 1)) (.inr (Nat.zero_le count))
        (.inl rfl) fun _ among => .inr among.2
      exact recorded.congr (fun key => by omega) (fun ident => by omega)

theorem stocked_deserted (count : Nat) (le : count ≤ 1024) :
    (deserted count).Stocked (fun key => 1 ≤ key ∧ key ≤ 2047)
      (fun ident => ident < 1024 ∨ 1024 + count ≤ ident ∧ ident ≤ 2047) [] := by
  induction count with
  | zero => exact (stocked_filled 2047).congr (fun key => Iff.rfl) (fun ident => by omega)
  | succ count ih =>
      have died := (ih (by omega)).died (show 1024 + count ≠ 0 by omega)
      exact died.congr (fun key => Iff.rfl) (fun ident => by omega)

theorem stocked_sweptTo (count : Nat) (le : count ≤ 2047) :
    ∃ pending : List Nat, pending.Nodup ∧
      (∀ key, key ∈ pending ↔ count < key ∧ key ≤ 2048) ∧
      (sweptTo count).Stocked
        (fun key => 1 ≤ key ∧ key ≤ 2048 ∧ (key ≤ count → key < 1024))
        (fun ident => ident < 1024 ∨ ident = 2048) pending := by
  induction count with
  | zero =>
      have unborn : ¬(2048 < 1024 ∨ 1024 + 1024 ≤ 2048 ∧ 2048 ≤ 2047) := by decide
      have unused : ¬(1 ≤ 2048 ∧ 2048 ≤ 2047) := by decide
      have born := (stocked_deserted 1024 (Nat.le_refl _)).born (by decide) unborn unused
      have recorded := born.recorded (resultFor 0) (.inr (.inl (by decide))) (.inl rfl)
      have all : (List.range' 1 2048).Nodup := List.nodup_range'
      have size := recorded.size all fun key => by
        rw [List.mem_range'_1]
        omega
      rw [List.length_range', Memo.size_eq_size_table] at size
      rcases Memo.dueKeys_cases _ (bare 0) with ⟨_, unswept⟩ | ⟨due, _⟩
      · exact (unswept ⟨le_of_le_of_eq (by decide) size.symm, 11, size⟩).elim
      · refine ⟨_, ?_, fun key => ?_, recorded.congr (fun key => by omega) (fun ident => by omega)⟩
        · rw [due]
          exact MemoTable.nodup_keys _
        · rw [due, Std.TreeMap.mem_keys]
          exact (recorded.mem_table key).trans (by omega)
  | succ count ih =>
      obtain ⟨pending, nodup, before, stocked⟩ := ih (by omega)
      refine ⟨pending.erase (count + 1), nodup.erase _, fun key => ?_, ?_⟩
      · rw [nodup.mem_erase_iff, before]
        omega
      · exact (stocked.visited ((before _).mpr (by omega))).congr (fun key => by omega)
          (fun ident => Iff.rfl)

theorem stocked_lingering :
    lingering.Stocked (fun key => 1 ≤ key ∧ key < 1024 ∨ key = 2048)
      (fun ident => ident ≠ 1 ∧ ident < 1024 ∨ ident = 2048) [] := by
  obtain ⟨pending, nodup, before, stocked⟩ := stocked_sweptTo 2047 (Nat.le_refl _)
  have among : 2048 ∈ pending := (before 2048).mpr (by decide)
  have last := (stocked.died (by decide : 1 ≠ 0)).visited among
  have done : pending.erase 2048 = [] := by
    refine List.eq_nil_iff_forall_not_mem.mpr fun key => ?_
    rw [nodup.mem_erase_iff, before]
    omega
  rw [done] at last
  exact last.congr (fun key => by omega) (fun ident => by omega)

theorem size_lingering : lingering.moment.memo.size (bare 0) = 1024 := by
  have nodup : (2048 :: List.range' 1 1023).Nodup := by
    rw [List.nodup_cons, List.mem_range'_1]
    exact ⟨by decide, List.nodup_range'⟩
  refine (stocked_lingering.size nodup fun key => ?_).trans (by simp)
  rw [List.mem_cons, List.mem_range'_1]
  omega

/-- A key may be left that is dead: closure 1 is held by entries only that the sweep removes after it
has come to the key. -/
theorem dead_key_may_be_left : ¬ ∀ (earlier : History) (func : Closure) (last : Ident),
    let history : History := .visited func.ident last :: earlier
    history.Possible → history.moment.pending func.ident = [] →
      1024 ≤ history.moment.memo.size func → (history.moment.memo.size func).isPowerOfTwo →
        ∀ key ∈ (history.moment.memo.table func).entries,
          history.moment.alive.contains key = true := by
  intro claim
  have left : 1 ∈ (lingering.moment.memo.table (bare 0)).entries :=
    (stocked_lingering.mem_table 1).mpr (by omega)
  have lives := claim (.died 1 :: sweptTo 2047) (bare 0) 2048 stocked_lingering.possible
    (stocked_lingering.pending 0) size_lingering.ge ⟨10, size_lingering⟩ 1 left
  have dead := (stocked_lingering.alive 1).not.mpr (by omega)
  exact dead lives

/-- The key that is left was alive when the sweep came to it. -/
theorem key_left_was_found_alive :
    lingering.Possible ∧ lingering.moment.pending 0 = [] ∧
    lingering.moment.memo.size (bare 0) ≤ max 1023 (2 * lingering.peak (bare 0) - 1) ∧
    lingering.foundAlive 0 1 = true := by
  have done : lingering.moment.pending 0 = [] := stocked_lingering.pending 0
  obtain ⟨bounded, spared⟩ := dead_keys_are_bounded stocked_lingering.possible (bare 0) done
  refine ⟨stocked_lingering.possible, done, bounded, ?_⟩
  exact spared size_lingering.ge ⟨10, size_lingering⟩ 1 ((stocked_lingering.mem_table 1).mpr (by omega))

end History

end LambdaMachine
