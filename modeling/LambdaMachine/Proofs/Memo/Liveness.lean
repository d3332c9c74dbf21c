import LambdaMachine.Proofs.Memo.Catalog
import LambdaMachine.Proofs.Value.Heap
import Mathlib.Data.List.Nodup
import Mathlib.Data.List.Perm.Subperm

/-!
What evaluation can still come to is alive. The walk that finds out what is alive leaves out what it
has seen before; in a heap this loses nothing, since an instance that was seen holds what it held
then. A sweep therefore keeps every result that can still be asked for.
-/

namespace LambdaMachine

namespace Memo

inductive Reaches (memo : Memo) (heap : Heap) (roots : Ident → Prop) : Ident → Prop
  | root {ident} (held : roots ident) : Reaches memo heap roots ident
  | part {ident cell link} (reached : Reaches memo heap roots ident)
      (found : heap.cells ident = some cell) (among : link ∈ cell.links) :
      Reaches memo heap roots link
  | result {func arg env param body code value link} (owner : Reaches memo heap roots func)
      (closure : heap.cells func = some (.closure env param body code))
      (key : Reaches memo heap roots arg) (recorded : memo.entry func arg = some value)
      (among : link ∈ value.link) : Reaches memo heap roots link

structure In (heap : Heap) (memo : Memo) : Prop where
  issued : memo.Issued heap.next
  results : ∀ owner key value, memo.entry owner key = some value → value.In heap

theorem in_empty (heap : Heap) : Memo.empty.In heap := by
  constructor
  · intro owner key value found
    rw [entry_empty] at found
    cases found
  · intro owner key value found
    rw [entry_empty] at found
    cases found

end Memo

namespace Reached

structure Grows (before after : Reached) : Prop where
  keeps : ∀ ident, before.seen.contains ident = true → after.seen.contains ident = true
  found : ∀ known, before.found = some known → ∃ added, after.found = some (added ++ known) ∧
    ∀ entry ∈ added, before.seen.contains entry.1 = false

theorem Grows.refl (reached : Reached) : reached.Grows reached :=
  ⟨fun _ seen => seen, fun _ found => ⟨[], found, fun _ among => (List.not_mem_nil among).elim⟩⟩

theorem Grows.unseen {before after : Reached} (grows : before.Grows after) {ident : Ident}
    (unseen : after.seen.contains ident = false) : before.seen.contains ident = false :=
  Bool.eq_false_iff.mpr fun seen => Bool.eq_false_iff.mp unseen (grows.keeps ident seen)

theorem Grows.trans {first second third : Reached} (before : first.Grows second)
    (after : second.Grows third) : first.Grows third := by
  refine ⟨fun ident seen => after.keeps ident (before.keeps ident seen), fun known found => ?_⟩
  obtain ⟨added, middle, unseen⟩ := before.found known found
  obtain ⟨more, last, unseenLater⟩ := after.found _ middle
  refine ⟨more ++ added, by rw [last, List.append_assoc], fun entry among => ?_⟩
  rcases List.mem_append.mp among with inMore | inAdded
  · exact before.unseen (unseenLater entry inMore)
  · exact unseen entry inAdded

theorem Grows.foldl {α : Type} {walk : Reached → α → Reached}
    (each : ∀ (reached : Reached) (item : α), reached.Grows (walk reached item)) (items : List α)
    (reached : Reached) : reached.Grows (items.foldl walk reached) := by
  induction items generalizing reached with
  | nil => exact .refl _
  | cons item items ih => exact (each reached item).trans (ih _)

theorem grows_addClosure {reached : Reached} {ident : Ident}
    (unseen : reached.seen.contains ident = false) (env : Env) (owner : Bool) :
    reached.Grows (reached.addClosure ident env owner) := by
  refine ⟨fun other seen => ?_, fun known found => ⟨[(ident, env.link)], ?_, ?_⟩⟩
  · rw [addClosure, IdentSet.contains_insert, seen, Bool.or_true]
  · rw [addClosure, found]
    rfl
  · rintro entry among
    rw [List.mem_singleton.mp among]
    exact unseen

theorem grows_addBinding {reached : Reached} {ident : Ident}
    (unseen : reached.seen.contains ident = false) (value : Value) (outer : Env) :
    reached.Grows (reached.addBinding ident value outer) := by
  refine ⟨fun other seen => ?_, fun known found => ⟨[(ident, value.link ++ outer.link)], ?_, ?_⟩⟩
  · rw [addBinding, IdentSet.contains_insert, seen, Bool.or_true]
  · rw [addBinding, found]
    rfl
  · rintro entry among
    rw [List.mem_singleton.mp among]
    exact unseen

mutual

theorem grows_closure (owners : IdentSet) : ∀ (closure : Closure) (reached : Reached),
    reached.Grows (closure.reach owners reached)
  | ⟨ident, env, param, body, code⟩, reached => by
      rw [Closure.reach]
      split
      · exact .refl _
      · rename_i unseen
        exact (grows_addClosure (Bool.eq_false_iff.mpr unseen) _ _).trans (grows_env owners env _)

theorem grows_builtin (owners : IdentSet) : ∀ (function : Builtin) (reached : Reached),
    reached.Grows (function.reach owners reached)
  | ⟨ident, name, operation, kept⟩, reached => by
      rw [Builtin.reach]
      exact grows_env owners kept reached

theorem grows_env (owners : IdentSet) : ∀ (env : Env) (reached : Reached),
    reached.Grows (env.reach owners reached)
  | .empty, reached => by
      rw [Env.reach]
      exact .refl _
  | .bind ident name value outer, reached => by
      rw [Env.reach]
      split
      · exact .refl _
      · rename_i unseen
        exact ((grows_addBinding (Bool.eq_false_iff.mpr unseen) _ _).trans
          (grows_value owners value _)).trans (grows_env owners outer _)

theorem grows_value (owners : IdentSet) : ∀ (value : Value) (reached : Reached),
    reached.Grows (value.reach owners reached)
  | .closure abstraction, reached => by
      rw [Value.reach]
      exact grows_closure owners abstraction reached
  | .builtin function, reached => by
      rw [Value.reach]
      exact grows_builtin owners function reached
  | .datum ident data, reached => by
      rw [Value.reach]
      exact .refl _

end

structure Covers (heap : Heap) (owners : IdentSet) (before after : Reached) : Prop where
  keeps : ∀ ident, before.seen.contains ident = true → after.seen.contains ident = true
  parts : ∀ ident cell link, after.seen.contains ident = true → before.seen.contains ident = false →
    heap.cells ident = some cell → link ∈ cell.links → after.seen.contains link = true
  queued : ∀ ident env param body code, after.seen.contains ident = true →
    before.seen.contains ident = false → heap.cells ident = some (.closure env param body code) →
    owners.contains ident = true → ident ∈ after.owners
  fresh : ∃ added, after.owners = added ++ before.owners ∧ added.Nodup ∧ ∀ ident ∈ added,
    owners.contains ident = true ∧ before.seen.contains ident = false ∧
      after.seen.contains ident = true

section Covers

variable {heap : Heap} {owners : IdentSet}

theorem Covers.refl (reached : Reached) : reached.Covers heap owners reached :=
  ⟨fun _ seen => seen, fun _ _ _ seen unseen => (Bool.eq_false_iff.mp unseen seen).elim,
    fun _ _ _ _ _ seen unseen => (Bool.eq_false_iff.mp unseen seen).elim,
    [], rfl, List.nodup_nil, fun _ among => (List.not_mem_nil among).elim⟩

theorem Covers.trans {first second third : Reached} (before : first.Covers heap owners second)
    (after : second.Covers heap owners third) : first.Covers heap owners third := by
  obtain ⟨added, addedOwners, addedOnce, addedEach⟩ := before.fresh
  obtain ⟨more, moreOwners, moreOnce, moreEach⟩ := after.fresh
  refine ⟨fun ident seen => after.keeps ident (before.keeps ident seen), ?_, ?_,
    more ++ added, ?_, ?_, ?_⟩
  · intro ident cell link seen unseen found among
    cases between : second.seen.contains ident with
    | false => exact after.parts ident cell link seen between found among
    | true => exact after.keeps link (before.parts ident cell link between unseen found among)
  · intro ident env param body code seen unseen found owner
    cases between : second.seen.contains ident with
    | false => exact after.queued ident env param body code seen between found owner
    | true =>
        rw [moreOwners]
        exact List.mem_append_right _
          (before.queued ident env param body code between unseen found owner)
  · rw [moreOwners, addedOwners, List.append_assoc]
  · refine List.nodup_append.mpr ⟨moreOnce, addedOnce, ?_⟩
    rintro ident inMore other inAdded rfl
    have seen := (addedEach ident inAdded).2.2
    rw [(moreEach ident inMore).2.1] at seen
    cases seen
  · intro ident among
    rcases List.mem_append.mp among with inMore | inAdded
    · obtain ⟨owner, unseen, seen⟩ := moreEach ident inMore
      refine ⟨owner, Bool.eq_false_iff.mpr fun earlier => ?_, seen⟩
      exact Bool.eq_false_iff.mp unseen (before.keeps ident earlier)
    · obtain ⟨owner, unseen, seen⟩ := addedEach ident inAdded
      exact ⟨owner, unseen, after.keeps ident seen⟩

/-- An instance and then what it holds. -/
theorem Covers.add {before middle after : Reached} {ident : Ident} {cell : Cell} {owner : Bool}
    (unseen : before.seen.contains ident = false) (found : heap.cells ident = some cell)
    (seen : ∀ other, middle.seen.contains other = (ident == other || before.seen.contains other))
    (queue : middle.owners = if owner then ident :: before.owners else before.owners)
    (owned : ∀ env param body code, cell = .closure env param body code →
      owner = owners.contains ident)
    (listed : owner = true → owners.contains ident = true)
    (inner : middle.Covers heap owners after)
    (held : ∀ link ∈ cell.links, after.seen.contains link = true) :
    before.Covers heap owners after := by
  have self : middle.seen.contains ident = true := by rw [seen, beq_self_eq_true, Bool.true_or]
  have known (other : Ident) (earlier : before.seen.contains other = true) :
      middle.seen.contains other = true := by rw [seen, earlier, Bool.or_true]
  have new (other : Ident) (between : middle.seen.contains other = true)
      (unknown : before.seen.contains other = false) : ident = other := by
    rw [seen, unknown, Bool.or_false] at between
    exact beq_iff_eq.mp between
  obtain ⟨added, addedOwners, addedOnce, addedEach⟩ := inner.fresh
  refine ⟨fun other earlier => inner.keeps other (known other earlier), ?_, ?_,
    if owner then added ++ [ident] else added, ?_, ?_, ?_⟩
  · intro other otherCell link later unknown otherFound among
    cases between : middle.seen.contains other with
    | false => exact inner.parts other otherCell link later between otherFound among
    | true =>
        cases new other between unknown
        cases found.symm.trans otherFound
        exact held link among
  · intro other env param body code later unknown otherFound isOwner
    cases between : middle.seen.contains other with
    | false => exact inner.queued other env param body code later between otherFound isOwner
    | true =>
        cases new other between unknown
        cases found.symm.trans otherFound
        rw [addedOwners, queue, owned env param body code rfl, if_pos isOwner]
        exact List.mem_append_right _ List.mem_cons_self
  · rw [addedOwners, queue]
    split
    · rw [List.append_assoc]
      rfl
    · rfl
  · split
    · refine List.nodup_append.mpr ⟨addedOnce, List.nodup_singleton _, ?_⟩
      rintro other inAdded _ single rfl
      rw [List.mem_singleton.mp single] at inAdded
      rw [(addedEach ident inAdded).2.1] at self
      cases self
    · exact addedOnce
  · have each (other : Ident) (inAdded : other ∈ added) : owners.contains other = true ∧
        before.seen.contains other = false ∧ after.seen.contains other = true := by
      obtain ⟨isOwner, unknown, later⟩ := addedEach other inAdded
      refine ⟨isOwner, Bool.eq_false_iff.mpr fun earlier => ?_, later⟩
      exact Bool.eq_false_iff.mp unknown (known other earlier)
    split
    · rename_i isOwner
      intro other among
      rcases List.mem_append.mp among with inAdded | single
      · exact each other inAdded
      · rw [List.mem_singleton.mp single]
        exact ⟨listed isOwner, unseen, inner.keeps ident self⟩
    · exact each

mutual

theorem covers_closure : ∀ (closure : Closure) (reached : Reached), closure.In heap →
    reached.Covers heap owners (closure.reach owners reached) ∧
      (closure.reach owners reached).seen.contains closure.ident = true
  | ⟨ident, env, param, body, code⟩, reached, inside => by
      rw [Closure.In, Closure.Within] at inside
      rw [Closure.reach]
      split
      · rename_i seen
        exact ⟨.refl _, seen⟩
      · rename_i unseen
        obtain ⟨inner, held⟩ := covers_env env
          (reached.addClosure ident env (owners.contains ident)) inside.2.2
        have self : (reached.addClosure ident env (owners.contains ident)).seen.contains ident =
            true := by rw [addClosure, IdentSet.contains_insert, beq_self_eq_true, Bool.true_or]
        refine ⟨.add (Bool.eq_false_iff.mpr unseen) inside.1 (fun other => ?_) rfl
          (fun _ _ _ _ _ => rfl) id inner held, inner.keeps ident self⟩
        exact IdentSet.contains_insert _ _ _

theorem covers_builtin : ∀ (function : Builtin) (reached : Reached),
    function.Within heap.next heap.cells →
      reached.Covers heap owners (function.reach owners reached) ∧
        ∀ link ∈ function.kept.link, (function.reach owners reached).seen.contains link = true
  | ⟨ident, name, operation, kept⟩, reached, inside => by
      rw [Builtin.Within] at inside
      rw [Builtin.reach]
      exact covers_env kept reached inside.2

theorem covers_env : ∀ (env : Env) (reached : Reached), env.In heap →
    reached.Covers heap owners (env.reach owners reached) ∧
      ∀ link ∈ env.link, (env.reach owners reached).seen.contains link = true
  | .empty, reached, _ => by
      rw [Env.reach]
      exact ⟨.refl _, fun _ among => (List.not_mem_nil among).elim⟩
  | .bind ident name value outer, reached, inside => by
      rw [Env.In, Env.Within] at inside
      rw [Env.reach]
      split
      · rename_i seen
        exact ⟨.refl _, fun _ among => List.mem_singleton.mp among ▸ seen⟩
      · rename_i unseen
        obtain ⟨toValue, valueHeld⟩ := covers_value value (reached.addBinding ident value outer)
          inside.2.1
        obtain ⟨toOuter, outerHeld⟩ := covers_env outer
          (value.reach owners (reached.addBinding ident value outer)) inside.2.2
        have inner := toValue.trans toOuter
        have self : (reached.addBinding ident value outer).seen.contains ident = true := by
          rw [addBinding, IdentSet.contains_insert, beq_self_eq_true, Bool.true_or]
        have queue : (reached.addBinding ident value outer).owners =
            if false = true then ident :: reached.owners else reached.owners := rfl
        refine ⟨.add (Bool.eq_false_iff.mpr unseen) inside.1 (fun other => ?_) queue ?_ ?_ inner ?_,
          fun link among => List.mem_singleton.mp among ▸ inner.keeps ident self⟩
        · exact IdentSet.contains_insert _ _ _
        · rintro env param body code ⟨⟩
        · exact fun same => Bool.noConfusion same
        · intro link among
          rcases List.mem_append.mp among with inValue | inOuter
          · exact toOuter.keeps link (valueHeld link inValue)
          · exact outerHeld link inOuter

theorem covers_value : ∀ (value : Value) (reached : Reached), value.In heap →
    reached.Covers heap owners (value.reach owners reached) ∧
      ∀ link ∈ value.link, (value.reach owners reached).seen.contains link = true
  | .closure abstraction, reached, inside => by
      rw [Value.In, Value.Within] at inside
      rw [Value.reach]
      obtain ⟨covers, seen⟩ := covers_closure abstraction reached inside
      exact ⟨covers, fun _ among => List.mem_singleton.mp among ▸ seen⟩
  | .builtin function, reached, inside => by
      rw [Value.In, Value.Within] at inside
      rw [Value.reach]
      exact covers_builtin function reached inside
  | .datum ident data, reached, _ => by
      rw [Value.reach]
      exact ⟨.refl _, fun _ among => (List.not_mem_nil among).elim⟩

end

/-- A walk over several things covers each of them. -/
theorem covers_foldl {α : Type} {walk : Reached → α → Reached} {links : α → List Ident}
    {items : List α} (each : ∀ item ∈ items, ∀ reached : Reached,
      reached.Covers heap owners (walk reached item) ∧
        ∀ link ∈ links item, (walk reached item).seen.contains link = true) (reached : Reached) :
    reached.Covers heap owners (items.foldl walk reached) ∧
      ∀ item ∈ items, ∀ link ∈ links item,
        (items.foldl walk reached).seen.contains link = true := by
  induction items generalizing reached with
  | nil => exact ⟨.refl _, fun _ among => (List.not_mem_nil among).elim⟩
  | cons first items ih =>
      obtain ⟨toFirst, held⟩ := each first List.mem_cons_self reached
      obtain ⟨toRest, restHeld⟩ := ih (fun item among => each item (List.mem_cons_of_mem _ among))
        (walk reached first)
      refine ⟨toFirst.trans toRest, fun item among link linked => ?_⟩
      rcases List.mem_cons.mp among with rfl | inRest
      · exact toRest.keeps link (held link linked)
      · exact restHeld item inRest link linked

theorem covers_roots {roots : Roots} (envs : ∀ env ∈ roots.envs, env.In heap)
    (values : ∀ value ∈ roots.values, value.In heap) (reached : Reached) :
    reached.Covers heap owners (roots.reach owners reached) ∧
      (∀ env ∈ roots.envs, ∀ link ∈ env.link,
        (roots.reach owners reached).seen.contains link = true) ∧
      ∀ value ∈ roots.values, ∀ link ∈ value.link,
        (roots.reach owners reached).seen.contains link = true := by
  rw [Roots.reach_eq_foldl]
  obtain ⟨toEnvs, envsHeld⟩ := covers_foldl (fun env among reached =>
    @covers_env heap owners env reached (envs env among)) reached
  obtain ⟨toValues, valuesHeld⟩ := covers_foldl (fun value among reached =>
    @covers_value heap owners value reached (values value among))
    (roots.envs.foldl (fun reached env => env.reach owners reached) reached)
  exact ⟨toEnvs.trans toValues,
    fun env among link linked => toValues.keeps link (envsHeld env among link linked), valuesHeld⟩

end Covers

end Reached

namespace Memo

theorem contains_owners (memo : Memo) (room : Nat) (ident : Ident) :
    (memo.owners room).contains ident = true ↔ ident ∈ memo.tables.keys := by
  have walked (items : List (Ident × MemoTable)) (set : IdentSet) :
      (items.foldl (fun owners item => owners.insert item.1) set).contains ident = true ↔
        set.contains ident = true ∨ ident ∈ items.map Prod.fst := by
    induction items generalizing set with
    | nil => simp
    | cons item items ih =>
        rw [List.foldl_cons, ih, IdentSet.contains_insert, Bool.or_eq_true, beq_iff_eq,
          List.map_cons, List.mem_cons, eq_comm]
        exact ⟨fun either => by tauto, fun either => by tauto⟩
  rw [owners, Std.TreeMap.foldl_eq_foldl_toList, walked, IdentSet.contains_withRoom,
    Std.TreeMap.map_fst_toList_eq_keys]
  simp

theorem mem_keys_of_entry {memo : Memo} {owner key : Ident} {value : Value}
    (found : memo.entry owner key = some value) : owner ∈ memo.tables.keys := by
  obtain ⟨table, tableFound, _⟩ := Option.bind_eq_some_iff.mp found
  rw [Std.TreeMap.mem_keys, Std.TreeMap.mem_iff_isSome_getElem?, tableFound]
  rfl

section Visits

variable {memo : Memo} {heap : Heap} {owners : IdentSet}

theorem covers_reachResults (inside : memo.In heap) (owner : Ident) (reached : Reached) :
    reached.Covers heap owners (memo.reachResults owners owner reached) ∧
      ∀ key value, memo.entry owner key = some value → ∀ link ∈ value.link,
        (memo.reachResults owners owner reached).seen.contains link = true := by
  rw [reachResults]
  cases found : memo.tables[owner]? with
  | none =>
      refine ⟨.refl _, fun key value recorded => ?_⟩
      rw [entry, found] at recorded
      cases recorded
  | some table =>
      have recorded (item : Ident × Value) (among : item ∈ table.entries.toList) :
          memo.entry owner item.1 = some item.2 := by
        rw [entry, found]
        exact Std.TreeMap.mem_toList_iff_getElem?_eq_some.mp among
      dsimp only
      rw [Std.TreeMap.foldl_eq_foldl_toList]
      obtain ⟨covers, held⟩ := Reached.covers_foldl
        (fun item among reached => Reached.covers_value item.2 reached
          (inside.results owner item.1 item.2 (recorded item among))) reached
      refine ⟨covers, fun key value result => held (key, value) ?_⟩
      rw [entry, found] at result
      exact Std.TreeMap.mem_toList_iff_getElem?_eq_some.mpr result

structure Visiting (memo : Memo) (heap : Heap) (owners : IdentSet) (reached : Reached)
    (done : List Ident) : Prop where
  parts : ∀ ident cell link, reached.seen.contains ident = true → heap.cells ident = some cell →
    link ∈ cell.links → reached.seen.contains link = true
  queued : ∀ ident env param body code, reached.seen.contains ident = true →
    heap.cells ident = some (.closure env param body code) → owners.contains ident = true →
    ident ∈ done ++ reached.owners
  visited : ∀ owner ∈ done, ∀ key value, memo.entry owner key = some value →
    ∀ link ∈ value.link, reached.seen.contains link = true
  once : (done ++ reached.owners).Nodup
  listed : ∀ ident ∈ done ++ reached.owners,
    owners.contains ident = true ∧ reached.seen.contains ident = true

theorem visiting_of_covers {room : Nat} {reached : Reached}
    (covers : Reached.Covers heap owners ⟨.withRoom room, [], none⟩ reached) :
    memo.Visiting heap owners reached [] := by
  have unseen := IdentSet.contains_withRoom room
  obtain ⟨added, addedOwners, addedOnce, addedEach⟩ := covers.fresh
  have all : reached.owners = added := addedOwners.trans (List.append_nil added)
  refine ⟨fun ident cell link seen => covers.parts ident cell link seen (unseen ident),
    fun ident env param body code seen => covers.queued ident env param body code seen
      (unseen ident), fun _ among => (List.not_mem_nil among).elim, ?_, ?_⟩
  · rw [all]
    exact addedOnce
  · rw [all]
    exact fun ident among => ⟨(addedEach ident among).1, (addedEach ident among).2.2⟩

theorem Visiting.visit (inside : memo.In heap) {reached : Reached} {done rest : List Ident}
    {owner : Ident} (visiting : memo.Visiting heap owners reached done)
    (pending : reached.owners = owner :: rest) :
    memo.Visiting heap owners
      (memo.reachResults owners owner { reached with owners := rest }) (owner :: done) := by
  obtain ⟨covers, held⟩ := @covers_reachResults _ _ owners inside owner
    { reached with owners := rest }
  generalize memo.reachResults owners owner { reached with owners := rest } = after at covers held
  obtain ⟨added, addedOwners, addedOnce, addedEach⟩ := covers.fresh
  have known : ∀ ident ∈ owner :: (done ++ rest),
      owners.contains ident = true ∧ reached.seen.contains ident = true := by
    refine fun ident among => visiting.listed ident ?_
    rw [pending]
    exact List.perm_middle.symm.subset among
  have permuted : (owner :: done ++ after.owners).Perm (owner :: (done ++ rest) ++ added) := by
    rw [addedOwners, List.cons_append, List.cons_append, List.append_assoc]
    exact ((List.perm_append_comm.append_left done)).cons owner
  have knownOnce : (owner :: (done ++ rest)).Nodup := by
    refine List.perm_middle.nodup_iff.mp ?_
    have once := visiting.once
    rwa [pending] at once
  refine ⟨?_, ?_, ?_, ?_, ?_⟩
  · intro ident cell link seen found among
    cases earlier : reached.seen.contains ident with
    | true => exact covers.keeps link (visiting.parts ident cell link earlier found among)
    | false => exact covers.parts ident cell link seen earlier found among
  · intro ident env param body code seen found isOwner
    refine permuted.symm.subset ?_
    cases earlier : reached.seen.contains ident with
    | true =>
        have among := visiting.queued ident env param body code earlier found isOwner
        rw [pending] at among
        exact List.mem_append_left _ (List.perm_middle.subset among)
    | false =>
        have among := covers.queued ident env param body code seen earlier found isOwner
        refine permuted.subset (List.mem_append_right _ among)
  · intro other among key value recorded link linked
    rcases List.mem_cons.mp among with rfl | before
    · exact held key value recorded link linked
    · exact covers.keeps link (visiting.visited other before key value recorded link linked)
  · refine permuted.nodup_iff.mpr (List.nodup_append.mpr ⟨knownOnce, addedOnce, ?_⟩)
    rintro ident before other inAdded rfl
    have seen := (known ident before).2
    rw [(addedEach ident inAdded).2.1] at seen
    cases seen
  · intro ident among
    rcases List.mem_append.mp (permuted.subset among) with before | inAdded
    · exact ⟨(known ident before).1, covers.keeps ident (known ident before).2⟩
    · exact ⟨(addedEach ident inAdded).1, (addedEach ident inAdded).2.2⟩

/-- There are visits enough to come to an end. -/
theorem Visiting.settled (inside : memo.In heap) {room visits : Nat} {reached : Reached}
    {done : List Ident} (visiting : memo.Visiting heap (memo.owners room) reached done)
    (enough : memo.tables.size ≤ visits + done.length) :
    ∃ all, memo.Visiting heap (memo.owners room)
      (memo.visitTables (memo.owners room) visits reached) all ∧
        (memo.visitTables (memo.owners room) visits reached).owners = [] := by
  induction visits generalizing reached done with
  | zero =>
      refine ⟨done, visiting, ?_⟩
      have among : done ++ reached.owners ⊆ memo.tables.keys := fun ident listed =>
        (contains_owners memo room ident).mp (visiting.listed ident listed).1
      have fits := (List.subperm_of_subset visiting.once among).length_le
      rw [List.length_append, Std.TreeMap.length_keys] at fits
      have nothing : reached.owners.length = 0 := by omega
      exact List.eq_nil_of_length_eq_zero nothing
  | succ visits ih =>
      rw [visitTables]
      split
      · rename_i nothing
        exact ⟨done, visiting, nothing⟩
      · rename_i owner rest pending
        refine ih (visiting.visit inside pending) ?_
        rw [List.length_cons]
        omega

variable (memo owners)

theorem grows_reachResults (owner : Ident) (reached : Reached) :
    reached.Grows (memo.reachResults owners owner reached) := by
  rw [reachResults]
  split
  · rw [Std.TreeMap.foldl_eq_foldl_toList]
    exact .foldl (fun reached (item : Ident × Value) =>
      Reached.grows_value owners item.2 reached) _ _
  · exact .refl _

theorem grows_visitTables (visits : Nat) (reached : Reached) :
    reached.Grows (memo.visitTables owners visits reached) := by
  induction visits generalizing reached with
  | zero => exact .refl _
  | succ visits ih =>
      rw [visitTables]
      split
      · exact .refl _
      · rename_i owner rest pending
        have grows :=
          (grows_reachResults memo owners owner { reached with owners := rest }).trans (ih _)
        exact ⟨grows.keeps, grows.found⟩

theorem grows_reachLoose (seen : IdentSet) :
    Reached.Grows ⟨seen, [], some []⟩ (memo.reachLoose owners seen) := by
  rw [reachLoose, Std.TreeMap.foldl_eq_foldl_toList]
  refine .trans ?_ (grows_visitTables memo owners _ _)
  exact .foldl (fun reached (item : Ident × MemoTable) =>
    Reached.grows_closure owners item.2.owner reached) _ _

variable {memo owners}

theorem contains_foldl_erase {holdings : List (Ident × List Ident)} {stays : Ident → Bool}
    {ident : Ident} (other : ∀ held ∈ holdings, held.1 ≠ ident) (set : IdentSet) :
    (holdings.foldl (fun alive held => if stays held.1 then alive else alive.erase held.1)
      set).contains ident = set.contains ident := by
  induction holdings generalizing set with
  | nil => rfl
  | cons held holdings ih =>
      rw [List.foldl_cons, ih fun later among => other later (List.mem_cons_of_mem _ among)]
      split
      · rfl
      · rw [IdentSet.contains_erase, bne_iff_ne.mpr (other held List.mem_cons_self), Bool.true_and]

/-- What the roots hold is never taken for a loose end. -/
theorem contains_alive {reachRoots : IdentSet → Reached → Reached} {room : Nat} {ident : Ident}
    (rooted : (memo.visitTables (memo.owners room) memo.tables.size
      (reachRoots (memo.owners room) ⟨.withRoom room, [], none⟩)).seen.contains ident = true) :
    (memo.alive reachRoots room).contains ident = true := by
  have grows := grows_reachLoose memo (memo.owners room)
    (memo.visitTables (memo.owners room) memo.tables.size
      (reachRoots (memo.owners room) ⟨.withRoom room, [], none⟩)).seen
  obtain ⟨added, found, unseen⟩ := grows.found [] rfl
  rw [alive, contains_foldl_erase]
  · exact grows.keeps ident rooted
  · rintro _ among rfl
    rw [found, Option.getD_some, List.append_nil] at among
    obtain ⟨entry, inAdded, rfl⟩ := List.mem_map.mp among
    have notSeen := unseen entry inAdded
    rw [rooted] at notSeen
    cases notSeen

/-- What evaluation can come to from roots that are reached is alive. -/
theorem alive_of_reaches (inside : memo.In heap) {reachRoots : IdentSet → Reached → Reached}
    {room : Nat} {roots : Ident → Prop} {ident : Ident}
    (covers : (⟨.withRoom room, [], none⟩ : Reached).Covers heap (memo.owners room)
      (reachRoots (memo.owners room) ⟨.withRoom room, [], none⟩))
    (seen : ∀ root, roots root →
      (reachRoots (memo.owners room) ⟨.withRoom room, [], none⟩).seen.contains root = true)
    (reaches : memo.Reaches heap roots ident) :
    (memo.alive reachRoots room).contains ident = true := by
  obtain ⟨all, visiting, nothing⟩ := (visiting_of_covers covers).settled inside
    (Nat.le_add_right _ _)
  refine contains_alive ?_
  induction reaches with
  | root held => exact (grows_visitTables _ _ _ _).keeps _ (seen _ held)
  | part _ found among reached => exact visiting.parts _ _ _ reached found among
  | result _ closure _ recorded among owner _ =>
      have isOwner := (contains_owners memo room _).mpr (mem_keys_of_entry recorded)
      have done := visiting.queued _ _ _ _ _ owner closure isOwner
      rw [nothing, List.append_nil] at done
      exact visiting.visited _ done _ _ recorded _ among

end Visits

end Memo

end LambdaMachine
