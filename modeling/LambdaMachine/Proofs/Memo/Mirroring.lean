import LambdaMachine.Proofs.Memo.Liveness
import LambdaMachine.Proofs.Value.Copy

/-!
The tables of an evaluation and those of its image under other identities. The two are swept at
different times and of different results, but for what evaluation can still come to they have the
same results.
-/

namespace LambdaMachine

namespace Memo

variable {memo other image : Memo} {heap copy later laterCopy : Heap} {label : Ident → Ident}
  {roots laterRoots : Ident → Prop}

theorem In.mono (inside : memo.In heap) (grows : heap.Grows later) : memo.In later := by
  constructor
  · intro owner key value recorded
    obtain ⟨ownerBelow, keyBelow⟩ := inside.issued owner key value recorded
    exact ⟨Nat.lt_of_lt_of_le ownerBelow grows.le, Nat.lt_of_lt_of_le keyBelow grows.le⟩
  · exact fun owner key value recorded =>
      Value.In.mono grows (inside.results owner key value recorded)

theorem In.fewer (inside : memo.In heap) (fewer : ∀ owner key value,
    other.entry owner key = some value → memo.entry owner key = some value) : other.In heap :=
  ⟨fun owner key value recorded => inside.issued owner key value (fewer owner key value recorded),
    fun owner key value recorded => inside.results owner key value (fewer owner key value recorded)⟩

theorem In.insert (inside : memo.In heap) {func arg : Closure} {result : Value}
    (funcInside : func.In heap) (argInside : arg.In heap) (resultInside : result.In heap) :
    (memo.insert func arg result).In heap := by
  constructor
  · intro owner key value recorded
    rcases entry_of_entry_insert recorded with ⟨rfl, rfl, _⟩ | before
    · exact ⟨heap.bounded _ _ (Closure.within_iff.mp funcInside).1,
        heap.bounded _ _ (Closure.within_iff.mp argInside).1⟩
    · exact inside.issued owner key value before
  · intro owner key value recorded
    rcases entry_of_entry_insert recorded with ⟨_, _, rfl⟩ | before
    · exact resultInside
    · exact inside.results owner key value before

theorem In.record (inside : memo.In heap) {func arg : Closure} {result : Value}
    (funcInside : func.In heap) (argInside : arg.In heap) (resultInside : result.In heap)
    (alive : Memo → IdentSet) : (memo.record func arg result alive).In heap :=
  (inside.insert funcInside argInside resultInside).fewer fun _ _ _ => entry_insert_of_entry_record

/-- What is come to from some roots by some tables is come to from others by others, if those hold
the roots and the results. -/
theorem Reaches.transfer (rooted : ∀ root, roots root → other.Reaches heap laterRoots root)
    (recorded : ∀ owner key value, memo.entry owner key = some value →
      other.entry owner key = some value ∨ ∀ link ∈ value.link, laterRoots link)
    {ident : Ident} (reaches : memo.Reaches heap roots ident) :
    other.Reaches heap laterRoots ident := by
  induction reaches with
  | root held => exact rooted _ held
  | part _ found among ih => exact .part ih found among
  | result _ closure _ entry among owner key =>
      rcases recorded _ _ _ entry with same | held
      · exact .result owner closure key same among
      · exact .root (held _ among)

structure Mirrors (label : Ident → Ident) (heap copy : Heap) (roots : Ident → Prop)
    (memo image : Memo) : Prop where
  inside : memo.In heap
  imageInside : image.In copy
  owners : ∀ owner key value, image.entry owner key = some value → ∃ ident, owner = label ident
  results : ∀ func arg env param body code, memo.Reaches heap roots func →
    heap.cells func = some (.closure env param body code) → memo.Reaches heap roots arg →
      image.entry (label func) (label arg) = (memo.entry func arg).map (Value.relabel label)

def Relabelled (label : Ident → Ident) (roots : Ident → Prop) (ident : Ident) : Prop :=
  ∃ root, roots root ∧ label root = ident

/-- The image can come to all that the evaluation itself can come to. -/
theorem Mirrors.reaches (mirrors : memo.Mirrors label heap copy roots image)
    (copied : heap.Copied label copy) {ident : Ident} (reaches : memo.Reaches heap roots ident) :
    image.Reaches copy (Relabelled label roots) (label ident) := by
  induction reaches with
  | root held => exact .root ⟨_, held, rfl⟩
  | @part ident cell link _ found among ih =>
      refine .part ih (copied.cells ident cell found) ?_
      rw [Cell.links_relabel]
      exact List.mem_map_of_mem among
  | @result func arg env param body code value link owner closure key entry among ownerIh keyIh =>
      have same := mirrors.results func arg env param body code owner closure key
      rw [entry] at same
      refine .result ownerIh (copied.cells func _ closure) keyIh same ?_
      rw [Value.link_relabel]
      exact List.mem_map_of_mem among

/-- What comes to the heap later, and other roots, leave nothing more to come to than what is new,
if they hold nothing else. -/
theorem Reaches.old_or_new (inside : memo.In heap) (grows : heap.Grows later)
    (rooted : ∀ root, laterRoots root → memo.Reaches heap roots root ∨ heap.next ≤ root)
    (held : ∀ ident cell link, heap.next ≤ ident → later.cells ident = some cell →
      link ∈ cell.links → memo.Reaches heap roots link ∨ heap.next ≤ link)
    {ident : Ident} (reaches : memo.Reaches later laterRoots ident) :
    memo.Reaches heap roots ident ∨ heap.next ≤ ident := by
  induction reaches with
  | root isRoot => exact rooted _ isRoot
  | @part ident cell link _ found among ih =>
      rcases Nat.lt_or_ge ident heap.next with below | new
      · rw [grows.same ident below] at found
        exact .inl (.part (ih.resolve_right (Nat.not_le.mpr below)) found among)
      · exact held ident cell link new found among
  | @result func arg env param body code value link _ closure _ entry among ownerIh keyIh =>
      obtain ⟨ownerBelow, keyBelow⟩ := inside.issued func arg value entry
      rw [grows.same func ownerBelow] at closure
      exact .inl (.result (ownerIh.resolve_right (Nat.not_le.mpr ownerBelow)) closure
        (keyIh.resolve_right (Nat.not_le.mpr keyBelow)) entry among)

theorem entry_of_le {next owner key : Ident} (issued : memo.Issued next)
    (new : next ≤ owner ∨ next ≤ key) : memo.entry owner key = none := by
  refine Option.eq_none_iff_forall_ne_some.mpr fun value recorded => ?_
  obtain ⟨ownerBelow, keyBelow⟩ := issued owner key value recorded
  rcases new with newOwner | newKey
  · exact Nat.not_le.mpr ownerBelow newOwner
  · exact Nat.not_le.mpr keyBelow newKey

/-- New instances have no results, so the tables stay alike while instances are made. -/
theorem Mirrors.grow (mirrors : memo.Mirrors label heap copy roots image)
    (copied : heap.Copied label copy) (grows : heap.Grows later)
    (copyGrows : copy.Grows laterCopy)
    (rooted : ∀ root, laterRoots root → memo.Reaches heap roots root ∨ heap.next ≤ root)
    (held : ∀ ident cell link, heap.next ≤ ident → later.cells ident = some cell →
      link ∈ cell.links → memo.Reaches heap roots link ∨ heap.next ≤ link) :
    memo.Mirrors label later laterCopy laterRoots image := by
  refine ⟨mirrors.inside.mono grows, mirrors.imageInside.mono copyGrows, mirrors.owners, ?_⟩
  intro func arg env param body code ownerReached closure keyReached
  have none_of_new (new : heap.next ≤ func ∨ heap.next ≤ arg) :
      image.entry (label func) (label arg) = (memo.entry func arg).map (Value.relabel label) := by
    rw [entry_of_le mirrors.inside.issued new, entry_of_le mirrors.imageInside.issued
      (new.imp copied.relabels.le copied.relabels.le), Option.map_none]
  rcases Nat.lt_or_ge func heap.next with below | newOwner
  · rcases ownerReached.old_or_new mirrors.inside grows rooted held with oldOwner | newOwner
    · rcases keyReached.old_or_new mirrors.inside grows rooted held with oldKey | newKey
      · rw [grows.same func below] at closure
        exact mirrors.results func arg env param body code oldOwner closure oldKey
      · exact none_of_new (.inr newKey)
    · exact none_of_new (.inl newOwner)
  · exact none_of_new (.inl newOwner)

/-- Fewer roots are less to come to. -/
theorem Mirrors.reroot (mirrors : memo.Mirrors label heap copy roots image)
    (rooted : ∀ root, laterRoots root → memo.Reaches heap roots root) :
    memo.Mirrors label heap copy laterRoots image := by
  have before (ident : Ident) (reaches : memo.Reaches heap laterRoots ident) :
      memo.Reaches heap roots ident :=
    reaches.transfer rooted fun _ _ _ recorded => .inl recorded
  refine ⟨mirrors.inside, mirrors.imageInside, mirrors.owners, ?_⟩
  intro func arg env param body code owner closure key
  exact mirrors.results func arg env param body code (before func owner) closure (before arg key)

theorem mirrors_refl (inside : memo.In heap) : memo.Mirrors id heap heap roots memo := by
  refine ⟨inside, inside, fun owner _ _ _ => ⟨owner, rfl⟩, fun func arg _ _ _ _ _ _ _ => ?_⟩
  rw [show Value.relabel id = id from funext Value.relabel_id, Option.map_id]
  rfl

/-- The image may give out an identity of its own, which the labels pass over from then on. -/
theorem Mirrors.past (mirrors : memo.Mirrors label heap copy roots image)
    (copied : heap.Copied label copy) (copyGrows : copy.Grows laterCopy) :
    memo.Mirrors (labelPast label heap.next) heap laterCopy roots image := by
  have relabels := copied.relabels
  refine ⟨mirrors.inside, mirrors.imageInside.mono copyGrows, ?_, ?_⟩
  · intro owner key value recorded
    obtain ⟨ident, rfl⟩ := mirrors.owners owner key value recorded
    refine ⟨ident, (labelPast_of_lt (Nat.lt_of_not_le fun new => ?_)).symm⟩
    exact Nat.not_lt.mpr (relabels.le new) (mirrors.imageInside.issued _ _ _ recorded).1
  · intro func arg env param body code ownerReached closure keyReached
    have below := heap.bounded func _ closure
    rw [labelPast_of_lt below]
    rcases Nat.lt_or_ge arg heap.next with argBelow | new
    · rw [labelPast_of_lt argBelow,
        mirrors.results func arg env param body code ownerReached closure keyReached]
      cases recorded : memo.entry func arg with
      | none => rfl
      | some value =>
          have inside := mirrors.inside.results func arg value recorded
          exact congrArg some (@Value.In.relabel_past heap label value inside).symm
    · have imageNew : copy.next ≤ labelPast label heap.next arg := by
        rw [labelPast, if_neg (Nat.not_lt.mpr new)]
        exact Nat.le_succ_of_le (relabels.le new)
      rw [entry_of_le mirrors.inside.issued (.inr new),
        entry_of_le mirrors.imageInside.issued (.inr imageNew), Option.map_none]

section Record

variable {func arg : Closure} {result : Value} {alive imageAlive : Memo → IdentSet}

theorem Mirrors.insert (mirrors : memo.Mirrors label heap copy roots image)
    (copied : heap.Copied label copy) (funcInside : func.In heap) (argInside : arg.In heap)
    (resultInside : result.In heap) (held : ∀ link ∈ result.link, roots link) :
    (memo.insert func arg result).Mirrors label heap copy roots
      (image.insert (func.relabel label) (arg.relabel label) (result.relabel label)) := by
  have before (ident : Ident) (reaches : (memo.insert func arg result).Reaches heap roots ident) :
      memo.Reaches heap roots ident := by
    refine reaches.transfer (fun _ held => .root held) fun owner key value recorded => ?_
    rcases entry_of_entry_insert recorded with ⟨_, _, rfl⟩ | old
    · exact .inr held
    · exact .inl old
  refine ⟨mirrors.inside.insert funcInside argInside resultInside, mirrors.imageInside.insert
    (copied.closure funcInside) (copied.closure argInside) (copied.value resultInside), ?_, ?_⟩
  · intro owner key value recorded
    rcases entry_of_entry_insert recorded with ⟨same, _⟩ | old
    · rw [Closure.relabel_eq] at same
      exact ⟨func.ident, same.symm⟩
    · exact mirrors.owners owner key value old
  · intro owner key env param body code ownerReached closure keyReached
    have old := mirrors.results owner key env param body code (before owner ownerReached) closure
      (before key keyReached)
    have both : (label func.ident = label owner ∧ label arg.ident = label key) ↔
        (func.ident = owner ∧ arg.ident = key) :=
      and_congr ⟨copied.relabels.injective _ _, congrArg label⟩
        ⟨copied.relabels.injective _ _, congrArg label⟩
    rw [entry_insert, entry_insert, Closure.relabel_eq, Closure.relabel_eq, old]
    simp only [both]
    split <;> rfl

/-- A result is recorded on both sides, where what can be come to is alive. -/
theorem Mirrors.record (mirrors : memo.Mirrors label heap copy roots image)
    (copied : heap.Copied label copy) (funcInside : func.In heap) (argInside : arg.In heap)
    (resultInside : result.In heap) (held : ∀ link ∈ result.link, roots link)
    (lives : ∀ ident, (memo.insert func arg result).Reaches heap roots ident →
      (alive (memo.insert func arg result)).contains ident = true)
    (imageLives : ∀ ident,
      (image.insert (func.relabel label) (arg.relabel label) (result.relabel label)).Reaches copy
        (Relabelled label roots) ident →
      (imageAlive (image.insert (func.relabel label) (arg.relabel label)
        (result.relabel label))).contains ident = true) :
    (memo.record func arg result alive).Mirrors label heap copy roots
      (image.record (func.relabel label) (arg.relabel label) (result.relabel label)
        imageAlive) := by
  have inserted := mirrors.insert copied funcInside argInside resultInside held
  refine ⟨inserted.inside.fewer fun _ _ _ => entry_insert_of_entry_record,
    inserted.imageInside.fewer fun _ _ _ => entry_insert_of_entry_record,
    fun owner key value recorded => inserted.owners owner key value
      (entry_insert_of_entry_record recorded), ?_⟩
  intro owner key env param body code ownerReached closure keyReached
  have before (ident : Ident)
      (reaches : (memo.record func arg result alive).Reaches heap roots ident) :
      (memo.insert func arg result).Reaches heap roots ident :=
    reaches.transfer (fun _ held => .root held) fun _ _ _ recorded =>
      .inl (entry_insert_of_entry_record recorded)
  have ownerBefore := before owner ownerReached
  have keyBefore := before key keyReached
  rw [entry_record (lives owner ownerBefore) (lives key keyBefore), entry_record
    (imageLives _ (inserted.reaches copied ownerBefore))
    (imageLives _ (inserted.reaches copied keyBefore))]
  exact inserted.results owner key env param body code ownerBefore closure keyBefore

/-- The image may record results of its own for what cannot be come to. -/
theorem Mirrors.recordAside (mirrors : memo.Mirrors label heap copy roots image)
    (copied : heap.Copied label copy) (funcInside : func.In copy) (argInside : arg.In copy)
    (resultInside : result.In copy) {owner : Ident} (owned : func.ident = label owner)
    (apart : ¬memo.Reaches heap roots owner)
    (imageLives : ∀ ident, memo.Reaches heap roots ident →
      (imageAlive (image.insert func arg result)).contains (label ident) = true) :
    memo.Mirrors label heap copy roots (image.record func arg result imageAlive) := by
  refine ⟨mirrors.inside, mirrors.imageInside.record funcInside argInside resultInside imageAlive,
    ?_, ?_⟩
  · intro other key value recorded
    rcases entry_of_entry_record recorded with ⟨same, _⟩ | old
    · exact ⟨owner, same.symm.trans owned⟩
    · exact mirrors.owners other key value old
  · intro other key env param body code otherReached closure keyReached
    rw [entry_record (imageLives other otherReached) (imageLives key keyReached), entry_insert,
      if_neg]
    · exact mirrors.results other key env param body code otherReached closure keyReached
    · rintro ⟨same, _⟩
      cases copied.relabels.injective _ _ (owned.symm.trans same)
      exact apart otherReached

end Record

/-- What was made later cannot be come to from what was there before. -/
theorem Reaches.lt (inside : memo.In heap) (grows : heap.Grows later)
    (rooted : ∀ root, roots root → ∃ cell, heap.cells root = some cell) {ident : Ident}
    (reaches : memo.Reaches later roots ident) : ident < heap.next := by
  have known : ∃ cell, heap.cells ident = some cell := by
    induction reaches with
    | root isRoot => exact rooted _ isRoot
    | @part ident cell link _ found among ih =>
        obtain ⟨old, oldFound⟩ := ih
        rw [grows.same ident (heap.bounded ident old oldFound)] at found
        exact (heap.within ident cell found).linked among
    | result _ _ _ entry among _ _ => exact (inside.results _ _ _ entry).linked among
  obtain ⟨cell, found⟩ := known
  exact heap.bounded ident cell found

end Memo

end LambdaMachine
