import LambdaMachine.Value.Basic

/-!
Sets of identities. Identities are given out in order, so a row of flags finds each one at once.
-/

namespace LambdaMachine

/-- A set of identities, as a row of flags. Those beyond the row are not in the set. -/
structure IdentSet where
  flags : ByteArray

namespace IdentSet

def doubled (row : ByteArray) : ByteArray :=
  row ++ row

def blank : Nat → ByteArray
  | 0 => ByteArray.empty.push 0
  | doublings + 1 => doubled (blank doublings)

def withRoom (room : Nat) : IdentSet :=
  ⟨blank (room.log2 + 1)⟩

@[inline]
def contains (set : IdentSet) (ident : Ident) : Bool :=
  if bound : ident < set.flags.size then set.flags[ident] != 0 else false

@[inline]
def grow (set : IdentSet) (ident : Ident) : IdentSet :=
  if ident < set.flags.size then set
  else ⟨set.flags ++ ⟨Array.replicate (ident + 1 - set.flags.size) 0⟩⟩

@[inline]
def mark (set : IdentSet) (ident : Ident) (flag : UInt8) : IdentSet :=
  if bound : ident < set.flags.size then ⟨set.flags.set ident flag bound⟩ else set

@[inline]
def insert (set : IdentSet) (ident : Ident) : IdentSet :=
  (set.grow ident).mark ident 1

def erase (set : IdentSet) (ident : Ident) : IdentSet :=
  set.mark ident 0

def flag? (set : IdentSet) (ident : Ident) : Option UInt8 :=
  set.flags.data[ident]?

theorem contains_eq_flag (set : IdentSet) (ident : Nat) :
    set.contains ident = ((set.flag? ident).getD 0 != 0) := by
  unfold contains flag?
  by_cases bound : ident < set.flags.size
  · rw [dif_pos bound, ByteArray.getElem_eq_getElem_data, Array.getElem?_eq_getElem bound,
      Option.getD_some]
  · rw [dif_neg bound, Array.getElem?_eq_none (Nat.le_of_not_lt bound)]
    rfl

theorem getElem?_blank (doublings ident : Nat) :
    ((blank doublings).data[ident]?).getD 0 = 0 := by
  induction doublings generalizing ident with
  | zero => cases ident <;> rfl
  | succ doublings ih =>
      rw [blank, doubled, ByteArray.data_append, Array.getElem?_append]
      split
      · exact ih ident
      · exact ih _

theorem flag?_grow (set : IdentSet) (room ident : Nat) :
    ((set.grow room).flag? ident).getD 0 = (set.flag? ident).getD 0 := by
  unfold grow
  split
  · rfl
  · simp only [flag?, ByteArray.data_append, Array.getElem?_append, Array.getElem?_replicate]
    split
    · rfl
    · rw [Array.getElem?_eq_none (by omega)]
      split <;> rfl

theorem lt_size_grow (set : IdentSet) (ident : Nat) : ident < (set.grow ident).flags.size := by
  unfold grow
  split
  · assumption
  · rw [ByteArray.size_append]
    simp only [ByteArray.size, Array.size_replicate]
    omega

theorem flag?_mark (set : IdentSet) (marked ident : Nat) (flag : UInt8)
    (bound : marked < set.flags.size) :
    (set.mark marked flag).flag? ident = if marked = ident then some flag else set.flag? ident := by
  rw [mark, dif_pos bound]
  exact Array.getElem?_set bound

theorem contains_withRoom (room ident : Nat) : (withRoom room).contains ident = false := by
  rw [contains_eq_flag, flag?, withRoom, getElem?_blank]
  rfl

theorem contains_insert (set : IdentSet) (added ident : Nat) :
    (set.insert added).contains ident = (added == ident || set.contains ident) := by
  rw [contains_eq_flag, contains_eq_flag, insert, flag?_mark _ _ _ _ (lt_size_grow set added)]
  by_cases same : added = ident
  · simp [same]
  · rw [if_neg same, flag?_grow, beq_eq_false_iff_ne.mpr same, Bool.false_or]

theorem contains_erase (set : IdentSet) (erased ident : Nat) :
    (set.erase erased).contains ident = (erased != ident && set.contains ident) := by
  rw [contains_eq_flag, contains_eq_flag, erase]
  by_cases bound : erased < set.flags.size
  · rw [flag?_mark _ _ _ _ bound]
    by_cases same : erased = ident
    · simp [same]
    · rw [if_neg same, bne_iff_ne.mpr same, Bool.true_and]
  · have untouched : set.mark erased 0 = set := by rw [mark, dif_neg bound]
    rw [untouched]
    by_cases same : erased = ident
    · subst same
      rw [flag?, Array.getElem?_eq_none (Nat.le_of_not_lt bound)]
      simp
    · rw [bne_iff_ne.mpr same, Bool.true_and]

end IdentSet

end LambdaMachine
