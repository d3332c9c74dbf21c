import LambdaMachine.Proofs.Text.Utf8
import Mathlib.Algebra.Group.Nat.Defs

/-!
Encoding undoes decoding: bytes that decode to a character are the bytes of that character, so
decoding accepts nothing but UTF-8. The classes of malformed bytes are those no character begins
with: codes spread over too many bytes, surrogates, codes past the last one, continuation bytes
with no lead byte before them, and sequences that are cut short.
-/

namespace LambdaMachine.Utf8

def encode (chars : List Char) : List UInt8 :=
  chars.flatMap String.utf8EncodeChar

theorem encode_cons (char : Char) (chars : List Char) :
    encode (char :: chars) = String.utf8EncodeChar char ++ encode chars :=
  rfl

theorem encode_append (chars more : List Char) :
    encode (chars ++ more) = encode chars ++ encode more :=
  List.flatMap_append

theorem utf8EncodeChar_ne_nil (char : Char) : String.utf8EncodeChar char ≠ [] := by
  obtain ⟨lead, rest, encodes⟩ := exists_encodes char
  rw [encodes.bytes]
  exact List.cons_ne_nil lead rest

section Ranges

variable {byte lead second : UInt8}

theorem width?_eq_some {width : Nat} (known : width? lead = some width) :
    width = 1 ∧ lead.toNat < 0x80 ∨
      width = 2 ∧ 0xC2 ≤ lead.toNat ∧ lead.toNat < 0xE0 ∨
      width = 3 ∧ 0xE0 ≤ lead.toNat ∧ lead.toNat < 0xF0 ∨
      width = 4 ∧ 0xF0 ≤ lead.toNat ∧ lead.toNat < 0xF5 := by
  simp only [width?, UInt8.lt_iff_toNat_lt, UInt8.reduceToNat] at known
  split at known
  · cases known; omega
  · split at known
    · cases known
    · split at known
      · cases known; omega
      · split at known
        · cases known; omega
        · split at known
          · cases known; omega
          · cases known

end Ranges

section Soundness

variable {char : Char} {a b c d : UInt8}

theorem payload_eq (byte : UInt8) : payload byte = byte.toNat - 0x80 :=
  rfl

theorem toNat_of_scalar? {code : Nat} (found : scalar? code = some char) : char.toNat = code := by
  unfold scalar? at found
  by_cases valid : code.isValidChar
  · rw [dif_pos valid] at found
    cases found
    rfl
  · rw [dif_neg valid] at found
    cases found

theorem eq_ofNat {byte : UInt8} {code : Nat} (same : byte.toNat = code) :
    byte = UInt8.ofNat code := by
  rw [← same, UInt8.ofNat_toNat]

theorem encoded_one (decoded : decode? [a] = some char) : String.utf8EncodeChar char = [a] := by
  rw [decode?] at decoded
  split at decoded
  · rename_i width
    have code := toNat_of_scalar? decoded
    have small : char.toNat ≤ 0x7F := by have := width?_eq_some width; omega
    rw [String.utf8EncodeChar, eq_ofNat code.symm]
    exact if_pos small
  · cases decoded

theorem encoded_two (decoded : decode? [a, b] = some char) :
    String.utf8EncodeChar char = [a, b] := by
  rw [decode?] at decoded
  split at decoded
  · rename_i fits
    rw [Bool.and_eq_true, decide_eq_true_eq] at fits
    have code := toNat_of_scalar? decoded
    have range : 0xC2 ≤ a.toNat ∧ a.toNat < 0xE0 := by
      have := width?_eq_some fits.1
      omega
    obtain ⟨low, high, -⟩ := secondFits_iff.mp fits.2
    rw [payload_eq] at code
    have notOne : ¬char.toNat ≤ 0x7F := by omega
    have atMost : char.toNat ≤ 0x7FF := by omega
    have first : a.toNat = char.toNat / 64 % 0x20 + 0xC0 := by omega
    have last : b.toNat = char.toNat % 0x40 + 0x80 := by omega
    rw [String.utf8EncodeChar, eq_ofNat first, eq_ofNat last]
    exact (if_neg notOne).trans (if_pos atMost)
  · cases decoded

theorem encoded_three (decoded : decode? [a, b, c] = some char) :
    String.utf8EncodeChar char = [a, b, c] := by
  rw [decode?] at decoded
  split at decoded
  · rename_i fits
    rw [Bool.and_eq_true, Bool.and_eq_true, decide_eq_true_eq] at fits
    have code := toNat_of_scalar? decoded
    have range : 0xE0 ≤ a.toNat ∧ a.toNat < 0xF0 := by
      have := width?_eq_some fits.1.1
      omega
    obtain ⟨low, high, overlong, -⟩ := secondFits_iff.mp fits.1.2
    have third := isContinuation_iff.mp fits.2
    rw [payload_eq, payload_eq] at code
    have notTwo : ¬char.toNat ≤ 0x7FF := by omega
    -- nothing else depends on it, and `omega` would split on it each time
    clear overlong
    have notOne : ¬char.toNat ≤ 0x7F := by omega
    have atMost : char.toNat ≤ 0xFFFF := by omega
    have first : a.toNat = char.toNat / 4096 % 0x10 + 0xE0 := by omega
    have middle : b.toNat = char.toNat / 64 % 0x40 + 0x80 := by omega
    have last : c.toNat = char.toNat % 0x40 + 0x80 := by omega
    rw [String.utf8EncodeChar, eq_ofNat first, eq_ofNat middle, eq_ofNat last]
    exact (if_neg notOne).trans ((if_neg notTwo).trans (if_pos atMost))
  · cases decoded

theorem encoded_four (decoded : decode? [a, b, c, d] = some char) :
    String.utf8EncodeChar char = [a, b, c, d] := by
  rw [decode?] at decoded
  split at decoded
  · rename_i fits
    rw [Bool.and_eq_true, Bool.and_eq_true, Bool.and_eq_true, decide_eq_true_eq] at fits
    have code := toNat_of_scalar? decoded
    have range : 0xF0 ≤ a.toNat ∧ a.toNat < 0xF5 := by
      have := width?_eq_some fits.1.1.1
      omega
    obtain ⟨low, high, -, -, overlong, -⟩ := secondFits_iff.mp fits.1.1.2
    have third := isContinuation_iff.mp fits.1.2
    have fourth := isContinuation_iff.mp fits.2
    rw [payload_eq, payload_eq, payload_eq] at code
    have notThree : ¬char.toNat ≤ 0xFFFF := by omega
    clear overlong
    have notTwo : ¬char.toNat ≤ 0x7FF := by omega
    have notOne : ¬char.toNat ≤ 0x7F := by omega
    have first : a.toNat = char.toNat / 262144 % 0x08 + 0xF0 := by omega
    have upper : b.toNat = char.toNat / 4096 % 0x40 + 0x80 := by omega
    have lower : c.toNat = char.toNat / 64 % 0x40 + 0x80 := by omega
    have last : d.toNat = char.toNat % 0x40 + 0x80 := by omega
    rw [String.utf8EncodeChar, eq_ofNat first, eq_ofNat upper, eq_ofNat lower, eq_ofNat last]
    exact (if_neg notOne).trans ((if_neg notTwo).trans (if_neg notThree))
  · cases decoded

theorem encoded_of_decode? {bytes : List UInt8} (decoded : decode? bytes = some char) :
    String.utf8EncodeChar char = bytes := by
  match bytes with
  | [] => cases decoded
  | [_] => exact encoded_one decoded
  | [_, _] => exact encoded_two decoded
  | [_, _, _] => exact encoded_three decoded
  | [_, _, _, _] => exact encoded_four decoded
  | _ :: _ :: _ :: _ :: _ :: _ => cases decoded

end Soundness

theorem Encodes.tail {char : Char} {lead second : UInt8} {more : List UInt8}
    (encodes : Encodes char lead (second :: more)) :
    secondFits lead second = true ∧ ∀ byte ∈ more, isContinuation byte = true := by
  have decoded := encodes.decoded
  unfold decode? at decoded
  split at decoded
  · cases ‹lead :: second :: more = _›
  · cases ‹lead :: second :: more = _›
    split at decoded
    · rename_i fits
      rw [Bool.and_eq_true] at fits
      exact ⟨fits.2, fun _ among => by cases among⟩
    · cases decoded
  · cases ‹lead :: second :: more = _›
    split at decoded
    · rename_i fits
      rw [Bool.and_eq_true, Bool.and_eq_true] at fits
      simpa using ⟨fits.1.2, fits.2⟩
    · cases decoded
  · cases ‹lead :: second :: more = _›
    split at decoded
    · rename_i fits
      rw [Bool.and_eq_true, Bool.and_eq_true, Bool.and_eq_true] at fits
      simpa using ⟨fits.1.1.2, fits.1.2, fits.2⟩
    · cases decoded
  · cases decoded

def continuations : Nat → Nat → List UInt8
  | 0, _ => []
  | count + 1, code => UInt8.ofNat (0x80 + code / 64 ^ count % 64) :: continuations count code

def spread (width code : Nat) : List UInt8 :=
  UInt8.ofNat (0x100 - 2 ^ (8 - width) + code / 64 ^ (width - 1)) ::
    continuations (width - 1) code

def capacity (width : Nat) : Nat :=
  if width = 1 then 0x80 else 2 ^ (5 * width + 1)

inductive Malformed : List UInt8 → Prop
  | overlong {width code : Nat} (several : 2 ≤ width) (atMost : width ≤ 6)
      (shorter : code < capacity (width - 1)) (more : List UInt8) :
      Malformed (spread width code ++ more)
  | surrogate {code : Nat} (low : 0xD800 ≤ code) (high : code ≤ 0xDFFF) (more : List UInt8) :
      Malformed (spread 3 code ++ more)
  | beyond {width code : Nat} (atLeast : 4 ≤ width) (atMost : width ≤ 6) (past : 0x10FFFF < code)
      (fits : code < capacity width) (more : List UInt8) : Malformed (spread width code ++ more)
  | stray {byte : UInt8} (continues : isContinuation byte = true) (more : List UInt8) :
      Malformed (byte :: more)
  | truncated {char : Char} {read missing more : List UInt8}
      (bytes : String.utf8EncodeChar char = read ++ missing) (some : read ≠ [])
      (short : missing ≠ []) (stops : ∀ byte ∈ more.head?, isContinuation byte = false) :
      Malformed (read ++ more)

theorem not_prefix_of_width? {lead : UInt8} {more : List UInt8} (unknown : width? lead = none)
    (char : Char) : ¬String.utf8EncodeChar char <+: lead :: more := by
  rintro ⟨rest, same⟩
  obtain ⟨first, tail, encodes⟩ := exists_encodes char
  rw [encodes.bytes, List.cons_append] at same
  have known := encodes.width
  rw [(List.cons.inj same).1, unknown] at known
  cases known

theorem not_prefix_of_secondFits {lead second : UInt8} {more : List UInt8}
    (several : 0x80 ≤ lead.toNat) (refused : secondFits lead second = false) (char : Char) :
    ¬String.utf8EncodeChar char <+: lead :: second :: more := by
  rintro ⟨rest, same⟩
  obtain ⟨first, tail, encodes⟩ := exists_encodes char
  rw [encodes.bytes, List.cons_append] at same
  obtain ⟨rfl, tailSame⟩ := List.cons.inj same
  cases tail with
  | nil =>
      have range := width?_eq_some encodes.width
      rw [List.length_nil] at range
      omega
  | cons next tail =>
      rw [List.cons_append] at tailSame
      obtain ⟨rfl, _⟩ := List.cons.inj tailSame
      exact Bool.false_ne_true (refused.symm.trans encodes.tail.1)

theorem not_prefix_of_past {lead : Nat} {more : List UInt8} (small : lead < 256)
    (past : 0xF5 ≤ lead) (char : Char) :
    ¬String.utf8EncodeChar char <+: UInt8.ofNat lead :: more := by
  apply not_prefix_of_width?
  rw [width?_ofNat small, if_neg (by omega), if_neg (by omega), if_neg (by omega),
    if_neg (by omega), if_neg (by omega)]

theorem not_prefix_of_unfit {lead second : Nat} {more : List UInt8} (small : lead < 256)
    (several : 0x80 ≤ lead) (smallSecond : second < 256)
    (unfit : lead = 0xE0 ∧ second < 0xA0 ∨ lead = 0xED ∧ 0xA0 ≤ second ∨
      lead = 0xF0 ∧ second < 0x90 ∨ lead = 0xF4 ∧ 0x90 ≤ second) (char : Char) :
    ¬String.utf8EncodeChar char <+: UInt8.ofNat lead :: UInt8.ofNat second :: more := by
  apply not_prefix_of_secondFits
  · rw [toNat_ofNat small]
    exact several
  · rw [← Bool.not_eq_true, secondFits_iff, toNat_ofNat small, toNat_ofNat smallSecond]
    omega

section Spread

variable (code : Nat)

theorem spread_two : spread 2 code = UInt8.ofNat (0xC0 + code / 64) :: continuations 1 code :=
  rfl

theorem spread_three :
    spread 3 code = UInt8.ofNat (0xE0 + code / 4096) :: UInt8.ofNat (0x80 + code / 64 % 64) ::
      continuations 1 code :=
  rfl

theorem spread_four :
    spread 4 code = UInt8.ofNat (0xF0 + code / 262144) :: UInt8.ofNat (0x80 + code / 4096 % 64) ::
      continuations 2 code :=
  rfl

theorem spread_five :
    spread 5 code = UInt8.ofNat (0xF8 + code / 16777216) :: continuations 4 code :=
  rfl

theorem spread_six :
    spread 6 code = UInt8.ofNat (0xFC + code / 1073741824) :: continuations 5 code :=
  rfl

end Spread

theorem not_prefix_of_overlong {width code : Nat} (several : 2 ≤ width) (atMost : width ≤ 6)
    (shorter : code < capacity (width - 1)) (more : List UInt8) (char : Char) :
    ¬String.utf8EncodeChar char <+: spread width code ++ more := by
  obtain rfl | rfl | rfl | rfl | rfl :
      width = 2 ∨ width = 3 ∨ width = 4 ∨ width = 5 ∨ width = 6 := by omega
  · have small : code < 0x80 := shorter
    rw [spread_two]
    apply not_prefix_of_width?
    rw [width?_ofNat (by omega), if_neg (by omega), if_pos (by omega)]
  · have small : code < 0x800 := shorter
    rw [spread_three]
    apply not_prefix_of_unfit <;> omega
  · have small : code < 0x10000 := shorter
    rw [spread_four]
    apply not_prefix_of_unfit <;> omega
  · have small : code < 0x200000 := shorter
    rw [spread_five]
    apply not_prefix_of_past <;> omega
  · have small : code < 0x4000000 := shorter
    rw [spread_six]
    apply not_prefix_of_past <;> omega

theorem not_prefix_of_surrogate {code : Nat} (low : 0xD800 ≤ code) (high : code ≤ 0xDFFF)
    (more : List UInt8) (char : Char) :
    ¬String.utf8EncodeChar char <+: spread 3 code ++ more := by
  rw [spread_three]
  apply not_prefix_of_unfit <;> omega

theorem not_prefix_of_beyond {width code : Nat} (atLeast : 4 ≤ width) (atMost : width ≤ 6)
    (past : 0x10FFFF < code) (fits : code < capacity width) (more : List UInt8) (char : Char) :
    ¬String.utf8EncodeChar char <+: spread width code ++ more := by
  obtain rfl | rfl | rfl : width = 4 ∨ width = 5 ∨ width = 6 := by omega
  · have small : code < 0x200000 := fits
    rw [spread_four]
    -- a lead byte of 0xF4 still begins characters, the later ones begin none
    by_cases last : code < 0x140000
    · apply not_prefix_of_unfit <;> omega
    · apply not_prefix_of_past <;> omega
  · have small : code < 0x4000000 := fits
    rw [spread_five]
    apply not_prefix_of_past <;> omega
  · have small : code < 0x80000000 := fits
    rw [spread_six]
    apply not_prefix_of_past <;> omega

theorem not_prefix_of_stray {byte : UInt8} (continues : isContinuation byte = true)
    (more : List UInt8) (char : Char) : ¬String.utf8EncodeChar char <+: byte :: more := by
  have range := isContinuation_iff.mp continues
  apply not_prefix_of_width?
  cases known : width? byte with
  | none => rfl
  | some width => have := width?_eq_some known; omega

/-- The bytes after the first one continue the character. -/
theorem Encodes.continues {char : Char} {lead byte : UInt8} {rest : List UInt8}
    (encodes : Encodes char lead rest) (among : byte ∈ rest) : isContinuation byte = true := by
  cases rest with
  | nil => cases among
  | cons second more =>
      rcases List.mem_cons.mp among with rfl | later
      · have fits := secondFits_iff.mp encodes.tail.1
        exact isContinuation_iff.mpr ⟨fits.1, fits.2.1⟩
      · exact encodes.tail.2 byte later

theorem not_prefix_of_truncated {char : Char} {read missing more : List UInt8}
    (bytes : String.utf8EncodeChar char = read ++ missing) (some : read ≠ []) (short : missing ≠ [])
    (stops : ∀ byte ∈ more.head?, isContinuation byte = false) (other : Char) :
    ¬String.utf8EncodeChar other <+: read ++ more := by
  obtain ⟨lead, rest, encodes⟩ := exists_encodes char
  obtain ⟨first, tail, encodesOther⟩ := exists_encodes other
  obtain ⟨front, read, rfl⟩ := List.exists_cons_of_ne_nil some
  rintro ⟨after, same⟩
  rw [encodes.bytes, List.cons_append] at bytes
  rw [encodesOther.bytes, List.cons_append, List.cons_append] at same
  obtain ⟨rfl, rfl⟩ := List.cons.inj bytes
  obtain ⟨rfl, tailSame⟩ := List.cons.inj same
  -- both have the length that the lead byte tells, so the second one goes on after `read`
  have lengths : tail.length = (read ++ missing).length :=
    Nat.succ.inj (Option.some.inj (encodesOther.width.symm.trans encodes.width))
  have longer : 0 < missing.length := List.length_pos_iff.mpr short
  rw [List.length_append] at lengths
  obtain ⟨rfl, rfl⟩ | ⟨next, last, rfl, rfl⟩ :
      (tail = read ∧ more = after) ∨ ∃ next last, tail = read ++ next :: last ∧
        more = next :: last ++ after := by
    rcases List.append_eq_append_iff.mp tailSame with
      ⟨gap, readSame, _⟩ | ⟨gap, tailEq, moreSame⟩
    · have shorter := congrArg List.length readSame
      rw [List.length_append] at shorter
      omega
    · cases gap with
      | nil => exact Or.inl ⟨by simpa using tailEq, by simpa using moreSame⟩
      | cons next last => exact Or.inr ⟨next, last, tailEq, moreSame⟩
  · omega
  · have continues : isContinuation next = true :=
      encodesOther.continues (List.mem_append_right _ List.mem_cons_self)
    exact Bool.false_ne_true ((stops next rfl).symm.trans continues)

theorem Malformed.not_prefix {bytes : List UInt8} (malformed : Malformed bytes) (char : Char) :
    ¬String.utf8EncodeChar char <+: bytes := by
  cases malformed with
  | overlong several atMost shorter more =>
      exact not_prefix_of_overlong several atMost shorter more char
  | surrogate low high more => exact not_prefix_of_surrogate low high more char
  | beyond atLeast atMost past fits more =>
      exact not_prefix_of_beyond atLeast atMost past fits more char
  | stray continues more => exact not_prefix_of_stray continues more char
  | truncated bytes some short stops => exact not_prefix_of_truncated bytes some short stops char

theorem Malformed.ne_nil {bytes : List UInt8} (malformed : Malformed bytes) : bytes ≠ [] := by
  cases malformed with
  | truncated bytes some short stops => exact fun empty => some (List.append_eq_nil_iff.mp empty).1
  | overlong _ _ _ _ | surrogate _ _ _ | beyond _ _ _ _ _ | stray _ _ => exact List.cons_ne_nil _ _

end LambdaMachine.Utf8
