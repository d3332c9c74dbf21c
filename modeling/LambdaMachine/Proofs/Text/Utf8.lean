import LambdaMachine.Text.Utf8

/-!
Decoding undoes encoding: the first byte of a character tells how many there are, and all of them
together give the character back.
-/

namespace LambdaMachine.Utf8

theorem scalar?_eq_some {code : Nat} {char : Char} (same : code = char.toNat) :
    scalar? code = some char := by
  subst same
  have valid : char.toNat.isValidChar := char.valid
  rw [scalar?, dif_pos valid]
  rfl

section Ranges

variable {byte lead second : UInt8}

theorem isContinuation_iff :
    isContinuation byte = true ↔ 0x80 ≤ byte.toNat ∧ byte.toNat < 0xC0 := by
  simp only [isContinuation, UInt8.lt_iff_toNat_lt, UInt8.le_iff_toNat_le, UInt8.reduceToNat,
    Bool.and_eq_true, decide_eq_true_eq]

theorem secondFits_iff :
    secondFits lead second = true ↔
      0x80 ≤ second.toNat ∧ second.toNat < 0xC0 ∧
      (lead.toNat = 0xE0 → 0xA0 ≤ second.toNat) ∧ (lead.toNat = 0xED → second.toNat < 0xA0) ∧
      (lead.toNat = 0xF0 → 0x90 ≤ second.toNat) ∧ (lead.toNat = 0xF4 → second.toNat < 0x90) := by
  simp only [secondFits, ← UInt8.toNat_inj, UInt8.lt_iff_toNat_lt, UInt8.le_iff_toNat_le,
    UInt8.reduceToNat]
  split
  · simp only [Bool.and_eq_true, decide_eq_true_eq]; omega
  · split
    · simp only [Bool.and_eq_true, decide_eq_true_eq]; omega
    · split
      · simp only [Bool.and_eq_true, decide_eq_true_eq]; omega
      · split
        · simp only [Bool.and_eq_true, decide_eq_true_eq]; omega
        · rw [isContinuation_iff]; omega

end Ranges

section Bytes

variable {lead second byte : Nat}

theorem toNat_ofNat (small : byte < 256) : (UInt8.ofNat byte).toNat = byte := by
  rw [UInt8.toNat_ofNat', Nat.mod_eq_of_lt small]

theorem width?_ofNat (small : byte < 256) :
    width? (UInt8.ofNat byte) =
      if byte < 0x80 then some 1
      else if byte < 0xC2 then none
      else if byte < 0xE0 then some 2
      else if byte < 0xF0 then some 3
      else if byte < 0xF5 then some 4
      else none := by
  simp only [width?, UInt8.lt_iff_toNat_lt, toNat_ofNat small, UInt8.reduceToNat]

theorem payload_ofNat (small : byte < 256) : payload (UInt8.ofNat byte) = byte - 0x80 :=
  congrArg (· - 0x80) (toNat_ofNat small)

theorem isContinuation_ofNat (low : 0x80 ≤ byte) (high : byte < 0xC0) :
    isContinuation (UInt8.ofNat byte) = true := by
  have small : byte < 256 := by omega
  rw [isContinuation_iff, toNat_ofNat small]
  exact ⟨low, high⟩

theorem secondFits_ofNat (small : lead < 256) (low : 0x80 ≤ second) (high : second < 0xC0)
    (overlongThree : lead = 0xE0 → 0xA0 ≤ second) (surrogate : lead = 0xED → second < 0xA0)
    (overlongFour : lead = 0xF0 → 0x90 ≤ second) (beyond : lead = 0xF4 → second < 0x90) :
    secondFits (UInt8.ofNat lead) (UInt8.ofNat second) = true := by
  have smallSecond : second < 256 := by omega
  rw [secondFits_iff, toNat_ofNat small, toNat_ofNat smallSecond]
  exact ⟨low, high, overlongThree, surrogate, overlongFour, beyond⟩

end Bytes

structure Encodes (char : Char) (lead : UInt8) (rest : List UInt8) : Prop where
  bytes : String.utf8EncodeChar char = lead :: rest
  width : width? lead = some (rest.length + 1)
  decoded : decode? (lead :: rest) = some char

section Widths

variable {char : Char}

theorem exists_encodes_one (high : char.toNat ≤ 0x7F) : ∃ lead rest, Encodes char lead rest := by
  have width : width? (UInt8.ofNat char.toNat) = some 1 := by
    rw [width?_ofNat (by omega), if_pos (by omega)]
  refine ⟨UInt8.ofNat char.toNat, [], ?_, width, ?_⟩
  · rw [String.utf8EncodeChar]
    exact if_pos high
  · rw [decode?, if_pos width]
    exact scalar?_eq_some (toNat_ofNat (by omega))

theorem exists_encodes_two (low : 0x7F < char.toNat) (high : char.toNat ≤ 0x7FF) :
    ∃ lead rest, Encodes char lead rest := by
  have width : width? (UInt8.ofNat (char.toNat / 64 % 0x20 + 0xC0)) = some 2 := by
    rw [width?_ofNat (by omega), if_neg (by omega), if_neg (by omega), if_pos (by omega)]
  have fits : secondFits (UInt8.ofNat (char.toNat / 64 % 0x20 + 0xC0))
      (UInt8.ofNat (char.toNat % 0x40 + 0x80)) = true := by
    apply secondFits_ofNat <;> omega
  refine ⟨_, [UInt8.ofNat (char.toNat % 0x40 + 0x80)], ?_, width, ?_⟩
  · rw [String.utf8EncodeChar]
    exact (if_neg (Nat.not_le.mpr low)).trans (if_pos high)
  · rw [decode?, if_pos (by rw [width, fits]; rfl)]
    apply scalar?_eq_some
    rw [toNat_ofNat (by omega), payload_ofNat (by omega)]
    omega

theorem exists_encodes_three (low : 0x7FF < char.toNat) (high : char.toNat ≤ 0xFFFF) :
    ∃ lead rest, Encodes char lead rest := by
  have valid : char.toNat < 0xD800 ∨ 0xDFFF < char.toNat := by
    have valid : char.toNat.isValidChar := char.valid
    rcases valid with below | above
    · exact Or.inl below
    · exact Or.inr above.1
  have width : width? (UInt8.ofNat (char.toNat / 4096 % 0x10 + 0xE0)) = some 3 := by
    rw [width?_ofNat (by omega), if_neg (by omega), if_neg (by omega), if_neg (by omega),
      if_pos (by omega)]
  have fits : secondFits (UInt8.ofNat (char.toNat / 4096 % 0x10 + 0xE0))
      (UInt8.ofNat (char.toNat / 64 % 0x40 + 0x80)) = true := by
    apply secondFits_ofNat <;> omega
  have last : isContinuation (UInt8.ofNat (char.toNat % 0x40 + 0x80)) = true :=
    isContinuation_ofNat (by omega) (by omega)
  refine ⟨_, [UInt8.ofNat (char.toNat / 64 % 0x40 + 0x80), UInt8.ofNat (char.toNat % 0x40 + 0x80)],
    ?_, width, ?_⟩
  · have notOne : ¬char.toNat ≤ 0x7F := by omega
    rw [String.utf8EncodeChar]
    exact (if_neg notOne).trans ((if_neg (Nat.not_le.mpr low)).trans (if_pos high))
  · rw [decode?, if_pos (by rw [width, fits, last]; rfl)]
    apply scalar?_eq_some
    rw [toNat_ofNat (by omega), payload_ofNat (by omega), payload_ofNat (by omega)]
    omega

theorem exists_encodes_four (low : 0xFFFF < char.toNat) : ∃ lead rest, Encodes char lead rest := by
  have high : char.toNat < 0x110000 := by
    have valid : char.toNat.isValidChar := char.valid
    rcases valid with below | above
    · omega
    · exact above.2
  have width : width? (UInt8.ofNat (char.toNat / 262144 % 0x08 + 0xF0)) = some 4 := by
    rw [width?_ofNat (by omega), if_neg (by omega), if_neg (by omega), if_neg (by omega),
      if_neg (by omega), if_pos (by omega)]
  have fits : secondFits (UInt8.ofNat (char.toNat / 262144 % 0x08 + 0xF0))
      (UInt8.ofNat (char.toNat / 4096 % 0x40 + 0x80)) = true := by
    apply secondFits_ofNat <;> omega
  have third : isContinuation (UInt8.ofNat (char.toNat / 64 % 0x40 + 0x80)) = true :=
    isContinuation_ofNat (by omega) (by omega)
  have last : isContinuation (UInt8.ofNat (char.toNat % 0x40 + 0x80)) = true :=
    isContinuation_ofNat (by omega) (by omega)
  refine ⟨_, [UInt8.ofNat (char.toNat / 4096 % 0x40 + 0x80),
    UInt8.ofNat (char.toNat / 64 % 0x40 + 0x80), UInt8.ofNat (char.toNat % 0x40 + 0x80)],
    ?_, width, ?_⟩
  · have notOne : ¬char.toNat ≤ 0x7F := by omega
    have notTwo : ¬char.toNat ≤ 0x7FF := by omega
    rw [String.utf8EncodeChar]
    exact (if_neg notOne).trans ((if_neg notTwo).trans (if_neg (Nat.not_le.mpr low)))
  · rw [decode?, if_pos (by rw [width, fits, third, last]; rfl)]
    apply scalar?_eq_some
    rw [toNat_ofNat (by omega), payload_ofNat (by omega), payload_ofNat (by omega),
      payload_ofNat (by omega)]
    omega

end Widths

theorem exists_encodes (char : Char) : ∃ lead rest, Encodes char lead rest := by
  by_cases one : char.toNat ≤ 0x7F
  · exact exists_encodes_one one
  · by_cases two : char.toNat ≤ 0x7FF
    · exact exists_encodes_two (by omega) two
    · by_cases three : char.toNat ≤ 0xFFFF
      · exact exists_encodes_three (by omega) three
      · exact exists_encodes_four (by omega)

end LambdaMachine.Utf8
