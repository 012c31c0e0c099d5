import Mathlib.Data.Nat.Bitwise
import Mathlib.Data.BitVec

/-! Fields of consecutive bits in a machine word. -/

set_option autoImplicit false

namespace Grafbase.Foundation
variable {width : Nat}

/-- The word with `count` ones from position `low`. -/
def fieldMask (width low count : Nat) : BitVec width := BitVec.ofNat width ((2 ^ count - 1) <<< low)

def readField (word : BitVec width) (low count : Nat) : Nat := ((word &&& fieldMask width low count) >>> low).toNat

def writeField (word : BitVec width) (low count value : Nat) : BitVec width :=
  (word &&& ~~~fieldMask width low count) ||| BitVec.ofNat width value <<< low

variable {low count : Nat}

theorem getLsbD_fieldMask {index : Nat} (bound : index < width) :
    (fieldMask width low count).getLsbD index = decide (low ≤ index ∧ index < low + count) := by
  rw [fieldMask, BitVec.getLsbD_ofNat, Nat.testBit_shiftLeft, Nat.testBit_two_pow_sub_one]
  by_cases above : low ≤ index
  · have shifted : index - low < count ↔ index < low + count := by omega
    simp [bound, above, shifted]
  · simp [above]

theorem testBit_readField (fits : low + count ≤ width) (word : BitVec width) (index : Nat) :
    (readField word low count).testBit index = (decide (index < count) && word.getLsbD (low + index)) := by
  rw [readField, ← BitVec.getLsbD, BitVec.getLsbD_ushiftRight, BitVec.getLsbD_and]
  by_cases inside : index < count
  · rw [getLsbD_fieldMask (by omega)]
    simp [inside]
  · by_cases bound : low + index < width
    · rw [getLsbD_fieldMask bound]
      simp [inside]
    · simp [inside, BitVec.getLsbD_of_ge word (low + index) (by omega)]

theorem getLsbD_writeField {value index : Nat} (small : value < 2 ^ count) (word : BitVec width)
    (bound : index < width) :
    (writeField word low count value).getLsbD index =
      if low ≤ index ∧ index < low + count then value.testBit (index - low) else word.getLsbD index := by
  rw [writeField, BitVec.getLsbD_or, BitVec.getLsbD_and, BitVec.getLsbD_not, getLsbD_fieldMask bound,
    BitVec.getLsbD_shiftLeft, BitVec.getLsbD_ofNat]
  by_cases above : low ≤ index
  · by_cases below : index < low + count
    · have inWord : index - low < width := by omega
      simp [bound, above, below, inWord]
    · have high : value.testBit (index - low) = false :=
        Nat.testBit_eq_false_of_lt (small.trans_le (Nat.pow_le_pow_right (by decide) (by omega)))
      simp [bound, above, below, high]
  · simp [bound, above, Nat.lt_of_not_le above]

theorem readField_writeField {value : Nat} (fits : low + count ≤ width) (small : value < 2 ^ count)
    (word : BitVec width) : readField (writeField word low count value) low count = value := by
  apply Nat.eq_of_testBit_eq
  intro index
  rw [testBit_readField fits]
  by_cases inside : index < count
  · rw [getLsbD_writeField small word (by omega)]
    simp [inside]
  · have high : value.testBit index = false :=
      Nat.testBit_eq_false_of_lt (small.trans_le (Nat.pow_le_pow_right (by decide) (by omega)))
    simp [inside, high]

theorem readField_congr (fits : low + count ≤ width) {word other : BitVec width}
    (agree : ∀ index, low ≤ index → index < low + count → word.getLsbD index = other.getLsbD index) :
    readField word low count = readField other low count := by
  apply Nat.eq_of_testBit_eq
  intro index
  rw [testBit_readField fits, testBit_readField fits]
  by_cases inside : index < count
  · rw [agree (low + index) (by omega) (by omega)]
  · simp [inside]

theorem getLsbD_eq_of_readField {index : Nat} (fits : low + count ≤ width) {word other : BitVec width}
    (same : readField word low count = readField other low count) (above : low ≤ index) (below : index < low + count) :
    word.getLsbD index = other.getLsbD index := by
  have bit := congrArg (Nat.testBit · (index - low)) same
  simpa [testBit_readField fits, show index - low < count by omega, Nat.add_sub_cancel' above] using bit

/-- The mask of `count` ones above `low` zeros clears the bits below `low`. -/
theorem and_high_mask (low count : Nat) {word : Nat} (small : word < 2 ^ (low + count)) :
    word &&& 2 ^ low * (2 ^ count - 1) = 2 ^ low * (word / 2 ^ low) := by
  have high : (word &&& 2 ^ low * (2 ^ count - 1)) / 2 ^ low = word / 2 ^ low := by
    rw [Nat.and_div_two_pow, Nat.mul_div_cancel_left _ (Nat.two_pow_pos low), Nat.and_two_pow_sub_one_eq_mod]
    exact Nat.mod_eq_of_lt (Nat.div_lt_of_lt_mul (Nat.pow_add 2 low count ▸ small))
  have cleared : (word &&& 2 ^ low * (2 ^ count - 1)) % 2 ^ low = 0 := by
    rw [Nat.and_mod_two_pow, Nat.mul_mod_right, Nat.and_zero]
  rw [← Nat.div_add_mod (word &&& _) (2 ^ low), high, cleared, Nat.add_zero]

end Grafbase.Foundation
