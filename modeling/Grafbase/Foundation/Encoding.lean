import Mathlib.Data.List.Basic
import Mathlib.Algebra.Order.Ring.Int

/-! Unambiguous byte encodings.

Numbers are written in little-endian bytes of a fixed width. A block is
preceded by its length, so that it can be told apart from what follows.
-/

set_option autoImplicit false

namespace Grafbase.Foundation
open List

def leBytes : Nat → Nat → List UInt8
  | 0, _ => []
  | width + 1, value => UInt8.ofNat value :: leBytes width (value / 256)

@[simp] theorem leBytes_length (width value : Nat) : (leBytes width value).length = width := by
  induction width generalizing value with
  | zero => rfl
  | succ width ih => simp [leBytes, ih]

variable {width : Nat} {rest other : List UInt8}

theorem leBytes_getElem? {index : Nat} (value : Nat) (bound : index < width) :
    (leBytes width value)[index]? = some (UInt8.ofNat (value / 256 ^ index)) := by
  induction width generalizing value index with
  | zero => omega
  | succ width ih =>
    cases index with
    | zero => simp [leBytes]
    | succ index =>
      rw [leBytes, getElem?_cons_succ, ih _ (by omega), Nat.div_div_eq_div_mul, Nat.pow_succ, Nat.mul_comm]

theorem leBytes_inj {first second : Nat} (firstFits : first < 256 ^ width) (secondFits : second < 256 ^ width)
    (same : leBytes width first = leBytes width second) : first = second := by
  induction width generalizing first second with
  | zero =>
    simp only [Nat.pow_zero, Nat.lt_one_iff] at firstFits secondFits
    rw [firstFits, secondFits]
  | succ width ih =>
    obtain ⟨low, high⟩ := cons.inj same
    have low : first % 256 = second % 256 := by simpa using congrArg UInt8.toNat low
    have high : first / 256 = second / 256 := by
      refine ih ?_ ?_ high
      · exact Nat.div_lt_of_lt_mul (by rwa [Nat.pow_succ, Nat.mul_comm] at firstFits)
      · exact Nat.div_lt_of_lt_mul (by rwa [Nat.pow_succ, Nat.mul_comm] at secondFits)
    omega

theorem leBytes_append_inj {first second : Nat} (firstFits : first < 256 ^ width) (secondFits : second < 256 ^ width)
    (same : leBytes width first ++ rest = leBytes width second ++ other) : first = second ∧ rest = other := by
  obtain ⟨number, rest⟩ := append_inj same (by simp)
  exact ⟨leBytes_inj firstFits secondFits number, rest⟩

/-- Bytes after their length in eight bytes. -/
def block (bytes : List UInt8) : List UInt8 := leBytes 8 bytes.length ++ bytes

theorem block_append_inj {first second : List UInt8} (firstFits : first.length < 2 ^ 64)
    (secondFits : second.length < 2 ^ 64) (same : block first ++ rest = block second ++ other) :
    first = second ∧ rest = other := by
  rw [block, block, append_assoc, append_assoc] at same
  obtain ⟨length, tail⟩ := leBytes_append_inj firstFits secondFits same
  exact append_inj tail length

/-- Encodings of items one after the other are told apart when those of single items are. -/
theorem flatMap_append_inj {α : Type} {encode : α → List UInt8} {valid : α → Prop}
    (separates : ∀ first second rest other, valid first → valid second →
      encode first ++ rest = encode second ++ other → first = second ∧ rest = other)
    {first second : List α} (firstValid : ∀ item ∈ first, valid item)
    (secondValid : ∀ item ∈ second, valid item) (length : first.length = second.length)
    (same : first.flatMap encode ++ rest = second.flatMap encode ++ other) : first = second ∧ rest = other := by
  induction first generalizing second with
  | nil =>
    cases second with
    | nil => exact ⟨rfl, same⟩
    | cons => simp at length
  | cons item items ih =>
    cases second with
    | nil => simp at length
    | cons peer peers =>
      simp only [flatMap_cons, append_assoc] at same
      rw [forall_mem_cons] at firstValid secondValid
      obtain ⟨rfl, tail⟩ := separates _ _ _ _ firstValid.1 secondValid.1 same
      obtain ⟨rfl, rest⟩ := ih firstValid.2 secondValid.2 (by simpa using length) tail
      exact ⟨rfl, rest⟩

end Grafbase.Foundation
