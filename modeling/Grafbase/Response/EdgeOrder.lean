import Grafbase.Foundation.BitFields
import Grafbase.Response.Value
import Mathlib.Data.Prod.Lex

/-! The order of packed response edges.

A packed edge is below `2 ^ 31` for a bound key, from there on for an extra
field and from `3 * 2 ^ 30` on for a list index. What does not fit below the
next bound is read back as another edge.
-/

set_option autoImplicit false

namespace Grafbase.Response
open Foundation

variable (bits : U32)

theorem toNat_and_indexMask : (bits &&& indexMask).toNat = bits.toNat % 2 ^ 30 :=
  (BitVec.toNat_and ..).trans (Nat.and_two_pow_sub_one_eq_mod _ 30)

theorem toNat_and_extraFieldKeyMask : (bits &&& extraFieldKeyMask).toNat = bits.toNat % 2 ^ 31 :=
  (BitVec.toNat_and ..).trans (Nat.and_two_pow_sub_one_eq_mod _ 31)

theorem and_otherFlag_eq_zero : bits &&& otherFlag = 0 ↔ bits.toNat < 2 ^ 31 := by
  have flag : (bits &&& otherFlag).toNat = _ := (BitVec.toNat_and ..).trans (and_high_mask 31 1 bits.isLt)
  rw [← BitVec.toNat_inj, flag, show BitVec.toNat (0 : U32) = 0 from rfl]
  omega

theorem and_indexFlag_eq : bits &&& indexFlag = indexFlag ↔ 3 * 2 ^ 30 ≤ bits.toNat := by
  have flag : (bits &&& indexFlag).toNat = _ := (BitVec.toNat_and ..).trans (and_high_mask 30 2 bits.isLt)
  have := bits.isLt
  rw [← BitVec.toNat_inj, flag, show indexFlag.toNat = 3 * 2 ^ 30 by decide]
  omega

namespace BoundResponseKey

theorem position_eq (key : BoundResponseKey) : key.position = key.bits.toNat / 2 ^ 15 % 2 ^ 16 := by
  rw [position, BitVec.toNat_and, Nat.shiftRight_eq_div_pow, positionBitShift, Nat.and_div_two_pow]
  exact Nat.and_two_pow_sub_one_eq_mod _ 16

theorem toNat_asResponseKey (key : BoundResponseKey) : key.asResponseKey.bits.toNat = key.bits.toNat % 2 ^ 15 :=
  (BitVec.toNat_and ..).trans (Nat.and_two_pow_sub_one_eq_mod _ 15)

end BoundResponseKey

theorem ResponseKey.withPosition_eq (key : ResponseKey) {position : Nat} (small : key.bits ≤ maxResponseKey)
    (early : position ≤ maxPosition) : ∃ bound, key.withPosition position = some bound ∧
      bound.bits.toNat = 2 ^ 15 * position + key.bits.toNat := by
  refine ⟨_, if_pos early, ?_⟩
  have fits : key.bits.toNat < 2 ^ 15 := Nat.lt_succ_of_le (BitVec.le_def.mp small)
  have inWord : position ≤ 2 ^ 16 - 1 := early
  rw [BitVec.toNat_or, BitVec.toNat_shiftLeft, BitVec.toNat_ofNat, Nat.or_comm, Nat.shiftLeft_eq, Nat.mul_comm,
    positionBitShift, Nat.mod_eq_of_lt (by omega), Nat.mod_eq_of_lt (by omega), ← Nat.two_pow_add_eq_or_of_lt fits]

namespace UnpackedResponseEdge

/-- The order of the response: the fields of the query by position and key, extra fields, list indices. -/
def rank : UnpackedResponseEdge → Nat ×ₗ Nat ×ₗ Nat
  | boundResponseKey key => toLex (0, toLex (key.position, key.asResponseKey.bits.toNat))
  | extraFieldResponseKey key => toLex (1, toLex (key.bits.toNat, 0))
  | index position => toLex (2, toLex (position, 0))

def number : UnpackedResponseEdge → Nat
  | boundResponseKey key => key.bits.toNat
  | extraFieldResponseKey key => 2 ^ 31 + key.bits.toNat
  | index position => 3 * 2 ^ 30 + position

def Accepted : UnpackedResponseEdge → Prop
  | boundResponseKey key | extraFieldResponseKey key => key.bits.toNat < 2 ^ 31
  | index position => position % 2 ^ 32 < 2 ^ 30

/-- A key with the bit that tells indices, or an index that the cast to 32 bits makes smaller. -/
def Spills : UnpackedResponseEdge → Prop
  | boundResponseKey _ => False
  | extraFieldResponseKey key => 2 ^ 30 ≤ key.bits.toNat
  | index position => 2 ^ 32 ≤ position

variable {edge : UnpackedResponseEdge} {packed : ResponseEdge}

theorem pack_eq_ok : edge.pack = .ok packed ↔ edge.Accepted ∧ ⟨BitVec.ofNat 32 edge.number⟩ = packed := by
  cases edge with
  | boundResponseKey key =>
    rw [pack, ite_eq_ok, and_otherFlag_eq_zero, number, BitVec.ofNat_toNat, BitVec.setWidth_eq, Accepted]
  | extraFieldResponseKey key =>
    have fits : key.bits &&& extraFieldKeyMask = key.bits ↔ key.bits.toNat < 2 ^ 31 := by
      rw [← BitVec.toNat_inj, toNat_and_extraFieldKeyMask]
      omega
    rw [pack, ite_eq_ok, fits]
    refine and_congr_right fun small => ?_
    have disjoint : number (extraFieldResponseKey key) = (extraFieldKeyFlag ||| key.bits).toNat := by
      rw [BitVec.toNat_or]
      exact Nat.two_pow_add_eq_or_of_lt small 1
    rw [disjoint, BitVec.ofNat_toNat, BitVec.setWidth_eq]
  | index position =>
    have fits : BitVec.ofNat 32 position &&& indexMask = BitVec.ofNat 32 position ↔ position % 2 ^ 32 < 2 ^ 30 := by
      rw [← BitVec.toNat_inj, toNat_and_indexMask, BitVec.toNat_ofNat]
      omega
    rw [pack, ite_eq_ok, fits]
    refine and_congr_right fun small => ?_
    have disjoint : BitVec.ofNat 32 position ||| indexFlag = BitVec.ofNat 32 (number (index position)) := by
      apply BitVec.eq_of_toNat_eq
      rw [BitVec.toNat_or, Nat.or_comm, BitVec.toNat_ofNat, BitVec.toNat_ofNat, number]
      refine (Nat.two_pow_add_eq_or_of_lt small 3).symm.trans ?_
      omega
    rw [disjoint]

/-- Edges are packed such that they can be unpacked, and in their order. -/
structure Embeds (edges : Set UnpackedResponseEdge) : Prop where
  bound : ∀ (key : ResponseKey) position, key.bits ≤ maxResponseKey → position ≤ maxPosition → ∃ bound packed,
    key.withPosition position = some bound ∧ (boundResponseKey bound).pack = .ok packed ∧
      packed.unpack = boundResponseKey bound ∧ bound.position = position ∧ bound.asResponseKey = key
  unpacks : ∀ edge ∈ edges, ∀ packed, edge.pack = .ok packed → packed.unpack = edge
  rejects : ∀ position, index position ∈ edges → 2 ^ 30 ≤ position → ∀ packed, (index position).pack ≠ .ok packed
  ordered : ∀ first ∈ edges, ∀ second ∈ edges, ∀ low high, first.pack = .ok low → second.pack = .ok high →
    (low.bits < high.bits ↔ first.rank < second.rank)

theorem unpack_eq_iff (accepted : edge.Accepted) :
    ResponseEdge.unpack ⟨BitVec.ofNat 32 edge.number⟩ = edge ↔ ¬ edge.Spills := by
  simp only [ResponseEdge.unpack, and_otherFlag_eq_zero, and_indexFlag_eq, toNat_and_indexMask, BitVec.toNat_ofNat]
  cases edge with
  | boundResponseKey key =>
    rw [Accepted] at accepted
    rw [number, if_pos (by omega), BitVec.ofNat_toNat, BitVec.setWidth_eq]
    exact iff_of_true rfl not_false
  | extraFieldResponseKey key =>
    rw [Accepted] at accepted
    rw [number, if_neg (by omega), Spills]
    split
    · next high => exact iff_of_false nofun (by omega)
    · next low =>
      refine iff_of_true (congrArg (extraFieldResponseKey ⟨·⟩) (BitVec.eq_of_toNat_eq ?_)) (by omega)
      rw [toNat_and_extraFieldKeyMask, BitVec.toNat_ofNat]
      omega
  | index position =>
    rw [Accepted] at accepted
    rw [number, if_neg (by omega), if_pos (by omega), index.injEq, Spills]
    omega

theorem embeds_iff {edges : Set UnpackedResponseEdge} :
    Embeds edges ↔ ∀ edge ∈ edges, edge.Accepted → ¬ edge.Spills := by
  constructor
  · intro embeds edge member accepted
    exact (unpack_eq_iff accepted).mp (embeds.unpacks edge member _ (pack_eq_ok.mpr ⟨accepted, rfl⟩))
  · intro fits
    refine ⟨fun key position small early => ?_, fun edge member packed ran => ?_,
      fun position member large packed ran => ?_, ?_⟩
    · obtain ⟨bound, made, number⟩ := key.withPosition_eq small early
      have low : key.bits.toNat < 2 ^ 15 := Nat.lt_succ_of_le (BitVec.le_def.mp small)
      have inWord : position ≤ 2 ^ 16 - 1 := early
      have accepted : (boundResponseKey bound).Accepted := by
        rw [Accepted]
        omega
      refine ⟨bound, _, made, pack_eq_ok.mpr ⟨accepted, rfl⟩, (unpack_eq_iff accepted).mpr not_false, ?_, ?_⟩
      · rw [bound.position_eq, number]
        omega
      · apply congrArg ResponseKey.mk (BitVec.eq_of_toNat_eq (bound.toNat_asResponseKey.trans _))
        rw [number]
        omega
    · obtain ⟨accepted, rfl⟩ := pack_eq_ok.mp ran
      exact (unpack_eq_iff accepted).mpr (fits edge member accepted)
    · obtain ⟨accepted, _⟩ := pack_eq_ok.mp ran
      have := fits _ member accepted
      simp only [Accepted, Spills] at *
      omega
    · intro first isFirst second isSecond low high ranLow ranHigh
      obtain ⟨accepted, rfl⟩ := pack_eq_ok.mp ranLow
      obtain ⟨accepted', rfl⟩ := pack_eq_ok.mp ranHigh
      have small := fits first isFirst accepted
      have small' := fits second isSecond accepted'
      rw [BitVec.lt_def, BitVec.toNat_ofNat, BitVec.toNat_ofNat]
      cases first <;> cases second <;>
        simp only [rank, number, Accepted, Spills, Prod.Lex.toLex_lt_toLex, BoundResponseKey.position_eq,
          BoundResponseKey.toNat_asResponseKey, true_and] at * <;> omega

/-- The index `2 ^ 32` is not rejected, but packed as the index 0. -/
theorem not_embeds_large_index :
    (index (2 ^ 32)).pack = (index 0).pack ∧ (index 0).pack = .ok ⟨indexFlag⟩ ∧ ¬ Embeds {index (2 ^ 32)} := by
  have isPacked : (index (2 ^ 32)).pack = .ok ⟨indexFlag⟩ := pack_eq_ok.mpr ⟨by rw [Accepted]; decide, by decide⟩
  have isZero : (index 0).pack = .ok ⟨indexFlag⟩ := pack_eq_ok.mpr ⟨by rw [Accepted]; decide, by decide⟩
  refine ⟨isPacked.trans isZero.symm, isZero, fun embeds => ?_⟩
  exact embeds.rejects (2 ^ 32) rfl (by decide) _ isPacked

end UnpackedResponseEdge
end Grafbase.Response
