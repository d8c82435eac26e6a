import Tether.Scalar.Binary64

/-!
# Equality of double precision numbers

Numeric equality is decided on the unpacked number, on which the only thing that
does not compare with itself is what is not a number.  Packing a number and taking
it apart again keeps whether it is a number, so the test on the bits tells exactly
the values that are equal to nothing.
-/

namespace Tether
namespace Binary64

open Float.Model (Format UnpackedFloat)
open Float.Model.UnpackedFloat (unpackExponent unpackMantissa packedInfinity packedZero)

section Unpacked

theorem compare_self {f : UnpackedFloat} (h : f.isNaN = false) :
    UnpackedFloat.compare f f = some .eq := by
  cases f with
  | notANumber => cases h
  | infinity sign => cases sign <;> rfl
  | zero sign => rfl
  | finite sign mantissa exponent hpos =>
      have hself : (compare exponent exponent).then (compare mantissa mantissa) = .eq := by
        simp [Std.ReflCmp.compare_self]
      cases sign
      · exact congrArg (fun o => some o.swap) hself
      · exact congrArg some hself

theorem compare_nan_right (f : UnpackedFloat) :
    UnpackedFloat.compare f .notANumber = none := by
  cases f <;> rfl

/-- Only numbers are equal to anything. -/
theorem beq_right {f g : UnpackedFloat} (h : f.beq g = true) : g.isNaN = false := by
  cases g with
  | notANumber =>
      change (UnpackedFloat.compare f .notANumber == some .eq) = true at h
      rw [compare_nan_right] at h
      cases h
  | infinity sign => rfl
  | zero sign => rfl
  | finite sign mantissa exponent hpos => rfl

theorem beq_self (f : UnpackedFloat) : f.beq f = !f.isNaN := by
  cases h : f.isNaN with
  | false =>
      change (UnpackedFloat.compare f f == some .eq) = true
      rw [compare_self h]
      rfl
  | true =>
      cases f with
      | notANumber => rfl
      | infinity sign => cases h
      | zero sign => cases h
      | finite sign mantissa exponent hpos => cases h

/-- What is not a number has an exponent of ones only and a fraction. -/
theorem isNaN_unpack (b : BitVec Format.binary64.numBits) :
    (UnpackedFloat.unpack Format.binary64 b).isNaN =
      (decide (unpackExponent b = -1#_) && !decide (unpackMantissa b = 0#_)) := by
  unfold UnpackedFloat.unpack
  dsimp only
  by_cases hones : unpackExponent b = -1#_
  · by_cases hzero : unpackMantissa b = 0#_
    · rw [if_pos hones, if_pos hzero, decide_eq_true hzero, Bool.not_true, Bool.and_false]
      rfl
    · rw [if_pos hones, if_neg hzero, decide_eq_true hones, decide_eq_false hzero]
      rfl
  · rw [if_neg hones, decide_eq_false hones, Bool.false_and]
    by_cases hsubnormal : unpackExponent b = 0#_
    · rw [if_pos hsubnormal]
      by_cases hzero : unpackMantissa b = 0#_
      · rw [dif_pos hzero]
        rfl
      · rw [dif_neg hzero]
        rfl
    · rw [if_neg hsubnormal]
      rfl

/-- Packing keeps whether something is a number. -/
theorem isNaN_unpack_pack (f : UnpackedFloat) :
    (UnpackedFloat.unpack Format.binary64 (UnpackedFloat.pack Format.binary64 f)).isNaN =
      f.isNaN := by
  rw [isNaN_unpack]
  cases f with
  | notANumber => rfl
  | infinity sign => cases sign <;> rfl
  | zero sign => cases sign <;> rfl
  | finite sign mantissa exponent hpos =>
      change _ = false
      unfold UnpackedFloat.pack
      dsimp only
      split
      · -- Too large a number is packed as an infinity.
        cases sign <;> rfl
      · rename_i hsmall
        split
        · rw [UnpackedFloat.unpackExponent_packComponents, decide_eq_false, Bool.false_and]
          intro heq
          have heq := congrArg BitVec.toNat heq
          rw [BitVec.toNat_ofNat] at heq
          change _ = 2047 at heq
          have hsmall := Nat.lt_of_not_le hsmall
          change _ < 2048 at hsmall
          change _ % 2048 = 2047 at heq
          omega
        · rw [UnpackedFloat.unpackExponent_packComponents]
          rfl

end Unpacked

section Bits

/-- The test on the bits finds what is not a number. -/
theorem isNaN_toFloat (x : Binary64) : x.toFloat.isNaN = x.isNaN := by
  change (UnpackedFloat.unpack Format.binary64 (UnpackedFloat.pack Format.binary64
    (UnpackedFloat.unpack Format.binary64 x.bits.toBitVec))).isNaN = _
  have hmask := Nat.and_two_pow_sub_one_eq_mod x.bits.toNat 63
  rw [isNaN_unpack_pack, isNaN_unpack, isNaN, magnitude, Bool.eq_iff_iff]
  simp only [Nat.reducePow, Nat.reduceSub] at hmask
  simp [UInt64.lt_iff_toNat_lt, ← BitVec.toNat_inj, unpackExponent, unpackMantissa, hmask,
    Nat.shiftRight_eq_div_pow]
  omega

/-- A number is equal to itself, and nothing else is. -/
theorem equals_self (x : Binary64) : equals x x = !x.isNaN := by
  rw [← isNaN_toFloat]
  exact beq_self _

/-- Only numbers are equal to anything. -/
theorem isNaN_of_equals {x y : Binary64} (h : equals x y = true) : y.isNaN = false := by
  rw [← isNaN_toFloat]
  exact beq_right h

end Bits

end Binary64
end Tether
