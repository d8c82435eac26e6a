import Mathlib.Algebra.Order.Ring.Rat
import Mathlib.Algebra.Order.Field.Basic
import Mathlib.Data.Sign.Defs
import Tether.Proofs.Scalar.Binary64
import Tether.Scalar.Rational

/-!
# The rules of signs

What the dual steps ask of the arithmetic is that products and quotients are on
the side of zero that their factors say, or are zero, or are no numbers at all.
Rational numbers obey these rules, and so do double precision numbers: rounding
may turn a number into zero but never takes it across.
-/

namespace Tether

/-- The rules of signs, in the shapes in which a pivot meets them. -/
class SignRules (α : Type) [Scalar α] : Prop where
  /-- Minus one is negative. -/
  negative_neg_one : Scalar.negative (-Scalar.one : α) = true
  /-- A negative number divided by a positive one is not positive. -/
  positive_div {x y : α} (hx : Scalar.negative x = true) (hy : Scalar.positive y = true) :
    Scalar.positive (x / y) = false
  /-- A negative number times one that is not positive is not negative. -/
  negative_mul {x y : α} (hx : Scalar.negative x = true) (hy : Scalar.positive y = false) :
    Scalar.negative (x * y) = false
  /-- What lies below zero by more than the tolerance is negative. -/
  negative_of_infeasible {x : α} (hx : Scalar.infeasible x = true) : Scalar.negative x = true

section Exact

theorem negative_rat (x : Rat) : Scalar.negative x = decide (x < 0) :=
  rfl

theorem positive_rat (x : Rat) : Scalar.positive x = decide (0 < x) :=
  rfl

instance : SignRules Rat where
  negative_neg_one := by decide
  positive_div {x y} hx hy := by
    rw [negative_rat, decide_eq_true_iff] at hx
    rw [positive_rat, decide_eq_true_iff] at hy
    rw [positive_rat, decide_eq_false_iff_not]
    exact not_lt.mpr (div_nonpos_of_nonpos_of_nonneg hx.le hy.le)
  negative_mul {x y} hx hy := by
    rw [negative_rat, decide_eq_true_iff] at hx
    rw [positive_rat, decide_eq_false_iff_not] at hy
    rw [negative_rat, decide_eq_false_iff_not]
    exact not_lt.mpr (mul_nonneg_of_nonpos_of_nonpos hx.le (not_lt.mp hy))
  negative_of_infeasible hx := hx

end Exact

namespace Binary64

open Float.Model (Format UnpackedFloat)
open Float.Model.UnpackedFloat (Sign unpackSign unpackExponent unpackMantissa packComponents)

section Senses

/-- The side of zero that a sign stands for. -/
def side : Sign → SignType
  | .negative => -1
  | .positive => 1

/-- On which side of zero a number lies. -/
def sense : UnpackedFloat → Option SignType
  | .notANumber => none
  | .infinity s => some (side s)
  | .zero _ => some 0
  | .finite s _ _ _ => some (side s)

variable {f g : UnpackedFloat} {σ τ : SignType}

theorem side_mul (s t : Sign) : side (s * t) = side s * side t := by
  cases s <;> cases t <;> rfl

theorem side_div (s t : Sign) : side (s / t) = side s * side t := by
  cases s <;> cases t <;> rfl

theorem side_ofBitVec_toBitVec (s : Sign) : side (Sign.ofBitVec s.toBitVec) = side s := by
  cases s <;> rfl

theorem side_of_dite {p : Prop} [Decidable p] {s : Sign} {m : Nat} {e : Int} (hm : ¬ p → 0 < m)
    (h : sense (if hp : p then .zero s else .finite s m e (hm hp)) = some σ) (hσ : 0 ≠ σ) :
    side s = σ := by
  by_cases hp : p
  · rw [dif_pos hp] at h
    exact absurd (Option.some.inj h) hσ
  · rw [dif_neg hp] at h
    exact Option.some.inj h

/-- Rounding keeps the side or ends at zero. -/
theorem side_of_round {spec : Format} {s : Sign} {m : Nat} {e : Int} {acc}
    (h : sense (UnpackedFloat.roundWithAccuracy spec s m e acc) = some σ) (hσ : 0 ≠ σ) :
    side s = σ :=
  side_of_dite Nat.pos_of_ne_zero h hσ

/-- A product that is not zero lies on the side that its factors say. -/
theorem sense_mul {spec : Format} (h : sense (UnpackedFloat.mul spec f g) = some σ)
    (hσ : 0 ≠ σ) : ∃ a b, sense f = some a ∧ sense g = some b ∧ a * b = σ := by
  revert h
  fun_cases UnpackedFloat.mul spec f g
  -- What is no number has no side, and what is zero is excluded.
  case case1 | case2 | case6 | case7 => exact nofun
  case case8 | case9 | case10 => exact fun h => absurd (Option.some.inj h) hσ
  case case3 | case4 | case5 =>
    exact fun h => ⟨_, _, rfl, rfl, (side_mul _ _).symm.trans (Option.some.inj h)⟩
  case case11 =>
    exact fun h => ⟨_, _, rfl, rfl, (side_mul _ _).symm.trans (side_of_round h hσ)⟩

/-- A quotient by a number that is not zero lies on the side that the operands
say. -/
theorem sense_div {spec : Format} (h : sense (UnpackedFloat.div spec f g) = some σ)
    (hσ : 0 ≠ σ) (hg : sense g ≠ some 0) :
    ∃ a b, sense f = some a ∧ sense g = some b ∧ a * b = σ := by
  revert h
  fun_cases UnpackedFloat.div spec f g
  case case1 | case2 | case3 | case10 => exact nofun
  case case5 | case7 | case9 => exact fun h => absurd (Option.some.inj h) hσ
  case case6 | case8 => exact absurd rfl hg
  case case4 =>
    exact fun h => ⟨_, _, rfl, rfl, (side_div _ _).symm.trans (Option.some.inj h)⟩
  case case11 =>
    exact fun h => ⟨_, _, rfl, rfl, (side_div _ _).symm.trans (side_of_round h hσ)⟩

end Senses

section Packing

variable {f : UnpackedFloat} {σ : SignType}

/-- Packs a number and takes it apart again. -/
def settle (f : UnpackedFloat) : UnpackedFloat :=
  UnpackedFloat.unpack Format.binary64 (UnpackedFloat.pack Format.binary64 f)

theorem unpackSign_packComponents {spec : Format} (s : Sign) (e m) :
    unpackSign (packComponents spec s e m) = s.toBitVec := by
  ext i hi
  obtain rfl : i = 0 := by omega
  unfold unpackSign packComponents
  simp [BitVec.getLsbD_append, BitVec.getElem_append]

/-- The side is in the sign bit. -/
theorem side_unpackSign {b : BitVec Format.binary64.numBits}
    (h : sense (UnpackedFloat.unpack Format.binary64 b) = some σ) (hσ : 0 ≠ σ) :
    side (Sign.ofBitVec (unpackSign b)) = σ := by
  unfold UnpackedFloat.unpack at h
  dsimp only at h
  by_cases hones : unpackExponent b = -1#_
  · rw [if_pos hones] at h
    by_cases hzero : unpackMantissa b = 0#_
    · rw [if_pos hzero] at h
      exact Option.some.inj h
    · rw [if_neg hzero] at h
      cases h
  · rw [if_neg hones] at h
    by_cases hsubnormal : unpackExponent b = 0#_
    · rw [if_pos hsubnormal] at h
      exact side_of_dite _ h hσ
    · rw [if_neg hsubnormal] at h
      exact Option.some.inj h

/-- The sign bit of what is packed as an infinity or from parts is that of its side. -/
theorem unpackSign_pack_finite (s : Sign) (m : Nat) (e : Int) (hm : 0 < m) :
    unpackSign (UnpackedFloat.pack Format.binary64 (.finite s m e hm)) = s.toBitVec := by
  unfold UnpackedFloat.pack UnpackedFloat.packedInfinity
  dsimp only
  split
  · exact unpackSign_packComponents s _ _
  · split
    · exact unpackSign_packComponents s _ _
    · exact unpackSign_packComponents s _ _

/-- Packing keeps the side or ends at zero. -/
theorem sense_of_settle (h : sense (settle f) = some σ) (hσ : 0 ≠ σ) : sense f = some σ := by
  have hside := side_unpackSign h hσ
  cases f with
  | notANumber => cases h
  | zero s => cases s <;> exact absurd (Option.some.inj h) hσ
  | infinity s => cases s <;> exact h
  | finite s m e hm =>
      rw [unpackSign_pack_finite, side_ofBitVec_toBitVec] at hside
      exact congrArg some hside

end Packing

section Numbers

variable {x y : Binary64} {σ : SignType}

/-- The parts that the machine computes with. -/
def unpacked (x : Binary64) : UnpackedFloat :=
  x.toFloat.toModel.unpack

theorem less_eq (x y : Binary64) : less x y = (x.unpacked.compare y.unpacked == some .lt) := by
  rw [Bool.eq_iff_iff, less, decide_eq_true_iff]
  change x.toFloat.lt y.toFloat = true ↔ _
  rw [Float.lt, decide_eq_true_iff]
  rfl

theorem negative_eq_true_iff : Scalar.negative x = true ↔ sense x.unpacked = some (-1) := by
  have hzero : (Scalar.zero : Binary64).unpacked = .zero .positive := by rfl
  change less x Scalar.zero = true ↔ _
  rw [less_eq, hzero, beq_iff_eq]
  cases x.unpacked with
  | notANumber => exact iff_of_false nofun nofun
  | zero s => exact iff_of_false nofun nofun
  | infinity s => cases s <;> decide
  | finite s m e hm =>
      cases s with
      | negative => exact iff_of_true rfl rfl
      | positive => exact iff_of_false nofun nofun

theorem positive_eq_true_iff : Scalar.positive x = true ↔ sense x.unpacked = some 1 := by
  have hzero : (Scalar.zero : Binary64).unpacked = .zero .positive := by rfl
  change less Scalar.zero x = true ↔ _
  rw [less_eq, hzero, beq_iff_eq]
  cases x.unpacked with
  | notANumber => exact iff_of_false nofun nofun
  | zero s => exact iff_of_false nofun nofun
  | infinity s => cases s <;> decide
  | finite s m e hm =>
      cases s with
      | negative => exact iff_of_false nofun nofun
      | positive => exact iff_of_true rfl rfl

/-- Making a number that is none quiet does not make it a number. -/
theorem isNaN_quiet (h : x.isNaN = true) : x.quiet.isNaN = true := by
  have hle : x.magnitude ≤ x.quiet.magnitude := by
    rw [quiet, if_pos h, magnitude, magnitude, UInt64.le_iff_toNat_le, UInt64.toNat_and,
      UInt64.toNat_and, UInt64.toNat_or, Nat.and_or_distrib_right]
    exact Nat.left_le_or
  exact decide_eq_true (UInt64.lt_of_lt_of_le (of_decide_eq_true h) hle)

theorem sense_of_isNaN (h : x.isNaN = true) : sense x.unpacked = none := by
  rw [← isNaN_toFloat] at h
  change x.unpacked.isNaN = true at h
  revert h
  cases x.unpacked with
  | notANumber => exact fun _ => rfl
  | infinity s => exact nofun
  | zero s => exact nofun
  | finite s m e hm => exact nofun

theorem sense_of_ofFloat {f : Float} (h : sense (ofFloat f).unpacked = some σ) (hσ : 0 ≠ σ) :
    sense f.toModel.unpack = some σ := by
  unfold ofFloat at h
  split at h
  · cases h
  · exact sense_of_settle h hσ

/-- What an operation answers lies where the numbers say, or at zero. -/
theorem sense_of_lift {op : Float → Float → Float} (h : sense (lift op x y).unpacked = some σ)
    (hσ : 0 ≠ σ) : sense (op x.toFloat y.toFloat).toModel.unpack = some σ := by
  unfold lift at h
  split at h
  · rename_i hx
    rw [sense_of_isNaN (isNaN_quiet hx)] at h
    cases h
  · split at h
    · rename_i hy
      rw [sense_of_isNaN (isNaN_quiet hy)] at h
      cases h
    · exact sense_of_ofFloat h hσ

theorem sense_of_mul (h : sense (x * y).unpacked = some σ) (hσ : 0 ≠ σ) :
    sense (UnpackedFloat.mul Format.binary64 x.unpacked y.unpacked) = some σ := by
  have hlift : sense (lift (· * ·) x y).unpacked = some σ := h
  have hparts : ∀ f g : Float, (f * g).toModel.unpack =
      settle (UnpackedFloat.mul Format.binary64 f.toModel.unpack g.toModel.unpack) :=
    fun _ _ => rfl
  exact sense_of_settle (hparts _ _ ▸ sense_of_lift hlift hσ) hσ

theorem sense_of_div (h : sense (x / y).unpacked = some σ) (hσ : 0 ≠ σ) :
    sense (UnpackedFloat.div Format.binary64 x.unpacked y.unpacked) = some σ := by
  have hlift : sense (lift (· / ·) x y).unpacked = some σ := h
  have hparts : ∀ f g : Float, (f / g).toModel.unpack =
      settle (UnpackedFloat.div Format.binary64 f.toModel.unpack g.toModel.unpack) :=
    fun _ _ => rfl
  exact sense_of_settle (hparts _ _ ▸ sense_of_lift hlift hσ) hσ

theorem negative_of_infeasible {x : Binary64} (h : Scalar.infeasible x = true) :
    Scalar.negative x = true := by
  have heps : ∃ m e hm, (-Scalar.tolerance : Binary64).unpacked = .finite .negative m e hm :=
    ⟨_, _, _, rfl⟩
  obtain ⟨m, e, hm, heps⟩ := heps
  change less x (-Scalar.tolerance) = true at h
  rw [less_eq, heps, beq_iff_eq] at h
  rw [negative_eq_true_iff]
  revert h
  cases x.unpacked with
  | notANumber => exact nofun
  | zero s => exact nofun
  | infinity s =>
      cases s with
      | negative => exact fun _ => rfl
      | positive => exact nofun
  | finite s n d hn =>
      cases s with
      | negative => exact fun _ => rfl
      | positive => exact nofun

end Numbers

instance : SignRules Binary64 where
  negative_neg_one := by decide +kernel
  positive_div {x y} hx hy := by
    rw [negative_eq_true_iff] at hx
    rw [positive_eq_true_iff] at hy
    rw [Bool.eq_false_iff, Ne, positive_eq_true_iff]
    intro h
    obtain ⟨a, b, ha, hb, hab⟩ :=
      sense_div (sense_of_div h (by decide)) (by decide) (by rw [hy]; decide)
    rw [hx] at ha
    rw [hy] at hb
    cases ha
    cases hb
    cases hab
  negative_mul {x y} hx hy := by
    rw [negative_eq_true_iff] at hx
    rw [Bool.eq_false_iff, Ne, positive_eq_true_iff] at hy
    rw [Bool.eq_false_iff, Ne, negative_eq_true_iff]
    intro h
    obtain ⟨a, b, ha, hb, hab⟩ := sense_mul (sense_of_mul h (by decide)) (by decide)
    rw [hx] at ha
    cases ha
    rw [hb] at hy
    revert hy hab
    cases b <;> decide
  negative_of_infeasible := negative_of_infeasible

end Binary64
end Tether
