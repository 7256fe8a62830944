import Mathlib
import MiniLisp.Number

/-!
# Numbers and their bit patterns

A number is the same thing as its sign and its magnitude, except that all magnitudes above the
infinite one stand for the same undefined number. Main statements: sign and magnitude give the
number back, the undefined number is told by its magnitude, and the two zeros are equal.
-/

namespace MiniLisp.Number

open Float.Model Float.Model.UnpackedFloat

theorem infinity_eq : Binary64.infinity = 2047 * 2 ^ 52 := rfl

theorem toNat_mantissa (b : BitVec Format.binary64.numBits) :
    (unpackMantissa b).toNat = b.toNat % 2 ^ 52 := by
  rw [unpackMantissa_def, BitVec.extractLsb'_toNat, Nat.shiftRight_zero]

theorem toNat_exponent (b : BitVec Format.binary64.numBits) :
    (unpackExponent b).toNat = b.toNat / 2 ^ 52 % 2 ^ 11 := by
  rw [unpackExponent_def, BitVec.extractLsb'_toNat, Nat.shiftRight_eq_div_pow]

/-- The patterns of the undefined number are those with a magnitude above the infinite one. -/
theorem isNaNBits_iff (b : BitVec Format.binary64.numBits) :
    isNaNBits b = true ↔ Binary64.infinity < b.toNat % 2 ^ 63 := by
  have hinf := infinity_eq
  have hlt : b.toNat < 2 ^ 64 := b.isLt
  have hm := toNat_mantissa b
  have hx := toNat_exponent b
  have hzero : unpackMantissa b = 0#52 ↔ (unpackMantissa b).toNat = 0 :=
    ⟨fun h => congrArg BitVec.toNat h, fun h => BitVec.eq_of_toNat_eq h⟩
  have hones : unpackExponent b = -1#11 ↔ (unpackExponent b).toNat = 2047 :=
    ⟨fun h => congrArg BitVec.toNat h, fun h => BitVec.eq_of_toNat_eq h⟩
  rw [isNaNBits, decide_eq_true_eq, ne_eq, hones, hzero]
  omega

theorem toBits_ofBits (b : UInt64) (h : b.toNat % 2 ^ 63 ≤ Binary64.infinity) :
    (Float.ofBits b).toBits = b := by
  have hnan : ¬ isNaNBits (show BitVec Format.binary64.numBits from b.toBitVec) = true := by
    rw [isNaNBits_iff]
    exact Nat.not_lt.mpr h
  have hpack := pack_unpack (show BitVec Format.binary64.numBits from b.toBitVec)
  rw [if_neg hnan] at hpack
  exact UInt64.toBitVec_inj.mp hpack

/-- A number is determined by its sign and its magnitude. -/
theorem ofMagnitude_magnitude (x : Float) : ofMagnitude (isNegative x) (magnitude x) = x := by
  have hlt : x.toBits.toNat < 2 ^ 64 := x.toBits.toNat_lt
  have hbits : (if isNegative x then 2 ^ 63 + magnitude x else magnitude x) = x.toBits.toNat := by
    simp only [isNegative, magnitude, decide_eq_true_eq]
    split <;> omega
  rw [ofMagnitude, hbits, UInt64.ofNat_toNat, Float.ofBits_toBits]

theorem magnitude_ofMagnitude (negative : Bool) (bits : Nat) (h : bits ≤ Binary64.infinity) :
    magnitude (ofMagnitude negative bits) = bits := by
  have hinf := infinity_eq
  have hlt : (if negative then 2 ^ 63 + bits else bits) < 2 ^ 64 := by
    split <;> omega
  have hmod : (if negative then 2 ^ 63 + bits else bits) % 2 ^ 63 = bits := by
    split <;> omega
  have hbits := UInt64.toNat_ofNat_of_lt' hlt
  rw [magnitude, ofMagnitude, toBits_ofBits _ (by rw [hbits, hmod]; exact h), hbits, hmod]

theorem isNaN_iff (x : Float) : x.isNaN = true ↔ Binary64.infinity < magnitude x := by
  have hvalid : Format.binary64.Valid x.toBits.toBitVec := x.toModel.valid
  have hbits := isNaNBits_iff x.toBits.toBitVec
  have hnan : x.isNaN = true ↔ x.toBits.toBitVec = packedNaN Format.binary64 :=
    isNaN_unpack_iff_of_valid hvalid
  rw [hnan]
  constructor
  · intro h
    refine hbits.mp ?_
    rw [h]
    exact isNaNBits_packedNaN
  · intro h
    have hparts := hbits.mpr h
    rw [isNaNBits, decide_eq_true_eq] at hparts
    exact hvalid.eq_packedNaN hparts.1 hparts.2

theorem isNaN_eq_false_iff (x : Float) : x.isNaN = false ↔ magnitude x ≤ Binary64.infinity := by
  rw [← Bool.not_eq_true, isNaN_iff, Nat.not_lt]

theorem beq_self (x : Float) (h : x.isNaN = false) : (x == x) = true := by
  rw [Float.isNaN_eq_decide_eq_nan, decide_eq_false_iff_not] at h
  exact Float.beq_self_iff.mpr h

/-- The two zeros are equal as numbers. -/
theorem beq_zero (x : Float) (h : magnitude x = 0) : (x == ofMagnitude false 0) = true := by
  rw [← ofMagnitude_magnitude x, h]
  cases isNegative x with
  | true => rfl
  | false => rfl

end MiniLisp.Number
