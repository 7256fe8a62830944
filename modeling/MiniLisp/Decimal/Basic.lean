import MiniLisp.Decimal.Binary64

/-!
# Decimal numbers

A decimal number is a whole number of digits with a power of ten. Reading one as a double rounds
it to the nearest magnitude; numbers far outside the range of doubles are settled by their size
before any power of ten is computed.
-/

namespace MiniLisp

/-- The number `significand * 10 ^ exponent`. -/
structure Decimal where
  significand : Nat
  exponent : Int
  deriving DecidableEq, Repr

namespace Decimal
open Binary64

/-- The number as a quotient of two whole numbers. -/
def ratio (d : Decimal) : Nat × Nat :=
  if 0 ≤ d.exponent then (d.significand * 10 ^ d.exponent.toNat, 1)
  else (d.significand, 10 ^ (-d.exponent).toNat)

/-- The magnitude of the double nearest to the number. -/
def toMagnitude (d : Decimal) : Nat :=
  if d.significand = 0 then 0
  else if 310 ≤ d.exponent then Binary64.infinity
  else if d.exponent + d.significand.log2 ≤ -325 then 0
  else Binary64.nearest d.ratio.1 d.ratio.2

theorem ratio_whole (s : Nat) : ratio ⟨s, 0⟩ = (s, 1) := by
  simp only [ratio, Int.le_refl, ite_true, Int.toNat_zero, Nat.pow_zero, Nat.mul_one]

theorem ratio_fraction (s j : Nat) (hj : 0 < j) : ratio ⟨s, -(j : Int)⟩ = (s, 10 ^ j) := by
  have h : ¬ ((0 : Int) ≤ -(j : Int)) := by omega
  simp only [ratio, h, ite_false, Int.neg_neg, Int.toNat_natCast]

theorem toMagnitude_whole (s : Nat) (hs : s ≠ 0) :
    toMagnitude ⟨s, 0⟩ = Binary64.nearest s 1 := by
  have h1 : ¬ ((310 : Int) ≤ 0) := by decide
  have h2 : ¬ ((0 : Int) + s.log2 ≤ -325) := by omega
  unfold toMagnitude
  rw [if_neg hs, if_neg h1, if_neg h2, ratio_whole]

theorem toMagnitude_fraction (s j : Nat) (hj : 0 < j) (h : 2 ^ j ≤ s) :
    toMagnitude ⟨s, -(j : Int)⟩ = Binary64.nearest s (10 ^ j) := by
  have hs : s ≠ 0 := by
    have := Nat.two_pow_pos j
    omega
  have hlog : j ≤ s.log2 := (Nat.le_log2 hs).mpr h
  have h1 : ¬ ((310 : Int) ≤ -(j : Int)) := by omega
  have h2 : ¬ (-(j : Int) + s.log2 ≤ -325) := by omega
  unfold toMagnitude
  rw [if_neg hs, if_neg h1, if_neg h2, ratio_fraction s j hj]

def digits (d : Decimal) : List Char := Nat.toDigits 10 d.significand

end Decimal

end MiniLisp
