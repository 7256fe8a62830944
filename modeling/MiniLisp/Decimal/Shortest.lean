import MiniLisp.Decimal.Basic

/-!
# Shortest decimal numbers

The decimal number that stands for a finite magnitude: of the numbers that read back as the
magnitude, those with the fewest digits, and of those the nearest one, a tie going to the even
digit. Main statement: the number found reads back.
-/

namespace MiniLisp.Decimal
open Binary64

/-- The quotient `num / den` counted in steps of `10 ^ k`, rounded down. -/
def floorAt (num den : Nat) (k : Int) : Nat :=
  if 0 ≤ k then num / (den * 10 ^ k.toNat) else num * 10 ^ (-k).toNat / den

/-- The quotient `num / den` counted in steps of `10 ^ k`, rounded to the nearest count. -/
def roundAt (num den : Nat) (k : Int) : Nat :=
  if 0 ≤ k then roundDiv num (den * 10 ^ k.toNat) else roundDiv (num * 10 ^ (-k).toNat) den

/-- The exponent of the first digit of the positive quotient `num / den`: an estimate from the
number of bits, which is at most one off, and a correction. -/
def leadingExponent (num den : Nat) : Int :=
  let estimate : Int := (((num.log2 : Int) - den.log2) * 30103).fdiv 100000
  if floorAt num den (estimate + 1) ≠ 0 then estimate + 1
  else if floorAt num den estimate ≠ 0 then estimate
  else estimate - 1

/-- The two multiples of `10 ^ k` around the quotient `num / den`, the nearer one first. -/
def neighbours (num den : Nat) (k : Int) : List Decimal :=
  let low := floorAt num den k
  let near := roundAt num den k
  [⟨near, k⟩, ⟨if near = low then low + 1 else low, k⟩]

/-- The multiple of `10 ^ k` next to the magnitude `bits` that reads back as it, if there is one. -/
def neighbour? (bits : Nat) (k : Int) : Option Decimal :=
  (neighbours (units bits) unitsPerOne k).find? fun d => decide (d.toMagnitude = bits)

/-- The magnitude `bits` written out in full. -/
def exact (bits : Nat) : Decimal :=
  if unitExponent ≤ grid bits then ⟨Binary64.significand bits * 2 ^ (grid bits - unitExponent), 0⟩
  else ⟨Binary64.significand bits * 5 ^ (unitExponent - grid bits), grid bits - unitExponent⟩

/-- The first number that reads back as the magnitude `bits` on the grids `10 ^ first`,
`10 ^ (first - 1)` and so on. -/
def firstNeighbour? (bits : Nat) (first : Int) : Option Decimal :=
  (List.range 18).findSome? fun (n : Nat) => neighbour? bits (first - n)

/-- The shortest decimal number for the magnitude `bits`: the grids on which it has no, one, two,
up to seventeen digits are tried in turn. -/
def shortest (bits : Nat) : Decimal :=
  (firstNeighbour? bits (leadingExponent (units bits) unitsPerOne + 1)).getD (exact bits)

theorem toMagnitude_of_neighbour? (bits : Nat) (k : Int) (d : Decimal)
    (h : neighbour? bits k = some d) : d.toMagnitude = bits := by
  have hp := List.find?_some h
  simpa only [decide_eq_true_eq] using hp

theorem units_whole (bits : Nat) (hg : unitExponent ≤ grid bits) :
    Binary64.significand bits * 2 ^ (grid bits - unitExponent) * unitsPerOne
      = units bits * 1 := by
  obtain ⟨k, hk⟩ : ∃ k, grid bits = unitExponent + k := ⟨grid bits - unitExponent, by omega⟩
  rw [unitsPerOne_eq unitExponent 0 (Nat.add_zero _), units, hk, Nat.pow_add,
    Nat.add_sub_cancel_left, Nat.pow_zero, Nat.mul_one, Nat.mul_one, Nat.mul_assoc,
    Nat.mul_comm (2 ^ k)]

theorem units_fraction (bits j : Nat) (hj : grid bits + j = unitExponent) :
    Binary64.significand bits * 5 ^ j * unitsPerOne = units bits * 10 ^ j := by
  have h10 : (10 : Nat) ^ j = 2 ^ j * 5 ^ j := by
    rw [← Nat.mul_pow]
  rw [unitsPerOne_eq (grid bits) j hj, h10, units]
  ac_rfl

theorem toMagnitude_exact (bits : Nat) (h0 : 0 < bits) (hb : bits < infinity) :
    (exact bits).toMagnitude = bits := by
  have hs := significand_pos bits h0
  by_cases hg : unitExponent ≤ grid bits
  · have hne : Binary64.significand bits * 2 ^ (grid bits - unitExponent) ≠ 0 :=
      Nat.mul_ne_zero (by omega) (Nat.ne_of_gt (Nat.two_pow_pos _))
    rw [exact, if_pos hg, toMagnitude_whole _ hne, nearest, units_whole bits hg]
    exact nearestUnits_units bits 1 Nat.one_pos hb
  · obtain ⟨j, hj⟩ : ∃ j, grid bits + j = unitExponent := ⟨unitExponent - grid bits, by omega⟩
    have h1 : unitExponent - grid bits = j := by omega
    have h2 : ((grid bits : Int) - unitExponent) = -(j : Int) := by omega
    have hge : 2 ^ j ≤ Binary64.significand bits * 5 ^ j :=
      Nat.le_trans (Nat.pow_le_pow_left (by decide) j) (Nat.le_mul_of_pos_left _ hs)
    rw [exact, if_neg hg, h1, h2, toMagnitude_fraction _ j (by omega) hge, nearest,
      units_fraction bits j hj]
    exact nearestUnits_units bits _ (Nat.pow_pos (by decide)) hb

/-- The shortest decimal number for a positive finite magnitude reads back as it. -/
theorem toMagnitude_shortest (bits : Nat) (h0 : 0 < bits) (hb : bits < infinity) :
    (shortest bits).toMagnitude = bits := by
  rw [shortest]
  generalize hf : firstNeighbour? bits (leadingExponent (units bits) unitsPerOne + 1) = found
  cases found with
  | none => exact toMagnitude_exact bits h0 hb
  | some d =>
    obtain ⟨n, _, hn⟩ := List.exists_of_findSome?_eq_some hf
    exact toMagnitude_of_neighbour? bits _ d hn

end MiniLisp.Decimal
