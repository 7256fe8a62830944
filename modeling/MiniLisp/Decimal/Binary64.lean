/-!
# Magnitudes of double precision numbers

A magnitude is the bit pattern of a double without its sign. A pattern below `infinity` is
`grid * 2 ^ 52 + significand` and stands for `significand * 2 ^ grid` units of `2 ^ -1074`; this
holds for the small numbers without a leading one as well. Patterns above `infinity` are no numbers.
Main statement: a quotient that a finite magnitude hits exactly rounds to that magnitude.
-/

namespace MiniLisp.Binary64

/-- Powers of whole numbers are the core library's, also where more general ones are known. -/
scoped instance (priority := 10000) powNat : Pow Nat Nat := instPowNat

def infinity : Nat := 2047 * 2 ^ (52 : Nat)

/-- How often the unit is doubled before the significand of `bits` counts it. -/
def grid (bits : Nat) : Nat := bits / 2 ^ (52 : Nat) - 1

def significand (bits : Nat) : Nat := bits - grid bits * 2 ^ (52 : Nat)

/-- The magnitude `bits` in units of `2 ^ -1074`. -/
def units (bits : Nat) : Nat := significand bits * 2 ^ grid bits

/-- The unit, of which every finite magnitude is a multiple, is `2 ^ -unitExponent`. -/
@[irreducible] def unitExponent : Nat := 1074

@[irreducible] def unitsPerOne : Nat := 2 ^ unitExponent

theorem unitsPerOne_eq (g j : Nat) (h : g + j = unitExponent) : unitsPerOne = 2 ^ g * 2 ^ j := by
  rw [unitsPerOne, ← Nat.pow_add, h]

/-- The quotient rounded to the nearest number, a half to the even one. -/
def roundDiv (num den : Nat) : Nat :=
  let q := num / den
  let r := num % den
  if 2 * r < den ∨ (2 * r = den ∧ q % 2 = 0) then q else q + 1

theorem roundDiv_mul (a den : Nat) (h : 0 < den) : roundDiv (a * den) den = a := by
  have hq : a * den / den = a := Nat.mul_div_cancel a h
  have hr : a * den % den = 0 := Nat.mul_mod_left a den
  simp only [roundDiv, hq, hr]
  simp only [Nat.mul_zero, h, true_or, ite_true]

/-- The magnitude nearest to `num / den` units, a tie going to the even significand; the infinite
one from half a step above the largest finite one. -/
def nearestUnits (num den : Nat) : Nat :=
  let g := (num / den).log2 - 52
  min infinity (g * 2 ^ (52 : Nat) + roundDiv num (den * 2 ^ g))

def nearest (num den : Nat) : Nat := nearestUnits (num * unitsPerOne) den

theorem grid_mul_add_significand (bits : Nat) :
    grid bits * 2 ^ (52 : Nat) + significand bits = bits := by
  simp only [grid, significand]
  omega

theorem significand_lt (bits : Nat) : significand bits < 2 ^ (53 : Nat) := by
  simp only [grid, significand]
  omega

theorem le_significand (bits : Nat) (h : 2 ^ (52 : Nat) ≤ bits) :
    2 ^ (52 : Nat) ≤ significand bits := by
  simp only [grid, significand]
  omega

theorem significand_pos (bits : Nat) (h : 0 < bits) : 0 < significand bits := by
  simp only [grid, significand]
  omega

theorem log2_units (bits : Nat) : (units bits).log2 - 52 = grid bits := by
  by_cases h : bits < 2 ^ (52 : Nat)
  · have hg : grid bits = 0 := by simp only [grid]; omega
    have hs : significand bits = bits := by simp only [significand, hg]; omega
    simp only [units, hg, hs, Nat.pow_zero, Nat.mul_one]
    by_cases h0 : bits = 0
    · simp only [h0, Nat.log2_zero]
    · have hl := (Nat.log2_lt h0).mpr h
      omega
  · have hle := le_significand bits (by omega)
    have hlt := significand_lt bits
    have hpos : 0 < 2 ^ grid bits := Nat.two_pow_pos _
    have hne : units bits ≠ 0 := by
      simp only [units]
      exact Nat.mul_ne_zero (by omega) (by omega)
    have hlow : 2 ^ (52 + grid bits) ≤ units bits := by
      rw [Nat.pow_add]
      exact Nat.mul_le_mul_right _ hle
    have hhigh : units bits < 2 ^ (53 + grid bits) := by
      rw [Nat.pow_add]
      exact Nat.mul_lt_mul_of_pos_right hlt hpos
    have h1 := (Nat.le_log2 hne).mpr hlow
    have h2 := (Nat.log2_lt hne).mpr hhigh
    omega

/-- A quotient that is exactly a finite magnitude rounds to it. -/
theorem nearestUnits_units (bits den : Nat) (hd : 0 < den) (hb : bits < infinity) :
    nearestUnits (units bits * den) den = bits := by
  have hq : units bits * den / den = units bits := Nat.mul_div_cancel _ hd
  have hm : units bits * den = significand bits * (den * 2 ^ grid bits) := by
    simp only [units]
    rw [Nat.mul_assoc, Nat.mul_comm (2 ^ grid bits) den]
  have hpos : 0 < den * 2 ^ grid bits := Nat.mul_pos hd (Nat.two_pow_pos _)
  simp only [nearestUnits, hq, log2_units]
  rw [hm, roundDiv_mul _ _ hpos, grid_mul_add_significand]
  omega

end MiniLisp.Binary64
