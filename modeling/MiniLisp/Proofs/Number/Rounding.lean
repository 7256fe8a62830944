import MiniLisp.Number

/-!
# Rounding does not depend on how a quotient is written

Main statements: a factor common to both sides of a quotient does not change the magnitude that it
rounds to, a whole number may be written with one zero behind the point, and no rounding goes
beyond the infinite magnitude.
-/

namespace MiniLisp.Binary64

theorem roundDiv_mul_right (num den c : Nat) (hc : 0 < c) :
    roundDiv (num * c) (den * c) = roundDiv num den := by
  have hq : num * c / (den * c) = num / den := Nat.mul_div_mul_right num den hc
  have hr : num * c % (den * c) = num % den * c := Nat.mul_mod_mul_right c num den
  have hlt : 2 * (num % den * c) < den * c ↔ 2 * (num % den) < den := by
    rw [← Nat.mul_assoc]
    exact Nat.mul_lt_mul_right hc
  have heq : 2 * (num % den * c) = den * c ↔ 2 * (num % den) = den := by
    rw [← Nat.mul_assoc]
    exact Nat.mul_left_inj (by omega)
  simp only [roundDiv, hq, hr, hlt, heq]

theorem nearest_mul_right (num den c : Nat) (hc : 0 < c) :
    nearest (num * c) (den * c) = nearest num den := by
  have hnum : num * c * unitsPerOne = num * unitsPerOne * c := Nat.mul_right_comm _ _ _
  have hden : ∀ g, den * c * 2 ^ g = den * 2 ^ g * c := fun g => Nat.mul_right_comm _ _ _
  have hq : num * unitsPerOne * c / (den * c) = num * unitsPerOne / den :=
    Nat.mul_div_mul_right _ _ hc
  simp only [nearest, nearestUnits, hnum, hden, hq]
  rw [roundDiv_mul_right _ _ c hc]

theorem nearest_le_infinity (num den : Nat) : nearest num den ≤ infinity :=
  Nat.min_le_left _ _

end MiniLisp.Binary64

namespace MiniLisp.Decimal

open Binary64

theorem toMagnitude_le_infinity (d : Decimal) : d.toMagnitude ≤ infinity := by
  unfold toMagnitude
  split
  · exact Nat.zero_le _
  · split
    · exact Nat.le_refl _
    · split
      · exact Nat.zero_le _
      · exact nearest_le_infinity _ _

/-- A whole number below the range of overflow, written with one zero behind the point. -/
theorem toMagnitude_pointZero (s e : Nat) (he : e < 310) :
    toMagnitude ⟨s * 10 ^ (e + 1), -1⟩ = toMagnitude ⟨s, e⟩ := by
  by_cases hs : s = 0
  · subst hs
    simp only [toMagnitude, Nat.zero_mul, ite_true]
  · have hne : s * 10 ^ (e + 1) ≠ 0 :=
      Nat.mul_ne_zero hs (Nat.ne_of_gt (Nat.pow_pos (by decide)))
    have hleft : ratio ⟨s * 10 ^ (e + 1), -1⟩ = (s * 10 ^ e * 10, 1 * 10) := by
      rw [show (-1 : Int) = -((1 : Nat) : Int) by rfl, ratio_fraction _ 1 (by decide),
        Nat.pow_succ, Nat.mul_assoc, Nat.pow_one, Nat.one_mul]
    have hright : ratio ⟨s, e⟩ = (s * 10 ^ e, 1) := by
      have h0 : (0 : Int) ≤ (e : Int) := by omega
      simp only [ratio, h0, ite_true, Int.toNat_natCast]
    have h1 : ¬ ((310 : Int) ≤ -1) := by decide
    have h2 : ¬ ((-1 : Int) + (s * 10 ^ (e + 1)).log2 ≤ -325) := by omega
    have h3 : ¬ ((310 : Int) ≤ (e : Int)) := by omega
    have h4 : ¬ ((e : Int) + s.log2 ≤ -325) := by omega
    unfold toMagnitude
    rw [if_neg hne, if_neg h1, if_neg h2, if_neg hs, if_neg h3, if_neg h4, hleft, hright]
    exact nearest_mul_right (s * 10 ^ e) 1 10 (by decide)

end MiniLisp.Decimal
