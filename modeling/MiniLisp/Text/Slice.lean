/-!
# Pieces of a list between signed positions

A position counts from the start, or from the end when it is negative, and one outside the list
stands for the nearer end. A piece whose end does not come after its start is empty.
-/

namespace MiniLisp.Text

/-- The place that the position `i` names in a list of `n` elements. -/
def clampPosition (n : Nat) (i : Int) : Nat :=
  if i < 0 then (i + n).toNat else min i.toNat n

theorem clampPosition_of_le (n k : Nat) (h : k ≤ n) : clampPosition n k = k := by
  simp only [clampPosition]
  split <;> omega

/-- The elements from position `start` up to, not including, position `stop`. -/
def slice (xs : List α) (start stop : Int) : List α :=
  let i := clampPosition xs.length start
  let j := clampPosition xs.length stop
  (xs.take j).drop i

theorem slice_of_nat (xs : List α) (i j : Nat) (hi : i ≤ xs.length) (hj : j ≤ xs.length) :
    slice xs i j = (xs.take j).drop i := by
  simp only [slice]
  rw [clampPosition_of_le xs.length i hi, clampPosition_of_le xs.length j hj]

end MiniLisp.Text
