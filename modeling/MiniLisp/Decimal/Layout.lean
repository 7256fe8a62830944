import MiniLisp.Decimal.Basic

/-!
# Layout of decimal numbers

How the digits of a decimal number become text: with a point in place, or with one digit before
the point and an exponent. A layout says for which exponents the point stays in place.
-/

namespace MiniLisp.Decimal

/-- The choices of a written form. -/
structure Layout where
  /-- The smallest exponent of the first digit that is written with the point in place. -/
  least : Int
  /-- The first exponent of the first digit that is no longer written so. -/
  limit : Int
  /-- The least number of digits of a written exponent. -/
  exponentWidth : Nat
  deriving Repr

/-- The digits with the point in place, where `first` is the exponent of the first digit; at least
one digit stands on each side of the point. -/
def positional (digits : List Char) (first : Int) : List Char :=
  if first < 0 then '0' :: '.' :: List.replicate (-first - 1).toNat '0' ++ digits
  else
    let n := first.toNat + 1
    let whole := digits.take n ++ List.replicate (n - digits.length) '0'
    let fraction := digits.drop n
    whole ++ '.' :: (if fraction.isEmpty then ['0'] else fraction)

/-- The exponent `x` with its sign, filled with zeros to `width` digits. -/
def exponentText (width : Nat) (x : Int) : List Char :=
  let digits := Nat.toDigits 10 x.natAbs
  (if x < 0 then '-' else '+') :: List.replicate (width - digits.length) '0' ++ digits

/-- The first digit, the others after a point if there are any, and the exponent. -/
def scientific (width : Nat) (digits : List Char) (first : Int) : List Char :=
  let fraction := digits.drop 1
  digits.take 1 ++ (if fraction.isEmpty then [] else '.' :: fraction) ++
    'e' :: exponentText width first

def Layout.write (layout : Layout) (d : Decimal) : List Char :=
  let first := d.exponent + d.digits.length - 1
  if layout.least ≤ first ∧ first < layout.limit then positional d.digits first
  else scientific layout.exponentWidth d.digits first

end MiniLisp.Decimal
