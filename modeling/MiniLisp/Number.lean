import MiniLisp.Decimal.Layout
import MiniLisp.Decimal.Shortest

/-!
# Numbers and their text

Numbers are doubles. A literal is an optional minus sign, digits with or without a point, and an
optional exponent; it stands for the nearest double. A number is printed so that it reads back: a
whole number below `10 ^ 16` without a point, any other by the shortest digits that read back, an
infinite one as a literal that overflows.
-/

namespace MiniLisp.Number
open Binary64

def ofMagnitude (negative : Bool) (bits : Nat) : Float :=
  Float.ofBits (UInt64.ofNat (if negative then 2 ^ (63 : Nat) + bits else bits))

def isNegative (x : Float) : Bool := decide (2 ^ (63 : Nat) ≤ x.toBits.toNat)

/-- The bit pattern without the sign. -/
def magnitude (x : Float) : Nat := x.toBits.toNat % 2 ^ (63 : Nat)

def ofNat (n : Nat) : Float := ofMagnitude false (Decimal.toMagnitude ⟨n, 0⟩)

/-- A number literal: its sign and the decimal number that follows it. -/
structure Literal where
  negative : Bool
  magnitude : Decimal
  deriving DecidableEq, Repr

def Literal.toFloat (l : Literal) : Float := ofMagnitude l.negative l.magnitude.toMagnitude

def digits? (cs : List Char) : Option Nat :=
  if cs.isEmpty || !cs.all Char.isDigit then none else some (Nat.ofDigitChars 10 cs 0)

def signedDigits? : List Char → Option Int
  | '-' :: cs => (digits? cs).map fun n => -(n : Int)
  | '+' :: cs => (digits? cs).map fun n => (n : Int)
  | cs => (digits? cs).map fun n => (n : Int)

/-- What may follow the digits of a literal: nothing, or an exponent. -/
def exponent? : List Char → Option Int
  | [] => some 0
  | c :: cs => if c = 'e' ∨ c = 'E' then signedDigits? cs else none

/-- A literal without its sign: digits, or a point with digits behind it and perhaps before it. -/
def unsigned? (cs : List Char) : Option Decimal :=
  let whole := cs.takeWhile Char.isDigit
  match cs.dropWhile Char.isDigit with
  | '.' :: more =>
    let fraction := more.takeWhile Char.isDigit
    if fraction.isEmpty then none
    else (exponent? (more.dropWhile Char.isDigit)).map fun e =>
      ⟨Nat.ofDigitChars 10 (whole ++ fraction) 0, e - fraction.length⟩
  | rest =>
    if whole.isEmpty then none
    else (exponent? rest).map fun e => ⟨Nat.ofDigitChars 10 whole 0, e⟩

/-- The literal that the whole of a text is, if it is one. -/
def literal? : List Char → Option Literal
  | '-' :: cs => (unsigned? cs).map fun d => ⟨true, d⟩
  | cs => (unsigned? cs).map fun d => ⟨false, d⟩

/-- The point stays in place for exponents from -4 to 15; an exponent has at least two digits. -/
def layout : Decimal.Layout := ⟨-4, 16, 2⟩

/-- Whole numbers from this one on are written with an exponent. -/
def wholeLimit : Nat := 10 ^ (16 : Nat)

/-- The finite magnitude `bits` as a whole number below the limit. -/
def whole? (bits : Nat) : Option Nat :=
  if units bits % unitsPerOne = 0 ∧ units bits / unitsPerOne < wholeLimit then
    some (units bits / unitsPerOne)
  else none

/-- The text of a number, which reads back as it. -/
def text (x : Float) : List Char :=
  let bits := magnitude x
  let sign := if isNegative x then ['-'] else []
  if infinity < bits then ['n', 'a', 'n']
  else if bits = infinity then sign ++ ['1', 'e', '9', '9', '9']
  else match whole? bits with
    | some 0 => ['0']
    | some n => sign ++ Nat.toDigits 10 n
    | none => sign ++ layout.write (Decimal.shortest bits)

/-- The text of a number in a listing of bindings: always with a point or an exponent, zero with
its sign. -/
def inspect (x : Float) : List Char :=
  let bits := magnitude x
  let sign := if isNegative x then ['-'] else []
  if infinity < bits then ['n', 'a', 'n']
  else if bits = infinity then sign ++ ['i', 'n', 'f']
  else if bits = 0 then sign ++ ['0', '.', '0']
  else sign ++ layout.write (Decimal.shortest bits)

end MiniLisp.Number
