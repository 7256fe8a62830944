import MiniLisp.Text.Blank
import MiniLisp.Text.DecimalDigit
import MiniLisp.Text.Quoted

/-!
# Settings

Whole numbers taken from named variables: how many bodies may be active at once, and how many
frames a diagnostic shows. A variable that is unset or blank leaves the default; digits of any
script are accepted, with single underscores between them.
-/

namespace MiniLisp

abbrev Variables := String → Option String

/-- A variable that holds no acceptable number. -/
inductive SettingError where
  | notInteger (var : String) (raw : String)
  | negative (var : String) (value : Int)
  deriving DecidableEq, Repr

def SettingError.message : SettingError → String
  | .notInteger var raw =>
    var ++ " must be an integer, got " ++ String.ofList (Text.quoted raw.toList)
  | .negative var value => var ++ " must not be negative, got " ++ toString value

namespace Settings

/-- The number written by digits with single underscores between them, where `acc` is the number
written so far and a digit must come next. -/
def digitsFrom? (acc : Nat) : List Char → Option Nat
  | [] => none
  | c :: cs => match Text.decimalValue? c with
    | none => none
    | some d => match cs with
      | [] => some (10 * acc + d)
      | '_' :: rest => digitsFrom? (10 * acc + d) rest
      | rest => digitsFrom? (10 * acc + d) rest

def integer? : List Char → Option Int
  | '-' :: cs => (digitsFrom? 0 cs).map fun n => -(n : Int)
  | '+' :: cs => (digitsFrom? 0 cs).map fun n => (n : Int)
  | cs => (digitsFrom? 0 cs).map fun n => (n : Int)

def number (vars : Variables) (var : String) (default : Int) : Except SettingError Int :=
  match vars var with
  | none => .ok default
  | some raw =>
    let trimmed := Text.trimBlank raw.toList
    if trimmed.isEmpty then .ok default
    else match integer? trimmed with
      | none => .error (.notInteger var raw)
      | some n => if n < 0 then .error (.negative var n) else .ok n

/-- The number of bodies that may be active at once, unless it is given directly. -/
def maxDepth (vars : Variables) (override : Option Int) : Except SettingError Int :=
  match override with
  | some n => .ok n
  | none => number vars "RISP_MAX_DEPTH" 200

def maxFrames (vars : Variables) : Except SettingError Int := number vars "RISP_MAX_FRAMES" 0

end Settings

end MiniLisp
