import MiniLisp.Native
import MiniLisp.SpecialForm

/-!
# Values

Forms and results are the same values. Equality of values is structural; numbers are compared as
numbers, so that a value that holds something which is no number does not equal itself.
-/

namespace MiniLisp

/-- What calling a procedure means: a function evaluates its operands and returns the result of
its body; a macro takes its operands as they are and has the result of its body evaluated. -/
inductive ProcedureKind where
  | function
  | expander
  deriving DecidableEq, Repr

namespace ProcedureKind

def head : ProcedureKind → Symbol
  | .function => Symbol.fn
  | .expander => Symbol.macroHead

/-- The name of that symbol, shown for a procedure that is called without a name. -/
def headName : ProcedureKind → String
  | .function => "fn"
  | .expander => "macro"

end ProcedureKind

inductive Value where
  | bool (b : Bool)
  | number (x : Float)
  | string (s : String)
  | symbol (s : Symbol)
  | list (items : List Value)
  | special (form : SpecialForm)
  | native (n : Native)
  | procedure (kind : ProcedureKind) (params : ParamList Symbol) (body : List Value)

namespace Value

instance : Inhabited Value := ⟨.list []⟩

def ofSymbols (ss : List Symbol) : List Value := ss.map .symbol

/-- The definition that a procedure was built from. -/
def definition (kind : ProcedureKind) (params : ParamList Symbol) (body : List Value) :
    List Value :=
  .symbol kind.head :: .list (ofSymbols params.symbols) :: body

mutual

/-- Structural equality that also tells kinds of values apart. -/
def equal : Value → Value → Bool
  | .bool a, .bool b => decide (a = b)
  | .number a, .number b => a == b
  | .string a, .string b => decide (a = b)
  | .symbol a, .symbol b => decide (a = b)
  | .list a, .list b => equalAll a b
  | .special a, .special b => decide (a = b)
  | .native a, .native b => decide (a = b)
  | .procedure k p a, .procedure l q b => decide (k = l) && decide (p = q) && equalAll a b
  | _, _ => false

def equalAll : List Value → List Value → Bool
  | [], [] => true
  | a :: as, b :: bs => equal a b && equalAll as bs
  | _, _ => false

end

/-- The operand of a list of two elements that the symbol `mark` heads. -/
def wrapped? (mark : Symbol) : Value → Option Value
  | .list [.symbol s, v] => if s = mark then some v else none
  | _ => none

end Value

end MiniLisp
