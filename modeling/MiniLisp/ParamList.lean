import MiniLisp.Symbol
import MiniLisp.Text.Spaced

/-!
# Parameter lists

A parameter list has positional parameters and perhaps a rest parameter, which receives the list
of all further operands.
-/

namespace MiniLisp

/-- Positional parameters and an optional rest parameter. -/
structure ParamList (α : Type) where
  positional : List α
  rest : Option α
  deriving DecidableEq, Repr

namespace ParamList

def map (f : α → β) (p : ParamList α) : ParamList β := ⟨p.positional.map f, p.rest.map f⟩

/-- The names of the parameters in parentheses, with the mark before the rest parameter. -/
def describe (p : ParamList String) : String :=
  let rest := match p.rest with
    | none => []
    | some r => ["&rest", r]
  String.ofList ('(' :: Text.spaced ((p.positional ++ rest).map String.toList) ++ [')'])

def symbols (p : ParamList Symbol) : List Symbol :=
  p.positional ++ match p.rest with
    | none => []
    | some r => [Symbol.rest, r]

end ParamList

end MiniLisp
