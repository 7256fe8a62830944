import MiniLisp.Number
import MiniLisp.Text.Quoted
import MiniLisp.Value

/-!
# Listed values

The text of a value in a listing of bindings: symbols by number, numbers always with a point or an
exponent, procedures and native functions in short.
-/

namespace MiniLisp.Value

def inspectSymbol (s : Symbol) : List Char := ("Symbol(" ++ toString s.id ++ ")").toList

def inspectSpecial (f : SpecialForm) : List Char :=
  "<SpecialForm.".toList ++ f.name.toList.map Char.toUpper ++ ": '".toList ++ f.name.toList ++
    "'>".toList

def inspectProcedure (kind : ProcedureKind) (params : ParamList Symbol) : List Char :=
  let what := match kind with
    | .function => "<Lambda "
    | .expander => "<Macro "
  (what ++ toString params.positional.length ++ " params>").toList

mutual

def inspect : Value → List Char
  | .bool b => (if b then "True" else "False").toList
  | .number x => Number.inspect x
  | .string s => Text.quoted s.toList
  | .symbol s => inspectSymbol s
  | .list [] => ['[', ']']
  | .list (v :: vs) => '[' :: inspect v ++ inspectTail vs ++ [']']
  | .special f => inspectSpecial f
  | .native n => ("<Native " ++ n.name ++ ">").toList
  | .procedure kind params _ => inspectProcedure kind params

def inspectTail : List Value → List Char
  | [] => []
  | v :: vs => ',' :: ' ' :: inspect v ++ inspectTail vs

end

end MiniLisp.Value
