/-!
# Special forms

The forms whose operands are not evaluated before the form takes effect, with their names.
-/

namespace MiniLisp

/-- The special forms, in the order in which a fresh environment binds them. -/
inductive SpecialForm where
  | define
  | assign
  | makeFunction
  | makeMacro
  | branch
  | bindLocal
  | sequence
  | quote
  | quasiquote
  deriving DecidableEq, Repr

namespace SpecialForm

/-- The name under which a fresh environment binds the form. -/
def name : SpecialForm → String
  | .define => "def"
  | .assign => "set"
  | .makeFunction => "fn"
  | .makeMacro => "macro"
  | .branch => "if"
  | .bindLocal => "let"
  | .sequence => "begin"
  | .quote => "quote"
  | .quasiquote => "quasiquote"

def all : List SpecialForm :=
  [.define, .assign, .makeFunction, .makeMacro, .branch, .bindLocal, .sequence, .quote,
    .quasiquote]

def ofName? (name : String) : Option SpecialForm := all.find? fun f => f.name == name

theorem mem_all (f : SpecialForm) : f ∈ all := by
  cases f <;> decide

end SpecialForm

end MiniLisp
