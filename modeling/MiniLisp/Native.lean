import MiniLisp.ParamList

/-!
# Native functions

The functions that a fresh environment binds, with their names and parameters.
-/

namespace MiniLisp

/-- The native functions, in the order in which a fresh environment binds them. -/
inductive Native where
  | add
  | multiply
  | subtract
  | equal
  | first
  | rest
  | list
  | concat
  | isList
  | length
  deriving DecidableEq, Repr

namespace Native

/-- The name under which a fresh environment binds the function. -/
def name : Native → String
  | .add => "+"
  | .multiply => "*"
  | .subtract => "-"
  | .equal => "="
  | .first => "first"
  | .rest => "rest"
  | .list => "list"
  | .concat => "concat"
  | .isList => "is-list"
  | .length => "length"

def params : Native → ParamList String
  | .add => ⟨[], some "terms"⟩
  | .multiply => ⟨[], some "factors"⟩
  | .subtract => ⟨["min"], some "subs"⟩
  | .equal => ⟨["o1", "o2"], none⟩
  | .first => ⟨["lst"], none⟩
  | .rest => ⟨["lst"], none⟩
  | .list => ⟨[], some "elems"⟩
  | .concat => ⟨[], some "lsts"⟩
  | .isList => ⟨["obj"], none⟩
  | .length => ⟨["lst"], none⟩

def all : List Native :=
  [.add, .multiply, .subtract, .equal, .first, .rest, .list, .concat, .isList, .length]

def ofName? (name : String) : Option Native := all.find? fun n => n.name == name

theorem mem_all (n : Native) : n ∈ all := by
  cases n <;> decide

def describe (n : Native) : String := n.name ++ " " ++ n.params.describe

end Native

end MiniLisp
