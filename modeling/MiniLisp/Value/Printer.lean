import MiniLisp.Number
import MiniLisp.Text.Escape
import MiniLisp.Value

/-!
# Printed values

The text of a value, which reads back as the value whenever it is data. Procedures are printed as
their definitions; special forms and native functions have a text that no form has.
-/

namespace MiniLisp.Value

def boolText (b : Bool) : List Char := ['#', if b then 't' else 'f']

def symbolText (names : Naming) (s : Symbol) : List Char := (names.nameOf s).toList

def nativeText (n : Native) : List Char := ("#<native " ++ n.describe ++ ">").toList

def specialText (f : SpecialForm) : List Char := ("#<special-form " ++ f.name ++ ">").toList

def paramsText (names : Naming) (p : ParamList Symbol) : List Char :=
  '(' :: Text.spaced (p.symbols.map (symbolText names)) ++ [')']

mutual

def chars (names : Naming) : Value → List Char
  | .bool b => boolText b
  | .number x => Number.text x
  | .string s => Text.stringLiteral s.toList
  | .symbol s => symbolText names s
  | .list [] => ['(', ')']
  | .list (v :: vs) => '(' :: chars names v ++ tailChars names vs ++ [')']
  | .special f => specialText f
  | .native n => nativeText n
  | .procedure kind params body =>
    '(' :: symbolText names kind.head ++ ' ' :: paramsText names params ++
      tailChars names body ++ [')']

def tailChars (names : Naming) : List Value → List Char
  | [] => []
  | v :: vs => ' ' :: chars names v ++ tailChars names vs

end

def print (names : Naming) (v : Value) : String := String.ofList (v.chars names)

theorem spaced_cons (names : Naming) (v : Value) (vs : List Value) :
    Text.spaced ((v :: vs).map (chars names)) = chars names v ++ tailChars names vs := by
  induction vs generalizing v with
  | nil => simp only [List.map_cons, List.map_nil, Text.spaced, tailChars, List.append_nil]
  | cons w ws ih =>
    rw [List.map_cons, List.map_cons, Text.spaced_cons_cons, ← List.map_cons, ih w]
    simp only [tailChars, List.cons_append]

/-- A list is printed as its elements with single blanks between them, in parentheses. -/
theorem chars_list (names : Naming) (vs : List Value) :
    chars names (.list vs) = '(' :: Text.spaced (vs.map (chars names)) ++ [')'] := by
  cases vs with
  | nil => simp only [chars, List.map_nil, Text.spaced, List.cons_append, List.nil_append]
  | cons v vs => simp only [chars, spaced_cons, List.cons_append]

theorem map_chars_ofSymbols (names : Naming) (ss : List Symbol) :
    (ofSymbols ss).map (chars names) = ss.map (symbolText names) := by
  simp only [ofSymbols, List.map_map]
  exact List.map_congr_left fun s _ => by simp only [Function.comp_apply, chars]

theorem chars_procedure (names : Naming) (kind : ProcedureKind) (params : ParamList Symbol)
    (body : List Value) :
    chars names (.procedure kind params body)
      = chars names (.list (definition kind params body)) := by
  simp only [definition, chars, tailChars, paramsText]
  rw [chars_list, map_chars_ofSymbols]
  simp only [List.cons_append, List.append_assoc, List.nil_append]

end MiniLisp.Value
