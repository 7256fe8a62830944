import MiniLisp.Value

/-!
# Errors of evaluation

Why a form could not be evaluated, and where. The place is a path of child positions inside the
form that is being left; each time a body is left, the path so far is kept in a frame together with
the form that it leads into, and a new path begins. Paths and frames are kept from the outside in.
-/

namespace MiniLisp

/-- How many operands are accepted: as many as there are parameters, or at least as many. -/
inductive ArityRule where
  | exactly
  | atLeast
  deriving DecidableEq, Repr

namespace ArityRule

def words : ArityRule → String
  | .exactly => "exactly"
  | .atLeast => "at least"

/-- The number `actual` fits the number `expected`. -/
def admits (rule : ArityRule) (expected actual : Nat) : Bool :=
  match rule with
  | .exactly => decide (actual = expected)
  | .atLeast => decide (expected ≤ actual)

end ArityRule

/-- A value of a kind that the operation does not accept. -/
inductive TypeFault where
  | expectedBool
  | expectedNumber
  | expectedSymbol
  | expectedList
  | nameNotSymbol (form : SpecialForm)
  | incomparable
  | firstOfEmpty
  | spliceOutsideList
  | spliceNotList
  deriving DecidableEq, Repr

def TypeFault.message : TypeFault → String
  | .expectedBool => "Expected a bool"
  | .expectedNumber => "Expected a number"
  | .expectedSymbol => "Expected a symbol"
  | .expectedList => "Expected a list"
  | .nameNotSymbol form => "special form " ++ form.name ++ " must have a symbol in 1st place"
  | .incomparable => "= is only implemented for numbers and symbols"
  | .firstOfEmpty => "first of an empty list"
  | .spliceOutsideList => "unquote-splice is only valid inside a list"
  | .spliceNotList => "unquote-splice must produce a list"

/-- A definition whose parameters are not well formed, or that is headed by neither mark. -/
inductive DefinitionFault where
  | misplacedRest
  | unknownHead
  deriving DecidableEq, Repr

def DefinitionFault.message : DefinitionFault → String
  | .misplacedRest => "&rest must be second to last in parameter list"
  | .unknownHead => "Expected `fn` or `macro` at the head of a function definition"

/-- A state that the evaluator never reaches. -/
inductive InternalFault where
  | popGlobal
  | operandShape (n : Native)
  deriving DecidableEq, Repr

def InternalFault.message : InternalFault → String
  | .popGlobal => "Cannot pop the global scope"
  | .operandShape n => "Unexpected operands of " ++ n.name

inductive EvalCause where
  | unbound (name : String)
  | arity (description : String) (rule : ArityRule) (expected actual : Nat)
  | typeFault (fault : TypeFault)
  | emptyApplication
  | notApplicable (value : Value) (name : Option String)
  | badDefinition (fault : DefinitionFault)
  /-- More than `limit` bodies would have been active at once. -/
  | tooDeep (limit : Int)
  /-- The evaluation nests more deeply than the interpreter can follow. -/
  | exhausted
  | internal (fault : InternalFault)

namespace EvalCause

def message : EvalCause → String
  | .unbound name => "Unbound symbol '" ++ name ++ "'"
  | .arity description rule expected actual =>
    description ++ " requires " ++ rule.words ++ " " ++ toString expected ++ " arguments, got " ++
      toString actual
  | .typeFault fault => fault.message
  | .emptyApplication => "apply received empty form"
  | .notApplicable _ name =>
    let what := match name with
      | some n => "'" ++ n ++ "' is not callable"
      | none => "head of form is not callable"
    what ++ "; apply only implemented for Native, Lambda, Macro and Special Form"
  | .badDefinition fault => fault.message
  | .tooDeep limit => "Maximum call depth of " ++ toString limit ++ " exceeded"
  | .exhausted => "Host stack exhausted; evaluation nests too deeply"
  | .internal fault => fault.message

def isInternal : EvalCause → Bool
  | .internal _ => true
  | _ => false

end EvalCause

/-- Child positions from a form down to one of its parts. -/
abbrev Path := List Int

/-- A form that was left with an error, the path to the culprit inside it, and how it was
entered. -/
structure Frame where
  form : Value
  path : Path
  label : Option String

/-- A cause, the path inside the form that is being left, and the frames of the bodies left so
far, the outermost first. -/
structure EvalError where
  cause : EvalCause
  path : Path
  frames : List Frame

namespace EvalError

def of (cause : EvalCause) : EvalError := ⟨cause, [], []⟩

/-- The error, seen from the form of which the failing one is child `i`. -/
def within (i : Int) (e : EvalError) : EvalError := { e with path := i :: e.path }

/-- The error, with the path so far kept in a frame for `form`. -/
def leaving (form : Value) (label : Option String) (e : EvalError) : EvalError :=
  ⟨e.cause, [], ⟨form, e.path, label⟩ :: e.frames⟩

/-- The error on the way out of a body, seen from the call: the path goes on at the head. -/
def leavingBody (form : Value) (label : Option String) (e : EvalError) : EvalError :=
  (e.leaving form label).within 0

end EvalError

end MiniLisp
