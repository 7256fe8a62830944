import MiniLisp.Evaluation.Quasiquote

/-!
# What special forms do

Each special form receives its operands unevaluated and the evaluation of forms. Operand `k` is
child `k + 1` of the form, and errors are placed there.
-/

namespace MiniLisp

/-- The failure of a special form with a number of operands that does not fit. -/
def wrongCount (form : SpecialForm) (rule : ArityRule) (expected : Nat) (operands : List Value) :
    Plan Value :=
  Plan.fail (.arity ("special form " ++ form.name) rule expected operands.length)

def applyQuote : List Value → Plan Value
  | [v] => pure v
  | operands => wrongCount .quote .exactly 1 operands

def applyQuasiquote : List Value → Plan Value
  | [v] => Plan.within 1 (copyTemplate 1 v)
  | operands => wrongCount .quasiquote .exactly 1 operands

/-- A sequence evaluates its forms in order and returns the last result. -/
def applySequence : List Value → Plan Value
  | [] => wrongCount .sequence .atLeast 1 []
  | v :: vs => evalLast 1 (.list []) (v :: vs)

/-- A definition or an assignment: the name must be a symbol, and the value is bound by `bind`. -/
def applyBinder (form : SpecialForm) (bind : Symbol → Value → Plan Unit) :
    List Value → Plan Value
  | [.symbol s, expr] => do
    let v ← Plan.within 2 (.eval expr)
    bind s v
    pure v
  | [_, _] => Plan.within 1 (Plan.fail (.typeFault (.nameNotSymbol form)))
  | operands => wrongCount form .exactly 2 operands

/-- A procedure is made from a parameter list and at least one form; nothing is evaluated yet. -/
def applyMaker (form : SpecialForm) (kind : ProcedureKind) : List Value → Plan Value
  | params :: first :: rest => do
    let p ← Plan.ofExcept (ParamList.parseChild 1 params)
    pure (.procedure kind p (first :: rest))
  | operands => wrongCount form .atLeast 2 operands

/-- A branch evaluates the second operand if the first is true, and all further ones if not; with
no further ones the result is false. -/
def applyBranch : List Value → Plan Value
  | predicate :: consequent :: alternatives => do
    let v ← Plan.within 1 do
      let x ← Plan.eval predicate
      Plan.ofExcept x.asBool
    if v then Plan.within 2 (.eval consequent)
    else evalLast 3 (.bool false) alternatives
  | operands => wrongCount .branch .atLeast 2 operands

/-- One local binding: a symbol and a form, which is evaluated. -/
def evalBinding : Value → Plan (Symbol × Value)
  | .list [name, expr] => do
    let s ← Plan.within 0 (Plan.ofExcept name.asSymbol)
    let v ← Plan.within 1 (.eval expr)
    pure (s, v)
  | .list pair => Plan.fail (.arity "let binding" .exactly 2 pair.length)
  | _ => Plan.fail (.typeFault .expectedList)

/-- Local bindings in order, where `k` is the position of the first one. -/
def evalBindings (k : Int) : List Value → Plan (List (Symbol × Value))
  | [] => pure []
  | v :: vs => do
    let b ← Plan.within k (evalBinding v)
    let bs ← evalBindings (k + 1) vs
    pure (b :: bs)

/-- Local bindings are all evaluated outside the scope in which the body runs. -/
def applyLet : List Value → Plan Value
  | bindings :: first :: rest => do
    let bs ← Plan.within 1 do
      let pairs ← Plan.ofExcept bindings.asList
      evalBindings 0 pairs
    Plan.inScope bs (evalLast 2 (.list []) (first :: rest))
  | operands => wrongCount .bindLocal .atLeast 2 operands

def applySpecial (form : SpecialForm) (operands : List Value) : Plan Value :=
  match form with
  | .define => applyBinder .define Plan.define operands
  | .assign => applyBinder .assign Plan.assign operands
  | .makeFunction => applyMaker .makeFunction .function operands
  | .makeMacro => applyMaker .makeMacro .expander operands
  | .branch => applyBranch operands
  | .bindLocal => applyLet operands
  | .sequence => applySequence operands
  | .quote => applyQuote operands
  | .quasiquote => applyQuasiquote operands

end MiniLisp
