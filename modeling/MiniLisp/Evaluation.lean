import MiniLisp.Evaluation.Primitive
import MiniLisp.Evaluation.Special

/-!
# Evaluation

A symbol evaluates to its value, a list to the application of its head to its operands, and every
other value to itself. The head is evaluated first. There are no captured environments: a body runs
in a scope on top of the scopes of its caller. What a form does is a plan that leaves the evaluation
of the forms inside open; to evaluate it is to run the plan, with a bound on how deep evaluations
nest.
-/

namespace MiniLisp

/-- The parameters of a procedure by name, in parentheses. -/
def ParamList.describeWith (names : Naming) (p : ParamList Symbol) : String :=
  (p.map names.nameOf).describe

/-- Runs a body in a scope of its own; with no form in it the result is the empty list. -/
def evalBody (bindings : List (Symbol × Value)) (body : List Value) : Plan Value :=
  Plan.inScope bindings (evalLast 2 (.list []) body)

/-- Binds the operands of a procedure, which a function evaluates and a macro takes as they are. -/
def bindProcedure (ctx : Context) (d : Definition) (operands : List Value)
    (name : Option String) : Plan (List (Symbol × Value)) :=
  bindOperands d.params operands (decide (d.kind = .function))
    (name.getD d.kind.headName ++ " " ++ d.params.describeWith ctx.names)

/-- Runs the body of a procedure as one more active body; an error on the way out is kept in a
frame for the definition. -/
def runProcedure (d : Definition) (bindings : List (Symbol × Value)) (name : Option String) :
    Plan Value :=
  Plan.body (.list (Value.definition d.kind d.params d.body)) name (evalBody bindings d.body)

def evalExpansion (name : Option String) (form : Value) : Plan Value := do
  Plan.emit (.expanded name)
  Plan.expansion form (.eval form)

/-- The call of a procedure, under the name by which it was called, if any. -/
def applyProcedure (ctx : Context) (d : Definition) (operands : List Value)
    (name : Option String) : Plan Value := do
  let bindings ← bindProcedure ctx d operands name
  let result ← runProcedure d bindings name
  match d.kind with
  | .function => pure result
  | .expander => evalExpansion name result

/-- The name by which a form calls its head. -/
def calledName (ctx : Context) : Value → Option String
  | .symbol s => ctx.names s
  | _ => none

/-- The application of an evaluated head: a procedure may also be given by its definition. -/
def applyValue (ctx : Context) (name : Option String) (operands : List Value) :
    Value → Plan Value
  | .special form => applySpecial form operands
  | .native n => applyNative n operands
  | .procedure kind params body => applyProcedure ctx ⟨kind, params, body⟩ operands name
  | head => match Definition.form? head with
    | some form => do
      let d ← Plan.ofExcept ((Definition.parse form).mapError (EvalError.leavingBody head name))
      applyProcedure ctx d operands name
    | none => Plan.ofExcept (.error
      ((EvalError.of (.notApplicable head name)).leavingBody head name))

def applyForm (ctx : Context) (head : Value) (operands : List Value) : Plan Value := do
  let f ← Plan.within 0 (.eval head)
  applyValue ctx (calledName ctx head) operands f

def evalSymbol (ctx : Context) (s : Symbol) : Plan Value := do
  match ← Plan.resolve s with
  | some v => pure v
  | none => Plan.fail (.unbound (ctx.names.nameOf s))

/-- What a form does, by means of the evaluation of other forms. -/
def Plan.step (ctx : Context) : Value → Plan Value
  | .symbol s => evalSymbol ctx s
  | .list [] => Plan.fail .emptyApplication
  | .list (head :: operands) => applyForm ctx head operands
  | v => Pure.pure v

/-- The evaluation of a form in which evaluations nest at most `fuel` deep. -/
def evaluate (ctx : Context) : Nat → Value → Eval Value
  | 0, _ => Eval.exhausted
  | fuel + 1, v => (Plan.step ctx v).run ctx (evaluate ctx fuel)

end MiniLisp
