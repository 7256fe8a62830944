import MiniLisp.Environment

/-!
# Evaluations

An evaluation is a step from one machine to the next with an outcome. A machine holds the
environment, the number of active bodies and the log of macro expansions and top-level forms. The
combinators below are all that evaluations do to a machine besides defining and assigning: they open
and close scopes in pairs, count bodies in pairs, and annotate errors on the way out. Only a host
whose stack is exhausted may fail to close a scope.
-/

namespace MiniLisp

/-- What is worth a line in the log. -/
inductive Event where
  | evaluating (form : Value)
  | expanded (name : Option String)
  | discarded (count : Nat)

/-- What an evaluation leads to: a value, an error, or no answer because the nesting was deeper
than it was allowed to go. -/
inductive Outcome (α : Type) where
  | value (a : α)
  | error (e : EvalError)
  | exhausted

def Outcome.ended : Outcome α → Bool
  | .exhausted => false
  | _ => true

/-- The state of an evaluation; the log has the newest event first. -/
structure Machine where
  env : Environment
  callDepth : Nat
  log : List Event

/-- What does not change during an evaluation: the names of symbols, how many bodies may be active
at once, with zero for any number, and in which depths of the environment the host can still close a
scope when its stack is exhausted. -/
structure Context where
  names : Naming
  maxDepth : Int
  closes : Nat → Bool

/-- No symbol has a name, and nothing is limited. -/
def Context.bare : Context := ⟨fun _ => none, 0, fun _ => true⟩

def Eval (α : Type) := Machine → Outcome α × Machine

namespace Eval

@[inline] protected def pure (a : α) : Eval α := fun m => (.value a, m)

@[inline] protected def bind (x : Eval α) (f : α → Eval β) : Eval β := fun m =>
  match x m with
  | (.value a, m) => f a m
  | (.error e, m) => (.error e, m)
  | (.exhausted, m) => (.exhausted, m)

instance : Monad Eval where
  pure := Eval.pure
  bind := Eval.bind

@[inline] def fail (cause : EvalCause) : Eval α := fun m => (.error (EvalError.of cause), m)

@[inline] def exhausted : Eval α := fun m => (.exhausted, m)

@[inline] def ofExcept (r : Except EvalError α) : Eval α := fun m =>
  match r with
  | .ok a => (.value a, m)
  | .error e => (.error e, m)

@[inline] def annotate (f : EvalError → EvalError) (x : Eval α) : Eval α := fun m =>
  match x m with
  | (.error e, m) => (.error (f e), m)
  | r => r

@[inline] def within (i : Int) (x : Eval α) : Eval α := annotate (EvalError.within i) x

/-- An evaluation inside the body of `form`, entered from the head of the form at hand. -/
@[inline] def leavingBody (form : Value) (label : Option String) (x : Eval α) : Eval α :=
  annotate (EvalError.leavingBody form label) x

@[inline] def emit (event : Event) : Eval Unit := fun m =>
  (.value (), { m with log := event :: m.log })

@[inline] def resolve? (s : Symbol) : Eval (Option Value) := fun m =>
  (.value (m.env.resolve? s), m)

@[inline] def define (s : Symbol) (v : Value) : Eval Unit := fun m =>
  (.value (), { m with env := m.env.define s v })

@[inline] def assign (s : Symbol) (v : Value) : Eval Unit := fun m =>
  (.value (), { m with env := m.env.assign s v })

/-- An evaluation in a new scope with the given bindings, which is closed however it ends, unless
the stack of the host is exhausted and leaves no room for closing the scope either. -/
def inScope (closes : Nat → Bool) (bindings : List (Symbol × Value)) (x : Eval α) : Eval α :=
  fun m =>
    let (outcome, m) := x { m with env := m.env.enter bindings }
    if outcome.ended || closes m.env.depth then
      match m.env.pop with
      | .ok env => (outcome, { m with env := env })
      | .error e => (.error e, m)
    else (outcome, m)

/-- An evaluation that counts as one more active body, unless there are too many already. -/
def counted (ctx : Context) (x : Eval α) : Eval α := fun m =>
  if ctx.maxDepth ≠ 0 ∧ ctx.maxDepth ≤ m.callDepth then
    (.error (EvalError.of (.tooDeep ctx.maxDepth)), m)
  else
    let (outcome, m) := x { m with callDepth := m.callDepth + 1 }
    (outcome, { m with callDepth := m.callDepth - 1 })

end Eval

end MiniLisp
