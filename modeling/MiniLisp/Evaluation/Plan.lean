import MiniLisp.Evaluation.Machine

/-!
# Plans

What an evaluation does to a machine, as data: a few things in an order that only their results
decide, with the evaluation of other forms left open. A plan is run with an evaluation of those
forms. What happens on the way, of which the machine shows nothing, can be read off the same plan.
-/

namespace MiniLisp

/-- The label of a frame for an expansion that is evaluated. -/
def expansionLabel : String := "~>"

inductive Plan : Type → Type 1 where
  | pure {α : Type} (a : α) : Plan α
  | bind {α β : Type} (x : Plan α) (f : α → Plan β) : Plan β
  | ofExcept {α : Type} (r : Except EvalError α) : Plan α
  | within {α : Type} (i : Int) (x : Plan α) : Plan α
  /-- The evaluation of another form. -/
  | eval (v : Value) : Plan Value
  | emit (event : Event) : Plan Unit
  | resolve (s : Symbol) : Plan (Option Value)
  | define (s : Symbol) (v : Value) : Plan Unit
  | assign (s : Symbol) (v : Value) : Plan Unit
  | inScope {α : Type} (bindings : List (Symbol × Value)) (x : Plan α) : Plan α
  /-- The attempt to enter a body, which is part of the given definition. -/
  | body {α : Type} (form : Value) (label : Option String) (x : Plan α) : Plan α
  /-- The evaluation of an expansion. -/
  | expansion {α : Type} (form : Value) (x : Plan α) : Plan α

namespace Plan

instance : Monad Plan where
  pure := Plan.pure
  bind := Plan.bind

def fail (cause : EvalCause) : Plan α := .ofExcept (.error (EvalError.of cause))

/-- What the plan does to a machine, with an evaluation of the other forms. An error that leaves a
body or an expansion is kept in a frame. -/
def run (ctx : Context) (ev : Value → Eval Value) : Plan α → Eval α
  | .pure a => Pure.pure a
  | .bind x f => x.run ctx ev >>= fun a => (f a).run ctx ev
  | .ofExcept r => Eval.ofExcept r
  | .within i x => Eval.within i (x.run ctx ev)
  | .eval v => ev v
  | .emit event => Eval.emit event
  | .resolve s => Eval.resolve? s
  | .define s v => Eval.define s v
  | .assign s v => Eval.assign s v
  | .inScope bindings x => Eval.inScope ctx.closes bindings (x.run ctx ev)
  | .body form label x => Eval.counted ctx (Eval.leavingBody form label (x.run ctx ev))
  | .expansion form x => Eval.leavingBody form (some expansionLabel) (x.run ctx ev)

theorem run_bind (ctx : Context) (ev : Value → Eval Value) (x : Plan α) (f : α → Plan β) :
    (x >>= f).run ctx ev = x.run ctx ev >>= fun a => (f a).run ctx ev := rfl

end Plan

end MiniLisp
