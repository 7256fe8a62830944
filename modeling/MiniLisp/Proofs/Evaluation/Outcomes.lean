import MiniLisp.Evaluation

/-!
# Outcomes of combined evaluations

What a combinator does follows from what the evaluation inside does: one equation for each outcome.
-/

namespace MiniLisp

namespace Eval

variable {α β : Type} {x : Eval α} {o : Outcome α} {m m' : Machine}

theorem bind_value {a : α} (h : x m = (.value a, m')) (f : α → Eval β) : (x >>= f) m = f a m' := by
  change Eval.bind x f m = f a m'
  rw [Eval.bind, h]

theorem bind_error {e : EvalError} (h : x m = (.error e, m')) (f : α → Eval β) :
    (x >>= f) m = (.error e, m') := by
  change Eval.bind x f m = (.error e, m')
  rw [Eval.bind, h]

theorem bind_exhausted (h : x m = (.exhausted, m')) (f : α → Eval β) :
    (x >>= f) m = (.exhausted, m') := by
  change Eval.bind x f m = (.exhausted, m')
  rw [Eval.bind, h]

theorem annotate_value {a : α} (h : x m = (.value a, m')) (f : EvalError → EvalError) :
    annotate f x m = (.value a, m') := by
  rw [annotate, h]

theorem annotate_error {e : EvalError} (h : x m = (.error e, m')) (f : EvalError → EvalError) :
    annotate f x m = (.error (f e), m') := by
  rw [annotate, h]

theorem annotate_exhausted (h : x m = (.exhausted, m')) (f : EvalError → EvalError) :
    annotate f x m = (.exhausted, m') := by
  rw [annotate, h]

theorem inScope_closed {closes : Nat → Bool} {bindings : List (Symbol × Value)} {env : Environment}
    (h : x { m with env := m.env.enter bindings } = (o, m'))
    (hroom : (o.ended || closes m'.env.depth) = true) (hpop : m'.env.pop = .ok env) :
    inScope closes bindings x m = (o, { m' with env := env }) := by
  simp only [inScope, h, hroom, ite_true, hpop]

theorem inScope_left_open {closes : Nat → Bool} {bindings : List (Symbol × Value)}
    (h : x { m with env := m.env.enter bindings } = (o, m'))
    (hroom : (o.ended || closes m'.env.depth) = false) :
    inScope closes bindings x m = (o, m') := by
  simp only [inScope, h, hroom, Bool.false_eq_true, ite_false]

theorem counted_full (ctx : Context) (h : ctx.maxDepth ≠ 0 ∧ ctx.maxDepth ≤ m.callDepth) :
    counted ctx x m = (.error (EvalError.of (.tooDeep ctx.maxDepth)), m) := if_pos h

theorem counted_room (ctx : Context) (h : ¬ (ctx.maxDepth ≠ 0 ∧ ctx.maxDepth ≤ m.callDepth)) :
    counted ctx x m = ((x { m with callDepth := m.callDepth + 1 }).1,
      { (x { m with callDepth := m.callDepth + 1 }).2 with
        callDepth := (x { m with callDepth := m.callDepth + 1 }).2.callDepth - 1 }) := if_neg h

end Eval

/-- The value satisfies `V`, or the error satisfies `E`; no answer satisfies anything. -/
def Outcome.Satisfies (V : α → Prop) (E : EvalError → Prop) : Outcome α → Prop
  | .value a => V a
  | .error e => E e
  | .exhausted => True

theorem Outcome.Satisfies.mono {α : Type} {V W : α → Prop} {E F : EvalError → Prop}
    {o : Outcome α} (h : o.Satisfies V E) (hv : ∀ a, V a → W a) (he : ∀ e, E e → F e) :
    o.Satisfies W F := by
  cases o with
  | value a => exact hv a h
  | error e => exact he e h
  | exhausted => trivial

theorem Outcome.Satisfies.annotate {α : Type} {V : α → Prop} {E F : EvalError → Prop}
    {x : Eval α} {m : Machine} (h : (x m).1.Satisfies V E) {f : EvalError → EvalError}
    (he : ∀ e, E e → F (f e)) : (Eval.annotate f x m).1.Satisfies V F := by
  rcases heq : x m with ⟨a | e | _, m'⟩ <;> rw [heq] at h
  · rw [Eval.annotate_value heq]
    exact h
  · rw [Eval.annotate_error heq]
    exact he e h
  · rw [Eval.annotate_exhausted heq]
    trivial

end MiniLisp
