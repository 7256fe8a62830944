import MiniLisp.Proofs.Evaluation.Outcomes
import MiniLisp.Proofs.Evaluation.Template

/-!
# Calls

A list whose head evaluates without a failure is the application of what the head stands for. Two
evaluations that differ only in where they place their errors are the same without places.
Main statements: one equation for each kind of head, and what each combinator is without places.
-/

namespace MiniLisp

/-- The error with its cause alone. -/
def EvalError.unplaced (e : EvalError) : EvalError := of e.cause

namespace Eval

variable {α β : Type}

/-- The evaluation with the same values and machines, whose errors have no place. -/
def unplaced (x : Eval α) : Eval α := annotate EvalError.unplaced x

theorem unplaced_value {x : Eval α} {m m' : Machine} {a : α} (h : x m = (.value a, m')) :
    x.unplaced m = (.value a, m') :=
  annotate_value h _

theorem unplaced_error {x : Eval α} {m m' : Machine} {e : EvalError} (h : x m = (.error e, m')) :
    x.unplaced m = (.error e.unplaced, m') :=
  annotate_error h _

theorem unplaced_exhausted {x : Eval α} {m m' : Machine} (h : x m = (.exhausted, m')) :
    x.unplaced m = (.exhausted, m') :=
  annotate_exhausted h _

theorem unplaced_congr {x y : Eval α} {m : Machine} (h : x m = y m) :
    x.unplaced m = y.unplaced m := by
  rw [unplaced, annotate, h]
  rfl

theorem unplaced_eq_exhausted {x : Eval α} {m : Machine} :
    (x.unplaced m).1 = .exhausted ↔ (x m).1 = .exhausted := by
  rcases hx : x m with ⟨a | e | _, m'⟩
  · rw [unplaced_value hx]
  · rw [unplaced_error hx]
    simp
  · rw [unplaced_exhausted hx]

theorem unplaced_pure (a : α) : unplaced (pure a : Eval α) = pure a := rfl

theorem unplaced_bind (x : Eval α) (f : α → Eval β) :
    unplaced (x >>= f) = unplaced x >>= fun a => unplaced (f a) := by
  funext m
  rcases hx : x m with ⟨a | e | _, m'⟩
  · rw [bind_value (unplaced_value hx)]
    show annotate _ (x >>= f) m = annotate _ (f a) m'
    rw [annotate, bind_value hx]
    rfl
  · rw [bind_error (unplaced_error hx), unplaced_error (bind_error hx f)]
  · rw [bind_exhausted (unplaced_exhausted hx), unplaced_exhausted (bind_exhausted hx f)]

theorem unplaced_annotate {f : EvalError → EvalError} (h : ∀ e, (f e).unplaced = e.unplaced)
    (x : Eval α) : unplaced (annotate f x) = unplaced x := by
  funext m
  simp only [unplaced, annotate]
  rcases x m with ⟨a | e | _, m'⟩
  · rfl
  · simp only [h]
  · rfl

theorem unplaced_within (i : Int) (x : Eval α) : unplaced (within i x) = unplaced x :=
  unplaced_annotate (f := EvalError.within i) (fun _ => rfl) x

theorem unplaced_leavingBody (form : Value) (label : Option String) (x : Eval α) :
    unplaced (leavingBody form label x) = unplaced x :=
  unplaced_annotate (f := EvalError.leavingBody form label) (fun _ => rfl) x

end Eval

open Eval

variable {ctx : Context} {fuel : Nat} {m m' : Machine}

theorem evaluate_symbol {s : Symbol} {v : Value} (h : m.env.resolve? s = some v) :
    evaluate ctx (fuel + 1) (.symbol s) m = (.value v, m) := by
  have hfound : Eval.resolve? s m = (.value (some v), m) := by rw [Eval.resolve?, h]
  exact bind_value hfound _

theorem evaluate_list {head f : Value} (h : evaluate ctx fuel head m = (.value f, m'))
    (operands : List Value) :
    evaluate ctx (fuel + 1) (.list (head :: operands)) m
      = (applyValue ctx (calledName ctx head) operands f).run ctx (evaluate ctx fuel) m' := by
  have hhead : within 0 (evaluate ctx fuel head) m = (.value f, m') := annotate_value h _
  exact bind_value hhead _

theorem evaluate_list_error {head : Value} {e : EvalError}
    (h : evaluate ctx fuel head m = (.error e, m')) (operands : List Value) :
    evaluate ctx (fuel + 1) (.list (head :: operands)) m = (.error (e.within 0), m') := by
  have hhead : within 0 (evaluate ctx fuel head) m = (.error (e.within 0), m') :=
    annotate_error h _
  exact bind_error hhead _

theorem evaluate_special {s : Symbol} {form : SpecialForm}
    (h : m.env.resolve? s = some (.special form)) (operands : List Value) :
    evaluate ctx (fuel + 2) (.list (.symbol s :: operands)) m
      = (applySpecial form operands).run ctx (evaluate ctx (fuel + 1)) m :=
  evaluate_list (evaluate_symbol h) operands

/-- The special form that makes procedures of the kind. -/
def ProcedureKind.maker : ProcedureKind → SpecialForm
  | .function => .makeFunction
  | .expander => .makeMacro

theorem run_applySpecial_maker (ctx : Context) (ev : Value → Eval Value) (kind : ProcedureKind)
    (params first : Value) (rest : List Value) :
    (applySpecial kind.maker (params :: first :: rest)).run ctx ev
      = Eval.ofExcept ((ParamList.parseChild 1 params).map
          fun p => .procedure kind p (first :: rest)) := by
  cases kind <;>
  · show (Eval.ofExcept (ParamList.parseChild 1 params) >>= _) = _
    cases ParamList.parseChild 1 params <;> rfl

/-- A written definition evaluates to its procedure, without effect, if its parameters are well
formed. -/
theorem evaluate_maker {s : Symbol} {kind : ProcedureKind}
    (h : m.env.resolve? s = some (.special kind.maker)) {params : Value} {p : ParamList Symbol}
    (hparams : ParamList.parseChild 1 params = .ok p) (first : Value) (rest : List Value) :
    evaluate ctx (fuel + 2) (.list (.symbol s :: params :: first :: rest)) m
      = (.value (.procedure kind p (first :: rest)), m) := by
  rw [evaluate_special h, run_applySpecial_maker, hparams]
  rfl

theorem evaluate_maker_error {s : Symbol} {kind : ProcedureKind}
    (h : m.env.resolve? s = some (.special kind.maker)) {params : Value} {e : EvalError}
    (hparams : ParamList.parseChild 1 params = .error e) (first : Value) (rest : List Value) :
    evaluate ctx (fuel + 2) (.list (.symbol s :: params :: first :: rest)) m = (.error e, m) := by
  rw [evaluate_special h, run_applySpecial_maker, hparams]
  rfl

end MiniLisp
