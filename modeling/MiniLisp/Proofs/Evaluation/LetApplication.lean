import MiniLisp.Proofs.Evaluation.Calls
import MiniLisp.Proofs.Evaluation.Fuel
import MiniLisp.Proofs.Evaluation.Parameters

/-!
# Local bindings as a call

A form with local bindings evaluates their expressions in order, outside the scope of its body, and
then its body in a scope of its own. So does the call of a function whose parameters are the bound
symbols; only that such a call counts as an active body, which nothing notices without a limit.
Main statement: local bindings and the call have the same outcome without places.
-/

namespace MiniLisp

namespace Eval

variable {α β : Type} {x : Eval α}

/-- Begun with any number of active bodies, the evaluation does the same and keeps the number. -/
def IgnoresDepth (x : Eval α) : Prop :=
  ∀ (m : Machine) (k : Nat),
    x { m with callDepth := k } = ((x m).1, { (x m).2 with callDepth := k })

theorem IgnoresDepth.bind {f : α → Eval β} (hx : IgnoresDepth x) (hf : ∀ a, IgnoresDepth (f a)) :
    IgnoresDepth (x >>= f) := by
  intro m k
  have hk := hx m k
  rcases h : x m with ⟨a | e | _, m'⟩ <;> rw [h] at hk
  · rw [bind_value h, bind_value hk]
    exact hf a m' k
  · rw [bind_error h, bind_error hk]
  · rw [bind_exhausted h, bind_exhausted hk]

theorem IgnoresDepth.annotate (hx : IgnoresDepth x) (f : EvalError → EvalError) :
    IgnoresDepth (annotate f x) := by
  intro m k
  simp only [Eval.annotate, hx m k]
  rcases x m with ⟨a | e | _, m'⟩ <;> rfl

theorem IgnoresDepth.inScope (hx : IgnoresDepth x) (closes : Nat → Bool)
    (bindings : List (Symbol × Value)) : IgnoresDepth (inScope closes bindings x) := by
  intro m k
  simp only [Eval.inScope, hx { m with env := m.env.enter bindings } k]
  split
  · cases (x { m with env := m.env.enter bindings }).2.env.pop <;> rfl
  · rfl

/-- Without a limit the number of active bodies is only kept. -/
theorem IgnoresDepth.counted_eq (hx : IgnoresDepth x) {ctx : Context} (h : ctx.maxDepth = 0) :
    counted ctx x = x := by
  funext m
  have hkept : (x m).2.callDepth = m.callDepth :=
    congrArg (fun r => r.2.callDepth) (hx m m.callDepth)
  rw [counted_room ctx (fun hfull => hfull.1 h), hx m (m.callDepth + 1)]
  simp only [Nat.add_sub_cancel]
  rw [← hkept]

end Eval

open Eval

theorem Plan.ignoresDepth {ctx : Context} (h : ctx.maxDepth = 0) {ev : Value → Eval Value}
    (hev : ∀ v, IgnoresDepth (ev v)) {α : Type} (p : Plan α) : IgnoresDepth (p.run ctx ev) := by
  induction p with
  | bind p f ihp ihf => exact ihp.bind ihf
  | within i p ih => exact ih.annotate _
  | eval v => exact hev v
  | inScope bindings p ih => exact ih.inScope ctx.closes bindings
  | body form label p ih =>
    have hbody := ih.annotate (EvalError.leavingBody form label)
    rw [Plan.run, leavingBody, hbody.counted_eq h]
    exact hbody
  | expansion form p ih => exact ih.annotate _
  | ofExcept r => cases r <;> exact fun _ _ => rfl
  | _ => exact fun _ _ => rfl

theorem ignoresDepth_evaluate {ctx : Context} (h : ctx.maxDepth = 0) (fuel : Nat) (v : Value) :
    IgnoresDepth (evaluate ctx fuel v) := by
  induction fuel generalizing v with
  | zero => exact fun _ _ => rfl
  | succ fuel ih => exact Plan.ignoresDepth h ih (Plan.step ctx v)

/-- A local binding, as it is written. -/
def bindingForm (b : Symbol × Value) : Value := .list [.symbol b.1, b.2]

theorem run_evalBinding_bindingForm (ctx : Context) (ev : Value → Eval Value)
    (b : Symbol × Value) :
    (evalBinding (bindingForm b)).run ctx ev = within 1 (ev b.2) >>= fun v => pure (b.1, v) := rfl

theorem run_evalBindings_cons (ctx : Context) (ev : Value → Eval Value) (k : Int) (v : Value)
    (vs : List Value) :
    (evalBindings k (v :: vs)).run ctx ev = within k ((evalBinding v).run ctx ev) >>= fun b =>
      (evalBindings (k + 1) vs).run ctx ev >>= fun bs => pure (b :: bs) := rfl

/-- Bindings evaluate their expressions as a call evaluates its operands. -/
theorem unplaced_evalBindings (ctx : Context) (ev : Value → Eval Value) (k l : Int)
    (bindings : List (Symbol × Value)) :
    ((evalBindings k (bindings.map bindingForm)).run ctx ev).unplaced
      = ((evalEach l (bindings.map Prod.snd)).run ctx ev).unplaced
          >>= fun args => pure ((bindings.map Prod.fst).zip args) := by
  induction bindings generalizing k l with
  | nil => rfl
  | cons b bindings ih =>
    simp only [List.map_cons, run_evalBindings_cons, run_evalEach_cons,
      run_evalBinding_bindingForm, unplaced_bind, unplaced_within, unplaced_pure, bind_assoc,
      pure_bind, ih (k + 1) (l + 1), List.zip_cons_cons]

/-- As many operands as there are positional parameters, and no rest parameter. -/
theorem run_bindOperands_zip {names : List Symbol} {operands : List Value}
    (h : operands.length = names.length) (ctx : Context) (ev : Value → Eval Value)
    (description : String) :
    (bindOperands ⟨names, none⟩ operands true description).run ctx ev
      = (evalEach 1 operands).run ctx ev >>= fun args => pure (names.zip args) := by
  have harity : requireArity .exactly names.length operands.length description = .ok () := by
    rw [requireArity, h, if_pos (by simp [ArityRule.admits])]
  have hpair : ∀ args, ParamList.pair ⟨names, none⟩ args = names.zip args := by
    intro args
    rw [ParamList.pair, List.append_nil]
  simp only [bindOperands, ParamList.arityRule, Option.isNone_none, ite_true, harity, hpair]
  rfl

/-- What both forms do: the expressions in order, then the body in a scope of its own. -/
def evalThenBody (bindings : List (Symbol × Value)) (body : List Value) : Plan Value := do
  let args ← evalEach 1 (bindings.map Prod.snd)
  evalBody ((bindings.map Prod.fst).zip args) body

theorem unplaced_applyLet (ctx : Context) (ev : Value → Eval Value)
    (bindings : List (Symbol × Value)) (first : Value) (rest : List Value) :
    ((applyLet (.list (bindings.map bindingForm) :: first :: rest)).run ctx ev).unplaced
      = ((evalThenBody bindings (first :: rest)).run ctx ev).unplaced := by
  have hlet : (applyLet (.list (bindings.map bindingForm) :: first :: rest)).run ctx ev
      = within 1 ((evalBindings 0 (bindings.map bindingForm)).run ctx ev)
          >>= fun bs => (evalBody bs (first :: rest)).run ctx ev := rfl
  simp only [hlet, evalThenBody, Plan.run_bind, unplaced_bind, unplaced_within,
    unplaced_evalBindings ctx ev 0 1, bind_assoc, pure_bind]

theorem unplaced_applyFunction {ctx : Context} (h : ctx.maxDepth = 0) (fuel : Nat)
    (bindings : List (Symbol × Value)) (body : List Value) (name : Option String) :
    ((applyProcedure ctx ⟨.function, ⟨bindings.map Prod.fst, none⟩, body⟩
        (bindings.map Prod.snd) name).run ctx (evaluate ctx fuel)).unplaced
      = ((evalThenBody bindings body).run ctx (evaluate ctx fuel)).unplaced := by
  have hlength : (bindings.map Prod.snd).length = (bindings.map Prod.fst).length := by simp
  have hbind : (bindProcedure ctx ⟨.function, ⟨bindings.map Prod.fst, none⟩, body⟩
        (bindings.map Prod.snd) name).run ctx (evaluate ctx fuel)
      = (evalEach 1 (bindings.map Prod.snd)).run ctx (evaluate ctx fuel)
          >>= fun args => pure ((bindings.map Prod.fst).zip args) :=
    run_bindOperands_zip hlength ctx (evaluate ctx fuel) _
  have hrun : ∀ bs, ((runProcedure ⟨.function, ⟨bindings.map Prod.fst, none⟩, body⟩ bs name).run
        ctx (evaluate ctx fuel)).unplaced
      = ((evalBody bs body).run ctx (evaluate ctx fuel)).unplaced := by
    intro bs
    have hbody := Plan.ignoresDepth h (ignoresDepth_evaluate h fuel) (evalBody bs body)
    rw [runProcedure, Plan.run, leavingBody, (hbody.annotate _).counted_eq h]
    exact unplaced_leavingBody _ _ _
  have hpure : ∀ v : Value, (pure v : Plan Value).run ctx (evaluate ctx fuel) = pure v :=
    fun _ => rfl
  simp only [applyProcedure, evalThenBody, Plan.run_bind, hbind, unplaced_bind, bind_assoc,
    pure_bind, hrun, hpure, bind_pure]

/-- With enough fuel, the form ends with the outcome, places aside, and leaves the machine. -/
def EndsAs (ctx : Context) (m : Machine) (form : Value) (o : Outcome Value) (m' : Machine) : Prop :=
  o ≠ .exhausted ∧ ∃ fuel, (evaluate ctx fuel form).unplaced m = (o, m')

theorem EndsAs.of_eq {ctx : Context} {m m' : Machine} {v w : Value} {o : Outcome Value} {n : Nat}
    (heq : ∀ fuel, (evaluate ctx (fuel + n) v).unplaced m = (evaluate ctx (fuel + n) w).unplaced m)
    (h : EndsAs ctx m v o m') : EndsAs ctx m w o m' := by
  obtain ⟨ho, fuel, hv⟩ := h
  -- the answer stays the same with the fuel from which on both forms do the same
  refine ⟨ho, fuel + n, ?_⟩
  have hends : (evaluate ctx fuel v m).1 ≠ .exhausted := by
    intro hexhausted
    have hunplaced := unplaced_eq_exhausted.mpr hexhausted
    rw [hv] at hunplaced
    exact ho hunplaced
  have hmore := (refinedBy_evaluate ctx (Nat.le_add_right fuel n) v m).resolve_left hends
  calc (evaluate ctx (fuel + n) w).unplaced m
      = (evaluate ctx (fuel + n) v).unplaced m := (heq fuel).symm
    _ = (evaluate ctx fuel v).unplaced m := unplaced_congr hmore
    _ = (o, m') := hv

/-- Without a limit of active bodies, a form with local bindings and the call of the function of
the bound symbols have the same outcome without places and leave the same machine, and the one ends
if and only if the other does. Both evaluate the expressions in order where the form stands, and
then the body in a scope that binds their values. -/
theorem let_is_application (ctx : Context) (hlimit : ctx.maxDepth = 0) (m : Machine)
    (letHead fnHead : Symbol) (hlet : m.env.resolve? letHead = some (.special .bindLocal))
    (hfn : m.env.resolve? fnHead = some (.special .makeFunction))
    (bindings : List (Symbol × Value)) (hsymbols : Symbol.rest ∉ bindings.map Prod.fst)
    (first : Value) (rest : List Value) :
    let withLet := Value.list (.symbol letHead :: .list (bindings.map bindingForm) :: first :: rest)
    let asCall := Value.list (.list (.symbol fnHead ::
      .list (Value.ofSymbols (bindings.map Prod.fst)) :: first :: rest) :: bindings.map Prod.snd)
    (∀ fuel, (evaluate ctx (fuel + 3) withLet).unplaced m
        = (evaluate ctx (fuel + 3) asCall).unplaced m ∧
      (evaluate ctx (fuel + 3) withLet).unplaced m
        = ((evalThenBody bindings (first :: rest)).run ctx (evaluate ctx (fuel + 2))).unplaced m) ∧
    ∀ o m', EndsAs ctx m withLet o m' ↔ EndsAs ctx m asCall o m' := by
  intro withLet asCall
  have hwithLet : ∀ fuel, (evaluate ctx (fuel + 3) withLet).unplaced m
      = ((evalThenBody bindings (first :: rest)).run ctx (evaluate ctx (fuel + 2))).unplaced m := by
    intro fuel
    rw [unplaced_congr (evaluate_special hlet _)]
    exact congrFun (unplaced_applyLet ctx _ bindings first rest) m
  have hasCall : ∀ fuel, (evaluate ctx (fuel + 3) asCall).unplaced m
      = ((evalThenBody bindings (first :: rest)).run ctx (evaluate ctx (fuel + 2))).unplaced m := by
    intro fuel
    have hparams : ParamList.parseChild 1 (.list (Value.ofSymbols (bindings.map Prod.fst)))
        = .ok ⟨bindings.map Prod.fst, none⟩ := by
      apply ParamList.parseChild_eq_ok_iff.mpr
      exact ⟨by rw [ParamList.toForm, ParamList.symbols, List.append_nil], hsymbols⟩
    have hhead : evaluate ctx (fuel + 2) (.list (.symbol fnHead ::
          .list (Value.ofSymbols (bindings.map Prod.fst)) :: first :: rest)) m
        = (.value (.procedure .function ⟨bindings.map Prod.fst, none⟩ (first :: rest)), m) :=
      evaluate_maker hfn hparams first rest
    rw [unplaced_congr (evaluate_list hhead _)]
    exact congrFun (unplaced_applyFunction hlimit (fuel + 2) bindings (first :: rest) none) m
  have heq : ∀ fuel, (evaluate ctx (fuel + 3) withLet).unplaced m
      = (evaluate ctx (fuel + 3) asCall).unplaced m := by
    intro fuel
    rw [hwithLet, hasCall]
  refine ⟨fun fuel => ⟨heq fuel, hwithLet fuel⟩, fun o m' => ⟨EndsAs.of_eq heq, ?_⟩⟩
  exact EndsAs.of_eq fun fuel => (heq fuel).symm

/-- The first expression assigns the symbol that the second one reads and the form binds anew; the
third one fails. -/
theorem let_is_application_assigning :
    let ctx : Context := ⟨Symbols.initial.naming, 0, fun _ => true⟩
    let m : Machine := ⟨⟨[], ⟨[(⟨8⟩, .special .bindLocal), (Symbol.fn, .special .makeFunction),
      (⟨9⟩, .special .assign)]⟩⟩, 0, []⟩
    let bindings : List (Symbol × Value) :=
      [(⟨11⟩, .list [.symbol ⟨9⟩, .symbol ⟨10⟩, .bool true]), (⟨10⟩, .symbol ⟨10⟩),
        (⟨11⟩, .list [])]
    let withLet := Value.list [.symbol ⟨8⟩, .list (bindings.map bindingForm), .symbol ⟨11⟩]
    let asCall := Value.list (.list [.symbol Symbol.fn, .list [.symbol ⟨11⟩, .symbol ⟨10⟩,
      .symbol ⟨11⟩], .symbol ⟨11⟩] :: bindings.map Prod.snd)
    ∃ m', m'.env.resolve? ⟨10⟩ = some (.bool true) ∧
      EndsAs ctx m withLet (.error (EvalError.of .emptyApplication)) m' ∧
      EndsAs ctx m asCall (.error (EvalError.of .emptyApplication)) m' := by
  intro ctx m bindings withLet asCall
  obtain ⟨_, hends⟩ := let_is_application ctx rfl m ⟨8⟩ Symbol.fn rfl rfl bindings (by decide)
    (.symbol ⟨11⟩) []
  have hlet : EndsAs ctx m withLet (.error (EvalError.of .emptyApplication))
      ((evaluate ctx 9 withLet).unplaced m).2 := ⟨nofun, 9, rfl⟩
  exact ⟨_, rfl, hlet, (hends _ _).mp hlet⟩

end MiniLisp
