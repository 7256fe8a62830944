import MiniLisp.Proofs.Evaluation.Balance
import MiniLisp.Proofs.Evaluation.Fault
import MiniLisp.Proofs.Evaluation.Moments

/-!
# Errors at their culprits

Each construct places its errors at the part of the form that caused them, and where it evaluates a
child, it places the error of the child there. Its plan says so, whatever the plan is run with.
Main statement: the error of an evaluation has a trail that begins at the form, and ends, where a
body was refused, at the call in the last moment of the evaluation.
-/

namespace MiniLisp

namespace Plan

/-- The plan is part of what the call does. It places its errors at parts of the form, which is the
call itself or what is left of it behind the places so far, and its result satisfies `V`. -/
def Sited (ctx : Context) (call : Value) : Plan α → Value → (α → Prop) → Prop
  | .pure a, _, V => V a
  | .bind x f, form, V => x.Sited ctx call form fun a => (f a).Sited ctx call form V
  | .ofExcept r, form, V => (∀ a, r = .ok a → V a) ∧
      ∀ e, r = .error e → e.Located ctx (fun _ => False) form
  | .within i x, form, V => ∃ child, form.child? i = some child ∧ x.Sited ctx call child V
  | .eval v, form, V => v = form ∧ ∀ x, V x
  | .emit _, _, V => V ()
  | .resolve _, _, V => ∀ found, V found
  | .define _ _, _, V => V ()
  | .assign _ _, _, V => V ()
  | .inScope _ x, form, V => x.Sited ctx call form V
  | .body definition _ x, form, V => form = call ∧
      (∃ head operands, form = .list (head :: operands)) ∧ x.Sited ctx call definition V
  | .expansion expanded x, form, V => (∃ head operands, form = .list (head :: operands)) ∧
      x.Sited ctx call expanded V

variable {ctx : Context} {call form : Value}

theorem sited_fail {cause : EvalCause} {V : α → Prop}
    (h : cause.Blames ctx (fun _ => False) form) :
    (fail cause : Plan α).Sited ctx call form V := by
  refine ⟨nofun, fun e he => ?_⟩
  cases he
  exact EvalError.located_of h

theorem sited_fault {V : α → Prop} (fault : TypeFault) :
    (fail (.typeFault fault) : Plan α).Sited ctx call form V := by
  refine ⟨nofun, fun e he => ?_⟩
  cases he
  exact EvalError.located_fault form fault

theorem sited_evalEach {k : Int} {vs : List Value} (hc : form.ChildrenFrom k vs)
    {V : List Value → Prop} (hV : ∀ xs : List Value, xs.length = vs.length → V xs) :
    (evalEach k vs).Sited ctx call form V := by
  induction vs generalizing k V with
  | nil => exact hV [] rfl
  | cons v vs ih =>
    exact ⟨v, hc.1, rfl, fun x => ih hc.2 fun xs hxs => hV (x :: xs) (congrArg (· + 1) hxs)⟩

theorem sited_evalLast {k : Int} {last : Value} {vs : List Value} (hc : form.ChildrenFrom k vs)
    {V : Value → Prop} (hV : ∀ x, V x) : (evalLast k last vs).Sited ctx call form V := by
  induction vs generalizing k last with
  | nil => exact hV last
  | cons v vs ih => exact ⟨v, hc.1, rfl, fun x => ih hc.2⟩

/-- The bindings of a call pair all parameters with as many arguments as there are operands. -/
theorem sited_bindOperands {α : Type} (p : ParamList α) (head : Value) (operands : List Value)
    (evaluated : Bool) (description : String) {V : List (α × Value) → Prop}
    (hV : ∀ args : List Value, args.length = operands.length →
      p.arityRule.admits p.positional.length args.length = true → V (p.pair args)) :
    (bindOperands p operands evaluated description).Sited ctx call (.list (head :: operands))
      V := by
  refine ⟨fun u hu => ?_, fun e he => requireArity_located he⟩
  have hfit := requireArity_admits hu
  have hpaired : ∀ args : List Value, args.length = operands.length → V (p.pair args) :=
    fun args hargs => hV args hargs (by rw [hargs]; exact hfit)
  cases evaluated with
  | true => exact sited_evalEach (Value.childrenFrom_operands head operands) hpaired
  | false => exact hpaired operands rfl

theorem sited_copyItem (level : Nat) {item : Value} {copy : Plan Value}
    (hcopy : ∀ {W : Value → Prop}, (∀ x, W x) → copy.Sited ctx call item W)
    {V : List Value → Prop} (hV : ∀ xs, V xs) :
    (copyItem level item copy).Sited ctx call item V := by
  have hcopied : (copy >>= fun x => pure [x] : Plan (List Value)).Sited ctx call item V :=
    hcopy fun x => hV [x]
  unfold copyItem
  split
  · rename_i v hw
    split
    · have hv : item.child? 1 = some v := by
        rw [Value.eq_list_of_wrapped? hw]
        rfl
      refine ⟨v, hv, rfl, fun x => ?_⟩
      show (spliced x).Sited ctx call item V
      unfold spliced
      split
      · exact hV _
      · exact ⟨v, hv, sited_fault _⟩
    · exact hcopied
  · exact hcopied

mutual

theorem sited_copyTemplate (level : Nat) (v : Value) {V : Value → Prop} (hV : ∀ x, V x) :
    (copyTemplate level v).Sited ctx call v V := by
  unfold copyTemplate
  split
  · rename_i s v
    have hv : (Value.list [.symbol s, v]).child? 1 = some v := rfl
    split
    · split
      · exact ⟨v, hv, rfl, hV⟩
      · exact ⟨v, hv, sited_copyTemplate (level - 1) v fun x => hV _⟩
    · split
      · exact ⟨v, hv, sited_copyTemplate (level + 1) v fun x => hV _⟩
      · split
        · exact sited_fault _
        · have hitem : ∀ {W : Value → Prop}, (∀ x, W x) →
              (copyTemplate level v).Sited ctx call v W := sited_copyTemplate level v
          exact ⟨v, hv, sited_copyItem level hitem fun xs => hV _⟩
  · rename_i items _
    have hc : (Value.list items).ChildrenFrom 0 items := Value.childrenFrom_append [] items
    exact sited_copyItems level hc fun xs => hV _
  · exact hV _

theorem sited_copyItems {form : Value} (level : Nat) {k : Int} {items : List Value}
    (hc : form.ChildrenFrom k items) {V : List Value → Prop} (hV : ∀ xs, V xs) :
    (copyItems level k items).Sited ctx call form V := by
  cases items with
  | nil => exact hV []
  | cons item items =>
    have hitem : ∀ {W : Value → Prop}, (∀ x, W x) →
        (copyTemplate level item).Sited ctx call item W := sited_copyTemplate level item
    refine ⟨item, hc.1, sited_copyItem level hitem fun xs => ?_⟩
    exact sited_copyItems level hc.2 fun rest => hV _

end

section

variable {V : Value → Prop}

theorem sited_wrongCount {rule : ArityRule} {expected : Nat} {head : Value} {operands : List Value}
    (special : SpecialForm) (h : rule.admits expected operands.length = false) :
    (wrongCount special rule expected operands).Sited ctx call (.list (head :: operands)) V :=
  sited_fail ⟨h, _, rfl, .inr rfl⟩

theorem sited_wrongCount_two {head : Value} {operands : List Value} (special : SpecialForm)
    (h : ∀ first second rest, operands ≠ first :: second :: rest) :
    (wrongCount special .atLeast 2 operands).Sited ctx call (.list (head :: operands)) V := by
  refine sited_wrongCount special (decide_eq_false fun hlen => ?_)
  match operands, hlen with
  | first :: second :: rest, _ => exact h first second rest rfl

variable (hV : ∀ x, V x) (head : Value) (operands : List Value)
include hV

theorem sited_applyBinder (special : SpecialForm) {bind : Symbol → Value → Plan Unit}
    (hbind : ∀ s v form (W : Unit → Prop), W () → (bind s v).Sited ctx call form W) :
    (applyBinder special bind operands).Sited ctx call (.list (head :: operands)) V := by
  unfold applyBinder
  split
  · rename_i s expr
    exact ⟨expr, rfl, rfl, fun x => hbind s x _ _ (hV x)⟩
  · rename_i name _ _
    exact ⟨name, rfl, sited_fault _⟩
  · rename_i hne
    refine sited_wrongCount special (decide_eq_false fun hlen => ?_)
    obtain ⟨name, expr, rfl⟩ := List.length_eq_two.mp hlen
    exact hne name expr rfl

theorem sited_applyMaker (special : SpecialForm) (kind : ProcedureKind) :
    (applyMaker special kind operands).Sited ctx call (.list (head :: operands)) V := by
  unfold applyMaker
  split
  · exact ⟨fun p _ => hV _, fun e he => ParamList.parseChild_located rfl he⟩
  · rename_i hne
    exact sited_wrongCount_two special hne

theorem sited_applyBranch :
    (applyBranch operands).Sited ctx call (.list (head :: operands)) V := by
  unfold applyBranch
  split
  · rename_i predicate consequent alternatives
    refine ⟨predicate, rfl, rfl, fun x => ⟨fun b _ => ?_, fun e he => ?_⟩⟩
    · cases b with
      | true => exact ⟨consequent, rfl, rfl, hV⟩
      | false =>
        exact sited_evalLast
          (Value.childrenFrom_append [head, predicate, consequent] alternatives) hV
    · rw [Value.asBool_error he]
      exact EvalError.located_fault predicate _
  · rename_i hne
    exact sited_wrongCount_two .branch hne

omit hV in
theorem sited_evalBinding (v : Value) {W : Symbol × Value → Prop} (hW : ∀ b, W b) :
    (evalBinding v).Sited ctx call v W := by
  unfold evalBinding
  split
  · rename_i name expr
    refine ⟨name, rfl, fun s _ => ⟨expr, rfl, rfl, fun x => hW _⟩, fun e he => ?_⟩
    rw [Value.asSymbol_error he]
    exact EvalError.located_fault name _
  · rename_i pair hne
    refine sited_fail ⟨decide_eq_false fun hlen => ?_, _, rfl, .inl rfl⟩
    obtain ⟨name, expr, rfl⟩ := List.length_eq_two.mp hlen
    exact hne name expr rfl
  · exact sited_fault _

omit hV in
theorem sited_evalBindings {k : Int} {vs : List Value} (hc : form.ChildrenFrom k vs)
    {W : List (Symbol × Value) → Prop} (hW : ∀ bs, W bs) :
    (evalBindings k vs).Sited ctx call form W := by
  induction vs generalizing k W with
  | nil => exact hW []
  | cons v vs ih => exact ⟨v, hc.1, sited_evalBinding v fun b => ih hc.2 fun bs => hW _⟩

theorem sited_applyLet : (applyLet operands).Sited ctx call (.list (head :: operands)) V := by
  unfold applyLet
  split
  · rename_i bindings first rest
    have hbody := Value.childrenFrom_append [head, bindings] (first :: rest)
    refine ⟨bindings, rfl, fun pairs hpairs => ?_, fun e he => ?_⟩
    · have hc : bindings.ChildrenFrom 0 pairs := by
        rw [Value.eq_list_of_asList hpairs]
        exact Value.childrenFrom_append [] pairs
      exact sited_evalBindings hc fun bs => sited_evalLast hbody hV
    · rw [Value.asList_error he]
      exact EvalError.located_fault bindings _
  · rename_i hne
    exact sited_wrongCount_two .bindLocal hne

theorem sited_applySequence :
    (applySequence operands).Sited ctx call (.list (head :: operands)) V := by
  unfold applySequence
  split
  · exact sited_wrongCount .sequence rfl
  · rename_i v vs
    exact sited_evalLast (Value.childrenFrom_operands head (v :: vs)) hV

theorem sited_applyQuote : (applyQuote operands).Sited ctx call (.list (head :: operands)) V := by
  unfold applyQuote
  split
  · exact hV _
  · rename_i hne
    refine sited_wrongCount .quote (decide_eq_false fun hlen => ?_)
    obtain ⟨v, rfl⟩ := List.length_eq_one_iff.mp hlen
    exact hne v rfl

theorem sited_applyQuasiquote :
    (applyQuasiquote operands).Sited ctx call (.list (head :: operands)) V := by
  unfold applyQuasiquote
  split
  · rename_i v
    exact ⟨v, rfl, sited_copyTemplate 1 v hV⟩
  · rename_i hne
    refine sited_wrongCount .quasiquote (decide_eq_false fun hlen => ?_)
    obtain ⟨v, rfl⟩ := List.length_eq_one_iff.mp hlen
    exact hne v rfl

theorem sited_applySpecial (special : SpecialForm) :
    (applySpecial special operands).Sited ctx call (.list (head :: operands)) V := by
  cases special with
  | define => exact sited_applyBinder hV head operands .define fun _ _ _ _ hW => hW
  | assign => exact sited_applyBinder hV head operands .assign fun _ _ _ _ hW => hW
  | makeFunction => exact sited_applyMaker hV head operands .makeFunction .function
  | makeMacro => exact sited_applyMaker hV head operands .makeMacro .expander
  | branch => exact sited_applyBranch hV head operands
  | bindLocal => exact sited_applyLet hV head operands
  | sequence => exact sited_applySequence hV head operands
  | quote => exact sited_applyQuote hV head operands
  | quasiquote => exact sited_applyQuasiquote hV head operands

theorem sited_applyNative (native : Native) :
    (applyNative native operands).Sited ctx call (.list (head :: operands)) V :=
  sited_bindOperands native.params head operands true _ fun _ hlen hfit =>
    ⟨fun a _ => hV a, fun _ he => Native.run_located native hfit hlen he⟩

theorem sited_evalBody (d : Definition) (bindings : List (Symbol × Value)) :
    (evalBody bindings d.body).Sited ctx call
      (.list (Value.definition d.kind d.params d.body)) V :=
  sited_evalLast (Value.childrenFrom_append
    [.symbol d.kind.head, .list (Value.ofSymbols d.params.symbols)] d.body) hV

theorem sited_applyProcedure (d : Definition) (name : Option String) :
    (applyProcedure ctx d operands name).Sited ctx (.list (head :: operands))
      (.list (head :: operands)) V := by
  refine sited_bindOperands d.params head operands _ _ fun args _ _ => ?_
  refine ⟨rfl, ⟨head, operands, rfl⟩, sited_evalBody (fun result => ?_) d _⟩
  split
  · exact hV result
  · exact ⟨⟨head, operands, rfl⟩, rfl, hV⟩

theorem sited_applyValue (v : Value) :
    (applyValue ctx (calledName ctx head) operands v).Sited ctx (.list (head :: operands))
      (.list (head :: operands)) V := by
  unfold applyValue
  split
  · exact sited_applySpecial hV head operands _
  · exact sited_applyNative hV head operands _
  · exact sited_applyProcedure hV head operands _ _
  · split
    · rename_i form hform
      refine ⟨fun d _ => sited_applyProcedure hV head operands d _, fun e he => ?_⟩
      cases hparse : Definition.parse form with
      | ok d =>
        rw [hparse] at he
        cases he
      | error e' =>
        rw [hparse] at he
        cases he
        exact (Definition.parse_located hform hparse).leavingBody head operands _
    · refine ⟨nofun, fun e he => ?_⟩
      cases he
      exact @Trail.refused ctx _ _ _ _ _ _ [] _ rfl rfl rfl

end

theorem sited_step (ctx : Context) (v : Value) {V : Value → Prop} (hV : ∀ x, V x) :
    (step ctx v).Sited ctx v v V := by
  unfold step
  split
  · rename_i s
    intro found
    cases found with
    | none => exact sited_fail ⟨s, rfl, rfl⟩
    | some x => exact hV x
  · exact sited_fail rfl
  · rename_i head operands
    exact ⟨head, rfl, rfl, fun f => sited_applyValue hV head operands f⟩
  · exact hV v

end Plan

/-- The value satisfies `V`, and the error has a trail that begins at the form; if it ends at a call
for which a body was refused, then that call is the one in the last of the moments. -/
def Outcome.Sited (ctx : Context) (ms : List Moment) (form : Value) (V : α → Prop) :
    Outcome α → Prop :=
  Outcome.Satisfies V fun e => e.Located ctx (EndsFull ctx.maxDepth ms) form

section

variable {ctx : Context} {ms : List Moment} {form : Value} {V : α → Prop} {o : Outcome α}

theorem Outcome.Sited.after (h : o.Sited ctx ms form V) (before : List Moment) :
    o.Sited ctx (before ++ ms) form V :=
  h.mono (fun _ ha => ha) fun _ he => Trail.mono he fun _ hv => hv.append before

end

section

open Eval

variable {ctx : Context} {ev : Value → Eval Value} {inner : Value → Machine → List Moment}

/-- A plan that places its errors does so when it is run: the induction is on the plan. -/
theorem Plan.Sited.run (hkeeps : ∀ v, KeepsScopes ctx.closes (ev v))
    (hev : ∀ v m, (ev v m).1.Sited ctx (inner v m) v fun _ => True) {call form : Value}
    {x : Plan α} {V : α → Prop} (h : x.Sited ctx call form V) (m : Machine) :
    (x.run ctx ev m).1.Sited ctx (x.moments ctx ev inner call m) form V := by
  induction x generalizing form m with
  | pure a => exact h
  | bind x f ihx ihf =>
    have hx := ihx h m
    rw [Plan.run, Plan.moments]
    rcases heq : x.run ctx ev m with ⟨a | e | _, m'⟩ <;> rw [heq] at hx
    · rw [bind_value heq]
      exact (ihf a hx m').after _
    · -- nothing comes after an error, so its last moment is the last one of all
      rw [bind_error heq]
      exact (List.append_nil (x.moments ctx ev inner call m)).symm ▸ hx
    · rw [bind_exhausted heq]
      trivial
  | ofExcept r =>
    cases r with
    | ok a => exact h.1 a rfl
    | error e => exact Trail.mono (h.2 e rfl) fun _ hv => hv.elim
  | within i x ih =>
    obtain ⟨child, hc, hchild⟩ := h
    exact (ih hchild m).annotate fun _ he => EvalError.Located.within he hc
  | eval v =>
    obtain ⟨rfl, hV⟩ := h
    exact (hev v m).mono (fun a _ => hV a) fun _ he => he
  | emit event => exact h
  | resolve s => exact h _
  | define s v => exact h
  | assign s v => exact h
  | inScope bindings x ih =>
    have hx := ih h { m with env := m.env.enter bindings }
    rw [Plan.run, Plan.moments, (x.keepsScopes ctx hkeeps).outcome_inScope]
    exact hx
  | body definition label x ih =>
    obtain ⟨rfl, ⟨head, operands, rfl⟩, hbody⟩ := h
    rw [Plan.run, Plan.moments]
    -- a refused call has no moment after the one in which it is about to enter the body
    by_cases hfull : ctx.maxDepth ≠ 0 ∧ ctx.maxDepth ≤ m.callDepth
    · rw [counted_full ctx hfull, if_pos hfull]
      exact EvalError.located_of ⟨rfl, ⟨head, operands, rfl⟩, _, rfl, rfl, rfl, hfull.2⟩
    · have hx := ih hbody { m with callDepth := m.callDepth + 1 }
      rw [counted_room ctx hfull, if_neg hfull, Eval.leavingBody]
      refine Outcome.Sited.after (Outcome.Satisfies.annotate hx fun _ he => ?_) [_]
      exact EvalError.Located.leavingBody he head operands label
  | expansion expanded x ih =>
    obtain ⟨⟨head, operands, rfl⟩, hexpanded⟩ := h
    refine (ih hexpanded m).annotate fun _ he => ?_
    exact EvalError.Located.leavingBody (Trail.mono he fun _ hv => hv.inExpansion) head operands _

end

/-- Evaluation places its errors: the induction is on the fuel. -/
theorem sited_evaluate (ctx : Context) (fuel : Nat) (form : Value) (m : Machine) :
    (evaluate ctx fuel form m).1.Sited ctx (moments ctx fuel form m) form fun _ => True := by
  induction fuel generalizing form m with
  | zero => trivial
  | succ fuel ih =>
    exact (Plan.sited_step ctx form fun _ => trivial).run (keeps_evaluate ctx fuel) ih m

end MiniLisp
