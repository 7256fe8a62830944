import MiniLisp.Proofs.Evaluation.Confinement
import MiniLisp.Proofs.Evaluation.Culprit
import MiniLisp.Proofs.Evaluation.MacroFree
import MiniLisp.Proofs.Evaluation.Scopes

/-!
# Evaluations without macros end

Without macros an evaluation evaluates smaller forms with as many active bodies as there are, and
forms of any size only with more of them. So under a limit it ends: a form of a given size, with a
given number of bodies left to enter, needs no more than a certain nesting.
Main statement: `settles_evaluate`.
-/

namespace MiniLisp

/-- A value without macros that is smaller than `b`. -/
structure Value.FreeBelow (b : Nat) (v : Value) : Prop where
  free : v.MacroFree
  below : sizeOf v < b

theorem Value.MacroFree.parts {items : List Value} (h : (Value.list items).MacroFree) :
    ∀ v ∈ items, v.FreeBelow (sizeOf (Value.list items)) := by
  intro v hv
  have hlt := List.sizeOf_lt_of_mem hv
  refine ⟨h.items v hv, ?_⟩
  simp only [list.sizeOf_spec]
  omega

theorem Value.FreeBelow.items {b : Nat} {items : List Value} (h : (Value.list items).FreeBelow b) :
    ∀ v ∈ items, v.FreeBelow b := fun v hv =>
  have hpart := h.free.parts v hv
  ⟨hpart.free, Nat.lt_trans hpart.below h.below⟩

namespace Plan

/-- The plan evaluates forms that satisfy `calls`, and in bodies any forms without macros; it binds
and looks up values without macros, and its result satisfies `V`. -/
def Tame {α : Type} : (Value → Prop) → Plan α → (α → Prop) → Prop
  | _, .pure a, V => V a
  | calls, .bind x f, V => x.Tame calls fun a => (f a).Tame calls V
  | _, .ofExcept r, V => ∀ a, r = .ok a → V a
  | calls, .within _ x, V => x.Tame calls V
  | calls, .eval v, V => calls v ∧ ∀ x, x.MacroFree → V x
  | _, .emit _, V => V ()
  | _, .resolve s, V =>
    s ≠ Symbol.macroHead ∧ ∀ found : Option Value, (∀ v ∈ found, v.MacroFree) → V found
  | _, .define _ v, V => v.MacroFree ∧ V ()
  | _, .assign _ v, V => v.MacroFree ∧ V ()
  | calls, .inScope bindings x, V => (∀ b ∈ bindings, b.2.MacroFree) ∧ x.Tame calls V
  | _, .body _ _ x, V => x.Tame Value.MacroFree V
  | _, .expansion _ _, _ => False

variable {α : Type} {calls : Value → Prop} {V : Value → Prop}

theorem tame_fail (cause : EvalCause) (W : α → Prop) : (fail cause).Tame calls W :=
  fun _ ha => nomatch ha

theorem tame_evalEach {k : Int} {vs : List Value} (hvs : ∀ v ∈ vs, calls v)
    {W : List Value → Prop} (hW : ∀ xs, (∀ x ∈ xs, x.MacroFree) → W xs) :
    (evalEach k vs).Tame calls W := by
  induction vs generalizing k W with
  | nil => exact hW [] fun x hx => nomatch hx
  | cons v vs ih =>
    rw [List.forall_mem_cons] at hvs
    refine ⟨hvs.1, fun x hx => ih hvs.2 fun xs hxs => ?_⟩
    exact hW (x :: xs) (macroFree_cons hx hxs)

theorem tame_evalLast {k : Int} {last : Value} {vs : List Value} (hvs : ∀ v ∈ vs, calls v)
    (hlast : last.MacroFree) (hV : ∀ x, x.MacroFree → V x) :
    (evalLast k last vs).Tame calls V := by
  induction vs generalizing k last with
  | nil => exact hV last hlast
  | cons v vs ih =>
    rw [List.forall_mem_cons] at hvs
    exact ⟨hvs.1, fun x hx => ih hvs.2 hx⟩

theorem tame_bindOperands (p : ParamList α) {operands : List Value} (description : String)
    (hvs : ∀ v ∈ operands, calls v) {W : List (α × Value) → Prop}
    (hW : ∀ bs, (∀ b ∈ bs, b.2.MacroFree) → W bs) :
    (bindOperands p operands true description).Tame calls W :=
  fun _ _ => tame_evalEach hvs fun args hargs => hW (p.pair args) (hereditary_macroFree.pair hargs)

variable {b : Nat}

theorem tame_evalBinding {v : Value} (hv : v.FreeBelow b) {W : Symbol × Value → Prop}
    (hW : ∀ s x, x.MacroFree → W (s, x)) : (evalBinding v).Tame (Value.FreeBelow b) W := by
  fun_cases evalBinding v with
  | case1 name expr =>
    have hexpr := hv.items expr (List.mem_cons_of_mem _ List.mem_cons_self)
    exact fun s _ => ⟨hexpr, fun x hx => hW s x hx⟩
  | case2 pair => exact tame_fail _ W
  | case3 v => exact tame_fail _ W

theorem tame_evalBindings {k : Int} {vs : List Value} (hvs : ∀ v ∈ vs, v.FreeBelow b)
    {W : List (Symbol × Value) → Prop} (hW : ∀ bs, (∀ b ∈ bs, b.2.MacroFree) → W bs) :
    (evalBindings k vs).Tame (Value.FreeBelow b) W := by
  induction vs generalizing k W with
  | nil => exact hW [] fun c hc => nomatch hc
  | cons v vs ih =>
    rw [List.forall_mem_cons] at hvs
    refine tame_evalBinding hvs.1 fun s x hx => ih hvs.2 fun bs hbs => ?_
    exact hW ((s, x) :: bs) (List.forall_mem_cons.mpr ⟨hx, hbs⟩)

theorem tame_spliced {v : Value} (hv : v.MacroFree) {W : List Value → Prop}
    (hW : ∀ xs, (∀ x ∈ xs, x.MacroFree) → W xs) : (spliced v).Tame calls W := by
  cases hv with
  | list items h => exact hW items h
  | _ => exact tame_fail _ W

theorem tame_copyItem (level : Nat) {item : Value} (hitem : item.FreeBelow b)
    {copy : Plan Value} {W : List Value → Prop} (hW : ∀ xs, (∀ x ∈ xs, x.MacroFree) → W xs)
    (hcopy : copy.Tame (Value.FreeBelow b) fun x => W [x]) :
    (copyItem level item copy).Tame (Value.FreeBelow b) W := by
  unfold copyItem
  split
  · rename_i v hwrapped
    split
    · have hv : v.FreeBelow b := by
        rw [Value.eq_list_of_wrapped? hwrapped] at hitem
        exact hitem.items v (List.mem_cons_of_mem _ List.mem_cons_self)
      exact ⟨hv, fun x hx => tame_spliced hx hW⟩
    · exact hcopy
  · exact hcopy

mutual

theorem tame_copyTemplate (level : Nat) {v : Value} (hv : v.FreeBelow b) {V : Value → Prop}
    (hV : ∀ x, x.MacroFree → V x) : (copyTemplate level v).Tame (Value.FreeBelow b) V := by
  unfold copyTemplate
  split
  · rename_i s v
    have hpart : v.FreeBelow b := hv.items v (List.mem_cons_of_mem _ List.mem_cons_self)
    have hmark : (Value.symbol s).MacroFree := hv.free.items _ List.mem_cons_self
    have hwrap : ∀ x : Value, x.MacroFree → V (.list [.symbol s, x]) := fun x hx =>
      hV _ (.list _ (macroFree_cons hmark (macroFree_cons hx fun w hw => nomatch hw)))
    split
    · split
      · exact ⟨hpart, hV⟩
      · exact tame_copyTemplate (level - 1) hpart hwrap
    · split
      · exact tame_copyTemplate (level + 1) hpart hwrap
      · split
        · exact tame_fail _ V
        · have hlist : ∀ xs : List Value, (∀ x ∈ xs, x.MacroFree) → V (.list (.symbol s :: xs)) :=
            fun xs hxs => hV _ (.list _ (macroFree_cons hmark hxs))
          exact tame_copyItem level hpart hlist (tame_copyTemplate level hpart hwrap)
  · rename_i items _
    exact tame_copyItems level hv.items fun xs hxs => hV _ (.list xs hxs)
  · exact hV _ hv.free

theorem tame_copyItems (level : Nat) {k : Int} {items : List Value}
    (hitems : ∀ v ∈ items, v.FreeBelow b) {W : List Value → Prop}
    (hW : ∀ xs, (∀ x ∈ xs, x.MacroFree) → W xs) :
    (copyItems level k items).Tame (Value.FreeBelow b) W := by
  match items with
  | [] => exact hW [] fun x hx => nomatch hx
  | item :: items =>
    rw [List.forall_mem_cons] at hitems
    have hrest : ∀ xs : List Value, (∀ x ∈ xs, x.MacroFree) →
        (copyItems level (k + 1) items).Tame (Value.FreeBelow b) fun rest => W (xs ++ rest) :=
      fun xs hxs => tame_copyItems level hitems.2 fun rest hr =>
        hW _ (List.forall_mem_append.mpr ⟨hxs, hr⟩)
    exact tame_copyItem level hitems.1 hrest (tame_copyTemplate level hitems.1 fun x hx =>
      hrest [x] (macroFree_cons hx fun w hw => nomatch hw))

end

theorem tame_wrongCount (form : SpecialForm) (rule : ArityRule) (expected : Nat)
    (operands : List Value) : (wrongCount form rule expected operands).Tame calls V :=
  tame_fail _ V

theorem tame_applyBinder (form : SpecialForm) {bind : Symbol → Value → Plan Unit}
    (hbind : ∀ s x, x.MacroFree → ∀ W : Unit → Prop, W () →
      (bind s x).Tame (Value.FreeBelow b) W)
    {operands : List Value} (hops : ∀ v ∈ operands, v.FreeBelow b)
    (hV : ∀ x, x.MacroFree → V x) :
    (applyBinder form bind operands).Tame (Value.FreeBelow b) V := by
  fun_cases applyBinder form bind operands with
  | case1 s expr =>
    have hexpr := hops expr (List.mem_cons_of_mem _ List.mem_cons_self)
    exact ⟨hexpr, fun x hx => hbind s x hx _ (hV x hx)⟩
  | case2 => exact tame_fail _ V
  | case3 => exact tame_wrongCount _ _ _ _

theorem tame_applyFunctionMaker (form : SpecialForm) {operands : List Value}
    (hops : ∀ v ∈ operands, v.FreeBelow b) (hV : ∀ x, x.MacroFree → V x) :
    (applyMaker form .function operands).Tame calls V := by
  fun_cases applyMaker form .function operands with
  | case1 params first rest =>
    have hbody : ∀ v ∈ first :: rest, v.MacroFree :=
      fun v hv => (hops v (List.mem_cons_of_mem _ hv)).free
    exact fun p _ => hV _ (.function p _ hbody)
  | case2 => exact tame_wrongCount _ _ _ _

theorem tame_applyBranch {operands : List Value} (hops : ∀ v ∈ operands, v.FreeBelow b)
    (hV : ∀ x, x.MacroFree → V x) : (applyBranch operands).Tame (Value.FreeBelow b) V := by
  fun_cases applyBranch operands with
  | case1 predicate consequent alternatives =>
    rw [List.forall_mem_cons, List.forall_mem_cons] at hops
    obtain ⟨hpredicate, hconsequent, halternatives⟩ := hops
    refine ⟨hpredicate, fun x _ c _ => ?_⟩
    cases c with
    | false => exact tame_evalLast halternatives (.bool false) hV
    | true => exact ⟨hconsequent, hV⟩
  | case2 => exact tame_wrongCount _ _ _ _

theorem tame_applyLet {operands : List Value} (hops : ∀ v ∈ operands, v.FreeBelow b)
    (hV : ∀ x, x.MacroFree → V x) : (applyLet operands).Tame (Value.FreeBelow b) V := by
  fun_cases applyLet operands with
  | case1 bindings first rest =>
    rw [List.forall_mem_cons] at hops
    obtain ⟨hbindings, hbody⟩ := hops
    intro pairs hpairs
    rw [Value.eq_list_of_asList hpairs] at hbindings
    exact tame_evalBindings hbindings.items fun bs hbs =>
      ⟨hbs, tame_evalLast hbody hereditary_macroFree.nil hV⟩
  | case2 => exact tame_wrongCount _ _ _ _

theorem tame_applySequence {operands : List Value} (hops : ∀ v ∈ operands, v.FreeBelow b)
    (hV : ∀ x, x.MacroFree → V x) : (applySequence operands).Tame (Value.FreeBelow b) V := by
  cases operands with
  | nil => exact tame_wrongCount _ _ _ _
  | cons v vs => exact tame_evalLast hops hereditary_macroFree.nil hV

theorem tame_applyQuote {operands : List Value} (hops : ∀ v ∈ operands, v.FreeBelow b)
    (hV : ∀ x, x.MacroFree → V x) : (applyQuote operands).Tame calls V := by
  fun_cases applyQuote operands with
  | case1 v => exact hV v (hops v List.mem_cons_self).free
  | case2 => exact tame_wrongCount _ _ _ _

theorem tame_applyQuasiquote {operands : List Value} (hops : ∀ v ∈ operands, v.FreeBelow b)
    (hV : ∀ x, x.MacroFree → V x) : (applyQuasiquote operands).Tame (Value.FreeBelow b) V := by
  fun_cases applyQuasiquote operands with
  | case1 v => exact tame_copyTemplate 1 (hops v List.mem_cons_self) hV
  | case2 => exact tame_wrongCount _ _ _ _

theorem tame_applySpecial {form : SpecialForm} (hform : form ≠ .makeMacro)
    {operands : List Value} (hops : ∀ v ∈ operands, v.FreeBelow b)
    (hV : ∀ x, x.MacroFree → V x) : (applySpecial form operands).Tame (Value.FreeBelow b) V := by
  cases form with
  | define =>
    refine tame_applyBinder .define ?_ hops hV
    exact fun s x hx W hW => ⟨hx, hW⟩
  | assign =>
    refine tame_applyBinder .assign ?_ hops hV
    exact fun s x hx W hW => ⟨hx, hW⟩
  | makeFunction => exact tame_applyFunctionMaker .makeFunction hops hV
  | makeMacro => exact absurd rfl hform
  | branch => exact tame_applyBranch hops hV
  | bindLocal => exact tame_applyLet hops hV
  | sequence => exact tame_applySequence hops hV
  | quote => exact tame_applyQuote hops hV
  | quasiquote => exact tame_applyQuasiquote hops hV

theorem tame_applyNative (n : Native) {operands : List Value} (hops : ∀ v ∈ operands, calls v)
    (hV : ∀ x, x.MacroFree → V x) : (applyNative n operands).Tame calls V := by
  refine tame_bindOperands n.params n.describe hops fun bs hbs x hx => hV x ?_
  refine hereditary_macroFree.run (fun v hv => ?_) hx
  obtain ⟨c, hc, rfl⟩ := List.mem_map.mp hv
  exact hbs c hc

theorem tame_applyProcedure (ctx : Context) {d : Definition} (hkind : d.kind = .function)
    (hbody : ∀ v ∈ d.body, v.MacroFree) {operands : List Value} (name : Option String)
    (hops : ∀ v ∈ operands, calls v) (hV : ∀ x, x.MacroFree → V x) :
    (applyProcedure ctx d operands name).Tame calls V := by
  obtain ⟨kind, params, body⟩ := d
  cases hkind
  exact tame_bindOperands params _ hops fun bs hbs =>
    ⟨hbs, tame_evalLast hbody hereditary_macroFree.nil hV⟩

theorem tame_applyValue (ctx : Context) (name : Option String) {operands : List Value}
    (hops : ∀ v ∈ operands, v.FreeBelow b) {head : Value} (hhead : head.MacroFree)
    (hV : ∀ x, x.MacroFree → V x) :
    (applyValue ctx name operands head).Tame (Value.FreeBelow b) V := by
  fun_cases applyValue ctx name operands head with
  | case1 form =>
    cases hhead with
    | special _ hform => exact tame_applySpecial hform hops hV
  | case2 n => exact tame_applyNative n hops hV
  | case3 kind params body =>
    cases hhead with
    | function _ _ hbody => exact tame_applyProcedure ctx rfl hbody name hops hV
  | case4 head _ _ _ form hform =>
    intro d hd
    obtain ⟨hkind, hbody⟩ := Definition.macroFree_parse hhead hform (ok_of_mapError hd)
    exact tame_applyProcedure ctx hkind hbody name hops hV
  | case5 =>
    intro d hd
    cases hd

/-- The plan of a form without macros evaluates smaller forms without macros, except in bodies. -/
theorem tame_step (ctx : Context) {v : Value} (hv : v.MacroFree) :
    (step ctx v).Tame (Value.FreeBelow (sizeOf v)) Value.MacroFree := by
  fun_cases step ctx v with
  | case1 s =>
    cases hv with
    | symbol _ hs =>
      refine ⟨hs, fun found hfound => ?_⟩
      cases found with
      | none => exact tame_fail _ _
      | some x => exact hfound x rfl
  | case2 => exact tame_fail _ _
  | case3 head operands =>
    have hparts := hv.parts
    rw [List.forall_mem_cons] at hparts
    exact ⟨hparts.1, fun f hf => tame_applyValue ctx _ hparts.2 hf fun x hx => hx⟩
  | case4 => exact hv

end Plan

/-- The value satisfies `V`, or there is an error; in either case there is an answer. -/
def Outcome.Answers (V : α → Prop) : Outcome α → Prop
  | .value a => V a
  | .error _ => True
  | .exhausted => False

theorem Outcome.Answers.ended {α : Type} {V : α → Prop} {o : Outcome α} (h : o.Answers V) :
    o.ended = true := by
  cases o with
  | exhausted => exact h.elim
  | _ => rfl

/-- Begun with `d` active bodies in scopes without macros, the evaluations agree from some nesting
on: they keep the scopes, bind no macros, and have an answer. -/
def Settles (d : Nat) (X : Nat → Eval α) (V : α → Prop) : Prop :=
  ∀ m, m.callDepth = d → m.env.MacroFree → ∃ N r, (∀ n, N ≤ n → X n m = r) ∧
    Machine.Keeps m r.2 ∧ r.2.env.MacroFree ∧ r.1.Answers V

namespace Settles

variable {d : Nat} {V : α → Prop}

theorem ofExcept {r : Except EvalError α} (h : ∀ a, r = .ok a → V a) :
    Settles d (fun _ => Eval.ofExcept r) V := by
  intro m hm hfree
  cases r with
  | ok a => exact ⟨0, (.value a, m), fun _ _ => rfl, .refl m, hfree, h a rfl⟩
  | error e => exact ⟨0, (.error e, m), fun _ _ => rfl, .refl m, hfree, trivial⟩

theorem mono {X : Nat → Eval α} {W : α → Prop} (hX : Settles d X V) (h : ∀ a, V a → W a) :
    Settles d X W := by
  intro m hm hfree
  obtain ⟨N, ⟨o, m'⟩, hstable, hkeeps, hfree', ho⟩ := hX m hm hfree
  refine ⟨N, (o, m'), hstable, hkeeps, hfree', ?_⟩
  cases o with
  | value a => exact h a ho
  | error e => trivial
  | exhausted => exact ho.elim

theorem once {x : Eval α} (h : ∀ m, m.env.MacroFree → ∃ a m', x m = (.value a, m') ∧
      Machine.Keeps m m' ∧ m'.env.MacroFree ∧ V a) : Settles d (fun _ => x) V := by
  intro m _ hfree
  obtain ⟨a, m', hx, hkeeps, hfree', ha⟩ := h m hfree
  exact ⟨0, (.value a, m'), fun _ _ => hx, hkeeps, hfree', ha⟩

theorem bind {X : Nat → Eval α} {F : Nat → α → Eval β} {W : β → Prop} (hX : Settles d X V)
    (hF : ∀ a, V a → Settles d (fun n => F n a) W) :
    Settles d (fun n => X n >>= F n) W := by
  intro m hm hfree
  obtain ⟨N, ⟨o, m'⟩, hstable, hkeeps, hfree', ho⟩ := hX m hm hfree
  cases o with
  | value a =>
    obtain ⟨N', r, hstable', hkeeps', hfree'', hr⟩ := hF a ho m' (hkeeps.callDepth.trans hm) hfree'
    refine ⟨max N N', r, fun n hn => ?_, hkeeps.trans hkeeps', hfree'', hr⟩
    exact (Eval.bind_value (hstable n (by omega)) _).trans (hstable' n (by omega))
  | error e =>
    exact ⟨N, (.error e, m'), fun n hn => Eval.bind_error (hstable n hn) _, hkeeps, hfree', trivial⟩
  | exhausted => exact ho.elim

theorem annotate {X : Nat → Eval α} (hX : Settles d X V) (f : EvalError → EvalError) :
    Settles d (fun n => Eval.annotate f (X n)) V := by
  intro m hm hfree
  obtain ⟨N, ⟨o, m'⟩, hstable, hkeeps, hfree', ho⟩ := hX m hm hfree
  cases o with
  | value a =>
    refine ⟨N, (.value a, m'), fun n hn => ?_, hkeeps, hfree', ho⟩
    simp only [Eval.annotate, hstable n hn]
  | error e =>
    refine ⟨N, (.error (f e), m'), fun n hn => ?_, hkeeps, hfree', trivial⟩
    simp only [Eval.annotate, hstable n hn]
  | exhausted => exact ho.elim

theorem inScope {X : Nat → Eval α} (hX : Settles d X V) {bindings : List (Symbol × Value)}
    (hb : ∀ b ∈ bindings, b.2.MacroFree) (closes : Nat → Bool) :
    Settles d (fun n => Eval.inScope closes bindings (X n)) V := by
  intro m hm hfree
  obtain ⟨N, ⟨o, m'⟩, hstable, hkeeps, hfree', ho⟩ :=
    hX { m with env := m.env.enter bindings } hm (hfree.binds.enter hb)
  refine ⟨N, (o, { m' with env := ⟨m.env.inner, m'.env.global⟩ }), fun n hn => ?_, hkeeps.leave, ?_,
    ho⟩
  · have hroom : (o.ended || closes m'.env.depth) = true := by rw [ho.ended, Bool.true_or]
    exact Eval.inScope_closed (hstable n hn) hroom hkeeps.pop_enter
  · rw [Environment.macroFree_iff] at hfree hfree' ⊢
    exact ⟨hfree.1, hfree'.2⟩

theorem counted {ctx : Context} {X : Nat → Eval α}
    (hX : ¬ (ctx.maxDepth ≠ 0 ∧ ctx.maxDepth ≤ d) → Settles (d + 1) X V) :
    Settles d (fun n => Eval.counted ctx (X n)) V := by
  intro m hm hfree
  by_cases hfull : ctx.maxDepth ≠ 0 ∧ ctx.maxDepth ≤ d
  · subst hm
    exact ⟨0, _, fun n _ => Eval.counted_full ctx hfull, .refl m, hfree, trivial⟩
  · obtain ⟨N, r, hstable, hkeeps, hfree', hr⟩ :=
      hX hfull { m with callDepth := m.callDepth + 1 } (congrArg (· + 1) hm) hfree
    subst hm
    refine ⟨N, (r.1, { r.2 with callDepth := r.2.callDepth - 1 }), fun n hn => ?_, ?_, hfree', hr⟩
    · exact (Eval.counted_room ctx hfull).trans (by rw [hstable n hn])
    · have hdepth : r.2.callDepth = m.callDepth + 1 := hkeeps.callDepth
      exact ⟨hkeeps.depth, hkeeps.between, hkeeps.top, hkeeps.global, by dsimp only; omega⟩

end Settles

/-- A tame plan settles if the forms that it evaluates do, and in a body those without macros. -/
theorem Plan.settles (ctx : Context) (hlimit : ctx.maxDepth ≠ 0) {EV : Nat → Value → Eval Value}
    {α : Type} (x : Plan α) {d : Nat} {calls : Value → Prop} {V : α → Prop}
    (hcalls : ∀ w, calls w → Settles d (fun n => EV n w) Value.MacroFree)
    (hbodies : ∀ d' : Nat, d < d' → d' ≤ ctx.maxDepth → ∀ w, w.MacroFree →
      Settles d' (fun n => EV n w) Value.MacroFree)
    (h : x.Tame calls V) : Settles d (fun n => x.run ctx (EV n)) V := by
  induction x generalizing d calls with
  | pure a => exact .ofExcept (r := .ok a) fun _ ha => by cases ha; exact h
  | bind x f ihx ihf => exact .bind (ihx hcalls hbodies h) fun a ha => ihf a hcalls hbodies ha
  | ofExcept r => exact .ofExcept h
  | within i x ih => exact .annotate (ih hcalls hbodies h) _
  | eval v => exact (hcalls v h.1).mono h.2
  | emit event =>
    exact .once fun m hfree => ⟨(), { m with log := event :: m.log }, rfl,
      ⟨rfl, rfl, Scope.covers_refl _, Scope.covers_refl _, rfl⟩, hfree, h⟩
  | resolve s =>
    exact .once fun m hfree => ⟨_, m, rfl, .refl m, hfree, h.2 _ (hfree.binds.resolve h.1)⟩
  | define s v =>
    exact .once fun m hfree =>
      ⟨(), _, rfl, Machine.keeps_define m s v, hfree.binds.define s h.1, h.2⟩
  | assign s v =>
    exact .once fun m hfree =>
      ⟨(), _, rfl, Machine.keeps_assign m s v, hfree.binds.assign s h.1, h.2⟩
  | inScope bindings x ih => exact .inScope (ih hcalls hbodies h.2) h.1 ctx.closes
  | body form label x ih =>
    refine .counted fun hroom => .annotate (ih ?_ ?_ h) _
    · exact fun w hw => hbodies (d + 1) (Nat.lt_succ_self d) (by omega) w hw
    · exact fun d' hlt hle w hw => hbodies d' (by omega) hle w hw
  | expansion form x => exact h.elim

/-- Under a limit every form without macros has an answer, whatever nesting above a certain one is
allowed: either fewer bodies are left to be entered, or the form is smaller. -/
theorem settles_evaluate (names : Naming) (closes : Nat → Bool) {k : Nat} (hk : 1 ≤ k) (d : Nat)
    (hd : d ≤ k) (v : Value) (hv : v.MacroFree) :
    Settles d (fun n => evaluate ⟨names, k, closes⟩ n v) Value.MacroFree := by
  -- what the form itself evaluates is a part of it, and what a body evaluates can be of any size,
  -- so the measure is the bodies left to be entered, then the size of the form
  have hcalls : ∀ w, w.FreeBelow (sizeOf v) →
      Settles d (fun n => evaluate ⟨names, k, closes⟩ n w) Value.MacroFree :=
    fun w hw => settles_evaluate names closes hk d hd w hw.free
  have hbodies : ∀ d' : Nat, d < d' → (d' : Int) ≤ k → ∀ w, w.MacroFree →
      Settles d' (fun n => evaluate ⟨names, k, closes⟩ n w) Value.MacroFree :=
    fun d' hlt hle w hw => settles_evaluate names closes hk d' (by omega) w hw
  have hlimit : (k : Int) ≠ 0 := by omega
  have hstep := Plan.settles ⟨names, k, closes⟩ hlimit (Plan.step ⟨names, k, closes⟩ v) hcalls
    hbodies (Plan.tame_step _ hv)
  intro m hm hfree
  obtain ⟨N, r, hstable, hrest⟩ := hstep m hm hfree
  -- one more level of nesting is needed for the form itself
  refine ⟨N + 1, r, fun n hn => ?_, hrest⟩
  obtain ⟨n, rfl⟩ : ∃ j, n = j + 1 := ⟨n - 1, by omega⟩
  exact hstable n (by omega)
termination_by (k - d, sizeOf v)
decreasing_by
  · exact Prod.Lex.right _ hw.below
  · exact Prod.Lex.left _ _ (by omega)

end MiniLisp
