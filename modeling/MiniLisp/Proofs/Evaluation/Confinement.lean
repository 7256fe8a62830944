import MiniLisp.Evaluation
import MiniLisp.Proofs.Evaluation.Outcomes
import MiniLisp.Proofs.Evaluation.Wording

/-!
# Evaluation is confined to the symbols that it is given

A plan is confined to a set of symbols if it looks up, binds and evaluates nothing but what is made
of the set, as long as it is given nothing else. The step of a form made of the set is confined to
it. So what such an evaluation does, and what it says, depends on no other symbol: it commutes with
every change of the environment that the symbols of the set do not notice.
Main statement: `commutes_evaluate`.
-/

namespace MiniLisp

namespace Plan

/-- The plan handles only what is made of the set; its result satisfies `V`, and its own errors are
told in terms of the set. -/
def Confined (names : Naming) (P : Symbol → Prop) {α : Type} : Plan α → (α → Prop) → Prop
  | .pure a, V => V a
  | .bind x f, V => x.Confined names P fun a => (f a).Confined names P V
  | .ofExcept r, V => (∀ a, r = .ok a → V a) ∧ ErrorToldIn names P r
  | .within _ x, V => x.Confined names P V
  | .eval v, V => v.MadeOf P ∧ ∀ x, x.MadeOf P → V x
  | .emit _, V => V ()
  | .resolve s, V => P s ∧ ∀ found : Option Value, (∀ v ∈ found, v.MadeOf P) → V found
  | .define s v, V => P s ∧ v.MadeOf P ∧ V ()
  | .assign s v, V => P s ∧ v.MadeOf P ∧ V ()
  | .inScope bindings x, V => (∀ b ∈ bindings, P b.1 ∧ b.2.MadeOf P) ∧ x.Confined names P V
  | .body form label x, V =>
    form.MadeOf (OrReserved P) ∧ CalledIn names P label ∧ x.Confined names P V
  | .expansion form x, V => form.MadeOf P ∧ x.Confined names P V

variable {names : Naming} {P : Symbol → Prop} {α β : Type}

theorem Confined.mono {x : Plan α} {V W : α → Prop} (h : x.Confined names P V)
    (hVW : ∀ a, V a → W a) : x.Confined names P W := by
  induction x with
  | pure a => exact hVW a h
  | bind x f ihx ihf => exact ihx h fun a ha => ihf a ha hVW
  | ofExcept r => exact ⟨fun a ha => hVW a (h.1 a ha), h.2⟩
  | within i x ih => exact ih h hVW
  | eval v => exact ⟨h.1, fun x hx => hVW x (h.2 x hx)⟩
  | emit event => exact hVW () h
  | resolve s => exact ⟨h.1, fun found hfound => hVW found (h.2 found hfound)⟩
  | define s v => exact ⟨h.1, h.2.1, hVW () h.2.2⟩
  | assign s v => exact ⟨h.1, h.2.1, hVW () h.2.2⟩
  | inScope bindings x ih => exact ⟨h.1, ih h.2 hVW⟩
  | body form label x ih => exact ⟨h.1, h.2.1, ih h.2.2 hVW⟩
  | expansion form x ih => exact ⟨h.1, ih h.2 hVW⟩

theorem confined_fail (cause : EvalCause) (h : cause.ToldIn names P) (V : α → Prop) :
    (fail cause).Confined names P V :=
  ⟨fun _ ha => (nomatch ha), errorToldIn_error (EvalError.toldIn_of h)⟩

theorem confined_check {r : Except EvalError α} (h : ErrorToldIn names P r) {V : α → Prop}
    (hV : ∀ a, r = .ok a → V a) : (ofExcept r).Confined names P V := ⟨hV, h⟩

theorem confined_evalEach {vs : List Value} (hvs : ∀ v ∈ vs, v.MadeOf P) (k : Int) :
    (evalEach k vs).Confined names P fun xs => ∀ x ∈ xs, x.MadeOf P := by
  induction vs generalizing k with
  | nil => exact fun x hx => absurd hx List.not_mem_nil
  | cons v vs ih =>
    obtain ⟨hv, hrest⟩ := List.forall_mem_cons.mp hvs
    refine ⟨hv, fun x hx => (ih hrest (k + 1)).mono fun xs hxs => ?_⟩
    exact List.forall_mem_cons.mpr ⟨hx, hxs⟩

theorem confined_evalLast {vs : List Value} (hvs : ∀ v ∈ vs, v.MadeOf P) (k : Int) {last : Value}
    (hlast : last.MadeOf P) :
    (evalLast k last vs).Confined names P (Value.MadeOf P) := by
  induction vs generalizing k last with
  | nil => exact hlast
  | cons v vs ih =>
    obtain ⟨hv, hrest⟩ := List.forall_mem_cons.mp hvs
    exact ⟨hv, fun x hx => ih hrest (k + 1) hx⟩

theorem confined_bindOperands (p : ParamList β) {operands : List Value} (evaluated : Bool)
    {description : String} (hoperands : ∀ v ∈ operands, v.MadeOf P)
    (hdescription : DescribedIn names P description) :
    (bindOperands p operands evaluated description).Confined names P fun bs =>
      ∃ args : List Value, (∀ v ∈ args, v.MadeOf P) ∧ bs = p.pair args := by
  refine confined_check (errorToldIn_requireArity hdescription _ _ _) fun _ _ => ?_
  cases evaluated with
  | true =>
    refine (confined_evalEach hoperands 1).mono fun args hargs => ?_
    exact ⟨args, hargs, rfl⟩
  | false => exact ⟨operands, hoperands, rfl⟩

theorem confined_evalBinding {v : Value} (hv : v.MadeOf P) :
    (evalBinding v).Confined names P fun b => P b.1 ∧ b.2.MadeOf P := by
  fun_cases evalBinding v with
  | case1 name expr =>
    have hparts := Value.madeOf_list_iff.mp hv
    rw [List.forall_mem_cons, List.forall_mem_cons] at hparts
    refine confined_check (errorToldIn_asSymbol name) fun s hs => ?_
    have hname := hparts.1
    rw [Value.eq_symbol_of_asSymbol hs] at hname
    exact ⟨hparts.2.1, fun x hx => ⟨Value.madeOf_symbol_iff.mp hname, hx⟩⟩
  | case2 pair =>
    exact confined_fail (.arity _ _ _ _) DescribedIn.binding _
  | case3 v => exact confined_fail (.typeFault _) trivial _

theorem confined_evalBindings {vs : List Value} (hvs : ∀ v ∈ vs, v.MadeOf P) (k : Int) :
    (evalBindings k vs).Confined names P fun bs => ∀ b ∈ bs, P b.1 ∧ b.2.MadeOf P := by
  induction vs generalizing k with
  | nil => exact fun b hb => absurd hb List.not_mem_nil
  | cons v vs ih =>
    obtain ⟨hv, hrest⟩ := List.forall_mem_cons.mp hvs
    refine (confined_evalBinding hv).mono fun b hb => (ih hrest (k + 1)).mono fun bs hbs => ?_
    exact List.forall_mem_cons.mpr ⟨hb, hbs⟩

theorem confined_spliced {v : Value} (hv : v.MadeOf P) :
    (spliced v).Confined names P fun xs => ∀ x ∈ xs, x.MadeOf P := by
  cases v with
  | list vs => exact Value.madeOf_list_iff.mp hv
  | _ => exact confined_fail (.typeFault _) trivial _

theorem confined_copyItem (level : Nat) {item : Value} (hitem : item.MadeOf P) {copy : Plan Value}
    (hcopy : copy.Confined names P (Value.MadeOf P)) :
    (copyItem level item copy).Confined names P fun xs => ∀ x ∈ xs, x.MadeOf P := by
  have hone : (copy >>= fun x => Pure.pure [x]).Confined names P fun xs =>
      ∀ x ∈ xs, x.MadeOf P :=
    hcopy.mono fun x hx => List.forall_mem_singleton.mpr hx
  unfold copyItem
  split
  · rename_i v hwrapped
    split
    · exact ⟨hitem.wrapped hwrapped, fun x hx => confined_spliced hx⟩
    · exact hone
  · exact hone

mutual

theorem confined_copyTemplate (level : Nat) {v : Value} (hv : v.MadeOf P) :
    (copyTemplate level v).Confined names P (Value.MadeOf P) := by
  unfold copyTemplate
  split
  · rename_i s v
    have hparts := Value.madeOf_list_iff.mp hv
    rw [List.forall_mem_cons, List.forall_mem_singleton] at hparts
    obtain ⟨hmark, hpart⟩ := hparts
    have hwrap : ∀ xs : List Value, (∀ x ∈ xs, x.MadeOf P) →
        (Value.list (.symbol s :: xs)).MadeOf P := fun xs hxs =>
      Value.madeOf_list_iff.mpr (List.forall_mem_cons.mpr ⟨hmark, hxs⟩)
    have hwrapOne : ∀ x : Value, x.MadeOf P → (Value.list [.symbol s, x]).MadeOf P :=
      fun x hx => hwrap [x] (List.forall_mem_singleton.mpr hx)
    split
    · split
      · exact ⟨hpart, fun x hx => hx⟩
      · exact (confined_copyTemplate (level - 1) hpart).mono hwrapOne
    · split
      · exact (confined_copyTemplate (level + 1) hpart).mono hwrapOne
      · split
        · exact confined_fail (.typeFault _) trivial _
        · exact (confined_copyItem level hpart (confined_copyTemplate level hpart)).mono hwrap
  · rename_i items _
    exact (confined_copyItems level (Value.madeOf_list_iff.mp hv) 0).mono fun xs =>
      Value.madeOf_list_iff.mpr
  · exact hv

theorem confined_copyItems (level : Nat) {items : List Value}
    (hitems : ∀ v ∈ items, v.MadeOf P) (k : Int) :
    (copyItems level k items).Confined names P fun xs => ∀ x ∈ xs, x.MadeOf P := by
  match items with
  | [] => exact fun x hx => absurd hx List.not_mem_nil
  | item :: items =>
    rw [List.forall_mem_cons] at hitems
    have hitem := confined_copyItem level hitems.1 (confined_copyTemplate level hitems.1)
    refine hitem.mono fun xs hxs =>
      (confined_copyItems level hitems.2 (k + 1)).mono fun ys hys => ?_
    exact List.forall_mem_append.mpr ⟨hxs, hys⟩

end

theorem confined_wrongCount (form : SpecialForm) (rule : ArityRule) (expected : Nat)
    (operands : List Value) (V : Value → Prop) :
    (wrongCount form rule expected operands).Confined names P V :=
  confined_fail (.arity _ _ _ _) (DescribedIn.special form) V

variable {operands : List Value} (hops : ∀ v ∈ operands, v.MadeOf P)
include hops

theorem confined_applyQuote : (applyQuote operands).Confined names P (Value.MadeOf P) := by
  fun_cases applyQuote operands with
  | case1 v => exact hops v List.mem_cons_self
  | case2 => exact confined_wrongCount _ _ _ _ _

theorem confined_applyQuasiquote :
    (applyQuasiquote operands).Confined names P (Value.MadeOf P) := by
  fun_cases applyQuasiquote operands with
  | case1 v => exact confined_copyTemplate 1 (hops v List.mem_cons_self)
  | case2 => exact confined_wrongCount _ _ _ _ _

theorem confined_applySequence : (applySequence operands).Confined names P (Value.MadeOf P) := by
  cases operands with
  | nil => exact confined_wrongCount _ _ _ _ _
  | cons v vs => exact confined_evalLast hops 1 hereditary_madeOf.nil

theorem confined_applyBinder (form : SpecialForm) {bind : Symbol → Value → Plan Unit}
    (hbind : ∀ s x, P s → x.MadeOf P → (bind s x).Confined names P fun _ => True) :
    (applyBinder form bind operands).Confined names P (Value.MadeOf P) := by
  fun_cases applyBinder form bind operands with
  | case1 s expr =>
    rw [List.forall_mem_cons, List.forall_mem_singleton] at hops
    refine ⟨hops.2, fun x hx => (hbind s x (Value.madeOf_symbol_iff.mp hops.1) hx).mono ?_⟩
    exact fun _ _ => hx
  | case2 => exact confined_fail (.typeFault _) trivial _
  | case3 => exact confined_wrongCount _ _ _ _ _

theorem confined_applyMaker (form : SpecialForm) (kind : ProcedureKind) :
    (applyMaker form kind operands).Confined names P (Value.MadeOf P) := by
  fun_cases applyMaker form kind operands with
  | case1 params first rest =>
    obtain ⟨hparams, hbody⟩ := List.forall_mem_cons.mp hops
    refine confined_check (ParamList.errorToldIn_parseChild 1 params) fun p hp => ?_
    exact Value.madeOf_procedure_iff.mpr ⟨ParamList.madeOf_parseChild hparams hp, hbody⟩
  | case2 => exact confined_wrongCount _ _ _ _ _

theorem confined_applyBranch : (applyBranch operands).Confined names P (Value.MadeOf P) := by
  fun_cases applyBranch operands with
  | case1 predicate consequent alternatives =>
    rw [List.forall_mem_cons, List.forall_mem_cons] at hops
    obtain ⟨hpredicate, hconsequent, halternatives⟩ := hops
    refine ⟨hpredicate, fun x _ => confined_check (errorToldIn_asBool x) fun b _ => ?_⟩
    cases b with
    | true => exact ⟨hconsequent, fun y hy => hy⟩
    | false => exact confined_evalLast halternatives 3 (hereditary_madeOf.bool false)
  | case2 => exact confined_wrongCount _ _ _ _ _

theorem confined_applyLet : (applyLet operands).Confined names P (Value.MadeOf P) := by
  fun_cases applyLet operands with
  | case1 bindings first rest =>
    obtain ⟨hbindings, hbody⟩ := List.forall_mem_cons.mp hops
    refine confined_check (errorToldIn_asList bindings) fun pairs hpairs => ?_
    refine (confined_evalBindings (hereditary_madeOf.asList hbindings hpairs) 0).mono ?_
    exact fun bs hbs => ⟨hbs, confined_evalLast hbody 2 hereditary_madeOf.nil⟩
  | case2 => exact confined_wrongCount _ _ _ _ _

theorem confined_applySpecial (form : SpecialForm) :
    (applySpecial form operands).Confined names P (Value.MadeOf P) := by
  cases form with
  | define => exact confined_applyBinder hops .define fun s x hs hx => ⟨hs, hx, trivial⟩
  | assign => exact confined_applyBinder hops .assign fun s x hs hx => ⟨hs, hx, trivial⟩
  | makeFunction => exact confined_applyMaker hops .makeFunction .function
  | makeMacro => exact confined_applyMaker hops .makeMacro .expander
  | branch => exact confined_applyBranch hops
  | bindLocal => exact confined_applyLet hops
  | sequence => exact confined_applySequence hops
  | quote => exact confined_applyQuote hops
  | quasiquote => exact confined_applyQuasiquote hops

theorem confined_applyNative (n : Native) :
    (applyNative n operands).Confined names P (Value.MadeOf P) := by
  refine (confined_bindOperands n.params true hops (.native n)).mono ?_
  rintro bs ⟨args, hargs, rfl⟩
  refine confined_check (Native.errorToldIn_run n _) fun x hx => ?_
  refine hereditary_madeOf.run (fun v hv => ?_) hx
  obtain ⟨b, hb, rfl⟩ := List.mem_map.mp hv
  exact hereditary_madeOf.pair hargs b hb

omit hops in
theorem madeOf_pair {p : ParamList Symbol} (hp : p.MadeOf P) {args : List Value}
    (hargs : ∀ v ∈ args, v.MadeOf P) : ∀ b ∈ p.pair args, P b.1 ∧ b.2.MadeOf P := by
  intro b hb
  refine ⟨?_, hereditary_madeOf.pair hargs b hb⟩
  obtain ⟨hpositional, hrest⟩ := ParamList.madeOf_iff.mp hp
  rcases List.mem_append.mp hb with hb | hb
  · exact hpositional b.1 (List.of_mem_zip hb).1
  · cases hr : p.rest with
    | none =>
      rw [hr] at hb
      cases hb
    | some r =>
      rw [hr] at hb
      rw [List.mem_singleton.mp hb]
      exact hrest r hr

variable {ctx : Context} {name : Option String} (hname : CalledIn ctx.names P name)
include hname

theorem confined_applyProcedure {d : Definition} (hparams : d.params.MadeOf P)
    (hbody : ∀ v ∈ d.body, v.MadeOf P) :
    (applyProcedure ctx d operands name).Confined ctx.names P (Value.MadeOf P) := by
  obtain ⟨kind, params, body⟩ := d
  have hbind : (bindProcedure ctx ⟨kind, params, body⟩ operands name).Confined ctx.names P
      fun bs => ∀ b ∈ bs, P b.1 ∧ b.2.MadeOf P := by
    have hpaired : ∀ bs : List (Symbol × Value), (∃ args : List Value,
        (∀ v ∈ args, v.MadeOf P) ∧ bs = params.pair args) → ∀ b ∈ bs, P b.1 ∧ b.2.MadeOf P := by
      rintro bs ⟨args, hargs, rfl⟩
      exact madeOf_pair hparams hargs
    cases kind <;> exact (confined_bindOperands params _ hops (.procedure _ hparams hname)).mono
      hpaired
  have hrun : ∀ bs : List (Symbol × Value), (∀ b ∈ bs, P b.1 ∧ b.2.MadeOf P) →
      (runProcedure ⟨kind, params, body⟩ bs name).Confined ctx.names P (Value.MadeOf P) :=
    fun bs hbs => ⟨Definition.madeOf_form hparams hbody, hname, hbs,
      confined_evalLast hbody 2 hereditary_madeOf.nil⟩
  refine hbind.mono fun bs hbs => (hrun bs hbs).mono fun result hresult => ?_
  cases kind with
  | function => exact hresult
  | expander => exact ⟨hresult, hresult, fun x hx => hx⟩

theorem confined_applyValue {head : Value} (hhead : head.MadeOf P) :
    (applyValue ctx name operands head).Confined ctx.names P (Value.MadeOf P) := by
  have hframe : Frame.ToldIn ctx.names P ⟨head, [], name⟩ :=
    ⟨hhead.orReserved, .inr (.inr hname)⟩
  fun_cases applyValue ctx name operands head with
  | case1 form => exact confined_applySpecial hops form
  | case2 n => exact confined_applyNative hops n
  | case3 kind params body =>
    obtain ⟨hparams, hbody⟩ := Value.madeOf_procedure_iff.mp hhead
    exact confined_applyProcedure hops hname hparams hbody
  | case4 head _ _ _ form hform =>
    refine confined_check ?_ fun d hd => ?_
    · exact (Definition.errorToldIn_parse form).mapError fun e he =>
        he.leavingBody ⟨hframe.form, hframe.label⟩
    · obtain ⟨hparams, hbody⟩ := Definition.madeOf_parse hhead hform (ok_of_mapError hd)
      exact confined_applyProcedure hops hname hparams hbody
  | case5 =>
    have hcause : EvalCause.ToldIn ctx.names P (.notApplicable head name) := ⟨hhead, hname⟩
    refine confined_check ?_ fun d hd => ?_
    · exact errorToldIn_error ((EvalError.toldIn_of hcause).leavingBody hframe)
    · cases hd

omit hops hname in
/-- The step of a form made of the set is confined to it. -/
theorem confined_step {v : Value} (hv : v.MadeOf P) :
    (step ctx v).Confined ctx.names P (Value.MadeOf P) := by
  fun_cases step ctx v with
  | case1 s =>
    have hs := Value.madeOf_symbol_iff.mp hv
    refine ⟨hs, fun found hfound => ?_⟩
    cases found with
    | none => exact confined_fail (.unbound _) ⟨s, hs, rfl⟩ _
    | some x => exact hfound x rfl
  | case2 => exact confined_fail .emptyApplication trivial _
  | case3 head operands =>
    obtain ⟨hhead, hoperands⟩ := List.forall_mem_cons.mp (Value.madeOf_list_iff.mp hv)
    refine ⟨hhead, fun f hf => confined_applyValue hoperands ?_ hf⟩
    intro name hname
    cases head with
    | symbol s => exact ⟨s, Value.madeOf_symbol_iff.mp hhead, hname⟩
    | _ => cases hname
  | case4 => exact hv

end Plan

/-- A change of environments that the symbols of a set do not notice: it leaves their values alone,
and it commutes with writing to them and with opening and closing scopes. -/
structure EnvView (P : Symbol → Prop) where
  map : Environment → Environment
  depth : ∀ env, (map env).depth = env.depth
  resolve : ∀ env {s}, P s → (map env).resolve? s = env.resolve? s
  define : ∀ env {s} v, P s → map (env.define s v) = (map env).define s v
  assign : ∀ env {s} v, P s → map (env.assign s v) = (map env).assign s v
  push : ∀ env, map env.push = (map env).push
  pop : ∀ env, (map env).pop = env.pop.map map

section

variable {P : Symbol → Prop} (F : EnvView P)

theorem EnvView.enter (env : Environment) {bindings : List (Symbol × Value)}
    (hb : ∀ b ∈ bindings, P b.1) : F.map (env.enter bindings) = (F.map env).enter bindings := by
  have hfold : ∀ env : Environment, F.map (bindings.foldl (fun env b => env.assign b.1 b.2) env)
      = bindings.foldl (fun env b => env.assign b.1 b.2) (F.map env) := by
    induction bindings with
    | nil => exact fun env => rfl
    | cons b bindings ih =>
      obtain ⟨hfirst, hrest⟩ := List.forall_mem_cons.mp hb
      intro env
      rw [List.foldl_cons, List.foldl_cons, ih hrest, F.assign env b.2 hfirst]
  rw [Environment.enter, Environment.enter, hfold, F.push]

def Machine.view (m : Machine) : Machine := { m with env := F.map m.env }

namespace Eval

variable (names : Naming) {α β : Type}

/-- Begun in scopes that bind what is made of the set, the evaluation leaves such scopes, its value
satisfies `V` and its error is told in terms of the set; and in the changed environment it has the
same outcome and leaves the changed environment. -/
def Commutes (x : Eval α) (V : α → Prop) : Prop :=
  ∀ m : Machine, m.env.Binds P (Value.MadeOf P) →
    (x m).2.env.Binds P (Value.MadeOf P) ∧ (x m).1.Satisfies V (EvalError.ToldIn names P) ∧
      x (m.view F) = ((x m).1, (x m).2.view F)

variable {names} {V : α → Prop} {W : β → Prop} {x : Eval α}

theorem commutes_bind {f : α → Eval β} (hx : Commutes F names x V)
    (hf : ∀ a, V a → Commutes F names (f a) W) : Commutes F names (x >>= f) W := by
  intro m hm
  obtain ⟨hbinds, hs, hview⟩ := hx m hm
  rcases hxm : x m with ⟨o, m'⟩
  rw [hxm] at hbinds hs hview
  cases o with
  | value a =>
    rw [bind_value hxm, bind_value hview]
    exact hf a hs m' hbinds
  | error e =>
    rw [bind_error hxm, bind_error hview]
    exact ⟨hbinds, hs, rfl⟩
  | exhausted =>
    rw [bind_exhausted hxm, bind_exhausted hview]
    exact ⟨hbinds, trivial, rfl⟩

theorem commutes_annotate {f : EvalError → EvalError} (hx : Commutes F names x V)
    (hf : ∀ e, e.ToldIn names P → (f e).ToldIn names P) :
    Commutes F names (annotate f x) V := by
  intro m hm
  obtain ⟨hbinds, hs, hview⟩ := hx m hm
  rw [annotate, annotate, hview]
  generalize x m = r at hbinds hs ⊢
  obtain ⟨o, m'⟩ := r
  cases o with
  | value a => exact ⟨hbinds, hs, rfl⟩
  | error e => exact ⟨hbinds, hf e hs, rfl⟩
  | exhausted => exact ⟨hbinds, trivial, rfl⟩

theorem commutes_inScope {bindings : List (Symbol × Value)} (hx : Commutes F names x V)
    (hb : ∀ b ∈ bindings, P b.1 ∧ b.2.MadeOf P) (closes : Nat → Bool) :
    Commutes F names (inScope closes bindings x) V := by
  intro m hm
  have hentered := hm.enter fun b hmem => (hb b hmem).2
  obtain ⟨hbinds, hs, hview⟩ := hx { m with env := m.env.enter bindings } hentered
  have hstart : { m.view F with env := (m.view F).env.enter bindings }
      = Machine.view F { m with env := m.env.enter bindings } := by
    rw [Machine.view, Machine.view, F.enter m.env fun b hmem => (hb b hmem).1]
  rw [inScope, inScope, hstart, hview]
  generalize x { m with env := m.env.enter bindings } = r at hbinds hs ⊢
  obtain ⟨o, m'⟩ := r
  have hpop := F.pop m'.env
  simp only [Machine.view, F.depth] at hpop ⊢
  split
  · rw [hpop]
    cases hp : m'.env.pop with
    | ok env => exact ⟨hbinds.pop hp, hs, rfl⟩
    | error e =>
      obtain ⟨⟨inner, global⟩, callDepth, log⟩ := m'
      cases inner with
      | cons scope rest => cases hp
      | nil =>
        cases hp
        exact ⟨hbinds, EvalError.toldIn_of trivial, rfl⟩
  · exact ⟨hbinds, hs, rfl⟩

theorem commutes_counted (ctx : Context) (hx : Commutes F names x V) :
    Commutes F names (counted ctx x) V := by
  intro m hm
  obtain ⟨hbinds, hs, hview⟩ := hx { m with callDepth := m.callDepth + 1 } hm
  by_cases hfull : ctx.maxDepth ≠ 0 ∧ ctx.maxDepth ≤ m.callDepth
  · have hfull' : ctx.maxDepth ≠ 0 ∧ ctx.maxDepth ≤ (m.view F).callDepth := hfull
    rw [counted_full ctx hfull, counted_full ctx hfull']
    exact ⟨hm, EvalError.toldIn_of trivial, rfl⟩
  · have hroom : ¬ (ctx.maxDepth ≠ 0 ∧ ctx.maxDepth ≤ (m.view F).callDepth) := hfull
    have hstart : { m.view F with callDepth := (m.view F).callDepth + 1 }
        = Machine.view F { m with callDepth := m.callDepth + 1 } := rfl
    rw [counted_room ctx hfull, counted_room ctx hroom, hstart, hview]
    exact ⟨hbinds, hs, rfl⟩

end Eval

open Eval

theorem Plan.Confined.commutes {ctx : Context} {ev : Value → Eval Value}
    (hev : ∀ v, v.MadeOf P → Commutes F ctx.names (ev v) (Value.MadeOf P)) {α : Type}
    {x : Plan α} {V : α → Prop} (h : x.Confined ctx.names P V) :
    Commutes F ctx.names (x.run ctx ev) V := by
  induction x with
  | pure a => exact fun m hm => ⟨hm, h, rfl⟩
  | bind x f ihx ihf => exact commutes_bind F (ihx h) fun a ha => ihf a ha
  | ofExcept r =>
    intro m hm
    cases r with
    | ok a => exact ⟨hm, h.1 a rfl, rfl⟩
    | error e => exact ⟨hm, h.2 e rfl, rfl⟩
  | within i x ih => exact commutes_annotate F (ih h) fun e he => he.within i
  | eval v =>
    intro m hm
    obtain ⟨hbinds, hs, hview⟩ := hev v h.1 m hm
    refine ⟨hbinds, ?_, hview⟩
    change (ev v m).1.Satisfies V _
    cases ho : (ev v m).1 with
    | value a =>
      rw [ho] at hs
      exact h.2 a hs
    | error e =>
      rw [ho] at hs
      exact hs
    | exhausted => trivial
  | emit event => exact fun m hm => ⟨hm, h, rfl⟩
  | resolve s =>
    intro m hm
    refine ⟨hm, h.2 _ (hm.resolve h.1), ?_⟩
    change (Outcome.value ((m.view F).env.resolve? s), m.view F) = _
    rw [Machine.view, F.resolve m.env h.1]
    rfl
  | define s v =>
    intro m hm
    refine ⟨hm.define s h.2.1, h.2.2, ?_⟩
    change (Outcome.value (), { m.view F with env := (F.map m.env).define s v }) = _
    rw [← F.define m.env v h.1]
    rfl
  | assign s v =>
    intro m hm
    refine ⟨hm.assign s h.2.1, h.2.2, ?_⟩
    change (Outcome.value (), { m.view F with env := (F.map m.env).assign s v }) = _
    rw [← F.assign m.env v h.1]
    rfl
  | inScope bindings x ih => exact commutes_inScope F (ih h.2) h.1 ctx.closes
  | body form label x ih =>
    obtain ⟨hform, hlabel, hx⟩ := h
    refine commutes_counted F ctx (commutes_annotate F (ih hx) fun e he => ?_)
    exact he.leavingBody ⟨hform, .inr (.inr hlabel)⟩
  | expansion form x ih =>
    refine commutes_annotate F (ih h.2) fun e he => ?_
    exact he.leavingBody ⟨h.1.orReserved, .inl rfl⟩

/-- A form made of a set of symbols is evaluated without notice of any other: the induction is on
the fuel, and one step is a plan that is confined to the set. -/
theorem commutes_evaluate (ctx : Context) (fuel : Nat) {v : Value} (hv : v.MadeOf P) :
    Commutes F ctx.names (evaluate ctx fuel v) (Value.MadeOf P) := by
  induction fuel generalizing v with
  | zero => exact fun m hm => ⟨hm, trivial, rfl⟩
  | succ fuel ih => exact (Plan.confined_step hv).commutes F fun w hw => ih hw

end

end MiniLisp
