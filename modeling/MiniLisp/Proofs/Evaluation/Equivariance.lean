import MiniLisp.Proofs.Evaluation.RenamedResults

/-!
# Evaluation respects renamings

Nothing that an evaluation does depends on which symbols it meets, beyond the symbols that every
table starts with: corresponding forms, evaluated in corresponding machines, lead to corresponding
outcomes and machines.
Main statement: `agree_evaluate`.
-/

namespace MiniLisp

variable {ρ : Renaming}

theorem ParamList.Rel.pair {α β : Type} {R : α → β → Prop} {p : ParamList α} {q : ParamList β}
    (h : p.Rel R q) {args args' : List Value}
    (hargs : List.Forall₂ (Value.Renamed ρ) args args') :
    List.Forall₂ (BindingRenamed ρ R) (p.pair args) (q.pair args') := by
  have hzip : ∀ {ps : List α} {qs : List β}, List.Forall₂ R ps qs → ∀ {vs ws : List Value},
      List.Forall₂ (Value.Renamed ρ) vs ws →
      List.Forall₂ (BindingRenamed ρ R) (ps.zip vs) (qs.zip ws) := by
    intro ps qs hps
    induction hps with
    | nil => exact fun _ => .nil
    | cons hp _ ih =>
      intro vs ws hvs
      cases hvs with
      | nil => exact .nil
      | cons hv hvs => exact .cons ⟨hp, hv⟩ (ih hvs)
  rw [ParamList.pair, ParamList.pair, h.positional.length_eq]
  refine List.rel_append (hzip h.positional hargs) ?_
  have hr := h.rest
  generalize p.rest = r at hr
  generalize q.rest = r' at hr
  cases hr with
  | some hr => exact .cons ⟨hr, .list (List.forall₂_drop _ hargs)⟩ .nil
  | none => exact .nil

theorem ParamList.Rel.arityRule {α β : Type} {R : α → β → Prop} {p : ParamList α}
    {q : ParamList β} (h : p.Rel R q) : p.arityRule = q.arityRule := by
  have hr := h.rest
  rw [ParamList.arityRule, ParamList.arityRule]
  generalize p.rest = r at hr
  generalize q.rest = r' at hr
  cases hr <;> rfl

namespace Plan

/-- The plans do corresponding things, with related results. -/
inductive Renamed (ρ : Renaming) : {α β : Type} → (α → β → Prop) → Plan α → Plan β → Prop where
  | pure {α β : Type} {A : α → β → Prop} {a : α} {b : β} (h : A a b) :
      Renamed ρ A (.pure a) (.pure b)
  | bind {α β γ δ : Type} {A : α → β → Prop} {B : γ → δ → Prop} {x : Plan α} {y : Plan β}
      {f : α → Plan γ} {g : β → Plan δ} (hxy : Renamed ρ A x y)
      (hfg : ∀ {a b}, A a b → Renamed ρ B (f a) (g b)) : Renamed ρ B (.bind x f) (.bind y g)
  | ofExcept {α β : Type} {A : α → β → Prop} {r : Except EvalError α} {s : Except EvalError β}
      (h : ResultRenamed ρ A r s) : Renamed ρ A (.ofExcept r) (.ofExcept s)
  | within {α β : Type} {A : α → β → Prop} {x : Plan α} {y : Plan β} (hxy : Renamed ρ A x y)
      (i : Int) : Renamed ρ A (.within i x) (.within i y)
  | eval {v w : Value} (h : v.Renamed ρ w) : Renamed ρ (Value.Renamed ρ) (.eval v) (.eval w)
  | emit {event event' : Event} (h : event.Renamed ρ event') :
      Renamed ρ Eq (.emit event) (.emit event')
  | resolve {s t : Symbol} (h : ρ.rel s t) :
      Renamed ρ (Option.Rel (Value.Renamed ρ)) (.resolve s) (.resolve t)
  | define {s t : Symbol} {v w : Value} (h : ρ.rel s t) (hvw : v.Renamed ρ w) :
      Renamed ρ Eq (.define s v) (.define t w)
  | assign {s t : Symbol} {v w : Value} (h : ρ.rel s t) (hvw : v.Renamed ρ w) :
      Renamed ρ Eq (.assign s v) (.assign t w)
  | inScope {α β : Type} {A : α → β → Prop} {x : Plan α} {y : Plan β} (hxy : Renamed ρ A x y)
      {bs cs : List (Symbol × Value)} (hbs : List.Forall₂ (BindingRenamed ρ ρ.rel) bs cs) :
      Renamed ρ A (.inScope bs x) (.inScope cs y)
  | body {α β : Type} {A : α → β → Prop} {x : Plan α} {y : Plan β} (hxy : Renamed ρ A x y)
      {v w : Value} (hvw : v.Renamed ρ w) (label : Option String) :
      Renamed ρ A (.body v label x) (.body w label y)
  | expansion {α β : Type} {A : α → β → Prop} {x : Plan α} {y : Plan β} (hxy : Renamed ρ A x y)
      {v w : Value} (hvw : v.Renamed ρ w) : Renamed ρ A (.expansion v x) (.expansion w y)

theorem Renamed.fail {α β : Type} {A : α → β → Prop} {cause : EvalCause}
    (h : ∀ v name, cause ≠ .notApplicable v name) :
    Renamed ρ A (Plan.fail cause) (Plan.fail cause) :=
  .ofExcept (.error (EvalError.renamed_of h))

theorem Renamed.fault {α β : Type} {A : α → β → Prop} (fault : TypeFault) :
    Renamed ρ A (Plan.fail (.typeFault fault)) (Plan.fail (.typeFault fault)) := .fail nofun

/-- Corresponding plans agree, if they are run with corresponding evaluations of other forms. -/
theorem Renamed.agree (E : EnvRenaming ρ) {c d : Context} (hcd : c.Renamed ρ d)
    {ev ev' : Value → Eval Value}
    (hev : ∀ {v w}, Value.Renamed ρ v w → Eval.Agree E (Value.Renamed ρ) (ev v) (ev' w))
    {α β : Type} {A : α → β → Prop} {x : Plan α} {y : Plan β} (h : x.Renamed ρ A y) :
    Eval.Agree E A (x.run c ev) (y.run d ev') := by
  induction h with
  | pure h => exact Eval.agree_pure E h
  | bind _ _ ihx ihf => exact ihx.bind E ihf
  | ofExcept h => exact Eval.agree_ofExcept E h
  | within _ i ih => exact ih.within E i
  | eval h => exact hev h
  | emit h => exact Eval.agree_emit E h
  | resolve h => exact Eval.agree_resolve E h
  | define h hvw => exact Eval.agree_define E h hvw
  | assign h hvw => exact Eval.agree_assign E h hvw
  | inScope _ hbs ih => exact ih.inScope E hcd hbs
  | body _ hvw label ih => exact (ih.leavingBody E hvw label).counted E hcd
  | expansion _ hvw ih => exact ih.leavingBody E hvw _

end Plan

section

theorem renamed_requireArity (rule : ArityRule) (expected actual : Nat) (description : String) :
    ResultRenamed ρ Eq (requireArity rule expected actual description)
      (requireArity rule expected actual description) := by
  rw [requireArity]
  split
  · exact .ok rfl
  · exact .error (EvalError.renamed_of nofun)

theorem renamed_evalEach {vs ws : List Value} (h : List.Forall₂ (Value.Renamed ρ) vs ws) (k : Int) :
    Plan.Renamed ρ (List.Forall₂ (Value.Renamed ρ)) (evalEach k vs) (evalEach k ws) := by
  induction h generalizing k with
  | nil => exact .pure .nil
  | cons hv _ ih =>
    rw [evalEach, evalEach]
    exact .bind (.within (.eval hv) k) fun hx => .bind (ih (k + 1)) fun hxs =>
      .pure (.cons hx hxs)

theorem renamed_evalLast {vs ws : List Value} (h : List.Forall₂ (Value.Renamed ρ) vs ws) (k : Int)
    {last last' : Value} (hlast : last.Renamed ρ last') :
    Plan.Renamed ρ (Value.Renamed ρ) (evalLast k last vs) (evalLast k last' ws) := by
  induction h generalizing k last last' with
  | nil => exact .pure hlast
  | cons hv _ ih =>
    rw [evalLast, evalLast]
    exact .bind (.within (.eval hv) k) fun hx => ih (k + 1) hx

theorem renamed_arguments {operands operands' : List Value}
    (h : List.Forall₂ (Value.Renamed ρ) operands operands') (evaluated : Bool) :
    Plan.Renamed ρ (List.Forall₂ (Value.Renamed ρ)) (arguments operands evaluated)
      (arguments operands' evaluated) := by
  cases evaluated with
  | true => exact renamed_evalEach h 1
  | false => exact .pure h

theorem renamed_bindOperands {α β : Type} {R : α → β → Prop} {p : ParamList α} {q : ParamList β}
    (hp : p.Rel R q) {operands operands' : List Value}
    (h : List.Forall₂ (Value.Renamed ρ) operands operands') (evaluated : Bool)
    (description : String) :
    Plan.Renamed ρ (List.Forall₂ (BindingRenamed ρ R))
      (bindOperands p operands evaluated description)
      (bindOperands q operands' evaluated description) := by
  rw [bindOperands, bindOperands, hp.arityRule, hp.positional.length_eq, h.length_eq]
  exact .bind (.ofExcept (renamed_requireArity _ _ _ _)) fun _ =>
    .bind (renamed_arguments h evaluated) fun hargs => .pure (hp.pair hargs)

theorem renamed_spliced {v w : Value} (h : v.Renamed ρ w) :
    Plan.Renamed ρ (List.Forall₂ (Value.Renamed ρ)) (spliced v) (spliced w) := by
  cases h with
  | list hvs => exact .pure hvs
  | _ => exact .within (.fault .spliceNotList) 1

theorem renamed_copyItem (level : Nat) {v w : Value} (h : v.Renamed ρ w) {x y : Plan Value}
    (hxy : Plan.Renamed ρ (Value.Renamed ρ) x y) :
    Plan.Renamed ρ (List.Forall₂ (Value.Renamed ρ)) (copyItem level v x) (copyItem level w y) := by
  have hcopy : Plan.Renamed ρ (List.Forall₂ (Value.Renamed ρ)) (x >>= fun x => pure [x])
      (y >>= fun x => pure [x]) := .bind hxy fun hx => .pure (.cons hx .nil)
  have hmark : Symbol.unquoteSplice ∈ reservedSymbols := by decide
  have hwrapped := h.wrapped? hmark
  rw [copyItem, copyItem]
  generalize v.wrapped? Symbol.unquoteSplice = o at hwrapped
  generalize w.wrapped? Symbol.unquoteSplice = o' at hwrapped
  cases hwrapped with
  | none => exact hcopy
  | some hv =>
    by_cases hone : level = 1
    · simp only [hone, ite_true]
      exact .bind (.within (.eval hv) 1) fun hx => renamed_spliced hx
    · simp only [hone, ite_false]
      exact hcopy

theorem renamed_copyItems (level : Nat) {vs ws : List Value}
    (h : List.Forall₂ (Value.Renamed ρ) vs ws)
    (hcopy : ∀ v ∈ vs, ∀ w, v.Renamed ρ w →
      Plan.Renamed ρ (Value.Renamed ρ) (copyTemplate level v) (copyTemplate level w)) (k : Int) :
    Plan.Renamed ρ (List.Forall₂ (Value.Renamed ρ)) (copyItems level k vs)
      (copyItems level k ws) := by
  induction h generalizing k with
  | nil => exact .pure .nil
  | cons hv _ ih =>
    obtain ⟨hitem, hrest⟩ := List.forall_mem_cons.mp hcopy
    rw [copyItems, copyItems]
    exact .bind (.within (renamed_copyItem level hv (hitem _ hv)) k) fun hxs =>
      .bind (ih hrest (k + 1)) fun hys => .pure (List.rel_append hxs hys)

theorem renamed_copyTemplate (level : Nat) {v w : Value} (h : v.Renamed ρ w) :
    Plan.Renamed ρ (Value.Renamed ρ) (copyTemplate level v) (copyTemplate level w) := by
  induction v using Value.templateInduction generalizing level w with
  | marked s hs u ih =>
    obtain ⟨s', u', rfl, hsym, hu⟩ := h.of_pair
    have hmark : ∀ {x x' : Value}, x.Renamed ρ x' →
        (Value.list [.symbol s, x]).Renamed ρ (.list [.symbol s', x']) :=
      fun hx => .list (.cons (.symbol hsym) (.cons hx .nil))
    simp only [templateMarks, List.mem_cons, List.not_mem_nil, or_false] at hs
    rcases hs with rfl | rfl | rfl
    · obtain rfl := (ρ.eq_reserved_iff hsym (by decide)).mp rfl
      rw [copyTemplate_quasiquote, copyTemplate_quasiquote]
      exact .bind (.within (ih (level + 1) hu) 1) fun hx => .pure (hmark hx)
    · obtain rfl := (ρ.eq_reserved_iff hsym (by decide)).mp rfl
      rw [copyTemplate_unquote, copyTemplate_unquote]
      split
      · exact .within (.eval hu) 1
      · exact .bind (.within (ih (level - 1) hu) 1) fun hx => .pure (hmark hx)
    · obtain rfl := (ρ.eq_reserved_iff hsym (by decide)).mp rfl
      rw [copyTemplate_splice, copyTemplate_splice]
      split
      · exact .fault .spliceOutsideList
      · exact .bind (.within (renamed_copyItem level hu (ih level hu)) 1) fun hxs =>
          .pure (.list (.cons (.symbol hsym) hxs))
  | list items hitems ih =>
    by_cases hpair : ∃ s u, items = [.symbol s, u]
    · obtain ⟨s, u, rfl⟩ := hpair
      obtain ⟨s', u', rfl, hsym, hu⟩ := h.of_pair
      have hunmarked : Unmarked [.symbol s', u'] :=
        unmarked_of_renamed (.cons (.symbol hsym) (.cons hu .nil)) hitems
      rw [copyTemplate_pair level (hitems s u rfl), copyTemplate_pair level (hunmarked s' u' rfl)]
      have hcopy := ih u (List.mem_cons_of_mem _ List.mem_cons_self) level hu
      exact .bind (.within (renamed_copyItem level hu hcopy) 1) fun hxs =>
        .pure (.list (.cons (.symbol hsym) hxs))
    · obtain ⟨items', rfl, hvs⟩ := h.of_list
      have hpair' : ∀ s u, items' ≠ [.symbol s, u] := by
        rintro s' u' rfl
        rcases hvs with _ | ⟨⟨⟩ | ⟨⟩ | ⟨⟩ | ⟨hs⟩, _ | ⟨_, _ | _⟩⟩
        exact hpair ⟨_, _, rfl⟩
      rw [copyTemplate_items level fun s u hs => hpair ⟨s, u, hs⟩, copyTemplate_items level hpair']
      exact .bind (renamed_copyItems level hvs (fun v hv w hw => ih v hv level hw) 0) fun hxs =>
        .pure (.list hxs)
  | atom v hv =>
    rw [copyTemplate_atom level hv, copyTemplate_atom level (h.atom hv)]
    exact .pure h

theorem renamed_wrongCount (form : SpecialForm) (rule : ArityRule) (expected : Nat)
    {operands operands' : List Value} (h : operands.length = operands'.length) :
    Plan.Renamed ρ (Value.Renamed ρ) (wrongCount form rule expected operands)
      (wrongCount form rule expected operands') := by
  rw [wrongCount, wrongCount, h]
  exact .fail nofun

theorem renamed_applyQuote {operands operands' : List Value}
    (h : List.Forall₂ (Value.Renamed ρ) operands operands') :
    Plan.Renamed ρ (Value.Renamed ρ) (applyQuote operands) (applyQuote operands') := by
  have hlength := h.length_eq
  rcases h with _ | ⟨hv, _ | _⟩
  · exact renamed_wrongCount _ _ _ rfl
  · exact .pure hv
  · exact renamed_wrongCount _ _ _ hlength

theorem renamed_applyQuasiquote {operands operands' : List Value}
    (h : List.Forall₂ (Value.Renamed ρ) operands operands') :
    Plan.Renamed ρ (Value.Renamed ρ) (applyQuasiquote operands) (applyQuasiquote operands') := by
  have hlength := h.length_eq
  rcases h with _ | ⟨hv, _ | _⟩
  · exact renamed_wrongCount _ _ _ rfl
  · exact .within (renamed_copyTemplate 1 hv) 1
  · exact renamed_wrongCount _ _ _ hlength

theorem renamed_applySequence {operands operands' : List Value}
    (h : List.Forall₂ (Value.Renamed ρ) operands operands') :
    Plan.Renamed ρ (Value.Renamed ρ) (applySequence operands) (applySequence operands') := by
  cases h with
  | nil => exact renamed_wrongCount _ _ _ rfl
  | cons hv hvs => exact renamed_evalLast (.cons hv hvs) 1 (.list .nil)

theorem renamed_applyBinder (form : SpecialForm) {bind bind' : Symbol → Value → Plan Unit}
    (hbind : ∀ {s t v w}, ρ.rel s t → Value.Renamed ρ v w →
      Plan.Renamed ρ Eq (bind s v) (bind' t w))
    {operands operands' : List Value} (h : List.Forall₂ (Value.Renamed ρ) operands operands') :
    Plan.Renamed ρ (Value.Renamed ρ) (applyBinder form bind operands)
      (applyBinder form bind' operands') := by
  have hlength := h.length_eq
  rcases h with _ | ⟨hname, _ | ⟨hexpr, _ | _⟩⟩
  · exact renamed_wrongCount _ _ _ rfl
  · cases hname <;> exact renamed_wrongCount _ _ _ rfl
  · cases hname with
    | symbol hs =>
      exact .bind (.within (.eval hexpr) 2) fun hv =>
        .bind (hbind hs hv) fun _ => .pure hv
    | _ => exact .within (.fault (.nameNotSymbol form)) 1
  · cases hname <;> exact renamed_wrongCount _ _ _ hlength

theorem renamed_applyMaker (form : SpecialForm) (kind : ProcedureKind)
    {operands operands' : List Value} (h : List.Forall₂ (Value.Renamed ρ) operands operands') :
    Plan.Renamed ρ (Value.Renamed ρ) (applyMaker form kind operands)
      (applyMaker form kind operands') := by
  rcases h with _ | ⟨hparams, _ | ⟨hfirst, hrest⟩⟩
  · exact renamed_wrongCount _ _ _ rfl
  · exact renamed_wrongCount _ _ _ rfl
  · exact .bind (.ofExcept (ParamList.renamed_parseChild hparams 1)) fun hp =>
      .pure (.procedure kind hp (.cons hfirst hrest))

theorem renamed_applyBranch {operands operands' : List Value}
    (h : List.Forall₂ (Value.Renamed ρ) operands operands') :
    Plan.Renamed ρ (Value.Renamed ρ) (applyBranch operands) (applyBranch operands') := by
  rcases h with _ | ⟨hpredicate, _ | ⟨hconsequent, hrest⟩⟩
  · exact renamed_wrongCount _ _ _ rfl
  · exact renamed_wrongCount _ _ _ rfl
  · rw [applyBranch, applyBranch]
    refine Plan.Renamed.bind (A := Eq) ?_ fun {b b'} hb => ?_
    · exact .within (.bind (.eval hpredicate) fun hx => .ofExcept hx.asBool) 1
    · subst hb
      cases b with
      | true => exact .within (.eval hconsequent) 2
      | false => exact renamed_evalLast hrest 3 (.bool false)

theorem renamed_evalBinding {v w : Value} (h : v.Renamed ρ w) :
    Plan.Renamed ρ (BindingRenamed ρ ρ.rel) (evalBinding v) (evalBinding w) := by
  cases h with
  | list hvs =>
    have hlength := hvs.length_eq
    rcases hvs with _ | ⟨hname, _ | ⟨hexpr, _ | _⟩⟩
    · exact .fail nofun
    · exact .fail nofun
    · exact .bind (.within (.ofExcept hname.asSymbol) 0) fun hs =>
        .bind (.within (.eval hexpr) 1) fun hx => .pure ⟨hs, hx⟩
    · simp only [evalBinding]
      rw [hlength]
      exact .fail nofun
  | _ => exact .fault .expectedList

theorem renamed_evalBindings {vs ws : List Value} (h : List.Forall₂ (Value.Renamed ρ) vs ws)
    (k : Int) :
    Plan.Renamed ρ (List.Forall₂ (BindingRenamed ρ ρ.rel)) (evalBindings k vs)
      (evalBindings k ws) := by
  induction h generalizing k with
  | nil => exact .pure .nil
  | cons hv _ ih =>
    rw [evalBindings, evalBindings]
    exact .bind (.within (renamed_evalBinding hv) k) fun hb =>
      .bind (ih (k + 1)) fun hbs => .pure (.cons hb hbs)

theorem renamed_applyLet {operands operands' : List Value}
    (h : List.Forall₂ (Value.Renamed ρ) operands operands') :
    Plan.Renamed ρ (Value.Renamed ρ) (applyLet operands) (applyLet operands') := by
  rcases h with _ | ⟨hbindings, _ | ⟨hfirst, hrest⟩⟩
  · exact renamed_wrongCount _ _ _ rfl
  · exact renamed_wrongCount _ _ _ rfl
  · rw [applyLet, applyLet]
    refine .bind ?_ fun hbs =>
      .inScope (renamed_evalLast (.cons hfirst hrest) 2 (.list .nil)) hbs
    exact .within (.bind (.ofExcept hbindings.asList) fun hpairs =>
      renamed_evalBindings hpairs 0) 1

theorem renamed_applySpecial (form : SpecialForm) {operands operands' : List Value}
    (h : List.Forall₂ (Value.Renamed ρ) operands operands') :
    Plan.Renamed ρ (Value.Renamed ρ) (applySpecial form operands)
      (applySpecial form operands') := by
  cases form with
  | define => exact renamed_applyBinder .define .define h
  | assign => exact renamed_applyBinder .assign .assign h
  | makeFunction => exact renamed_applyMaker .makeFunction .function h
  | makeMacro => exact renamed_applyMaker .makeMacro .expander h
  | branch => exact renamed_applyBranch h
  | bindLocal => exact renamed_applyLet h
  | sequence => exact renamed_applySequence h
  | quote => exact renamed_applyQuote h
  | quasiquote => exact renamed_applyQuasiquote h

theorem renamed_applyNative (n : Native) {operands operands' : List Value}
    (h : List.Forall₂ (Value.Renamed ρ) operands operands') :
    Plan.Renamed ρ (Value.Renamed ρ) (applyNative n operands) (applyNative n operands') := by
  have hparams : n.params.Rel Eq n.params := by
    refine ⟨List.forall₂_refl _, ?_⟩
    cases n.params.rest with
    | none => exact .none
    | some r => exact .some rfl
  refine .bind (renamed_bindOperands hparams h true n.describe) fun hbs => ?_
  refine Plan.Renamed.ofExcept (Native.renamed_run n ?_)
  rw [List.forall₂_map_left_iff, List.forall₂_map_right_iff]
  exact hbs.imp fun _ _ hb => hb.2

variable {c d : Context} (hcd : c.Renamed ρ d)
include hcd

theorem renamed_bindProcedure {f g : Definition} (hfg : f.Renamed ρ g)
    {operands operands' : List Value} (h : List.Forall₂ (Value.Renamed ρ) operands operands')
    (name : Option String) :
    Plan.Renamed ρ (List.Forall₂ (BindingRenamed ρ ρ.rel)) (bindProcedure c f operands name)
      (bindProcedure d g operands' name) := by
  rw [bindProcedure, bindProcedure, ← hfg.kind, hfg.params.describeWith hcd]
  exact renamed_bindOperands hfg.params h _ _

omit hcd in
theorem renamed_runProcedure {f g : Definition} (hfg : f.Renamed ρ g)
    {bs cs : List (Symbol × Value)} (hbs : List.Forall₂ (BindingRenamed ρ ρ.rel) bs cs)
    (name : Option String) :
    Plan.Renamed ρ (Value.Renamed ρ) (runProcedure f bs name) (runProcedure g cs name) :=
  .body (.inScope (renamed_evalLast hfg.body 2 (.list .nil)) hbs) hfg.form name

theorem renamed_applyProcedure {f g : Definition} (hfg : f.Renamed ρ g)
    {operands operands' : List Value} (h : List.Forall₂ (Value.Renamed ρ) operands operands')
    (name : Option String) :
    Plan.Renamed ρ (Value.Renamed ρ) (applyProcedure c f operands name)
      (applyProcedure d g operands' name) := by
  refine .bind (renamed_bindProcedure hcd hfg h name) fun hbs =>
    .bind (renamed_runProcedure hfg hbs name) fun hx => ?_
  rw [← hfg.kind]
  cases f.kind with
  | function => exact .pure hx
  | expander => exact .bind (.emit (.expanded name)) fun _ => .expansion (.eval hx) hx

theorem calledName_eq {v w : Value} (h : v.Renamed ρ w) : calledName c v = calledName d w := by
  cases h with
  | symbol hs => exact hcd.names hs
  | _ => rfl

omit hcd in
theorem applyValue_list (name : Option String) (operands vs : List Value) :
    applyValue c name operands (.list vs)
      = (Definition.form? (.list vs)).elim
          (Plan.ofExcept (.error
            ((EvalError.of (.notApplicable (.list vs) name)).leavingBody (.list vs) name)))
          (fun form => do
            let d ← Plan.ofExcept ((Definition.parse form).mapError
              (EvalError.leavingBody (.list vs) name))
            applyProcedure c d operands name) := by
  simp only [applyValue]
  cases Definition.form? (.list vs) <;> rfl

theorem renamed_applyValue (name : Option String) {operands operands' : List Value}
    (h : List.Forall₂ (Value.Renamed ρ) operands operands') {v w : Value} (hvw : v.Renamed ρ w) :
    Plan.Renamed ρ (Value.Renamed ρ) (applyValue c name operands v)
      (applyValue d name operands' w) := by
  have hother : Plan.Renamed ρ (Value.Renamed ρ)
      ((Definition.form? v).elim (Plan.ofExcept (.error
          ((EvalError.of (.notApplicable v name)).leavingBody v name)))
        fun form => do
          let d ← Plan.ofExcept ((Definition.parse form).mapError (EvalError.leavingBody v name))
          applyProcedure c d operands name)
      ((Definition.form? w).elim (Plan.ofExcept (.error
          ((EvalError.of (.notApplicable w name)).leavingBody w name)))
        fun form => do
          let d' ← Plan.ofExcept ((Definition.parse form).mapError (EvalError.leavingBody w name))
          applyProcedure d d' operands' name) := by
    have hform := Definition.renamed_form? hvw
    generalize Definition.form? v = o at hform
    generalize Definition.form? w = o' at hform
    cases hform with
    | some hform =>
      exact .bind (.ofExcept ((Definition.renamed_parse hform).leavingBody hvw name)) fun hfg =>
        renamed_applyProcedure hcd hfg h name
    | none =>
      have hrefused : EvalError.Renamed ρ (.of (.notApplicable v name))
          (.of (.notApplicable w name)) := ⟨.notApplicable hvw name, rfl, .nil⟩
      exact .ofExcept (.error (hrefused.leavingBody hvw name))
  cases hvw with
  | special form => exact renamed_applySpecial form h
  | native n => exact renamed_applyNative n h
  | @procedure kind p q vs ws hp hbody =>
    have hfg : Definition.Renamed ρ ⟨kind, p, vs⟩ ⟨kind, q, ws⟩ := ⟨rfl, hp, hbody⟩
    exact renamed_applyProcedure hcd hfg h name
  | list =>
    rw [applyValue_list, applyValue_list]
    exact hother
  | _ => exact hother

theorem renamed_step {v w : Value} (h : v.Renamed ρ w) :
    Plan.Renamed ρ (Value.Renamed ρ) (Plan.step c v) (Plan.step d w) := by
  cases h with
  | symbol hs =>
    refine .bind (.resolve hs) fun hfound => ?_
    cases hfound with
    | some hv => exact .pure hv
    | none =>
      rw [Naming.nameOf, Naming.nameOf, hcd.names hs]
      exact .fail fun _ _ => EvalCause.noConfusion
  | list hvs =>
    cases hvs with
    | nil => exact .fail fun _ _ => EvalCause.noConfusion
    | cons hhead hoperands =>
      refine .bind (.within (.eval hhead) 0) fun hf => ?_
      rw [calledName_eq hcd hhead]
      exact renamed_applyValue hcd _ hoperands hf
  | bool b => exact .pure (.bool b)
  | number x => exact .pure (.number x)
  | string s => exact .pure (.string s)
  | special form => exact .pure (.special form)
  | native n => exact .pure (.native n)
  | procedure kind hp hbody => exact .pure (.procedure kind hp hbody)

end

/-- Corresponding forms are evaluated alike: the induction is on the fuel. -/
theorem agree_evaluate (E : EnvRenaming ρ) {c d : Context} (hcd : c.Renamed ρ d) (fuel : Nat)
    {v w : Value} (h : v.Renamed ρ w) :
    Eval.Agree E (Value.Renamed ρ) (evaluate c fuel v) (evaluate d fuel w) := by
  induction fuel generalizing v w with
  | zero => exact Eval.agree_exhausted E
  | succ fuel ih => exact (renamed_step hcd h).agree E hcd ih

end MiniLisp
