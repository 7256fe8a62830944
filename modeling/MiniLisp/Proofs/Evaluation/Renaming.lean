import Mathlib.Data.List.Forall2
import MiniLisp.Evaluation

/-!
# Evaluations that agree up to a renaming of symbols

Symbols correspond to symbols, one to one, and the ones that every table starts with to themselves;
values, errors and events correspond if their symbols do. What the correspondence of environments
is stays open: it only has to be kept by what evaluations do to environments. Two evaluations agree
if they lead from corresponding machines to corresponding outcomes and machines. There is one rule
for each combinator.
-/

namespace MiniLisp

/-- A correspondence of symbols that tells no two of them apart or together. -/
structure Renaming where
  rel : Symbol → Symbol → Prop
  eq_iff : ∀ {s s' t t'}, rel s s' → rel t t' → (s = t ↔ s' = t')
  reserved : ∀ s ∈ reservedSymbols, rel s s

theorem Renaming.eq_reserved_iff (ρ : Renaming) {s s' t : Symbol} (h : ρ.rel s s')
    (ht : t ∈ reservedSymbols) : s = t ↔ s' = t :=
  ρ.eq_iff h (ρ.reserved t ht)

structure ParamList.Rel {α β : Type} (R : α → β → Prop) (p : ParamList α) (q : ParamList β) :
    Prop where
  positional : List.Forall₂ R p.positional q.positional
  rest : Option.Rel R p.rest q.rest

/-- Related errors, or related values. -/
inductive ResultRel {ε δ α β : Type} (E : ε → δ → Prop) (A : α → β → Prop) :
    Except ε α → Except δ β → Prop
  | ok {a : α} {b : β} (h : A a b) : ResultRel E A (.ok a) (.ok b)
  | error {d : ε} {e : δ} (h : E d e) : ResultRel E A (.error d) (.error e)

section

variable (ρ : Renaming)

inductive Value.Renamed : Value → Value → Prop
  | bool (b : Bool) : Renamed (.bool b) (.bool b)
  | number (x : Float) : Renamed (.number x) (.number x)
  | string (s : String) : Renamed (.string s) (.string s)
  | symbol {s t : Symbol} (h : ρ.rel s t) : Renamed (.symbol s) (.symbol t)
  | list {vs ws : List Value} (h : List.Forall₂ Renamed vs ws) : Renamed (.list vs) (.list ws)
  | special (form : SpecialForm) : Renamed (.special form) (.special form)
  | native (n : Native) : Renamed (.native n) (.native n)
  | procedure (kind : ProcedureKind) {p q : ParamList Symbol} {vs ws : List Value}
      (hparams : p.Rel ρ.rel q) (hbody : List.Forall₂ Renamed vs ws) :
      Renamed (.procedure kind p vs) (.procedure kind q ws)

inductive EvalCause.Renamed : EvalCause → EvalCause → Prop
  | notApplicable {v w : Value} (h : v.Renamed ρ w) (name : Option String) :
      Renamed (.notApplicable v name) (.notApplicable w name)
  | same (cause : EvalCause) (h : ∀ v name, cause ≠ .notApplicable v name) : Renamed cause cause

structure Frame.Renamed (f g : Frame) : Prop where
  form : f.form.Renamed ρ g.form
  path : f.path = g.path
  label : f.label = g.label

structure EvalError.Renamed (d e : EvalError) : Prop where
  cause : d.cause.Renamed ρ e.cause
  path : d.path = e.path
  frames : List.Forall₂ (Frame.Renamed ρ) d.frames e.frames

inductive Event.Renamed : Event → Event → Prop
  | evaluating {v w : Value} (h : v.Renamed ρ w) : Renamed (.evaluating v) (.evaluating w)
  | expanded (name : Option String) : Renamed (.expanded name) (.expanded name)
  | discarded (count : Nat) : Renamed (.discarded count) (.discarded count)

variable {α β : Type} (A : α → β → Prop)

inductive Outcome.Renamed : Outcome α → Outcome β → Prop
  | value {a : α} {b : β} (h : A a b) : Renamed (.value a) (.value b)
  | error {d e : EvalError} (h : d.Renamed ρ e) : Renamed (.error d) (.error e)
  | exhausted : Renamed .exhausted .exhausted

theorem Outcome.Renamed.ended_eq {A : α → β → Prop} {o : Outcome α} {o' : Outcome β}
    (h : o.Renamed ρ A o') : o.ended = o'.ended := by
  cases h <;> rfl

/-- Results that are reached without an evaluation. -/
abbrev ResultRenamed : Except EvalError α → Except EvalError β → Prop :=
  ResultRel (EvalError.Renamed ρ) A

end

/-- A correspondence of environments that is kept by writing corresponding values to corresponding
symbols, and by opening and closing scopes. -/
structure EnvRenaming (ρ : Renaming) where
  rel : Environment → Environment → Prop
  depth : ∀ {e f}, rel e f → e.depth = f.depth
  resolve : ∀ {e f s t}, rel e f → ρ.rel s t →
    Option.Rel (Value.Renamed ρ) (e.resolve? s) (f.resolve? t)
  define : ∀ {e f s t v w}, rel e f → ρ.rel s t → v.Renamed ρ w →
    rel (e.define s v) (f.define t w)
  assign : ∀ {e f s t v w}, rel e f → ρ.rel s t → v.Renamed ρ w →
    rel (e.assign s v) (f.assign t w)
  push : ∀ {e f}, rel e f → rel e.push f.push
  pop : ∀ {e f}, rel e f → ResultRenamed ρ rel e.pop f.pop

section

variable {ρ : Renaming} (E : EnvRenaming ρ)

structure Machine.Renamed (m n : Machine) : Prop where
  env : E.rel m.env n.env
  callDepth : m.callDepth = n.callDepth
  log : List.Forall₂ (Event.Renamed ρ) m.log n.log

/-- The namings give corresponding symbols the same name, and all else is the same. -/
structure Context.Renamed (ρ : Renaming) (c d : Context) : Prop where
  names : ∀ {s t}, ρ.rel s t → c.names s = d.names t
  maxDepth : c.maxDepth = d.maxDepth
  closes : c.closes = d.closes

/-- The evaluations lead from corresponding machines to corresponding outcomes and machines. -/
def Eval.Agree {α β : Type} (A : α → β → Prop) (x : Eval α) (y : Eval β) : Prop :=
  ∀ m n : Machine, m.Renamed E n →
    (x m).1.Renamed ρ A (y n).1 ∧ (x m).2.Renamed E (y n).2

theorem EvalError.renamed_of {cause : EvalCause} (h : ∀ v name, cause ≠ .notApplicable v name) :
    (EvalError.of cause).Renamed ρ (EvalError.of cause) := ⟨.same cause h, rfl, .nil⟩

theorem EvalError.Renamed.within {d e : EvalError} (h : d.Renamed ρ e) (i : Int) :
    (d.within i).Renamed ρ (e.within i) := by
  refine ⟨h.cause, ?_, h.frames⟩
  rw [EvalError.within, EvalError.within, h.path]

theorem EvalError.Renamed.leaving {d e : EvalError} (h : d.Renamed ρ e) {v w : Value}
    (hvw : v.Renamed ρ w) (label : Option String) :
    (d.leaving v label).Renamed ρ (e.leaving w label) :=
  ⟨h.cause, rfl, .cons ⟨hvw, h.path, rfl⟩ h.frames⟩

theorem EvalError.Renamed.leavingBody {d e : EvalError} (h : d.Renamed ρ e) {v w : Value}
    (hvw : v.Renamed ρ w) (label : Option String) :
    (d.leavingBody v label).Renamed ρ (e.leavingBody w label) :=
  (h.leaving hvw label).within 0

/-- Related names with corresponding values. -/
def BindingRenamed (ρ : Renaming) {α β : Type} (R : α → β → Prop) (b : α × Value)
    (c : β × Value) : Prop :=
  R b.1 c.1 ∧ b.2.Renamed ρ c.2

theorem EnvRenaming.enter {e f : Environment} (h : E.rel e f) {bs cs : List (Symbol × Value)}
    (hbs : List.Forall₂ (BindingRenamed ρ ρ.rel) bs cs) : E.rel (e.enter bs) (f.enter cs) := by
  exact List.rel_foldl (P := E.rel) (R := BindingRenamed ρ ρ.rel)
    (fun _ _ h _ _ hb => E.assign h hb.1 hb.2) (E.push h) hbs

namespace Eval

variable {α β γ δ : Type} {A : α → β → Prop} {B : γ → δ → Prop} {x : Eval α} {y : Eval β}

theorem agree_pure {a : α} {b : β} (h : A a b) : Agree E A (Pure.pure a) (Pure.pure b) :=
  fun _ _ hmn => ⟨.value h, hmn⟩

theorem agree_exhausted : Agree E A exhausted exhausted := fun _ _ hmn => ⟨.exhausted, hmn⟩

theorem agree_ofExcept {r : Except EvalError α} {s : Except EvalError β}
    (h : ResultRenamed ρ A r s) : Agree E A (ofExcept r) (ofExcept s) := by
  intro m n hmn
  cases h with
  | ok h => exact ⟨.value h, hmn⟩
  | error h => exact ⟨.error h, hmn⟩

theorem Agree.bind {f : α → Eval γ} {g : β → Eval δ} (hxy : Agree E A x y)
    (hfg : ∀ {a b}, A a b → Agree E B (f a) (g b)) : Agree E B (x >>= f) (y >>= g) := by
  intro m n hmn
  have h := hxy m n hmn
  change (Eval.bind x f m).1.Renamed ρ B (Eval.bind y g n).1 ∧
    (Eval.bind x f m).2.Renamed E (Eval.bind y g n).2
  rw [Eval.bind, Eval.bind]
  rcases hx : x m with ⟨o, m'⟩
  rcases hy : y n with ⟨o', n'⟩
  rw [hx, hy] at h
  obtain ⟨ho, hm'⟩ := h
  cases ho with
  | value hab => exact hfg hab m' n' hm'
  | error he => exact ⟨.error he, hm'⟩
  | exhausted => exact ⟨.exhausted, hm'⟩

theorem Agree.annotate (hxy : Agree E A x y) {f g : EvalError → EvalError}
    (hfg : ∀ {d e}, EvalError.Renamed ρ d e → (f d).Renamed ρ (g e)) :
    Agree E A (annotate f x) (annotate g y) := by
  intro m n hmn
  have h := hxy m n hmn
  rw [Eval.annotate, Eval.annotate]
  rcases hx : x m with ⟨o, m'⟩
  rcases hy : y n with ⟨o', n'⟩
  rw [hx, hy] at h
  obtain ⟨ho, hm'⟩ := h
  cases ho with
  | value hab => exact ⟨.value hab, hm'⟩
  | error he => exact ⟨.error (hfg he), hm'⟩
  | exhausted => exact ⟨.exhausted, hm'⟩

theorem Agree.within (hxy : Agree E A x y) (i : Int) : Agree E A (within i x) (within i y) :=
  hxy.annotate E fun h => h.within i

theorem Agree.leavingBody (hxy : Agree E A x y) {v w : Value} (hvw : v.Renamed ρ w)
    (label : Option String) : Agree E A (leavingBody v label x) (leavingBody w label y) :=
  hxy.annotate E fun h => h.leavingBody hvw label

theorem agree_emit {event event' : Event} (h : event.Renamed ρ event') :
    Agree E Eq (emit event) (emit event') :=
  fun _ _ hmn => ⟨.value rfl, hmn.env, hmn.callDepth, .cons h hmn.log⟩

theorem agree_resolve {s t : Symbol} (h : ρ.rel s t) :
    Agree E (Option.Rel (Value.Renamed ρ)) (resolve? s) (resolve? t) :=
  fun _ _ hmn => ⟨.value (E.resolve hmn.env h), hmn⟩

theorem agree_define {s t : Symbol} {v w : Value} (h : ρ.rel s t) (hvw : v.Renamed ρ w) :
    Agree E Eq (define s v) (define t w) :=
  fun _ _ hmn => ⟨.value rfl, E.define hmn.env h hvw, hmn.callDepth, hmn.log⟩

theorem agree_assign {s t : Symbol} {v w : Value} (h : ρ.rel s t) (hvw : v.Renamed ρ w) :
    Agree E Eq (assign s v) (assign t w) :=
  fun _ _ hmn => ⟨.value rfl, E.assign hmn.env h hvw, hmn.callDepth, hmn.log⟩

theorem Agree.inScope (hxy : Agree E A x y) {c d : Context} (hcd : c.Renamed ρ d)
    {bs cs : List (Symbol × Value)} (hbs : List.Forall₂ (BindingRenamed ρ ρ.rel) bs cs) :
    Agree E A (inScope c.closes bs x) (inScope d.closes cs y) := by
  intro m n hmn
  have hstart : Machine.Renamed E { m with env := m.env.enter bs }
      { n with env := n.env.enter cs } := ⟨E.enter hmn.env hbs, hmn.callDepth, hmn.log⟩
  have h := hxy _ _ hstart
  rw [Eval.inScope, Eval.inScope]
  rcases hx : x { m with env := m.env.enter bs } with ⟨o, m'⟩
  rcases hy : y { n with env := n.env.enter cs } with ⟨o', n'⟩
  rw [hx, hy] at h
  obtain ⟨ho, hm'⟩ := h
  have hpop := E.pop hm'.env
  simp only [ho.ended_eq, E.depth hm'.env, hcd.closes]
  split
  · generalize m'.env.pop = p at hpop
    generalize n'.env.pop = q at hpop
    cases hpop with
    | ok hr => exact ⟨ho, hr, hm'.callDepth, hm'.log⟩
    | error he => exact ⟨.error he, hm'⟩
  · exact ⟨ho, hm'⟩

theorem Agree.counted (hxy : Agree E A x y) {c d : Context} (hcd : c.Renamed ρ d) :
    Agree E A (counted c x) (counted d y) := by
  intro m n hmn
  have hstart : Machine.Renamed E { m with callDepth := m.callDepth + 1 }
      { n with callDepth := n.callDepth + 1 } :=
    ⟨hmn.env, congrArg (· + 1) hmn.callDepth, hmn.log⟩
  have h := hxy _ _ hstart
  rw [Eval.counted, Eval.counted, ← hcd.maxDepth, ← hmn.callDepth]
  split
  · exact ⟨.error (EvalError.renamed_of nofun), hmn⟩
  · rw [← hmn.callDepth] at h
    exact ⟨h.1, h.2.env, congrArg (· - 1) h.2.callDepth, h.2.log⟩

end Eval

end

end MiniLisp
