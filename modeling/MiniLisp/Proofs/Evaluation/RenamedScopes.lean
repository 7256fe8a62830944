import MiniLisp.Proofs.Evaluation.Renaming

/-!
# Scopes up to a renaming of symbols

Scopes correspond if their bindings do, one by one and in order; environments correspond scope by
scope. Writing and reading keep that: a renaming tells no two symbols apart or together, so
corresponding symbols are found in the same places. What corresponds still does if more symbols
correspond.
Main definition: `EnvRenaming.entrywise`.
-/

namespace MiniLisp

section

variable (ρ : Renaming)

def Scope.Renamed (scope scope' : Scope) : Prop :=
  List.Forall₂ (BindingRenamed ρ ρ.rel) scope.entries scope'.entries

structure Environment.Renamed (env env' : Environment) : Prop where
  inner : List.Forall₂ (Scope.Renamed ρ) env.inner env'.inner
  global : env.global.Renamed ρ env'.global

end

variable {ρ : Renaming}

namespace Scope

theorem renamed_empty : empty.Renamed ρ empty := List.Forall₂.nil

theorem forall₂_putEntry {es fs : List (Symbol × Value)}
    (h : List.Forall₂ (BindingRenamed ρ ρ.rel) es fs) {s t : Symbol} {v w : Value}
    (hs : ρ.rel s t) (hv : v.Renamed ρ w) :
    List.Forall₂ (BindingRenamed ρ ρ.rel) (putEntry s v es) (putEntry t w fs) := by
  induction h with
  | nil => exact .cons ⟨hs, hv⟩ .nil
  | @cons b c es fs hb hrest ih =>
    rw [putEntry, putEntry]
    by_cases heq : b.1 = s
    · rw [if_pos heq, if_pos ((ρ.eq_iff hb.1 hs).mp heq)]
      exact .cons ⟨hb.1, hv⟩ hrest
    · rw [if_neg heq, if_neg fun h => heq ((ρ.eq_iff hb.1 hs).mpr h)]
      exact .cons hb ih

theorem optionRel_find {es fs : List (Symbol × Value)}
    (h : List.Forall₂ (BindingRenamed ρ ρ.rel) es fs) {s t : Symbol} (hs : ρ.rel s t) :
    Option.Rel (Value.Renamed ρ) (valueOf? s es) (valueOf? t fs) := by
  induction h with
  | nil => exact .none
  | @cons b c es fs hb hrest ih =>
    rw [valueOf?, valueOf?]
    by_cases heq : b.1 = s
    · rw [if_pos heq, if_pos ((ρ.eq_iff hb.1 hs).mp heq)]
      exact .some hb.2
    · rw [if_neg heq, if_neg fun h => heq ((ρ.eq_iff hb.1 hs).mpr h)]
      exact ih

theorem Renamed.put {scope scope' : Scope} (h : scope.Renamed ρ scope') {s t : Symbol}
    {v w : Value} (hs : ρ.rel s t) (hv : v.Renamed ρ w) :
    (scope.put s v).Renamed ρ (scope'.put t w) :=
  forall₂_putEntry h hs hv

end Scope

namespace Environment.Renamed

variable {env env' : Environment} (h : env.Renamed ρ env')
include h

theorem depth : env.depth = env'.depth := h.inner.length_eq

theorem scopes : List.Forall₂ (Scope.Renamed ρ) env.scopes env'.scopes :=
  List.rel_append h.inner (.cons h.global .nil)

theorem resolve {s t : Symbol} (hs : ρ.rel s t) :
    Option.Rel (Value.Renamed ρ) (env.resolve? s) (env'.resolve? t) := by
  have hscopes := h.scopes
  rw [Environment.resolve?, Environment.resolve?]
  generalize env.scopes = scopes at hscopes
  generalize env'.scopes = scopes' at hscopes
  induction hscopes with
  | nil => exact .none
  | @cons scope scope' _ _ hscope _ ih =>
    have hfound : Option.Rel (Value.Renamed ρ) (scope.get? s) (scope'.get? t) :=
      Scope.optionRel_find hscope hs
    rw [List.findSome?_cons, List.findSome?_cons]
    generalize scope.get? s = found at hfound
    generalize scope'.get? t = found' at hfound
    cases hfound with
    | some hv => exact .some hv
    | none => exact ih

theorem define {s t : Symbol} {v w : Value} (hs : ρ.rel s t) (hv : v.Renamed ρ w) :
    (env.define s v).Renamed ρ (env'.define t w) :=
  ⟨h.inner, h.global.put hs hv⟩

theorem assign {s t : Symbol} {v w : Value} (hs : ρ.rel s t) (hv : v.Renamed ρ w) :
    (env.assign s v).Renamed ρ (env'.assign t w) := by
  obtain ⟨inner, global⟩ := env
  obtain ⟨inner', global'⟩ := env'
  obtain ⟨hinner, hglobal⟩ := h
  cases hinner with
  | nil => exact ⟨.nil, hglobal.put hs hv⟩
  | cons hscope hrest => exact ⟨.cons (hscope.put hs hv) hrest, hglobal⟩

theorem push : env.push.Renamed ρ env'.push := ⟨.cons Scope.renamed_empty h.inner, h.global⟩

theorem pop : ResultRenamed ρ (Environment.Renamed ρ) env.pop env'.pop := by
  obtain ⟨inner, global⟩ := env
  obtain ⟨inner', global'⟩ := env'
  obtain ⟨hinner, hglobal⟩ := h
  cases hinner with
  | nil => exact .error (EvalError.renamed_of nofun)
  | cons _ hrest => exact .ok ⟨hrest, hglobal⟩

end Environment.Renamed

variable (ρ) in
/-- Environments correspond scope by scope, and scopes binding by binding. -/
def EnvRenaming.entrywise : EnvRenaming ρ where
  rel := Environment.Renamed ρ
  depth h := h.depth
  resolve h hs := h.resolve hs
  define h hs hv := h.define hs hv
  assign h hs hv := h.assign hs hv
  push h := h.push
  pop h := h.pop

theorem ParamList.Rel.mono {α β : Type} {R S : α → β → Prop} (h : ∀ a b, R a b → S a b)
    {p : ParamList α} {q : ParamList β} (hpq : p.Rel R q) : p.Rel S q := by
  obtain ⟨as, r⟩ := p
  obtain ⟨bs, r'⟩ := q
  refine ⟨hpq.positional.imp h, ?_⟩
  cases hpq.rest with
  | some hr => exact .some (h _ _ hr)
  | none => exact .none

mutual

theorem Value.Renamed.mono {ρ σ : Renaming} (h : ∀ s t, ρ.rel s t → σ.rel s t) {v w : Value}
    (hv : v.Renamed ρ w) : v.Renamed σ w := by
  match v, hv with
  | .bool b, .bool _ => exact .bool b
  | .number x, .number _ => exact .number x
  | .string s, .string _ => exact .string s
  | .symbol _, .symbol hs => exact .symbol (h _ _ hs)
  | .list _, .list hvs => exact .list (Value.Renamed.monoAll h hvs)
  | .special form, .special _ => exact .special form
  | .native n, .native _ => exact .native n
  | .procedure kind _ _, .procedure _ hp hbody =>
    exact .procedure kind (ParamList.Rel.mono h hp) (Value.Renamed.monoAll h hbody)

theorem Value.Renamed.monoAll {ρ σ : Renaming} (h : ∀ s t, ρ.rel s t → σ.rel s t)
    {vs ws : List Value} (hvs : List.Forall₂ (Value.Renamed ρ) vs ws) :
    List.Forall₂ (Value.Renamed σ) vs ws := by
  match vs, hvs with
  | [], .nil => exact .nil
  | _ :: _, .cons hv hvs => exact .cons (Value.Renamed.mono h hv) (Value.Renamed.monoAll h hvs)

end

section

variable {σ : Renaming} (h : ∀ s t, ρ.rel s t → σ.rel s t)
include h

theorem Scope.Renamed.mono {scope scope' : Scope} (hscope : scope.Renamed ρ scope') :
    scope.Renamed σ scope' :=
  List.Forall₂.imp (fun _ _ hb => ⟨h _ _ hb.1, hb.2.mono h⟩) hscope

theorem Event.Renamed.mono {event event' : Event} (hevent : event.Renamed ρ event') :
    event.Renamed σ event' := by
  cases hevent with
  | evaluating hv => exact .evaluating (hv.mono h)
  | expanded name => exact .expanded name
  | discarded count => exact .discarded count

theorem Machine.Renamed.mono {m n : Machine} (hmn : m.Renamed (.entrywise ρ) n) :
    m.Renamed (.entrywise σ) n := by
  obtain ⟨henv, hdepth, hlog⟩ := hmn
  have hinner := henv.inner.imp fun _ _ hscope => hscope.mono h
  exact ⟨⟨hinner, henv.global.mono h⟩, hdepth, hlog.imp fun _ _ hevent => hevent.mono h⟩

end

end MiniLisp
