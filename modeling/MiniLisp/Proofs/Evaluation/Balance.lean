import MiniLisp.Proofs.Evaluation.Outcomes

/-!
# What evaluations keep

An evaluation opens and closes scopes in pairs and counts bodies in pairs. Below the topmost scope
it writes to the global one alone, and it unbinds nothing. If it exhausts the host, scopes that it
opened may stay open.
Main statement: `keeps_evaluate`.
-/

namespace MiniLisp

/-- Whatever one scope binds the other binds as well. -/
def Scope.Covers (new old : Scope) : Prop := ∀ s, (old.get? s).isSome → (new.get? s).isSome

namespace Scope

theorem covers_refl (a : Scope) : a.Covers a := fun _ h => h

theorem Covers.trans {a b c : Scope} (hba : b.Covers a) (hcb : c.Covers b) : c.Covers a :=
  fun s h => hcb s (hba s h)

theorem covers_put (a : Scope) (s : Symbol) (v : Value) : (a.put s v).Covers a := by
  intro t h
  rw [get?_put]
  split
  · rfl
  · exact h

end Scope

namespace Machine

/-- The scopes and the count of bodies of a machine, as a later one has them: the scopes between
the global and the topmost one are the same, and those two bind no less. -/
structure Keeps (before after : Machine) : Prop where
  depth : after.env.depth = before.env.depth
  between : after.env.inner.tail = before.env.inner.tail
  top : after.env.top.Covers before.env.top
  global : after.env.global.Covers before.env.global
  callDepth : after.callDepth = before.callDepth

theorem Keeps.refl (m : Machine) : Keeps m m :=
  ⟨rfl, rfl, Scope.covers_refl _, Scope.covers_refl _, rfl⟩

theorem Keeps.trans {a b c : Machine} (hab : Keeps a b) (hbc : Keeps b c) : Keeps a c :=
  ⟨hbc.depth.trans hab.depth, hbc.between.trans hab.between, hab.top.trans hbc.top,
    hab.global.trans hbc.global, hbc.callDepth.trans hab.callDepth⟩

theorem keeps_define (m : Machine) (s : Symbol) (v : Value) :
    Keeps m { m with env := m.env.define s v } := by
  have hg : (m.env.global.put s v).Covers m.env.global := Scope.covers_put _ s v
  refine ⟨rfl, rfl, ?_, hg, rfl⟩
  obtain ⟨⟨inner, global⟩, callDepth, log⟩ := m
  cases inner with
  | nil => exact hg
  | cons scope rest => exact Scope.covers_refl scope

theorem keeps_assign (m : Machine) (s : Symbol) (v : Value) :
    Keeps m { m with env := m.env.assign s v } := by
  obtain ⟨⟨inner, global⟩, callDepth, log⟩ := m
  cases inner with
  | nil => exact keeps_define ⟨⟨[], global⟩, callDepth, log⟩ s v
  | cons scope rest =>
    exact ⟨rfl, rfl, Scope.covers_put scope s v, Scope.covers_refl global, rfl⟩

/-- No fewer scopes are open than before, and as many bodies are active. -/
structure Holds (before after : Machine) : Prop where
  depth : before.env.depth ≤ after.env.depth
  callDepth : after.callDepth = before.callDepth

theorem Keeps.holds {m n : Machine} (h : Keeps m n) : Holds m n :=
  ⟨Nat.le_of_eq h.depth.symm, h.callDepth⟩

theorem Holds.trans {a b c : Machine} (hab : Holds a b) (hbc : Holds b c) : Holds a c :=
  ⟨Nat.le_trans hab.depth hbc.depth, hbc.callDepth.trans hab.callDepth⟩

/-- A scope that has been opened can be closed. -/
theorem Holds.pop_enter {m n : Machine} {bindings : List (Symbol × Value)}
    (h : Holds { m with env := m.env.enter bindings } n) :
    ∃ env, n.env.pop = .ok env ∧ m.env.depth ≤ env.depth := by
  obtain ⟨⟨inner, global⟩, callDepth, log⟩ := n
  have hdepth := h.depth
  simp only [Environment.enter_eq, Environment.depth, List.length_cons] at hdepth
  cases inner with
  | nil => cases hdepth
  | cons scope rest => exact ⟨⟨rest, global⟩, rfl, Nat.le_of_succ_le_succ hdepth⟩

/-- What is kept in a scope of its own leaves the scopes below it as they are. -/
theorem Keeps.pop_enter {m n : Machine} {bindings : List (Symbol × Value)}
    (h : Keeps { m with env := m.env.enter bindings } n) :
    n.env.pop = .ok ⟨m.env.inner, n.env.global⟩ := by
  obtain ⟨⟨inner, global⟩, callDepth, log⟩ := n
  have hdepth := h.depth
  have hbetween := h.between
  simp only [Environment.enter_eq, Environment.depth] at hdepth hbetween
  cases inner with
  | nil => cases hdepth
  | cons scope rest =>
    simp only [List.tail_cons] at hbetween
    simp only [Environment.pop, hbetween]

theorem Keeps.leave {m n : Machine} {bindings : List (Symbol × Value)}
    (h : Keeps { m with env := m.env.enter bindings } n) :
    Keeps m { n with env := ⟨m.env.inner, n.env.global⟩ } := by
  have hglobal : n.env.global.Covers m.env.global := by
    have hg := h.global
    rwa [Environment.enter_eq] at hg
  refine ⟨rfl, rfl, ?_, hglobal, h.callDepth⟩
  obtain ⟨⟨inner, global⟩, callDepth, log⟩ := m
  cases inner with
  | nil => exact hglobal
  | cons scope rest => exact Scope.covers_refl scope

end Machine

namespace Eval

variable {α β : Type} {closes : Nat → Bool}

/-- An evaluation that ends keeps the scopes and the count of bodies. If it exhausts the host, it
keeps the count, and the scopes that it found are still open; the others are closed if there is
always room for that. -/
structure KeepsScopes (closes : Nat → Bool) (x : Eval α) : Prop where
  holds : ∀ m, Machine.Holds m (x m).2
  keeps : ∀ m, (x m).1.ended = true ∨ (∀ d, closes d = true) → Machine.Keeps m (x m).2

theorem keepsScopes_of_keeps {x : Eval α} (h : ∀ m, Machine.Keeps m (x m).2) :
    KeepsScopes closes x :=
  ⟨fun m => (h m).holds, fun m _ => h m⟩

namespace KeepsScopes

variable {x : Eval α} (hx : KeepsScopes closes x)
include hx

theorem value {m m' : Machine} {a : α} (h : x m = (.value a, m')) : Machine.Keeps m m' := by
  have hkeeps := hx.keeps m
  rw [h] at hkeeps
  exact hkeeps (.inl rfl)

theorem error {m m' : Machine} {e : EvalError} (h : x m = (.error e, m')) :
    Machine.Keeps m m' := by
  have hkeeps := hx.keeps m
  rw [h] at hkeeps
  exact hkeeps (.inl rfl)

theorem exhausted {m m' : Machine} (h : x m = (.exhausted, m')) (hall : ∀ d, closes d = true) :
    Machine.Keeps m m' := by
  have hkeeps := hx.keeps m (.inr hall)
  rwa [h] at hkeeps

theorem bind {f : α → Eval β} (hf : ∀ a, KeepsScopes closes (f a)) :
    KeepsScopes closes (x >>= f) := by
  refine ⟨fun m => ?_, fun m hclosed => ?_⟩
  · have hm := hx.holds m
    rcases h : x m with ⟨a | e | _, m'⟩ <;> rw [h] at hm
    · rw [bind_value h]
      exact hm.trans ((hf a).holds m')
    · rw [bind_error h]
      exact hm
    · rw [bind_exhausted h]
      exact hm
  · rcases h : x m with ⟨a | e | _, m'⟩
    · rw [bind_value h] at hclosed ⊢
      exact (hx.value h).trans ((hf a).keeps m' hclosed)
    · rw [bind_error h]
      exact hx.error h
    · rw [bind_exhausted h] at hclosed ⊢
      exact hx.exhausted h (hclosed.resolve_left nofun)

theorem annotate (f : EvalError → EvalError) : KeepsScopes closes (annotate f x) := by
  have hsame : ∀ m, (Eval.annotate f x m).1.ended = (x m).1.ended ∧
      (Eval.annotate f x m).2 = (x m).2 := by
    intro m
    rcases h : x m with ⟨a | e | _, m'⟩
    · rw [annotate_value h]
      exact ⟨rfl, rfl⟩
    · rw [annotate_error h]
      exact ⟨rfl, rfl⟩
    · rw [annotate_exhausted h]
      exact ⟨rfl, rfl⟩
  refine ⟨fun m => ?_, fun m hclosed => ?_⟩
  · rw [(hsame m).2]
    exact hx.holds m
  · rw [(hsame m).1] at hclosed
    rw [(hsame m).2]
    exact hx.keeps m hclosed

/-- A scope that is closed again has no part in how an evaluation ends. -/
theorem outcome_inScope (bindings : List (Symbol × Value)) (m : Machine) :
    (Eval.inScope closes bindings x m).1 = (x { m with env := m.env.enter bindings }).1 := by
  have hm := hx.holds { m with env := m.env.enter bindings }
  rcases h : x { m with env := m.env.enter bindings } with ⟨o, m'⟩
  rw [h] at hm
  obtain ⟨env, hpop, _⟩ := hm.pop_enter
  simp only [Eval.inScope, h, hpop]
  split <;> rfl

theorem inScope (bindings : List (Symbol × Value)) :
    KeepsScopes closes (inScope closes bindings x) := by
  refine ⟨fun m => ?_, fun m hclosed => ?_⟩
  · have hm := hx.holds { m with env := m.env.enter bindings }
    rcases h : x { m with env := m.env.enter bindings } with ⟨o, m'⟩
    rw [h] at hm
    -- what is popped is the topmost scope, which need not be the one that was opened here
    cases hroom : o.ended || closes m'.env.depth with
    | true =>
      obtain ⟨env, hpop, hdepth⟩ := hm.pop_enter
      rw [inScope_closed h hroom hpop]
      exact ⟨hdepth, hm.callDepth⟩
    | false =>
      rw [inScope_left_open h hroom]
      have henter : m.env.depth ≤ (m.env.enter bindings).depth := by
        rw [Environment.enter_eq]
        exact Nat.le_succ _
      exact ⟨Nat.le_trans henter hm.depth, hm.callDepth⟩
  · have hkeeps := hx.keeps { m with env := m.env.enter bindings }
    rw [hx.outcome_inScope] at hclosed
    rcases h : x { m with env := m.env.enter bindings } with ⟨o, m'⟩
    rw [h] at hkeeps hclosed
    have hroom : (o.ended || closes m'.env.depth) = true := by
      rcases hclosed with hended | hall
      · rw [hended, Bool.true_or]
      · rw [hall, Bool.or_true]
    rw [inScope_closed h hroom (hkeeps hclosed).pop_enter]
    exact (hkeeps hclosed).leave

theorem counted (ctx : Context) : KeepsScopes closes (counted ctx x) := by
  refine ⟨fun m => ?_, fun m hclosed => ?_⟩
  · by_cases hfull : ctx.maxDepth ≠ 0 ∧ ctx.maxDepth ≤ m.callDepth
    · rw [counted_full ctx hfull]
      exact (Machine.Keeps.refl m).holds
    · rw [counted_room ctx hfull]
      have hm := hx.holds { m with callDepth := m.callDepth + 1 }
      exact ⟨hm.depth, congrArg (· - 1) hm.callDepth⟩
  · by_cases hfull : ctx.maxDepth ≠ 0 ∧ ctx.maxDepth ≤ m.callDepth
    · rw [counted_full ctx hfull]
      exact .refl m
    · rw [counted_room ctx hfull] at hclosed ⊢
      have hm := hx.keeps { m with callDepth := m.callDepth + 1 } hclosed
      exact ⟨hm.depth, hm.between, hm.top, hm.global, congrArg (· - 1) hm.callDepth⟩

end KeepsScopes

end Eval

open Eval

theorem Plan.keepsScopes (ctx : Context) {ev : Value → Eval Value}
    (hev : ∀ v, KeepsScopes ctx.closes (ev v)) {α : Type} (x : Plan α) :
    KeepsScopes ctx.closes (x.run ctx ev) := by
  induction x with
  | pure a => exact keepsScopes_of_keeps fun m => .refl m
  | bind x f ihx ihf => exact ihx.bind ihf
  | ofExcept r => exact keepsScopes_of_keeps fun m => by cases r <;> exact .refl m
  | within i x ih => exact ih.annotate _
  | eval v => exact hev v
  | emit event =>
    exact keepsScopes_of_keeps fun _ =>
      ⟨rfl, rfl, Scope.covers_refl _, Scope.covers_refl _, rfl⟩
  | resolve s => exact keepsScopes_of_keeps fun m => .refl m
  | define s v => exact keepsScopes_of_keeps fun m => m.keeps_define s v
  | assign s v => exact keepsScopes_of_keeps fun m => m.keeps_assign s v
  | inScope bindings x ih => exact ih.inScope bindings
  | body form label x ih => exact (ih.annotate _).counted ctx
  | expansion form x ih => exact ih.annotate _

/-- The induction is on the fuel: one step keeps what the evaluations inside the form keep. -/
theorem keeps_evaluate (ctx : Context) (fuel : Nat) (form : Value) :
    KeepsScopes ctx.closes (evaluate ctx fuel form) := by
  induction fuel generalizing form with
  | zero => exact keepsScopes_of_keeps fun m => .refl m
  | succ fuel ih => exact (Plan.step ctx form).keepsScopes ctx ih

end MiniLisp
