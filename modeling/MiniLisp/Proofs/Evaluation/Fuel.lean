import MiniLisp.Proofs.Evaluation.Balance

/-!
# More fuel

An evaluation that ends with some fuel ends in the same way with more. What a plan yields, with as
much fuel as it takes, can therefore be said without fuel: a sequence yields what its parts yield
one after the other, although each of them may need fuel of its own.
Main statements: `refinedBy_evaluate` and the rules for what plans yield.
-/

namespace MiniLisp

namespace Eval

variable {α β : Type} {x y : Eval α}

/-- Unless the first evaluation has no answer, the second does the same. -/
def RefinedBy (x y : Eval α) : Prop := ∀ m, (x m).1 = .exhausted ∨ y m = x m

theorem RefinedBy.refl (x : Eval α) : RefinedBy x x := fun _ => .inr rfl

theorem RefinedBy.bind {f g : α → Eval β} (hxy : RefinedBy x y) (hfg : ∀ a, RefinedBy (f a) (g a)) :
    RefinedBy (x >>= f) (y >>= g) := by
  intro m
  rcases hx : x m with ⟨a | e | _, m'⟩
  · have hy : y m = (.value a, m') := ((hxy m).resolve_left (by rw [hx]; nofun)).trans hx
    rw [bind_value hx, bind_value hy]
    exact hfg a m'
  · have hy : y m = (.error e, m') := ((hxy m).resolve_left (by rw [hx]; nofun)).trans hx
    rw [bind_error hx, bind_error hy]
    exact .inr rfl
  · rw [bind_exhausted hx]
    exact .inl rfl

theorem RefinedBy.annotate (hxy : RefinedBy x y) (f : EvalError → EvalError) :
    RefinedBy (annotate f x) (annotate f y) := by
  intro m
  rcases hxy m with h | h
  · refine .inl ?_
    rw [Eval.annotate]
    rcases hx : x m with ⟨a | e | _, m'⟩ <;> rw [hx] at h <;> cases h
  · refine .inr ?_
    rw [Eval.annotate, Eval.annotate, h]

theorem RefinedBy.inScope {closes : Nat → Bool} (hxy : RefinedBy x y) (hx : KeepsScopes closes x)
    (bindings : List (Symbol × Value)) :
    RefinedBy (inScope closes bindings x) (inScope closes bindings y) := by
  intro m
  rcases hxy { m with env := m.env.enter bindings } with h | h
  · exact .inl ((hx.outcome_inScope bindings m).trans h)
  · refine .inr ?_
    rw [Eval.inScope, Eval.inScope, h]

theorem RefinedBy.counted (hxy : RefinedBy x y) (ctx : Context) :
    RefinedBy (counted ctx x) (counted ctx y) := by
  intro m
  by_cases hfull : ctx.maxDepth ≠ 0 ∧ ctx.maxDepth ≤ m.callDepth
  · rw [counted_full ctx hfull, counted_full ctx hfull]
    exact .inr rfl
  · rw [counted_room ctx hfull, counted_room ctx hfull]
    rcases hxy { m with callDepth := m.callDepth + 1 } with h | h
    · exact .inl h
    · rw [h]
      exact .inr rfl

end Eval

open Eval

theorem Plan.refinedBy (ctx : Context) {ev ev' : Value → Eval Value}
    (hkeeps : ∀ v, KeepsScopes ctx.closes (ev v)) (hev : ∀ v, RefinedBy (ev v) (ev' v)) {α : Type}
    (p : Plan α) : RefinedBy (p.run ctx ev) (p.run ctx ev') := by
  induction p with
  | bind p f ihp ihf => exact ihp.bind ihf
  | within i p ih => exact ih.annotate _
  | eval v => exact hev v
  | inScope bindings p ih =>
    exact ih.inScope (p.keepsScopes ctx hkeeps) bindings
  | body form label p ih => exact (ih.annotate _).counted ctx
  | expansion form p ih => exact ih.annotate _
  | _ => exact .refl _

/-- More fuel keeps every answer. -/
theorem refinedBy_evaluate (ctx : Context) {n n' : Nat} (h : n ≤ n') (v : Value) :
    RefinedBy (evaluate ctx n v) (evaluate ctx n' v) := by
  induction n generalizing n' v with
  | zero => exact fun _ => .inl rfl
  | succ n ih =>
    obtain ⟨k, rfl⟩ := Nat.exists_eq_add_of_le' h
    exact Plan.refinedBy ctx (keeps_evaluate ctx n) (ih (Nat.le_add_left n k)) (Plan.step ctx v)

namespace Plan

variable {α β : Type} {ctx : Context} {m m' : Machine}

/-- With enough fuel the plan ends with the value and leaves the second machine. -/
def Yields (ctx : Context) (p : Plan α) (m : Machine) (a : α) (m' : Machine) : Prop :=
  ∃ fuel, p.run ctx (evaluate ctx fuel) m = (.value a, m')

theorem run_of_le {p : Plan α} {a : α} {n n' : Nat} (hle : n ≤ n')
    (h : p.run ctx (evaluate ctx n) m = (.value a, m')) :
    p.run ctx (evaluate ctx n') m = (.value a, m') := by
  have hrefined := p.refinedBy ctx (keeps_evaluate ctx n) (refinedBy_evaluate ctx hle) m
  exact (hrefined.resolve_left (by rw [h]; nofun)).trans h

theorem yields_pure {a b : α} :
    (Pure.pure a : Plan α).Yields ctx m b m' ↔ a = b ∧ m = m' := by
  constructor
  · rintro ⟨_, h⟩
    cases h
    exact ⟨rfl, rfl⟩
  · rintro ⟨rfl, rfl⟩
    exact ⟨0, rfl⟩

theorem yields_bind {p : Plan α} {f : α → Plan β} {b : β} :
    (p >>= f).Yields ctx m b m' ↔
      ∃ a m₁, p.Yields ctx m a m₁ ∧ (f a).Yields ctx m₁ b m' := by
  constructor
  · rintro ⟨fuel, h⟩
    change (p.run ctx (evaluate ctx fuel) >>= fun a => (f a).run ctx (evaluate ctx fuel)) m = _ at h
    rcases hp : p.run ctx (evaluate ctx fuel) m with ⟨a | e | _, m₁⟩
    · rw [bind_value hp] at h
      exact ⟨a, m₁, ⟨fuel, hp⟩, fuel, h⟩
    · rw [bind_error hp] at h
      cases h
    · rw [bind_exhausted hp] at h
      cases h
  · rintro ⟨a, m₁, ⟨n, hp⟩, n', hf⟩
    refine ⟨max n n', ?_⟩
    have hp' := run_of_le (Nat.le_max_left n n') hp
    exact (bind_value hp' _).trans (run_of_le (Nat.le_max_right n n') hf)

theorem yields_within {i : Int} {p : Plan α} {a : α} :
    (within i p).Yields ctx m a m' ↔ p.Yields ctx m a m' := by
  refine exists_congr fun fuel => ?_
  change Eval.annotate _ (p.run ctx (evaluate ctx fuel)) m = _ ↔ _
  rcases hp : p.run ctx (evaluate ctx fuel) m with ⟨b | e | _, m₁⟩
  · rw [Eval.annotate_value hp]
  · rw [Eval.annotate_error hp]
    simp only [Prod.mk.injEq, reduceCtorEq, false_and]
  · rw [Eval.annotate_exhausted hp]

theorem yields_ofExcept {r : Except EvalError α} {a : α} :
    (ofExcept r).Yields ctx m a m' ↔ r = .ok a ∧ m = m' := by
  constructor
  · rintro ⟨_, h⟩
    cases r with
    | ok b =>
      cases h
      exact ⟨rfl, rfl⟩
    | error e => cases h
  · rintro ⟨rfl, rfl⟩
    exact ⟨0, rfl⟩

/-- A form yields what one step of its evaluation yields. -/
theorem yields_eval {v a : Value} :
    (eval v).Yields ctx m a m' ↔ (step ctx v).Yields ctx m a m' := by
  constructor
  · rintro ⟨fuel, h⟩
    cases fuel with
    | zero => cases h
    | succ fuel =>
      exact ⟨fuel, h⟩
  · rintro ⟨fuel, h⟩
    exact ⟨fuel + 1, h⟩

end Plan

end MiniLisp
