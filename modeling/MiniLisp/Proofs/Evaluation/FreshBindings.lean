import Mathlib.Data.List.Basic
import MiniLisp.Proofs.Evaluation.Confinement

/-!
# Bindings of symbols that do not occur

A scope of an environment can be changed in its place in the stack. If a symbol occurs neither in a
form nor in any value that is bound to another symbol, then what one scope binds it to makes no
difference to the evaluation of the form.
Main statement: `fresh_bindings_conservative`.
-/

namespace MiniLisp

namespace Scope

/-- The entries without those of `s`. -/
def dropEntry (s : Symbol) : List (Symbol × Value) → List (Symbol × Value)
  | [] => []
  | (t, w) :: rest => if t = s then dropEntry s rest else (t, w) :: dropEntry s rest

def without (s : Symbol) (scope : Scope) : Scope := ⟨dropEntry s scope.entries⟩

variable {s t : Symbol} (scope : Scope) (v : Value)

theorem get?_without (h : t ≠ s) : (scope.without s).get? t = scope.get? t := by
  obtain ⟨entries⟩ := scope
  simp only [without, get?]
  induction entries with
  | nil => rfl
  | cons b entries ih =>
    obtain ⟨u, w⟩ := b
    by_cases hu : u = s
    · have hut : ¬ u = t := fun hut => h (hut.symm.trans hu)
      rw [dropEntry, if_pos hu, valueOf?, if_neg hut, ih]
    · rw [dropEntry, if_neg hu, valueOf?, valueOf?, ih]

theorem without_put (h : t ≠ s) : (scope.put t v).without s = (scope.without s).put t v := by
  obtain ⟨entries⟩ := scope
  simp only [without, put, mk.injEq]
  induction entries with
  | nil => simp only [putEntry, dropEntry, if_neg h]
  | cons b entries ih =>
    obtain ⟨u, w⟩ := b
    by_cases hut : u = t
    · have hus : ¬ u = s := fun hus => h (hut.symm.trans hus)
      simp only [putEntry, dropEntry, if_pos hut, if_neg hus]
    · by_cases hus : u = s
      · simp only [putEntry, dropEntry, if_neg hut, if_pos hus, ih]
      · simp only [putEntry, dropEntry, if_neg hut, if_neg hus, ih]

theorem without_put_self (s : Symbol) : (scope.put s v).without s = scope.without s := by
  obtain ⟨entries⟩ := scope
  simp only [without, put, mk.injEq]
  induction entries with
  | nil => simp only [putEntry, dropEntry, ite_true]
  | cons b entries ih =>
    obtain ⟨u, w⟩ := b
    by_cases hus : u = s
    · simp only [putEntry, dropEntry, if_pos hus]
    · simp only [putEntry, dropEntry, if_neg hus, ih]

end Scope

namespace Environment

/-- Scopes, the topmost first, with a change of the one that has `k` of them below it. -/
def changeAbove (k : Nat) (f : Scope → Scope) : List Scope → List Scope
  | [] => []
  | scope :: below => (if below.length = k then f scope else scope) :: changeAbove k f below

/-- The environment with a change of scope `k`, where the global one is scope zero. -/
def changeAt (env : Environment) (k : Nat) (f : Scope → Scope) : Environment :=
  match k with
  | 0 => { env with global := f env.global }
  | k + 1 => { env with inner := changeAbove k f env.inner }

def bindAt (env : Environment) (k : Nat) (s : Symbol) (v : Value) : Environment :=
  env.changeAt k fun scope => scope.put s v

def unbindAt (env : Environment) (k : Nat) (s : Symbol) : Environment :=
  env.changeAt k fun scope => scope.without s

theorem length_changeAbove (k : Nat) (f : Scope → Scope) (scopes : List Scope) :
    (changeAbove k f scopes).length = scopes.length := by
  induction scopes with
  | nil => rfl
  | cons scope below ih => rw [changeAbove, List.length_cons, List.length_cons, ih]

/-- In the stack, the topmost scope first, exactly the scope with `k` others below it changes. -/
theorem getElem?_scopes_changeAt (env : Environment) (k : Nat) (f : Scope → Scope) (j : Nat) :
    (env.changeAt k f).scopes[j]?
      = (env.scopes[j]?).map fun scope => if j + k = env.depth then f scope else scope := by
  have habove : ∀ (k : Nat) (scopes : List Scope) (global : Scope) (j : Nat),
      (changeAbove k f scopes ++ [global])[j]? = ((scopes ++ [global])[j]?).map
        fun scope => if j + (k + 1) = scopes.length then f scope else scope := by
    intro k scopes global
    induction scopes with
    | nil =>
      intro j
      cases j with
      | zero => rfl
      | succ j => rfl
    | cons scope below ih =>
      intro j
      cases j with
      | zero =>
        have hk : 0 + (k + 1) = below.length + 1 ↔ below.length = k := by omega
        simp only [changeAbove, List.cons_append, List.getElem?_cons_zero, Option.map_some,
          List.length_cons, hk]
      | succ j =>
        have hj : j + 1 + (k + 1) = below.length + 1 ↔ j + (k + 1) = below.length := by omega
        simp only [changeAbove, List.cons_append, List.getElem?_cons_succ, ih, List.length_cons,
          hj]
  obtain ⟨inner, global⟩ := env
  cases k with
  | zero =>
    simp only [changeAt, scopes, depth]
    rcases Nat.lt_trichotomy j inner.length with hlt | heq | hgt
    · have hne : ¬ j + 0 = inner.length := by omega
      rw [List.getElem?_append_left hlt, List.getElem?_append_left hlt]
      simp only [hne, ite_false, Option.map_id']
    · subst heq
      simp only [List.getElem?_concat_length, Option.map_some, Nat.add_zero, ite_true]
    · rw [List.getElem?_eq_none (by rw [List.length_append, List.length_singleton]; omega),
        List.getElem?_eq_none (by rw [List.length_append, List.length_singleton]; omega)]
      rfl
  | succ k => exact habove k inner global j

theorem depth_changeAt (env : Environment) (k : Nat) (f : Scope → Scope) :
    (env.changeAt k f).depth = env.depth := by
  cases k with
  | zero => rfl
  | succ k => exact length_changeAbove k f env.inner

section

variable (env : Environment) (k : Nat) {f g : Scope → Scope}

theorem changeAt_changeAt : (env.changeAt k f).changeAt k g = env.changeAt k fun scope =>
    g (f scope) := by
  have habove : ∀ (k : Nat) (scopes : List Scope),
      changeAbove k g (changeAbove k f scopes)
        = changeAbove k (fun scope => g (f scope)) scopes := by
    intro k scopes
    induction scopes with
    | nil => rfl
    | cons scope below ih =>
      simp only [changeAbove, length_changeAbove, ih]
      split <;> rfl
  cases k with
  | zero => rfl
  | succ k => exact congrArg (Environment.mk · env.global) (habove k env.inner)

theorem resolve?_changeAt {t : Symbol} (h : ∀ scope : Scope, (f scope).get? t = scope.get? t) :
    (env.changeAt k f).resolve? t = env.resolve? t := by
  have habove : ∀ (k : Nat) (scopes : List Scope),
      (changeAbove k f scopes).findSome? (fun scope => scope.get? t)
        = scopes.findSome? fun scope => scope.get? t := by
    intro k scopes
    induction scopes with
    | nil => rfl
    | cons scope below ih =>
      have hhead : (if below.length = k then f scope else scope).get? t = scope.get? t := by
        split
        · exact h scope
        · rfl
      rw [changeAbove, List.findSome?_cons, List.findSome?_cons, ih, hhead]
  rw [resolve?, resolve?, scopes, scopes, List.findSome?_append, List.findSome?_append]
  cases k with
  | zero =>
    simp only [changeAt, List.findSome?_cons, h]
  | succ k =>
    simp only [changeAt, habove]

variable {t : Symbol} {w : Value}
  (hput : ∀ scope : Scope, f (scope.put t w) = (f scope).put t w)
include hput

theorem changeAt_define : (env.define t w).changeAt k f = (env.changeAt k f).define t w := by
  cases k with
  | zero => exact congrArg (Environment.mk env.inner) (hput env.global)
  | succ k => rfl

theorem changeAt_assign : (env.assign t w).changeAt k f = (env.changeAt k f).assign t w := by
  obtain ⟨inner, global⟩ := env
  cases inner with
  | nil =>
    cases k with
    | zero => exact congrArg (Environment.mk []) (hput global)
    | succ k => rfl
  | cons scope below =>
    cases k with
    | zero => rfl
    | succ k =>
      simp only [assign, changeAt, changeAbove, mk.injEq, List.cons.injEq, and_true]
      split
      · exact hput scope
      · rfl

end

theorem changeAt_push (env : Environment) (k : Nat) {f : Scope → Scope}
    (hempty : f Scope.empty = Scope.empty) : env.push.changeAt k f = (env.changeAt k f).push := by
  cases k with
  | zero => rfl
  | succ k => simp only [push, changeAt, changeAbove, hempty, ite_self]

theorem pop_changeAt (env : Environment) (k : Nat) (f : Scope → Scope) :
    (env.changeAt k f).pop = env.pop.map fun env => env.changeAt k f := by
  obtain ⟨inner, global⟩ := env
  cases inner <;> cases k <;> rfl

/-- What holds of every scope, and of a changed scope if it held before, holds after a change. -/
theorem forall_scopes_changeAt {env : Environment} {Q : Scope → Prop}
    (h : ∀ scope ∈ env.scopes, Q scope) (k : Nat) {f : Scope → Scope}
    (hf : ∀ scope, Q scope → Q (f scope)) : ∀ scope ∈ (env.changeAt k f).scopes, Q scope := by
  intro scope hscope
  obtain ⟨j, hj⟩ := List.mem_iff_getElem?.mp hscope
  rw [getElem?_scopes_changeAt] at hj
  obtain ⟨old, hold, rfl⟩ := Option.map_eq_some_iff.mp hj
  have hmem := h old (List.mem_of_getElem? hold)
  split
  · exact hf old hmem
  · exact hmem

theorem unbindAt_bindAt (env : Environment) (k : Nat) (s : Symbol) (v : Value) :
    (env.bindAt k s v).unbindAt k s = env.unbindAt k s := by
  rw [unbindAt, bindAt, changeAt_changeAt, unbindAt]
  simp only [Scope.without_put_self]

end Environment

/-- No other symbol notices that one is unbound in a scope. -/
def EnvView.unbinding (k : Nat) (s : Symbol) : EnvView (· ≠ s) where
  map env := env.unbindAt k s
  depth env := env.depth_changeAt k fun scope => scope.without s
  resolve env _ ht := env.resolve?_changeAt k fun scope => scope.get?_without ht
  define env _ w ht := env.changeAt_define k fun scope => scope.without_put w ht
  assign env _ w ht := env.changeAt_assign k fun scope => scope.without_put w ht
  push env := env.changeAt_push k rfl
  pop env := env.pop_changeAt k fun scope => scope.without s

/-- Bindings of fresh symbols are conservative: if a symbol occurs neither in a form nor in a value
that any scope binds to another symbol, then binding it in one of the scopes, or binding it anew,
changes neither the outcome of the form, whatever it is, nor what is counted and logged on the way;
and it changes the environment at most in what that scope binds the symbol to. -/
theorem fresh_bindings_conservative (ctx : Context) (fuel : Nat) {form : Value} {m : Machine}
    {s : Symbol} (hform : ¬ form.Mentions s)
    (henv : ∀ scope ∈ m.env.scopes, ∀ t w, t ≠ s → scope.get? t = some w → ¬ w.Mentions s)
    (k : Nat) (v : Value) :
    let plain := evaluate ctx fuel form m
    let bound := evaluate ctx fuel form { m with env := m.env.bindAt k s v }
    bound.1 = plain.1 ∧ bound.2.env.unbindAt k s = plain.2.env.unbindAt k s ∧
      bound.2.callDepth = plain.2.callDepth ∧ bound.2.log = plain.2.log := by
  have hne : ∀ {w : Value}, ¬ w.Mentions s → w.MadeOf (· ≠ s) := by
    rintro w hw t ht rfl
    exact hw ht
  have hplain : m.env.Binds (· ≠ s) (Value.MadeOf (· ≠ s)) :=
    fun scope hscope t w ht hget => hne (henv scope hscope t w ht hget)
  have hbound : (m.env.bindAt k s v).Binds (· ≠ s) (Value.MadeOf (· ≠ s)) :=
    Environment.forall_scopes_changeAt hplain k fun scope hscope =>
      Scope.binds_put hscope fun hs => absurd rfl hs
  let F := EnvView.unbinding k s
  obtain ⟨_, _, hleft⟩ := commutes_evaluate F ctx fuel (hne hform) m hplain
  obtain ⟨_, _, hright⟩ := commutes_evaluate F ctx fuel (hne hform)
    { m with env := m.env.bindAt k s v } hbound
  -- with the symbol unbound in scope `k` the two machines are the same
  have hview : Machine.view F { m with env := m.env.bindAt k s v } = m.view F :=
    congrArg (fun env => { m with env := env }) (m.env.unbindAt_bindAt k s v)
  rw [hview, hleft] at hright
  obtain ⟨houtcome, hmachine⟩ := Prod.mk.inj hright
  obtain ⟨henvs, hdepth, hlog⟩ := Machine.mk.inj hmachine
  exact ⟨houtcome.symm, henvs.symm, hdepth.symm, hlog.symm⟩

/-- A function whose body is the symbol `10`, which is bound as well. -/
def dynamicCall : Machine where
  env := (Environment.empty.define ⟨8⟩ (.procedure .function ⟨[], none⟩ [.symbol ⟨10⟩])).define ⟨10⟩
    (.bool true)
  callDepth := 0
  log := []

theorem fresh_bindings_conservative_call :
    (¬ (Value.list [.symbol ⟨8⟩]).Mentions ⟨9⟩ ∧
      ∀ scope ∈ dynamicCall.env.scopes, ∀ t w, t ≠ ⟨9⟩ → scope.get? t = some w →
        ¬ w.Mentions ⟨9⟩) ∧
    let ctx : Context := ⟨fun _ => none, 4, fun _ => true⟩
    let bound := { dynamicCall with env := dynamicCall.env.bindAt 0 ⟨9⟩ (.symbol ⟨8⟩) }
    (evaluate ctx 3 (.list [.symbol ⟨8⟩]) bound).1
        = (evaluate ctx 3 (.list [.symbol ⟨8⟩]) dynamicCall).1 ∧
      (evaluate ctx 3 (.list [.symbol ⟨8⟩]) bound).1 = .value (.bool true) := by
  have hform : ¬ (Value.list [.symbol ⟨8⟩]).Mentions ⟨9⟩ := by
    intro h
    cases h with
    | element hv h =>
      rw [List.mem_singleton.mp hv] at h
      cases h
  have henv : ∀ scope ∈ dynamicCall.env.scopes, ∀ t w, t ≠ ⟨9⟩ → scope.get? t = some w →
      ¬ w.Mentions ⟨9⟩ := by
    intro scope hscope t w _ hget h
    rw [List.mem_singleton.mp hscope] at hget
    change ((Scope.empty.put ⟨8⟩ _).put ⟨10⟩ _).get? t = some w at hget
    rw [Scope.get?_put, Scope.get?_put] at hget
    split at hget
    · cases hget
      cases h
    · split at hget
      · cases hget
        cases h with
        | parameter hp => rcases hp with hp | hp <;> cases hp
        | body hv h =>
          rw [List.mem_singleton.mp hv] at h
          cases h
      · cases hget
  have hsame := (fresh_bindings_conservative ⟨fun _ => none, 4, fun _ => true⟩ 3 hform henv 0
    (.symbol ⟨8⟩)).1
  exact ⟨⟨hform, henv⟩, hsame, rfl⟩

end MiniLisp
