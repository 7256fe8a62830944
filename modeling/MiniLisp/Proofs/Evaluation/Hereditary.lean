import MiniLisp.Evaluation

/-!
# Properties that lists share with their elements

A property of values that a list has exactly if all its elements have it passes through the native
functions and through the pairing of operands with parameters. Scopes that bind such values give
them back.
Main statement: `Hereditary.run`.
-/

namespace MiniLisp

theorem ok_of_map {r : Except EvalError α} {f : α → β} {b : β} (h : r.map f = .ok b) :
    ∃ a, r = .ok a ∧ f a = b := by
  cases r with
  | ok a =>
    cases h
    exact ⟨a, rfl, rfl⟩
  | error e => cases h

theorem ok_of_bind {r : Except EvalError α} {f : α → Except EvalError β} {b : β}
    (h : r.bind f = .ok b) : ∃ a, r = .ok a ∧ f a = .ok b := by
  cases r with
  | ok a => exact ⟨a, rfl, h⟩
  | error e => cases h

theorem ok_of_mapError {r : Except EvalError α} {f : EvalError → EvalError} {a : α}
    (h : r.mapError f = .ok a) : r = .ok a := by
  cases r with
  | ok a =>
    cases h
    rfl
  | error e => cases h

/-- Booleans and numbers have the property, and a list has it exactly if its elements have it. -/
structure Hereditary (Q : Value → Prop) : Prop where
  bool : ∀ b, Q (.bool b)
  number : ∀ x, Q (.number x)
  list : ∀ {vs}, Q (.list vs) ↔ ∀ v ∈ vs, Q v

namespace Hereditary

variable {Q : Value → Prop} (hQ : Hereditary Q)
include hQ

theorem nil : Q (.list []) := hQ.list.mpr fun _ hv => nomatch hv

theorem asList {v : Value} {vs : List Value} (hv : Q v) (h : v.asList = .ok vs) :
    ∀ w ∈ vs, Q w := by
  rw [Value.eq_list_of_asList h] at hv
  exact hQ.list.mp hv

theorem collect {vs : List Value} (hvs : ∀ v ∈ vs, Q v) {k : Int} {vss : List (List Value)}
    (h : collect Value.asList k vs = .ok vss) : ∀ w ∈ vss.flatten, Q w := by
  intro w hw
  obtain ⟨items, hitems, hmem⟩ := List.mem_flatten.mp hw
  rw [eq_map_of_collect Value.eq_list_of_asList h] at hvs
  exact hQ.list.mp (hvs _ (List.mem_map_of_mem hitems)) w hmem

theorem listAt {k : Int} {v : Value} {vs : List Value} (hv : Q v)
    (h : Native.listAt k v = .ok vs) : ∀ w ∈ vs, Q w :=
  hQ.asList hv (ok_of_mapError h)

theorem compare {v w u : Value} (h : Native.compare v w = .ok u) : Q u := by
  unfold Native.compare at h
  split at h
  · obtain ⟨y, _, rfl⟩ := ok_of_map h
    exact hQ.bool _
  · obtain ⟨t, _, rfl⟩ := ok_of_map h
    exact hQ.bool _
  · cases h

/-- A native function returns what it was given, a number or a boolean. -/
theorem run {n : Native} {args : List Value} (hargs : ∀ v ∈ args, Q v) {v : Value}
    (h : n.run args = .ok v) : Q v := by
  unfold Native.run at h
  split at h
  · obtain ⟨xs, _, rfl⟩ := ok_of_map h
    exact hQ.number _
  · obtain ⟨xs, _, rfl⟩ := ok_of_map h
    exact hQ.number _
  · obtain ⟨x, _, hrest⟩ := ok_of_bind h
    obtain ⟨xs, _, hdone⟩ := ok_of_bind hrest
    cases hdone
    exact hQ.number _
  · exact hQ.compare h
  · obtain ⟨vs, hvs, hfirst⟩ := ok_of_bind h
    have hitems := hQ.listAt (hargs _ List.mem_cons_self) hvs
    cases vs with
    | nil => cases hfirst
    | cons w ws =>
      cases hfirst
      exact hitems _ List.mem_cons_self
  · obtain ⟨vs, hvs, rfl⟩ := ok_of_map h
    have hitems := hQ.listAt (hargs _ List.mem_cons_self) hvs
    exact hQ.list.mpr fun w hw => hitems w (List.mem_of_mem_tail hw)
  · cases h
    exact hargs _ List.mem_cons_self
  · obtain ⟨vss, hvss, rfl⟩ := ok_of_map h
    have hitems := hQ.list.mp (hargs _ List.mem_cons_self)
    exact hQ.list.mpr (hQ.collect hitems hvss)
  · cases h
    exact hQ.bool _
  · cases h
    exact hQ.bool _
  · obtain ⟨vs, _, rfl⟩ := ok_of_map h
    exact hQ.number _
  · cases h

theorem pair {p : ParamList α} {args : List Value} (hargs : ∀ v ∈ args, Q v) :
    ∀ b ∈ p.pair args, Q b.2 := by
  intro b hb
  rcases List.mem_append.mp hb with hb | hb
  · exact hargs b.2 (List.of_mem_zip hb).2
  · cases hrest : p.rest with
    | none =>
      rw [hrest] at hb
      cases hb
    | some r =>
      rw [hrest] at hb
      rw [List.mem_singleton.mp hb]
      exact hQ.list.mpr fun v hv => hargs v (List.mem_of_mem_drop hv)

end Hereditary

section

variable (D : Symbol → Prop) (Q : Value → Prop)

/-- The values that the scope gives to the symbols of the domain have the property. -/
def Scope.Binds (scope : Scope) : Prop := ∀ s v, D s → scope.get? s = some v → Q v

def Environment.Binds (env : Environment) : Prop := ∀ scope ∈ env.scopes, scope.Binds D Q

end

variable {D : Symbol → Prop} {Q : Value → Prop}

namespace Scope

theorem binds_empty : empty.Binds D Q := fun _ _ _ hget => nomatch hget

theorem binds_put {scope : Scope} (h : scope.Binds D Q) {s : Symbol} {v : Value}
    (hv : D s → Q v) : (scope.put s v).Binds D Q := by
  intro t w ht hw
  rw [get?_put] at hw
  split at hw
  · rename_i hst
    cases hw
    exact hv (hst ▸ ht)
  · exact h t w ht hw

theorem binds_putAll {scope : Scope} (h : scope.Binds D Q) {bindings : List (Symbol × Value)}
    (hb : ∀ b ∈ bindings, D b.1 → Q b.2) : (scope.putAll bindings).Binds D Q := by
  induction bindings generalizing scope with
  | nil => exact h
  | cons b bindings ih =>
    rw [List.forall_mem_cons] at hb
    exact ih (binds_put h hb.1) hb.2

end Scope

namespace Environment

variable {env : Environment}

theorem binds_iff : env.Binds D Q ↔ (∀ scope ∈ env.inner, scope.Binds D Q) ∧
    env.global.Binds D Q := forall_scopes_iff

variable (h : env.Binds D Q)
include h

theorem Binds.resolve {s : Symbol} (hs : D s) : ∀ v ∈ env.resolve? s, Q v := by
  intro v hv
  obtain ⟨scope, hscope, hget⟩ := List.exists_of_findSome?_eq_some hv
  exact h scope hscope s v hs hget

theorem Binds.define (s : Symbol) {v : Value} (hv : Q v) : (env.define s v).Binds D Q :=
  forall_scopes_define h fun _ hscope => Scope.binds_put hscope fun _ => hv

theorem Binds.assign (s : Symbol) {v : Value} (hv : Q v) : (env.assign s v).Binds D Q :=
  forall_scopes_assign h fun _ hscope => Scope.binds_put hscope fun _ => hv

theorem Binds.enter {bindings : List (Symbol × Value)} (hb : ∀ b ∈ bindings, Q b.2) :
    (env.enter bindings).Binds D Q := by
  rw [enter_eq, binds_iff]
  rw [binds_iff] at h
  have hentered := Scope.binds_putAll (D := D) Scope.binds_empty fun b hmem _ => hb b hmem
  exact ⟨List.forall_mem_cons.mpr ⟨hentered, h.1⟩, h.2⟩

theorem Binds.pop {env' : Environment} (hpop : env.pop = .ok env') : env'.Binds D Q := by
  obtain ⟨inner, global⟩ := env
  cases inner with
  | nil => cases hpop
  | cons scope rest =>
    cases hpop
    exact (List.forall_mem_cons.mp h).2

end Environment

end MiniLisp
