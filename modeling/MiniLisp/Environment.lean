import MiniLisp.Entries
import MiniLisp.EvalError

/-!
# Environments

An environment is a stack of scopes over a global one. A symbol has the value that the innermost
scope with a binding for it gives it. Definitions go to the global scope from anywhere, assignments
to the topmost scope alone. A scope keeps its bindings in the order in which the symbols were first
bound. Main statements: what a write does to the lookups in a scope, and what holds of every scope
before a write and of the written one after it.
-/

namespace MiniLisp

/-- The bindings of one scope, in order. -/
structure Scope where
  entries : List (Symbol × Value)

namespace Scope

def empty : Scope := ⟨[]⟩

instance : Inhabited Scope := ⟨empty⟩

def put (scope : Scope) (s : Symbol) (v : Value) : Scope := ⟨putEntry s v scope.entries⟩

def putAll (scope : Scope) (bindings : List (Symbol × Value)) : Scope :=
  bindings.foldl (fun scope b => scope.put b.1 b.2) scope

def get? (scope : Scope) (s : Symbol) : Option Value := valueOf? s scope.entries

theorem get?_put (scope : Scope) (s t : Symbol) (v : Value) :
    (scope.put s v).get? t = if s = t then some v else scope.get? t :=
  valueOf?_putEntry s t v scope.entries

theorem get?_empty (s : Symbol) : empty.get? s = none := rfl

end Scope

/-- The scopes above the global one, the topmost first, and the global one. -/
structure Environment where
  inner : List Scope
  global : Scope

namespace Environment

def empty : Environment := ⟨[], Scope.empty⟩

instance : Inhabited Environment := ⟨empty⟩

def depth (env : Environment) : Nat := env.inner.length

def scopes (env : Environment) : List Scope := env.inner ++ [env.global]

def top (env : Environment) : Scope := env.inner.head?.getD env.global

def push (env : Environment) : Environment := ⟨Scope.empty :: env.inner, env.global⟩

/-- Closes the topmost scope; the global one cannot be closed. -/
def pop (env : Environment) : Except EvalError Environment :=
  match env.inner with
  | [] => .error (EvalError.of (.internal .popGlobal))
  | _ :: rest => .ok ⟨rest, env.global⟩

def define (env : Environment) (s : Symbol) (v : Value) : Environment :=
  { env with global := env.global.put s v }

def update (env : Environment) (bindings : List (Symbol × Value)) : Environment :=
  { env with global := env.global.putAll bindings }

def assign (env : Environment) (s : Symbol) (v : Value) : Environment :=
  match env.inner with
  | [] => { env with global := env.global.put s v }
  | scope :: rest => { env with inner := scope.put s v :: rest }

/-- Opens a scope and binds symbols in it, in order. -/
def enter (env : Environment) (bindings : List (Symbol × Value)) : Environment :=
  bindings.foldl (fun env b => env.assign b.1 b.2) env.push

def resolve? (env : Environment) (s : Symbol) : Option Value :=
  env.scopes.findSome? fun scope => scope.get? s

section

variable {env : Environment} {Q : Scope → Prop}

theorem forall_scopes_iff :
    (∀ scope ∈ env.scopes, Q scope) ↔ (∀ scope ∈ env.inner, Q scope) ∧ Q env.global := by
  rw [scopes, List.forall_mem_append, List.forall_mem_singleton]

variable (h : ∀ scope ∈ env.scopes, Q scope)
include h

variable {s : Symbol} {v : Value} (hput : ∀ scope, Q scope → Q (scope.put s v))
include hput

theorem forall_scopes_define : ∀ scope ∈ (env.define s v).scopes, Q scope := by
  rw [forall_scopes_iff] at h ⊢
  exact ⟨h.1, hput _ h.2⟩

theorem forall_scopes_assign : ∀ scope ∈ (env.assign s v).scopes, Q scope := by
  obtain ⟨inner, global⟩ := env
  cases inner with
  | nil => exact forall_scopes_define h hput
  | cons scope rest =>
    obtain ⟨hscope, hrest⟩ := List.forall_mem_cons.mp h
    exact List.forall_mem_cons.mpr ⟨hput scope hscope, hrest⟩

end

theorem enter_eq (env : Environment) (bindings : List (Symbol × Value)) :
    env.enter bindings = ⟨Scope.empty.putAll bindings :: env.inner, env.global⟩ := by
  have key : ∀ (bs : List (Symbol × Value)) (scope : Scope),
      bs.foldl (fun env b => assign env b.1 b.2) ⟨scope :: env.inner, env.global⟩
        = ⟨scope.putAll bs :: env.inner, env.global⟩ := by
    intro bs
    induction bs with
    | nil => intro scope; rfl
    | cons b bs ih =>
      intro scope
      simp only [List.foldl_cons, assign, Scope.putAll]
      exact ih (scope.put b.1 b.2)
  exact key bindings Scope.empty

theorem pop_enter (env : Environment) (bindings : List (Symbol × Value)) :
    (env.enter bindings).pop = .ok env := by
  rw [enter_eq]
  rfl

end Environment

end MiniLisp
