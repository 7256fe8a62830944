import MiniLisp.Proofs.Evaluation.Hereditary
import MiniLisp.Evaluation

/-!
# Values without macros

A value is free of macros if nothing in it is one or could become one: no macro, no maker of
macros, and no symbol by which either could be named. A list is free of macros exactly if its
elements are, so native functions and scopes give back such values if they are given such values;
and a list of such values defines no macro.
Main statements: `hereditary_macroFree`, `Definition.macroFree_parse`.
-/

namespace MiniLisp

inductive Value.MacroFree : Value → Prop
  | bool (b : Bool) : MacroFree (.bool b)
  | number (x : Float) : MacroFree (.number x)
  | string (s : String) : MacroFree (.string s)
  | symbol (s : Symbol) (h : s ≠ Symbol.macroHead) : MacroFree (.symbol s)
  | list (items : List Value) (h : ∀ v ∈ items, MacroFree v) : MacroFree (.list items)
  | special (form : SpecialForm) (h : form ≠ .makeMacro) : MacroFree (.special form)
  | native (n : Native) : MacroFree (.native n)
  | function (params : ParamList Symbol) (body : List Value) (h : ∀ v ∈ body, MacroFree v) :
      MacroFree (.procedure .function params body)

theorem Value.MacroFree.items {items : List Value} (h : (Value.list items).MacroFree) :
    ∀ v ∈ items, v.MacroFree := by
  cases h with
  | list _ h => exact h

theorem macroFree_cons {v : Value} {vs : List Value} (hv : v.MacroFree)
    (hvs : ∀ w ∈ vs, w.MacroFree) : ∀ w ∈ v :: vs, w.MacroFree :=
  List.forall_mem_cons.mpr ⟨hv, hvs⟩

theorem hereditary_macroFree : Hereditary Value.MacroFree :=
  ⟨.bool, .number, fun {vs} => ⟨Value.MacroFree.items, Value.MacroFree.list vs⟩⟩

theorem Definition.kind_of_macroFree {head : Value} (h : head.MacroFree) {kind : ProcedureKind}
    (hkind : Definition.kindOf? head = some kind) : kind = .function := by
  cases h with
  | symbol s hs =>
    unfold kindOf? at hkind
    simp only [hs, ite_false] at hkind
    split at hkind
    · cases hkind
      rfl
    · cases hkind
  | _ => cases hkind

/-- A list that is applied as a definition defines a function. -/
theorem Definition.macroFree_parse {v : Value} {form : List Value} {d : Definition}
    (hv : v.MacroFree) (hform : Definition.form? v = some form)
    (h : Definition.parse form = .ok d) : d.kind = .function ∧ ∀ w ∈ d.body, w.MacroFree := by
  unfold form? at hform
  split at hform
  · rename_i head rest
    have hitems := hv.items
    rw [List.forall_mem_cons] at hitems
    split at hform
    · cases hform
      unfold parse at h
      split at h
      · rename_i params body heq
        cases heq
        split at h
        · cases h
        · rename_i kind hkind
          split at h
          · cases h
          · cases h
            refine ⟨?_, fun w hw => hitems.2 w (List.mem_cons_of_mem _ hw)⟩
            exact kind_of_macroFree hitems.1 hkind
      · cases h
    · cases hform
  · cases hform

/-- The scope binds values without macros, except to the symbol that heads their definitions. -/
def Scope.MacroFree (scope : Scope) : Prop :=
  ∀ s v, s ≠ Symbol.macroHead → scope.get? s = some v → v.MacroFree

def Environment.MacroFree (env : Environment) : Prop := ∀ scope ∈ env.scopes, scope.MacroFree

theorem Environment.macroFree_iff {env : Environment} : env.MacroFree ↔
    (∀ scope ∈ env.inner, scope.MacroFree) ∧ env.global.MacroFree := forall_scopes_iff

/-- The scopes bind values without macros to all other symbols. -/
theorem Environment.MacroFree.binds {env : Environment} (h : env.MacroFree) :
    env.Binds (· ≠ Symbol.macroHead) Value.MacroFree := h

end MiniLisp
