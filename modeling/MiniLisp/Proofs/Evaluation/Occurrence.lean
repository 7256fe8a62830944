import MiniLisp.Proofs.Evaluation.Hereditary
import MiniLisp.Proofs.Evaluation.Renaming

/-!
# Occurrences of symbols

A symbol occurs in a value if the value is the symbol, or has it in an element or among the
parameters or in the body. A value is made of a set of symbols if no other symbols occur in it.
What is read off such a value, a parameter list or a definition, is made of the set as well; the
definition that a procedure was built from has the marks of every table in addition.
Main statements: `ParamList.madeOf_parseChild`, `Definition.madeOf_parse`, `Definition.madeOf_form`.
-/

namespace MiniLisp

def ParamList.Mentions (p : ParamList Symbol) (s : Symbol) : Prop :=
  s ∈ p.positional ∨ p.rest = some s

inductive Value.Mentions (s : Symbol) : Value → Prop
  | symbol : Mentions s (.symbol s)
  | element {items : List Value} {v : Value} (hv : v ∈ items) (h : Mentions s v) :
      Mentions s (.list items)
  | parameter {kind : ProcedureKind} {params : ParamList Symbol} {body : List Value}
      (h : params.Mentions s) : Mentions s (.procedure kind params body)
  | body {kind : ProcedureKind} {params : ParamList Symbol} {body : List Value} {v : Value}
      (hv : v ∈ body) (h : Mentions s v) : Mentions s (.procedure kind params body)

section

variable (P : Symbol → Prop)

def ParamList.MadeOf (p : ParamList Symbol) : Prop := ∀ s, p.Mentions s → P s

/-- Every symbol that occurs in the value is in the set. -/
def Value.MadeOf (v : Value) : Prop := ∀ s, v.Mentions s → P s

/-- The symbols of the set and those that every table starts with. -/
def OrReserved (s : Symbol) : Prop := P s ∨ s ∈ reservedSymbols

end

variable {P : Symbol → Prop}

namespace Value

theorem madeOf_symbol_iff {s : Symbol} : (symbol s).MadeOf P ↔ P s := by
  refine ⟨fun h => h s .symbol, fun hs t ht => ?_⟩
  cases ht
  exact hs

theorem madeOf_list_iff {items : List Value} :
    (list items).MadeOf P ↔ ∀ v ∈ items, v.MadeOf P := by
  refine ⟨fun h v hv s hs => h s (.element hv hs), fun h s hs => ?_⟩
  cases hs with
  | element hv hs => exact h _ hv s hs

theorem madeOf_procedure_iff {kind : ProcedureKind} {params : ParamList Symbol}
    {body : List Value} :
    (procedure kind params body).MadeOf P ↔ params.MadeOf P ∧ ∀ v ∈ body, v.MadeOf P := by
  constructor
  · intro h
    exact ⟨fun s hs => h s (.parameter hs), fun v hv s hs => h s (.body hv hs)⟩
  · rintro ⟨hparams, hbody⟩ s hs
    cases hs with
    | parameter hs => exact hparams s hs
    | body hv hs => exact hbody _ hv s hs

theorem MadeOf.mono {Q : Symbol → Prop} {v : Value} (h : v.MadeOf P) (hPQ : ∀ s, P s → Q s) :
    v.MadeOf Q := fun s hs => hPQ s (h s hs)

theorem MadeOf.orReserved {v : Value} (h : v.MadeOf P) : v.MadeOf (OrReserved P) :=
  h.mono fun _ => .inl

theorem MadeOf.wrapped {mark : Symbol} {v w : Value} (h : v.MadeOf P)
    (hw : v.wrapped? mark = some w) : w.MadeOf P := by
  unfold wrapped? at hw
  split at hw
  · split at hw
    · cases hw
      exact madeOf_list_iff.mp h _ (List.mem_cons_of_mem _ List.mem_cons_self)
    · cases hw
  · cases hw

end Value

theorem hereditary_madeOf : Hereditary (Value.MadeOf P) :=
  ⟨fun _ _ hs => (nomatch hs), fun _ _ hs => (nomatch hs), Value.madeOf_list_iff⟩

namespace ParamList

theorem madeOf_iff {p : ParamList Symbol} :
    p.MadeOf P ↔ (∀ s ∈ p.positional, P s) ∧ ∀ r ∈ p.rest, P r := by
  constructor
  · intro h
    exact ⟨fun s hs => h s (.inl hs), fun r hr => h r (.inr hr)⟩
  · rintro ⟨hpositional, hrest⟩ s (hs | hs)
    · exact hpositional s hs
    · exact hrest s hs

theorem madeOf_ofSymbols {ss : List Symbol} {p : ParamList Symbol} (h : ofSymbols ss = .ok p)
    (hss : ∀ s ∈ ss, P s) : p.MadeOf P := by
  have hdrop : ∀ s ∈ ss.dropWhile (fun s => decide (s ≠ Symbol.rest)), P s := fun s hs =>
    hss s ((List.dropWhile_suffix _).subset hs)
  unfold ofSymbols at h
  simp only at h
  split at h
  · cases h
    exact madeOf_iff.mpr ⟨hss, fun r hr => nomatch hr⟩
  · rename_i mark r heq
    cases h
    rw [heq] at hdrop
    refine madeOf_iff.mpr ⟨fun s hs => hss s (List.takeWhile_subset _ hs), fun t ht => ?_⟩
    cases ht
    exact hdrop _ (List.mem_cons_of_mem _ List.mem_cons_self)
  · cases h

theorem madeOf_parseChild {i : Int} {v : Value} {p : ParamList Symbol} (hv : v.MadeOf P)
    (h : parseChild i v = .ok p) : p.MadeOf P := by
  unfold parseChild at h
  split at h
  · cases h
  · rename_i q hq
    cases h
    obtain ⟨vs, hvs, hparse⟩ := ok_of_bind hq
    have hitems := hereditary_madeOf.asList hv hvs
    unfold parse at hparse
    split at hparse
    · cases hparse
    · rename_i ss hss
      refine madeOf_ofSymbols hparse fun s hs => ?_
      rw [eq_map_of_collect Value.eq_symbol_of_asSymbol hss] at hitems
      exact Value.madeOf_symbol_iff.mp (hitems _ (List.mem_map_of_mem hs))

theorem MadeOf.symbols {p : ParamList Symbol} (h : p.MadeOf P) :
    ∀ s ∈ p.symbols, OrReserved P s := by
  obtain ⟨hpositional, hrest⟩ := madeOf_iff.mp h
  obtain ⟨positional, rest⟩ := p
  intro s hs
  rcases List.mem_append.mp hs with hs | hs
  · exact .inl (hpositional s hs)
  · cases rest with
    | none => cases hs
    | some r =>
      rcases List.mem_cons.mp hs with rfl | hs
      · exact .inr (by decide)
      · rw [List.mem_singleton.mp hs]
        exact .inl (hrest r rfl)

end ParamList

namespace Definition

/-- A value that is applied as a definition defines a procedure made of its symbols. -/
theorem madeOf_parse {v : Value} {form : List Value} {d : Definition} (hv : v.MadeOf P)
    (hform : form? v = some form) (h : parse form = .ok d) :
    d.params.MadeOf P ∧ ∀ w ∈ d.body, w.MadeOf P := by
  unfold form? at hform
  split at hform
  · rename_i head rest
    have hitems := Value.madeOf_list_iff.mp hv
    split at hform
    · cases hform
      unfold parse at h
      split at h
      · rename_i params body heq
        cases heq
        rw [List.forall_mem_cons, List.forall_mem_cons] at hitems
        split at h
        · cases h
        · split at h
          · cases h
          · rename_i p hp
            cases h
            exact ⟨ParamList.madeOf_parseChild hitems.2.1 hp, hitems.2.2⟩
      · cases h
    · cases hform
  · cases hform

theorem madeOf_form {kind : ProcedureKind} {params : ParamList Symbol} {body : List Value}
    (hparams : params.MadeOf P) (hbody : ∀ v ∈ body, v.MadeOf P) :
    (Value.list (Value.definition kind params body)).MadeOf (OrReserved P) := by
  have hhead : kind.head ∈ reservedSymbols := by cases kind <;> decide
  refine Value.madeOf_list_iff.mpr (List.forall_mem_cons.mpr
    ⟨Value.madeOf_symbol_iff.mpr (.inr hhead), List.forall_mem_cons.mpr ⟨?_, ?_⟩⟩)
  · refine Value.madeOf_list_iff.mpr fun v hv => ?_
    obtain ⟨s, hs, rfl⟩ := List.mem_map.mp hv
    exact Value.madeOf_symbol_iff.mpr (hparams.symbols s hs)
  · exact fun v hv => (hbody v hv).orReserved

end Definition

end MiniLisp
