import Mathlib.Data.List.Basic
import MiniLisp.Proofs.Evaluation.Parameters
import MiniLisp.Proofs.Evaluation.Trail

/-!
# Where faults are placed

What is checked without evaluating anything places its faults itself: a parameter that is no symbol,
a rest mark out of place, a definition that is too short, an operand of a kind that a native
function does not accept. Each of these places is a part of the form at hand, and it is the one that
the cause speaks of.
-/

namespace MiniLisp

variable {ctx : Context} {full : Value → Prop}

namespace ParamList

theorem parse_located {vs : List Value} {e : EvalError} (h : parse vs = .error e) :
    e.Located ctx full (.list vs) := by
  unfold parse at h
  split at h
  · rename_i e' he'
    cases h
    obtain ⟨j, hj, e'', hf, _, rfl⟩ := collect_error he'
    rw [Value.asSymbol_error hf]
    have hc : (Value.list vs).child? (0 + j) = some vs[j] := by
      rw [Int.zero_add, Value.child?_natCast, List.getElem?_eq_getElem hj]
    exact (EvalError.located_fault _ _).within hc
  · rename_i ss hss
    obtain ⟨j, hj, _, rfl⟩ := ofSymbols_error h
    have hc : (Value.list vs).child? j = some (.symbol Symbol.rest) := by
      rw [eq_map_of_collect Value.eq_symbol_of_asSymbol hss, Value.child?_natCast,
        List.getElem?_map,
        hj]
      rfl
    have hrest : (EvalError.of (.badDefinition .misplacedRest)).Located ctx full
        (.symbol Symbol.rest) := EvalError.located_of ⟨rfl, rfl⟩
    exact hrest.within hc

theorem parseChild_located {form v : Value} {i : Int} (hc : form.child? i = some v)
    {e : EvalError} (h : parseChild i v = .error e) : e.Located ctx full form := by
  unfold parseChild at h
  split at h
  · rename_i e' he'
    cases h
    refine EvalError.Located.within ?_ hc
    cases hv : v.asList with
    | error e =>
      rw [hv] at he'
      cases he'
      rw [Value.asList_error hv]
      exact EvalError.located_fault _ _
    | ok vs =>
      rw [hv] at he'
      rw [Value.eq_list_of_asList hv]
      exact parse_located he'
  · cases h

end ParamList

namespace Definition

theorem form?_eq_some {v : Value} {form : List Value} (h : form? v = some form) :
    ∃ head rest, form = head :: rest ∧ v = .list (head :: rest) ∧ (kindOf? head).isSome := by
  unfold form? at h
  split at h
  · rename_i head rest
    split at h
    · rename_i hkind
      cases h
      exact ⟨head, rest, rfl, rfl, hkind⟩
    · cases h
  · cases h

/-- What goes wrong in a list that is headed like a definition is its length or its parameters. -/
theorem parse_located {v : Value} {form : List Value} {e : EvalError} (hv : form? v = some form)
    (h : parse form = .error e) : e.Located ctx full v := by
  obtain ⟨head, rest, rfl, rfl, hkind⟩ := form?_eq_some hv
  cases rest with
  | nil =>
    cases h
    exact EvalError.located_of ⟨rfl, [head], rfl, .inl rfl⟩
  | cons params body =>
    simp only [parse] at h
    split at h
    · rename_i hnone
      rw [hnone] at hkind
      cases hkind
    · split at h
      · rename_i e' he'
        cases h
        exact ParamList.parseChild_located rfl he'
      · cases h

end Definition

theorem requireArity_located {rule : ArityRule} {expected : Nat} {head : Value}
    {operands : List Value} {description : String} {e : EvalError}
    (h : requireArity rule expected operands.length description = .error e) :
    e.Located ctx full (.list (head :: operands)) := by
  unfold requireArity at h
  split at h
  · cases h
  · rename_i hfit
    cases h
    exact EvalError.located_of ⟨eq_false_of_ne_true hfit, _, rfl, .inr rfl⟩

theorem requireArity_admits {rule : ArityRule} {expected actual : Nat} {description : String}
    {u : Unit} (h : requireArity rule expected actual description = .ok u) :
    rule.admits expected actual := by
  unfold requireArity at h
  split at h
  · assumption
  · cases h

theorem located_operand {head : Value} {operands : List Value} (fault : TypeFault) {k : Int}
    {j : Nat} (hk : k = 1 + j) (hj : j < operands.length) :
    ((EvalError.of (.typeFault fault)).within k).Located ctx full (.list (head :: operands)) := by
  subst hk
  exact (EvalError.located_fault _ fault).within
    ((Value.childrenFrom_operands head operands).child j hj)

namespace Native

variable {head : Value} {operands : List Value} {e : EvalError}

theorem kind_located {r : Except EvalError α} {fault : TypeFault}
    (hr : ∀ {e}, r = .error e → e = EvalError.of (.typeFault fault)) {k : Int} {j : Nat}
    (hk : k = 1 + j) (hj : j < operands.length)
    (h : r.mapError (EvalError.within k) = .error e) :
    e.Located ctx full (.list (head :: operands)) := by
  cases r with
  | ok a => cases h
  | error e' =>
    rw [hr rfl] at h
    cases h
    exact located_operand fault hk hj

theorem listAt_located {v : Value} {k : Int} {j : Nat} (hk : k = 1 + j)
    (hj : j < operands.length) (h : listAt k v = .error e) :
    e.Located ctx full (.list (head :: operands)) :=
  kind_located Value.asList_error hk hj h

theorem numberAt_located {v : Value} {k : Int} {j : Nat} (hk : k = 1 + j)
    (hj : j < operands.length) (h : numberAt k v = .error e) :
    e.Located ctx full (.list (head :: operands)) :=
  kind_located Value.asNumber_error hk hj h

theorem collect_located {f : Value → Except EvalError α} {fault : TypeFault}
    (hf : ∀ {v e}, f v = .error e → e = EvalError.of (.typeFault fault)) {k : Int} {i : Nat}
    {vs : List Value} (hk : k = 1 + i) (hlen : i + vs.length ≤ operands.length)
    (h : collect f k vs = .error e) : e.Located ctx full (.list (head :: operands)) := by
  obtain ⟨j, hj, e', he', _, rfl⟩ := collect_error h
  rw [hf he']
  have hkj : k + (j : Int) = 1 + ((i + j : Nat) : Int) := by omega
  exact located_operand fault hkj (by omega)

theorem error_of_map {r : Except EvalError α} {f : α → β} (h : r.map f = .error e) :
    r = .error e := by
  cases r with
  | ok a => cases h
  | error e' =>
    cases h
    rfl

theorem error_of_bind {r : Except EvalError α} {f : α → Except EvalError β}
    (h : r.bind f = .error e) : r = .error e ∨ ∃ a, r = .ok a ∧ f a = .error e := by
  cases r with
  | ok a => exact .inr ⟨a, rfl, h⟩
  | error e' =>
    cases h
    exact .inl rfl

theorem compare_located {v w : Value} (hlen : 2 ≤ operands.length)
    (h : compare v w = .error e) : e.Located ctx full (.list (head :: operands)) := by
  cases v with
  | number x =>
    have hw : numberAt 2 w = .error e := error_of_map h
    exact numberAt_located (j := 1) rfl hlen hw
  | symbol s =>
    have hw : w.asSymbol.mapError (EvalError.within 2) = .error e := error_of_map h
    exact kind_located Value.asSymbol_error (j := 1) rfl hlen hw
  | _ =>
    cases h
    exact located_operand .incomparable (j := 0) rfl (by omega)

theorem subtract_located {v : Value} {vs : List Value} (hlen : vs.length + 1 ≤ operands.length)
    (h : run .subtract [v, .list vs] = .error e) :
    e.Located ctx full (.list (head :: operands)) := by
  rcases error_of_bind h with hv | ⟨x, _, hrest⟩
  · exact numberAt_located (j := 0) rfl (by omega) hv
  · rcases error_of_bind hrest with hc | ⟨xs, _, hdone⟩
    · exact collect_located Value.asNumber_error (i := 1) rfl (by omega) hc
    · cases hdone

theorem first_located {v : Value} (hlen : 0 < operands.length)
    (h : run .first [v] = .error e) : e.Located ctx full (.list (head :: operands)) := by
  rcases error_of_bind h with hv | ⟨vs, _, hfirst⟩
  · exact listAt_located (j := 0) rfl hlen hv
  · cases vs with
    | nil =>
      cases hfirst
      exact located_operand .firstOfEmpty (j := 0) rfl hlen
    | cons w ws => cases hfirst

theorem one_argument {args : List Value} (hfit : ArityRule.exactly.admits 1 args.length = true) :
    ∃ v, args = [v] :=
  List.length_eq_one_iff.mp (of_decide_eq_true hfit)

/-- Bound arguments have the shape that the function expects, and an argument that it does not
accept is placed at its operand. -/
theorem run_located (n : Native) {args : List Value}
    (hfit : n.params.arityRule.admits n.params.positional.length args.length = true)
    (hlen : args.length = operands.length)
    (h : n.run ((n.params.pair args).map Prod.snd) = .error e) :
    e.Located ctx full (.list (head :: operands)) := by
  cases n with
  | add =>
    have hc : collect Value.asNumber 1 args = .error e := error_of_map h
    exact collect_located Value.asNumber_error (i := 0) rfl (by omega) hc
  | multiply =>
    have hc : collect Value.asNumber 1 args = .error e := error_of_map h
    exact collect_located Value.asNumber_error (i := 0) rfl (by omega) hc
  | subtract =>
    cases args with
    | nil => cases hfit
    | cons v vs => exact subtract_located (Nat.le_of_eq hlen) h
  | equal =>
    obtain ⟨v, w, rfl⟩ := List.length_eq_two.mp (of_decide_eq_true hfit)
    exact compare_located (Nat.le_of_eq hlen) h
  | first =>
    obtain ⟨v, rfl⟩ := one_argument hfit
    exact first_located (by rw [← hlen]; exact Nat.one_pos) h
  | rest =>
    obtain ⟨v, rfl⟩ := one_argument hfit
    have hv : listAt 1 v = .error e := error_of_map h
    exact listAt_located (j := 0) rfl (by rw [← hlen]; exact Nat.one_pos) hv
  | list => cases h
  | concat =>
    have hc : collect Value.asList 1 args = .error e := error_of_map h
    exact collect_located Value.asList_error (i := 0) rfl (by omega) hc
  | isList =>
    obtain ⟨v, rfl⟩ := one_argument hfit
    cases v <;> cases h
  | length =>
    obtain ⟨v, rfl⟩ := one_argument hfit
    have hv : listAt 1 v = .error e := error_of_map h
    exact listAt_located (j := 0) rfl (by rw [← hlen]; exact Nat.one_pos) hv

end Native

end MiniLisp
