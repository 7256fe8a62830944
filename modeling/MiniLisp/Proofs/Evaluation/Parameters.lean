import Mathlib.Data.List.TakeWhile
import MiniLisp.Evaluation.Binding

/-!
# Written parameter lists

A list is a written parameter list exactly if it is how a parameter list is written whose positional
parameters are not the rest mark. Such a parameter list and its written form determine each other.
What stops a list from being one is its first element that is no symbol or, if all are symbols, its
first rest mark.
Main statements: `ParamList.parse_eq_ok_iff` and `ParamList.written_parameters_round_trip`.
-/

namespace MiniLisp

def Value.IsSymbol (v : Value) : Prop := ∃ s, v = .symbol s

/-- The element at place `k` has the property, and none before it has. -/
def FirstAt (P : Value → Prop) (vs : List Value) (k : Nat) : Prop :=
  (∃ v, vs[k]? = some v ∧ P v) ∧ ∀ v ∈ vs.take k, ¬ P v

theorem forall_isSymbol_iff {vs : List Value} :
    (∀ v ∈ vs, v.IsSymbol) ↔ ∃ ss, vs = Value.ofSymbols ss := by
  constructor
  · intro h
    induction vs with
    | nil => exact ⟨[], rfl⟩
    | cons v vs ih =>
      obtain ⟨⟨s, rfl⟩, hvs⟩ := List.forall_mem_cons.mp h
      obtain ⟨ss, rfl⟩ := ih hvs
      exact ⟨s :: ss, rfl⟩
  · rintro ⟨ss, rfl⟩ v hv
    obtain ⟨s, _, rfl⟩ := List.mem_map.mp hv
    exact ⟨s, rfl⟩

theorem symbol_mem_ofSymbols {s : Symbol} {ss : List Symbol} :
    .symbol s ∈ Value.ofSymbols ss ↔ s ∈ ss := by
  simp [Value.ofSymbols]

theorem firstAt_ofSymbols {s : Symbol} {ss : List Symbol} {k : Nat} :
    FirstAt (· = .symbol s) (Value.ofSymbols ss) k ↔ ss[k]? = some s ∧ s ∉ ss.take k := by
  have htake : (Value.ofSymbols ss).take k = Value.ofSymbols (ss.take k) := List.map_take.symm
  constructor
  · rintro ⟨⟨v, hv, rfl⟩, hbefore⟩
    rw [Value.ofSymbols, List.getElem?_map, Option.map_eq_some_iff] at hv
    obtain ⟨t, ht, hts⟩ := hv
    cases hts
    rw [htake] at hbefore
    exact ⟨ht, fun hmem => hbefore _ (symbol_mem_ofSymbols.mpr hmem) rfl⟩
  · rintro ⟨hk, hbefore⟩
    refine ⟨⟨.symbol s, by rw [Value.ofSymbols, List.getElem?_map, hk]; rfl, rfl⟩, ?_⟩
    rintro v hv rfl
    rw [htake, symbol_mem_ofSymbols] at hv
    exact hbefore hv

namespace ParamList

theorem rest_notMem_takeWhile (ss : List Symbol) :
    Symbol.rest ∉ ss.takeWhile fun s => decide (s ≠ Symbol.rest) := by
  intro h
  have hne := List.mem_takeWhile_imp h
  simp at hne

/-- What stops the search for the rest mark is the rest mark. -/
theorem eq_rest_of_dropWhile {ss more : List Symbol} {s : Symbol}
    (h : (ss.dropWhile fun s => decide (s ≠ Symbol.rest)) = s :: more) : s = Symbol.rest := by
  have hstops := List.head?_dropWhile_not (fun s => decide (s ≠ Symbol.rest)) ss
  rw [h] at hstops
  simpa using hstops

theorem symbols_of_ofSymbols {ss : List Symbol} {p : ParamList Symbol}
    (h : ofSymbols ss = .ok p) : ss = p.symbols ∧ Symbol.rest ∉ p.positional := by
  have hsplit := List.takeWhile_append_dropWhile (p := fun s => decide (s ≠ Symbol.rest)) (l := ss)
  have hfront := rest_notMem_takeWhile ss
  simp only [ofSymbols] at h
  split at h
  · rename_i hnone
    cases h
    rw [hnone, List.append_nil] at hsplit
    rw [hsplit] at hfront
    exact ⟨(List.append_nil ss).symm, hfront⟩
  · rename_i s r hrest
    cases h
    rw [hrest, eq_rest_of_dropWhile hrest] at hsplit
    exact ⟨hsplit.symm, hfront⟩
  · cases h

/-- A rest mark out of place is the first rest mark. -/
theorem ofSymbols_error {ss : List Symbol} {e : EvalError} (h : ofSymbols ss = .error e) :
    ∃ j : Nat, ss[j]? = some Symbol.rest ∧ Symbol.rest ∉ ss.take j ∧
      e = (EvalError.of (.badDefinition .misplacedRest)).within j := by
  have hsplit := List.takeWhile_append_dropWhile (p := fun s => decide (s ≠ Symbol.rest)) (l := ss)
  have hfront := rest_notMem_takeWhile ss
  simp only [ofSymbols] at h
  split at h
  · cases h
  · cases h
  · rename_i hne _
    cases h
    obtain ⟨s, more, hrest⟩ := List.exists_cons_of_ne_nil hne
    rw [hrest, eq_rest_of_dropWhile hrest] at hsplit
    generalize ss.takeWhile (fun s => decide (s ≠ Symbol.rest)) = positional at hsplit hfront ⊢
    refine ⟨positional.length, ?_, ?_, rfl⟩
    · rw [← hsplit, List.getElem?_append_right (Nat.le_refl _), Nat.sub_self,
        List.getElem?_cons_zero]
    · rw [← hsplit, List.take_left]
      exact hfront

theorem ofSymbols_symbols {p : ParamList Symbol} (h : Symbol.rest ∉ p.positional) :
    ofSymbols p.symbols = .ok p := by
  obtain ⟨positional, rest⟩ := p
  have hall : ∀ s ∈ positional, decide (s ≠ Symbol.rest) = true := by
    intro s hs
    apply decide_eq_true
    rintro rfl
    exact h hs
  cases rest with
  | none =>
    have hnone : (positional.dropWhile fun s => decide (s ≠ Symbol.rest)) = [] :=
      List.dropWhile_eq_nil_iff.mpr hall
    simp only [ofSymbols, symbols, List.append_nil, hnone]
  | some r =>
    have hmark : decide (Symbol.rest ≠ Symbol.rest) = false := by decide
    simp only [ofSymbols, symbols, List.takeWhile_append_of_pos hall,
      List.dropWhile_append_of_pos hall, List.takeWhile_cons, List.dropWhile_cons, hmark,
      Bool.false_eq_true, ite_false, List.append_nil]

theorem collect_ofSymbols (k : Int) (ss : List Symbol) :
    collect Value.asSymbol k (Value.ofSymbols ss) = .ok ss := by
  apply collect_map
  intro s
  rfl

/-- A list is parsed as the parameter list that is written so, if one is. -/
theorem parse_eq_ok_iff {vs : List Value} {p : ParamList Symbol} :
    parse vs = .ok p ↔ vs = p.toForm ∧ Symbol.rest ∉ p.positional := by
  constructor
  · intro h
    unfold parse at h
    split at h
    · cases h
    · rename_i ss hss
      obtain ⟨rfl, hpositional⟩ := symbols_of_ofSymbols h
      exact ⟨eq_map_of_collect Value.eq_symbol_of_asSymbol hss, hpositional⟩
  · rintro ⟨rfl, h⟩
    rw [parse, toForm, collect_ofSymbols]
    exact ofSymbols_symbols h

theorem parseChild_eq_ok_iff {i : Int} {v : Value} {p : ParamList Symbol} :
    parseChild i v = .ok p ↔ v = .list p.toForm ∧ Symbol.rest ∉ p.positional := by
  unfold parseChild
  cases v with
  | list vs =>
    rw [Value.list.injEq, ← parse_eq_ok_iff]
    cases hparse : parse vs with
    | error e => simp only [Value.asList, Except.bind, hparse, reduceCtorEq]
    | ok q => simp only [Value.asList, Except.bind, hparse]
  | _ => simp only [Value.asList, Except.bind, reduceCtorEq, false_and]

/-- The list consists of symbols, and its first rest mark is followed by exactly one, if it has
one. -/
def IsWritten (vs : List Value) : Prop :=
  (∀ v ∈ vs, v.IsSymbol) ∧
    (.symbol Symbol.rest ∉ vs ∨ ∃ k, FirstAt (· = .symbol Symbol.rest) vs k ∧ k + 2 = vs.length)

theorem isWritten_toForm {p : ParamList Symbol} (h : Symbol.rest ∉ p.positional) :
    IsWritten p.toForm := by
  refine ⟨forall_isSymbol_iff.mpr ⟨_, rfl⟩, ?_⟩
  obtain ⟨positional, rest⟩ := p
  cases rest with
  | none =>
    left
    rw [toForm, symbol_mem_ofSymbols, symbols, List.append_nil]
    exact h
  | some r =>
    right
    refine ⟨positional.length, ?_, ?_⟩
    · rw [toForm, firstAt_ofSymbols, symbols, List.take_left,
        List.getElem?_append_right (Nat.le_refl _), Nat.sub_self]
      exact ⟨rfl, h⟩
    · rw [toForm, Value.ofSymbols, List.length_map, symbols, List.length_append]
      rfl

theorem exists_toForm_of_isWritten {vs : List Value} (h : IsWritten vs) :
    ∃ p : ParamList Symbol, vs = p.toForm ∧ Symbol.rest ∉ p.positional := by
  obtain ⟨hsymbols, hrest⟩ := h
  obtain ⟨ss, rfl⟩ := forall_isSymbol_iff.mp hsymbols
  rcases hrest with hnone | ⟨k, hfirst, hlen⟩
  · rw [symbol_mem_ofSymbols] at hnone
    exact ⟨⟨ss, none⟩, by rw [toForm, symbols, List.append_nil], hnone⟩
  · obtain ⟨hk, hbefore⟩ := firstAt_ofSymbols.mp hfirst
    rw [Value.ofSymbols, List.length_map] at hlen
    have hdrop : ss.drop k = Symbol.rest :: ss.drop (k + 1) := by
      rw [← List.getElem?_eq_some_iff.mp hk |>.2]
      exact List.drop_eq_getElem_cons (by omega)
    have hlast : (ss.drop (k + 1)).length = 1 := by
      rw [List.length_drop]
      omega
    obtain ⟨r, hr⟩ := List.length_eq_one_iff.mp hlast
    refine ⟨⟨ss.take k, some r⟩, ?_, hbefore⟩
    show Value.ofSymbols ss = Value.ofSymbols (ss.take k ++ Symbol.rest :: [r])
    rw [← hr, ← hdrop, List.take_append_drop]

theorem parse_error {vs : List Value} {e : EvalError} (h : parse vs = .error e) :
    (∃ k : Nat, FirstAt (fun v => ¬ v.IsSymbol) vs k ∧
      e = (EvalError.of (.typeFault .expectedSymbol)).within k) ∨
    ((∀ v ∈ vs, v.IsSymbol) ∧ ∃ k : Nat, FirstAt (· = .symbol Symbol.rest) vs k ∧
      e = (EvalError.of (.badDefinition .misplacedRest)).within k) := by
  unfold parse at h
  split at h
  · rename_i e' he'
    cases h
    obtain ⟨k, hk, e'', hkind, hbefore, rfl⟩ := collect_error he'
    rw [Value.asSymbol_error hkind, Int.zero_add]
    refine .inl ⟨k, ⟨⟨vs[k], List.getElem?_eq_getElem hk, ?_⟩, fun v hv hnot => ?_⟩, rfl⟩
    · rintro ⟨s, hs⟩
      rw [hs] at hkind
      cases hkind
    · obtain ⟨s, hs⟩ := hbefore v hv
      exact hnot ⟨s, Value.eq_symbol_of_asSymbol hs⟩
  · rename_i ss hss
    obtain ⟨k, hk, hbefore, rfl⟩ := ofSymbols_error h
    have hvs : vs = Value.ofSymbols ss := eq_map_of_collect Value.eq_symbol_of_asSymbol hss
    refine .inr ⟨forall_isSymbol_iff.mpr ⟨ss, hvs⟩, k, ?_, rfl⟩
    rw [hvs]
    exact firstAt_ofSymbols.mpr ⟨hk, hbefore⟩

/-- Parameter lists are parsed and written back exactly. A list is parsed exactly if it consists of
symbols and has no rest mark or its first one is second to last. What is parsed is written as the
list again, and what is written of parameters without a positional rest mark is parsed as these. A
list that is not parsed fails at its first element that is no symbol, and if all are symbols at the
first rest mark. -/
theorem written_parameters_round_trip :
    (∀ vs, (∃ p, parse vs = .ok p) ↔ IsWritten vs) ∧
    (∀ vs p, parse vs = .ok p → p.toForm = vs) ∧
    (∀ p : ParamList Symbol, Symbol.rest ∉ p.positional → parse p.toForm = .ok p) ∧
    (∀ vs e, parse vs = .error e →
      (∃ k : Nat, FirstAt (fun v => ¬ v.IsSymbol) vs k ∧
        e = ⟨.typeFault .expectedSymbol, [(k : Int)], []⟩) ∨
      ((∀ v ∈ vs, v.IsSymbol) ∧ ∃ k : Nat, FirstAt (· = .symbol Symbol.rest) vs k ∧
        e = ⟨.badDefinition .misplacedRest, [(k : Int)], []⟩)) := by
  refine ⟨fun vs => ⟨?_, ?_⟩, ?_, ?_, fun vs e => parse_error⟩
  · rintro ⟨p, hp⟩
    obtain ⟨rfl, hpositional⟩ := parse_eq_ok_iff.mp hp
    exact isWritten_toForm hpositional
  · intro h
    obtain ⟨p, hp⟩ := exists_toForm_of_isWritten h
    exact ⟨p, parse_eq_ok_iff.mpr hp⟩
  · intro vs p hp
    exact (parse_eq_ok_iff.mp hp).1.symm
  · intro p hp
    exact parse_eq_ok_iff.mpr ⟨rfl, hp⟩

/-- In `(a &rest &rest)` the first mark counts, and the second is the name of the rest parameter.
`(&rest a #t)` fails at `#t`, although its mark is out of place as well. -/
theorem written_parameters_round_trip_twoMarks :
    (∃ p : ParamList Symbol, Symbol.rest ∉ p.positional ∧ p.rest = some Symbol.rest ∧
      parse p.toForm = .ok p ∧ IsWritten p.toForm ∧
      p.toForm = [.symbol ⟨8⟩, .symbol Symbol.rest, .symbol Symbol.rest]) ∧
    (parse [.symbol Symbol.rest, .symbol ⟨8⟩, .bool true]
        = .error ⟨.typeFault .expectedSymbol, [2], []⟩ ∧
      FirstAt (fun v => ¬ v.IsSymbol) [.symbol Symbol.rest, .symbol ⟨8⟩, .bool true] 2) := by
  obtain ⟨hparsed, hwritten, hback, hfail⟩ := written_parameters_round_trip
  constructor
  · have hpositional : Symbol.rest ∉ [(⟨8⟩ : Symbol)] := by decide
    have hok := hback ⟨[⟨8⟩], some Symbol.rest⟩ hpositional
    exact ⟨_, hpositional, rfl, hok, (hparsed _).mp ⟨_, hok⟩, hwritten _ _ hok⟩
  · have herror : parse [.symbol Symbol.rest, .symbol ⟨8⟩, .bool true]
        = .error ⟨.typeFault .expectedSymbol, [2], []⟩ := by rfl
    refine ⟨herror, ?_⟩
    rcases hfail _ _ herror with ⟨k, hfirst, he⟩ | ⟨hsymbols, _⟩
    · have hpath : [(2 : Int)] = [(k : Int)] := congrArg EvalError.path he
      have hk : k = 2 := by
        rw [List.cons.injEq] at hpath
        omega
      rwa [hk] at hfirst
    · obtain ⟨s, hs⟩ := hsymbols (.bool true) (by simp)
      cases hs

end ParamList

end MiniLisp
