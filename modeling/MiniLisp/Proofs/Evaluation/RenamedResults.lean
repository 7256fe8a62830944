import MiniLisp.Proofs.Evaluation.Renaming
import MiniLisp.Proofs.Evaluation.Template

/-!
# What renamings do to checks and native functions

What is computed without evaluating anything respects renamings: the kinds of values, parameter
lists, definitions, and the native functions, of which only equality looks at symbols at all.
Main statements: `ParamList.renamed_parseChild`, `Definition.renamed_parse`, `Native.renamed_run`.
-/

namespace MiniLisp

variable {ρ : Renaming}

section

variable {α β γ δ : Type} {A : α → β → Prop} {B : γ → δ → Prop} {r : Except EvalError α}
  {s : Except EvalError β}

theorem ResultRenamed.bind (h : ResultRenamed ρ A r s) {f : α → Except EvalError γ}
    {g : β → Except EvalError δ} (hfg : ∀ {a b}, A a b → ResultRenamed ρ B (f a) (g b)) :
    ResultRenamed ρ B (r.bind f) (s.bind g) := by
  cases h with
  | ok hab => exact hfg hab
  | error he => exact .error he

theorem ResultRenamed.map (h : ResultRenamed ρ A r s) {f : α → γ} {g : β → δ}
    (hfg : ∀ {a b}, A a b → B (f a) (g b)) : ResultRenamed ρ B (r.map f) (s.map g) := by
  cases h with
  | ok hab => exact .ok (hfg hab)
  | error he => exact .error he

theorem ResultRenamed.within (h : ResultRenamed ρ A r s) (i : Int) :
    ResultRenamed ρ A (r.mapError (EvalError.within i)) (s.mapError (EvalError.within i)) := by
  cases h with
  | ok hab => exact .ok hab
  | error he => exact .error (he.within i)

theorem ResultRenamed.leavingBody (h : ResultRenamed ρ A r s) {v w : Value} (hvw : v.Renamed ρ w)
    (label : Option String) :
    ResultRenamed ρ A (r.mapError (EvalError.leavingBody v label))
      (s.mapError (EvalError.leavingBody w label)) := by
  cases h with
  | ok hab => exact .ok hab
  | error he => exact .error (he.leavingBody hvw label)

theorem ResultRenamed.fault (fault : TypeFault) :
    ResultRenamed ρ A (.error (EvalError.of (.typeFault fault)))
      (.error (EvalError.of (.typeFault fault))) := .error (EvalError.renamed_of nofun)

end

namespace Value.Renamed

variable {v w : Value} (h : v.Renamed ρ w)
include h

theorem asBool : ResultRenamed ρ Eq v.asBool w.asBool := by
  cases h with
  | bool b => exact .ok rfl
  | _ => exact .fault .expectedBool

theorem asNumber : ResultRenamed ρ Eq v.asNumber w.asNumber := by
  cases h with
  | number x => exact .ok rfl
  | _ => exact .fault .expectedNumber

theorem asSymbol : ResultRenamed ρ ρ.rel v.asSymbol w.asSymbol := by
  cases h with
  | symbol hs => exact .ok hs
  | _ => exact .fault .expectedSymbol

theorem asList : ResultRenamed ρ (List.Forall₂ (Value.Renamed ρ)) v.asList w.asList := by
  cases h with
  | list hvs => exact .ok hvs
  | _ => exact .fault .expectedList

theorem wrapped? {mark : Symbol} (hmark : mark ∈ reservedSymbols) :
    Option.Rel (Value.Renamed ρ) (v.wrapped? mark) (w.wrapped? mark) := by
  cases h with
  | list hvs =>
    rcases hvs with _ | ⟨hhead, _ | ⟨hu, _ | _⟩⟩
    · exact .none
    · cases hhead <;> exact .none
    · cases hhead with
      | symbol hs =>
        simp only [Value.wrapped?, ρ.eq_reserved_iff hs hmark]
        split
        · exact .some hu
        · exact .none
      | _ => exact .none
    · cases hhead <;> exact .none
  | _ => exact .none

theorem atom (hv : ∀ items, v ≠ .list items) : ∀ items, w ≠ .list items := by
  cases h with
  | list _ => exact absurd rfl (hv _)
  | _ => exact nofun

end Value.Renamed

theorem Value.Renamed.of_list {vs : List Value} {w : Value} (h : (Value.list vs).Renamed ρ w) :
    ∃ ws, w = .list ws ∧ List.Forall₂ (Value.Renamed ρ) vs ws := by
  cases h with
  | list hvs => exact ⟨_, rfl, hvs⟩

theorem Value.Renamed.of_pair {s : Symbol} {u w : Value}
    (h : (Value.list [.symbol s, u]).Renamed ρ w) :
    ∃ s' u', w = .list [.symbol s', u'] ∧ ρ.rel s s' ∧ u.Renamed ρ u' := by
  rcases h with _ | _ | _ | _ | ⟨_ | ⟨_ | _ | _ | ⟨hs⟩, _ | ⟨hu, _ | _⟩⟩⟩
  exact ⟨_, _, rfl, hs, hu⟩

theorem unmarked_of_renamed {vs ws : List Value} (h : List.Forall₂ (Value.Renamed ρ) vs ws)
    (hvs : Unmarked vs) : Unmarked ws := by
  rintro s' u' rfl hs'
  rcases h with _ | ⟨⟨⟩ | ⟨⟩ | ⟨⟩ | ⟨hs⟩, _ | ⟨_, _ | _⟩⟩
  rename_i s u _
  have hreserved : s' ∈ reservedSymbols := (by decide : templateMarks ⊆ reservedSymbols) hs'
  have heq : s = s' := (ρ.eq_reserved_iff hs hreserved).mpr rfl
  exact hvs s u rfl (heq ▸ hs')

theorem renamed_collect {α β : Type} {A : α → β → Prop} {f : Value → Except EvalError α}
    {g : Value → Except EvalError β}
    (hfg : ∀ {v w}, Value.Renamed ρ v w → ResultRenamed ρ A (f v) (g w)) {vs ws : List Value}
    (h : List.Forall₂ (Value.Renamed ρ) vs ws) (k : Int) :
    ResultRenamed ρ (List.Forall₂ A) (collect f k vs) (collect g k ws) := by
  induction h generalizing k with
  | nil => exact .ok .nil
  | cons hv _ ih =>
    rw [collect, collect]
    generalize hr : f _ = r, hs : g _ = s
    have h := hfg hv
    rw [hr, hs] at h
    cases h with
    | error he => exact .error (he.within k)
    | ok hab =>
      have hrest := ih (k + 1)
      generalize collect f (k + 1) _ = rs at hrest
      generalize collect g (k + 1) _ = ss at hrest
      cases hrest with
      | error he => exact .error he
      | ok has => exact .ok (.cons hab has)

namespace ParamList

theorem forall₂_takeWhile_dropWhile {p : Symbol → Bool} (hp : ∀ {s t}, ρ.rel s t → p s = p t)
    {ss ts : List Symbol} (h : List.Forall₂ ρ.rel ss ts) :
    List.Forall₂ ρ.rel (ss.takeWhile p) (ts.takeWhile p) ∧
      List.Forall₂ ρ.rel (ss.dropWhile p) (ts.dropWhile p) := by
  induction h with
  | nil => exact ⟨.nil, .nil⟩
  | @cons s t ss ts hst hrest ih =>
    rw [List.takeWhile_cons, List.takeWhile_cons, List.dropWhile_cons, List.dropWhile_cons,
      ← hp hst]
    cases p s with
    | true => exact ⟨.cons hst ih.1, ih.2⟩
    | false => exact ⟨.nil, .cons hst hrest⟩

theorem renamed_ofSymbols {ss ts : List Symbol} (h : List.Forall₂ ρ.rel ss ts) :
    ResultRenamed ρ (ParamList.Rel ρ.rel) (ofSymbols ss) (ofSymbols ts) := by
  have hrest : ∀ {s t}, ρ.rel s t →
      decide (s ≠ Symbol.rest) = decide (t ≠ Symbol.rest) := fun hst =>
    decide_eq_decide.mpr (not_congr (ρ.eq_reserved_iff hst (by decide)))
  obtain ⟨htake, hdrop⟩ := forall₂_takeWhile_dropWhile hrest h
  rw [ofSymbols, ofSymbols, htake.length_eq]
  generalize ss.dropWhile _ = after at hdrop
  generalize ts.dropWhile _ = after' at hdrop
  rcases hdrop with _ | ⟨_, _ | ⟨hr, _ | _⟩⟩
  · exact .ok ⟨h, .none⟩
  · exact .error ((EvalError.renamed_of (by nofun)).within _)
  · exact .ok ⟨htake, .some hr⟩
  · exact .error ((EvalError.renamed_of (by nofun)).within _)

theorem renamed_parse {vs ws : List Value} (h : List.Forall₂ (Value.Renamed ρ) vs ws) :
    ResultRenamed ρ (ParamList.Rel ρ.rel) (parse vs) (parse ws) := by
  have hcollect := renamed_collect (fun hv => hv.asSymbol) h 0
  rw [parse, parse]
  generalize collect Value.asSymbol 0 vs = r at hcollect
  generalize collect Value.asSymbol 0 ws = s at hcollect
  cases hcollect with
  | ok hss => exact renamed_ofSymbols hss
  | error he => exact .error he

theorem renamed_parseChild {v w : Value} (h : v.Renamed ρ w) (i : Int) :
    ResultRenamed ρ (ParamList.Rel ρ.rel) (parseChild i v) (parseChild i w) := by
  have hparse := h.asList.bind fun hvs => renamed_parse hvs
  rw [parseChild, parseChild]
  generalize v.asList.bind parse = r at hparse
  generalize w.asList.bind parse = s at hparse
  cases hparse with
  | ok hp => exact .ok hp
  | error he => exact .error (he.within i)

variable {p q : ParamList Symbol} (h : p.Rel ρ.rel q)
include h

theorem Rel.symbols : List.Forall₂ ρ.rel p.symbols q.symbols := by
  obtain ⟨ss, r⟩ := p
  obtain ⟨ts, r'⟩ := q
  refine List.rel_append h.positional ?_
  rcases h.rest with ⟨hr⟩ | _
  · exact .cons (ρ.reserved _ (by decide)) (.cons hr .nil)
  · exact .nil

theorem Rel.describeWith {c d : Context} (hcd : c.Renamed ρ d) :
    p.describeWith c.names = q.describeWith d.names := by
  have hname : ∀ {s t}, ρ.rel s t → c.names.nameOf s = d.names.nameOf t := fun hst => by
    rw [Naming.nameOf, Naming.nameOf, hcd.names hst]
  have hpositional : p.positional.map c.names.nameOf = q.positional.map d.names.nameOf := by
    rw [← List.forall₂_eq_eq_eq, List.forall₂_map_left_iff, List.forall₂_map_right_iff]
    exact h.positional.imp fun _ _ => hname
  have hrest : p.rest.map c.names.nameOf = q.rest.map d.names.nameOf := by
    have hr := h.rest
    generalize p.rest = r at hr
    generalize q.rest = r' at hr
    cases hr with
    | some hr => exact congrArg some (hname hr)
    | none => rfl
  unfold ParamList.describeWith ParamList.map
  rw [hpositional, hrest]

end ParamList

structure Definition.Renamed (ρ : Renaming) (d e : Definition) : Prop where
  kind : d.kind = e.kind
  params : d.params.Rel ρ.rel e.params
  body : List.Forall₂ (Value.Renamed ρ) d.body e.body

namespace Definition

theorem kindOf?_eq {v w : Value} (h : v.Renamed ρ w) : kindOf? v = kindOf? w := by
  cases h with
  | symbol hs =>
    rw [kindOf?, kindOf?]
    simp only [ρ.eq_reserved_iff hs (by decide : Symbol.fn ∈ _),
      ρ.eq_reserved_iff hs (by decide : Symbol.macroHead ∈ _)]
  | _ => rfl

theorem renamed_form? {v w : Value} (h : v.Renamed ρ w) :
    Option.Rel (List.Forall₂ (Value.Renamed ρ)) (form? v) (form? w) := by
  cases h with
  | list hvs =>
    rcases hvs with _ | ⟨hhead, hrest⟩
    · exact .none
    · rw [form?, form?, kindOf?_eq hhead]
      split
      · exact .some (.cons hhead hrest)
      · exact .none
  | _ => exact .none

theorem renamed_parse {vs ws : List Value} (h : List.Forall₂ (Value.Renamed ρ) vs ws) :
    ResultRenamed ρ (Definition.Renamed ρ) (parse vs) (parse ws) := by
  rcases h with _ | ⟨hhead, _ | ⟨hparams, hbody⟩⟩
  · exact .error (EvalError.renamed_of (by nofun))
  · exact .error (EvalError.renamed_of (by nofun))
  · rw [parse, parse, kindOf?_eq hhead]
    split
    · exact .error ((EvalError.renamed_of (by nofun)).within 0)
    · rename_i kind _
      have hp := ParamList.renamed_parseChild hparams 1
      generalize ParamList.parseChild 1 _ = r at hp
      generalize ParamList.parseChild 1 _ = s at hp
      cases hp with
      | ok hp => exact .ok ⟨rfl, hp, hbody⟩
      | error he => exact .error he

end Definition

theorem Value.renamed_ofSymbols {ss ts : List Symbol} (h : List.Forall₂ ρ.rel ss ts) :
    List.Forall₂ (Value.Renamed ρ) (Value.ofSymbols ss) (Value.ofSymbols ts) := by
  rw [Value.ofSymbols, Value.ofSymbols, List.forall₂_map_left_iff, List.forall₂_map_right_iff]
  exact h.imp fun _ _ => .symbol

theorem Definition.Renamed.form {d e : Definition} (h : d.Renamed ρ e) :
    (Value.list (Value.definition d.kind d.params d.body)).Renamed ρ
      (.list (Value.definition e.kind e.params e.body)) := by
  rw [← h.kind]
  refine .list (.cons (.symbol (ρ.reserved _ ?_))
    (.cons (.list (Value.renamed_ofSymbols h.params.symbols)) h.body))
  cases d.kind <;> decide

namespace Native

theorem renamed_listAt {v w : Value} (h : v.Renamed ρ w) (k : Int) :
    ResultRenamed ρ (List.Forall₂ (Value.Renamed ρ)) (listAt k v) (listAt k w) :=
  h.asList.within k

theorem renamed_numberAt {v w : Value} (h : v.Renamed ρ w) (k : Int) :
    ResultRenamed ρ Eq (numberAt k v) (numberAt k w) :=
  h.asNumber.within k

theorem renamed_compare {v w v' w' : Value} (h : v.Renamed ρ v') (h' : w.Renamed ρ w') :
    ResultRenamed ρ (Value.Renamed ρ) (compare v w) (compare v' w') := by
  cases h with
  | number x => exact (renamed_numberAt h' 2).map fun h => h ▸ .bool _
  | symbol hs =>
    refine (h'.asSymbol.within 2).map fun ht => ?_
    rw [decide_eq_decide.mpr (ρ.eq_iff hs ht)]
    exact .bool _
  | _ => exact .error ((EvalError.renamed_of (by nofun)).within 1)

theorem renamed_firstOf {vs ws : List Value} (h : List.Forall₂ (Value.Renamed ρ) vs ws) :
    ResultRenamed ρ (Value.Renamed ρ) (firstOf vs) (firstOf ws) := by
  cases h with
  | nil => exact .error ((EvalError.renamed_of (by nofun)).within 1)
  | cons hv _ => exact .ok hv

/-- Lists of corresponding numbers are the same. -/
theorem renamed_numbers {vs ws : List Value} (h : List.Forall₂ (Value.Renamed ρ) vs ws) (k : Int) :
    ResultRenamed ρ Eq (collect Value.asNumber k vs) (collect Value.asNumber k ws) := by
  have hnumbers := renamed_collect (fun hv => hv.asNumber) h k
  rwa [List.forall₂_eq_eq_eq] at hnumbers

theorem run_misshapen {n : Native} {args : List Value} (hone : args.length ≠ 1)
    (htwo : args.length = 2 → n ≠ .subtract ∧ n ≠ .equal) :
    n.run args = .error (EvalError.of (.internal (.operandShape n))) := by
  unfold run
  split
  any_goals exact absurd rfl hone
  · exact absurd rfl (htwo rfl).1
  · exact absurd rfl (htwo rfl).2
  · rfl

theorem renamed_operandShape (n : Native) :
    ResultRenamed ρ (Value.Renamed ρ) (.error (EvalError.of (.internal (.operandShape n))))
      (.error (EvalError.of (.internal (.operandShape n)))) :=
  .error (EvalError.renamed_of nofun)

theorem renamed_run_misshapen {n : Native} {args args' : List Value}
    (h : args.length = args'.length) (hone : args.length ≠ 1)
    (htwo : args.length = 2 → n ≠ .subtract ∧ n ≠ .equal) :
    ResultRenamed ρ (Value.Renamed ρ) (n.run args) (n.run args') := by
  rw [run_misshapen hone htwo, run_misshapen (h ▸ hone) (h ▸ htwo)]
  exact renamed_operandShape n

theorem renamed_run_one (n : Native) {v w : Value} (h : v.Renamed ρ w) :
    ResultRenamed ρ (Value.Renamed ρ) (n.run [v]) (n.run [w]) := by
  cases n with
  | add =>
    cases h with
    | list hvs => exact (renamed_numbers hvs 1).map fun h => h ▸ .number _
    | _ => exact renamed_operandShape .add
  | multiply =>
    cases h with
    | list hvs => exact (renamed_numbers hvs 1).map fun h => h ▸ .number _
    | _ => exact renamed_operandShape .multiply
  | subtract => exact renamed_operandShape .subtract
  | equal => exact renamed_operandShape .equal
  | first => exact (renamed_listAt h 1).bind renamed_firstOf
  | rest =>
    refine (renamed_listAt h 1).map fun hvs => .list ?_
    cases hvs with
    | nil => exact .nil
    | cons _ hrest => exact hrest
  | list =>
    cases h with
    | list hvs => exact .ok (.list hvs)
    | _ => exact renamed_operandShape .list
  | concat =>
    cases h with
    | list hvs =>
      exact (renamed_collect (fun hv => hv.asList) hvs 1).map fun h => .list (List.rel_flatten h)
    | _ => exact renamed_operandShape .concat
  | isList => cases h <;> exact .ok (.bool _)
  | length =>
    refine (renamed_listAt h 1).map fun hvs => ?_
    rw [hvs.length_eq]
    exact .number _

theorem renamed_run_two (n : Native) {v w v' w' : Value} (h : v.Renamed ρ v')
    (h' : w.Renamed ρ w') :
    ResultRenamed ρ (Value.Renamed ρ) (n.run [v, w]) (n.run [v', w']) := by
  cases n with
  | subtract =>
    cases h' with
    | list hws =>
      refine (renamed_numberAt h 1).bind fun hx => ?_
      subst hx
      refine (renamed_numbers hws 2).bind fun hxs => ?_
      subst hxs
      exact .ok (.number _)
    | _ => exact renamed_operandShape .subtract
  | equal => exact renamed_compare h h'
  | _ => exact renamed_run_misshapen rfl nofun fun _ => ⟨nofun, nofun⟩

theorem renamed_run (n : Native) {args args' : List Value}
    (h : List.Forall₂ (Value.Renamed ρ) args args') :
    ResultRenamed ρ (Value.Renamed ρ) (n.run args) (n.run args') := by
  have hlength := h.length_eq
  rcases h with _ | ⟨hv, _ | ⟨hw, _ | _⟩⟩
  · exact renamed_run_misshapen rfl nofun nofun
  · exact renamed_run_one n hv
  · exact renamed_run_two n hv hw
  · refine renamed_run_misshapen hlength ?_ ?_
    · rw [List.length_cons, List.length_cons]
      omega
    · intro htwo
      rw [List.length_cons, List.length_cons, List.length_cons] at htwo
      omega

end Native

end MiniLisp
