import MiniLisp.Proofs.Evaluation.Outcomes

/-!
# Operands and parameters

The number of operands is checked before any of them is evaluated. Operands that are as many as the
parameters ask for are evaluated once each, in order, up to the first that has no value, and each
argument goes to one parameter: the first ones to the positional parameters, and those that are left
to the list of the rest parameter.
Main statement: `binding_loses_nothing`.
-/

namespace MiniLisp

namespace ParamList

variable {α : Type} {p : ParamList α}

/-- One operand for each positional parameter, and any further ones if there is a rest parameter. -/
def Fits (p : ParamList α) (count : Nat) : Prop :=
  match p.rest with
  | none => count = p.positional.length
  | some _ => p.positional.length ≤ count

theorem Fits.positional_le {count : Nat} (h : p.Fits count) : p.positional.length ≤ count := by
  unfold Fits at h
  split at h
  · exact Nat.le_of_eq h.symm
  · exact h

theorem admits_arityRule_iff {count : Nat} :
    p.arityRule.admits p.positional.length count = true ↔ p.Fits count := by
  unfold arityRule Fits
  cases p.rest <;> simp [ArityRule.admits]

instance (p : ParamList α) (count : Nat) : Decidable (p.Fits count) :=
  decidable_of_iff _ admits_arityRule_iff

/-- The parameters in order are bound to the arguments in order, where the arguments that the
positional parameters leave over are the elements of one list, the value of the rest parameter. -/
structure Receives (p : ParamList α) (args : List Value) (bs : List (α × Value)) : Prop where
  names : bs.map Prod.fst = p.positional ++ p.rest.toList
  values : ∃ first further : List Value, first ++ further = args ∧
    further.length = args.length - p.positional.length ∧
    bs.map Prod.snd = first ++ (p.rest.map fun _ => Value.list further).toList

theorem pair_eq {args : List Value} (h : p.positional.length ≤ args.length) :
    p.pair args = p.positional.zip (args.take p.positional.length) ++
      (p.rest.map fun r => (r, Value.list (args.drop p.positional.length))).toList := by
  have hlen : p.positional.length = (args.take p.positional.length).length := by
    rw [List.length_take, Nat.min_eq_left h]
  -- pairing stops at the end of the positional parameters
  have hzip : (p.positional ++ []).zip
      (args.take p.positional.length ++ args.drop p.positional.length)
        = p.positional.zip (args.take p.positional.length) ++ [].zip _ := List.zip_append hlen
  rw [List.append_nil, List.take_append_drop, List.zip_nil_left, List.append_nil] at hzip
  rw [pair, hzip]
  cases p.rest <;> rfl

theorem receives_pair {args : List Value} (h : p.positional.length ≤ args.length) :
    p.Receives args (p.pair args) := by
  have hlen : (args.take p.positional.length).length = p.positional.length := by
    rw [List.length_take, Nat.min_eq_left h]
  refine ⟨?_, args.take p.positional.length, args.drop p.positional.length,
    List.take_append_drop _ _, List.length_drop, ?_⟩
  · rw [pair_eq h, List.map_append, List.map_fst_zip (Nat.le_of_eq hlen.symm)]
    cases p.rest <;> rfl
  · rw [pair_eq h, List.map_append, List.map_snd_zip (Nat.le_of_eq hlen)]
    cases p.rest <;> rfl

end ParamList

/-- The forms are evaluated once each, from left to right, each in the machine that the one before
it has left, and each has a value. -/
inductive InTurn (ev : Value → Eval Value) : List Value → Machine → List Value → Machine → Prop
  | nil (m : Machine) : InTurn ev [] m [] m
  | cons {v x : Value} {vs xs : List Value} {m m' m'' : Machine} (h : ev v m = (.value x, m'))
      (hs : InTurn ev vs m' xs m'') : InTurn ev (v :: vs) m (x :: xs) m''

theorem InTurn.length_eq {ev : Value → Eval Value} {vs xs : List Value} {m m' : Machine}
    (h : InTurn ev vs m xs m') : xs.length = vs.length := by
  induction h with
  | nil => rfl
  | cons _ _ ih => rw [List.length_cons, List.length_cons, ih]

/-- The forms of `before` have been evaluated in turn when it is up to the form behind them. -/
def Reaches (ev : Value → Eval Value) (vs : List Value) (m : Machine) (before : List Value)
    (v : Value) (m' : Machine) : Prop :=
  ∃ after xs, vs = before ++ v :: after ∧ InTurn ev before m xs m'

section

variable {ev : Value → Eval Value} {v x : Value} {vs : List Value} {m m' : Machine}

theorem reaches_head (ev : Value → Eval Value) (v : Value) (vs : List Value) (m : Machine) :
    Reaches ev (v :: vs) m [] v m :=
  ⟨vs, [], rfl, .nil m⟩

theorem Reaches.cons {before : List Value} {w : Value} {m'' : Machine}
    (h : ev v m = (.value x, m')) (hs : Reaches ev vs m' before w m'') :
    Reaches ev (v :: vs) m (v :: before) w m'' := by
  obtain ⟨after, xs, rfl, hturn⟩ := hs
  exact ⟨after, x :: xs, rfl, .cons h hturn⟩

/-- Forms have a value each, or the first without one decides how it ends. -/
theorem evalEach_cases (ctx : Context) (ev : Value → Eval Value) (vs : List Value) (k : Int)
    (m : Machine) :
    (∃ xs m', InTurn ev vs m xs m' ∧ (evalEach k vs).run ctx ev m = (.value xs, m')) ∨
    (∃ before v m' m'', Reaches ev vs m before v m' ∧
      ((∃ e, ev v m' = (.error e, m'') ∧
          (evalEach k vs).run ctx ev m = (.error (e.within (k + before.length)), m'')) ∨
        (ev v m' = (.exhausted, m'') ∧ (evalEach k vs).run ctx ev m = (.exhausted, m'')))) := by
  induction vs generalizing k m with
  | nil => exact .inl ⟨[], m, .nil m, rfl⟩
  | cons v vs ih =>
    rw [run_evalEach_cons]
    rcases hv : ev v m with ⟨x | e | _, m'⟩
    · have hwithin : Eval.within k (ev v) m = (.value x, m') := Eval.annotate_value hv _
      rw [Eval.bind_value hwithin]
      rcases ih (k + 1) m' with ⟨xs, m'', hturn, hrest⟩ | ⟨before, w, n, n', hreach, hend⟩
      · rw [Eval.bind_value hrest]
        exact .inl ⟨x :: xs, m'', .cons hv hturn, rfl⟩
      · refine .inr ⟨v :: before, w, n, n', hreach.cons hv, ?_⟩
        rcases hend with ⟨e, hw, hrest⟩ | ⟨hw, hrest⟩
        · have hplace : k + 1 + (before.length : Int) = k + ((v :: before).length : Nat) := by
            rw [List.length_cons]
            omega
          rw [Eval.bind_error hrest, hplace]
          exact .inl ⟨e, hw, rfl⟩
        · rw [Eval.bind_exhausted hrest]
          exact .inr ⟨hw, rfl⟩
    · have hwithin : Eval.within k (ev v) m = (.error (e.within k), m') :=
        Eval.annotate_error hv _
      rw [Eval.bind_error hwithin]
      refine .inr ⟨[], v, m, m', reaches_head ev v vs m, .inl ⟨e, hv, ?_⟩⟩
      rw [List.length_nil, Int.natCast_zero, Int.add_zero]
    · have hwithin : Eval.within k (ev v) m = (.exhausted, m') := Eval.annotate_exhausted hv _
      rw [Eval.bind_exhausted hwithin]
      exact .inr ⟨[], v, m, m', reaches_head ev v vs m, .inr ⟨hv, rfl⟩⟩

end

section

variable {α : Type} (p : ParamList α) (operands : List Value) (description : String) (ctx : Context)
  (ev : Value → Eval Value)

theorem run_bindOperands_of_not_fits (h : ¬ p.Fits operands.length) (evaluated : Bool)
    (m : Machine) :
    (bindOperands p operands evaluated description).run ctx ev m
      = (.error (EvalError.of
          (.arity description p.arityRule p.positional.length operands.length)), m) := by
  have hrefused : requireArity p.arityRule p.positional.length operands.length description
      = .error (EvalError.of
          (.arity description p.arityRule p.positional.length operands.length)) := by
    rw [requireArity, if_neg (mt ParamList.admits_arityRule_iff.mp h)]
  rw [bindOperands, hrefused]
  rfl

theorem run_bindOperands_of_fits (h : p.Fits operands.length) (evaluated : Bool) :
    (bindOperands p operands evaluated description).run ctx ev
      = (arguments operands evaluated).run ctx ev >>= fun args => pure (p.pair args) := by
  have hallowed : requireArity p.arityRule p.positional.length operands.length description
      = .ok () := by
    rw [requireArity, if_pos (ParamList.admits_arityRule_iff.mpr h)]
  rw [bindOperands, hallowed]
  rfl

end

/-- Binding loses and duplicates nothing, and it checks the number of operands first. If that does
not fit, there is an error whatever the evaluation of operands would do, and the machine is as it
was. If it fits, operands that are taken as they are go to the parameters. Operands that are
evaluated are so in turn: either each has a value, and these values go to the parameters, or one has
none, which ends the binding with the machine as that operand left it. An error gets the position of
the operand in the call, where the head has position zero. -/
theorem binding_loses_nothing {α : Type} (p : ParamList α) (operands : List Value)
    (description : String) (ctx : Context) (ev : Value → Eval Value) (m : Machine) :
    (¬ p.Fits operands.length → ∀ evaluated,
      (bindOperands p operands evaluated description).run ctx ev m
        = (.error ⟨.arity description p.arityRule p.positional.length operands.length, [], []⟩,
            m)) ∧
    (p.Fits operands.length →
      ∃ bs, (bindOperands p operands false description).run ctx ev m = (.value bs, m) ∧
        p.Receives operands bs) ∧
    (p.Fits operands.length →
      (∃ args m' bs, InTurn ev operands m args m' ∧
        (bindOperands p operands true description).run ctx ev m = (.value bs, m') ∧
        p.Receives args bs) ∨
      (∃ before v m' m'', Reaches ev operands m before v m' ∧
        ((∃ e, ev v m' = (.error e, m'') ∧
            (bindOperands p operands true description).run ctx ev m
              = (.error { e with path := (before.length + 1) :: e.path }, m'')) ∨
          (ev v m' = (.exhausted, m'') ∧
            (bindOperands p operands true description).run ctx ev m = (.exhausted, m''))))) := by
  refine ⟨fun h evaluated => ?_, fun h => ?_, fun h => ?_⟩
  · exact run_bindOperands_of_not_fits p operands description ctx ev h evaluated m
  · exact ⟨p.pair operands, by rw [run_bindOperands_of_fits p operands description ctx ev h]; rfl,
      ParamList.receives_pair h.positional_le⟩
  · rw [run_bindOperands_of_fits p operands description ctx ev h, arguments, if_pos rfl]
    rcases evalEach_cases ctx ev operands 1 m with
      ⟨args, m', hturn, heach⟩ | ⟨before, v, m', m'', hreach, ⟨e, hv, heach⟩ | ⟨hv, heach⟩⟩
    · have hle : p.positional.length ≤ args.length := by
        rw [hturn.length_eq]
        exact h.positional_le
      rw [Eval.bind_value heach]
      exact .inl ⟨args, m', p.pair args, hturn, rfl, ParamList.receives_pair hle⟩
    · rw [Eval.bind_error heach, Int.add_comm]
      exact .inr ⟨before, v, m', m'', hreach, .inl ⟨e, hv, rfl⟩⟩
    · rw [Eval.bind_exhausted heach]
      exact .inr ⟨before, v, m', m'', hreach, .inr ⟨hv, rfl⟩⟩

/-- The operands `(def y #t)`, `y`, `()` and `y`. -/
def definingOperands : List Value :=
  [.list [.symbol ⟨8⟩, .symbol ⟨9⟩, .bool true], .symbol ⟨9⟩, .list [], .symbol ⟨9⟩]

/-- Two parameters do not take the operands, one with a rest parameter does: evaluated, they fail at
the third, when `y` is defined already, and as they are the last three make up a list. -/
theorem binding_loses_nothing_emptyCall :
    let m : Machine := ⟨Environment.empty.define ⟨8⟩ (.special .define), 0, []⟩
    let two : ParamList String := ⟨["a", "b"], none⟩
    let more : ParamList String := ⟨["a"], some "r"⟩
    let ctx : Context := ⟨Symbols.initial.naming, 0, fun _ => true⟩
    let ev := evaluate ctx 2
    (¬ two.Fits definingOperands.length ∧
      (bindOperands two definingOperands true "f").run ctx ev m
        = (.error ⟨.arity "f" .exactly 2 4, [], []⟩, m)) ∧
    (more.Fits definingOperands.length ∧
      (∃ bs, (bindOperands more definingOperands false "f").run ctx ev m = (.value bs, m) ∧
        more.Receives definingOperands bs)) ∧
    ∃ before v m' e m'', Reaches ev definingOperands m before v m' ∧ ev v m' = (.error e, m'') ∧
      m''.env.resolve? ⟨9⟩ = some (.bool true) ∧
      (bindOperands more definingOperands true "f").run ctx ev m
        = (.error { e with path := (before.length + 1) :: e.path }, m'') ∧
      (before.length : Int) + 1 = 3 := by
  intro m two more ctx ev
  have hfew : ¬ two.Fits definingOperands.length := by decide
  have hfits : more.Fits definingOperands.length := by decide
  have hrun : (bindOperands more definingOperands true "f").run ctx ev m
      = (.error ⟨.emptyApplication, [3], []⟩,
          { m with env := m.env.define ⟨9⟩ (.bool true) }) := by rfl
  obtain ⟨hrefused, _⟩ := binding_loses_nothing two definingOperands "f" ctx ev m
  obtain ⟨_, hplain, hcases⟩ := binding_loses_nothing more definingOperands "f" ctx ev m
  refine ⟨⟨hfew, hrefused hfew true⟩, ⟨hfits, hplain hfits⟩, ?_⟩
  rcases hcases hfits with ⟨args, m', bs, _, hvalue, _⟩ |
    ⟨before, v, m', m'', hreach, ⟨e, hv, herror⟩ | ⟨_, hexhausted⟩⟩
  · rw [hrun] at hvalue
    cases hvalue
  · have hsame := herror
    rw [hrun, Prod.mk.injEq, Outcome.error.injEq, EvalError.mk.injEq, List.cons.injEq] at hsame
    obtain ⟨⟨_, ⟨hplace, _⟩, _⟩, rfl⟩ := hsame
    exact ⟨before, v, m', e, _, hreach, hv, rfl, herror, hplace.symm⟩
  · rw [hrun] at hexhausted
    cases hexhausted

end MiniLisp
